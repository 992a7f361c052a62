import LiveMarkup.Markup.Tree
import LiveMarkup.Markup.Reference

/-!
Items: the lexical pieces of markup. A piece of text goes on to the next `<` that opens markup; an
element of raw text is one item with its content. Each reader returns an item and what comes after
it, which is always shorter than what it was given.
-/
namespace LiveMarkup.Markup

/-- A construct that the end of the input cut off. -/
inductive Unfinished where
  | comment | endTag | declaration | startTag | attributeValue | rawText
deriving DecidableEq, Repr

def Unfinished.name : Unfinished → String
  | .comment => "comment"
  | .endTag => "end tag"
  | .declaration => "declaration"
  | .startTag => "start tag"
  | .attributeValue => "attribute value"
  | .rawText => "raw text element"

def Unfinished.message (u : Unfinished) : String :=
  "unexpected end of input inside " ++ u.name

/-- A lexical piece of markup. -/
inductive Item where
  | text (data : String)
  | comment (data : String)
  | declaration
  /-- A start tag whose element stays open. -/
  | opening (tag : String) (attributes : Attributes)
  /-- An element that is complete with its start tag, or with its raw text. -/
  | closed (tag : String) (attributes : Attributes) (content : String)
  | ending (tag : String)

/-- Everything up to the first `pattern`, and what comes after it. -/
def readUntil (pattern : List Char) (within : Unfinished) (s : List Char) :
    Except Unfinished (List Char × List Char) :=
  match Text.cut? pattern s with
  | some r => .ok r
  | none => .error within

theorem length_of_readUntil {pattern s : List Char} {within : Unfinished}
    {r : List Char × List Char} (h : readUntil pattern within s = .ok r) :
    r.2.length ≤ s.length := by
  unfold readUntil at h
  split at h
  · rename_i r' hcut
    cases h
    have := congrArg List.length (Text.eq_append_of_cut? hcut)
    simp at this
    omega
  · cases h

theorem length_dropWhile_le (p : Char → Bool) (s : List Char) :
    (s.dropWhile p).length ≤ s.length :=
  (List.dropWhile_suffix p).length_le

/-- The value after an equals sign: in quotes, or up to a blank or the end of the tag. -/
def readValue (s : List Char) : Except Unfinished (List Char × List Char) :=
  match s with
  | '\x22' :: rest => readUntil ['\x22'] .attributeValue rest
  | '\x27' :: rest => readUntil ['\x27'] .attributeValue rest
  | s =>
    let inValue (c : Char) : Bool := !Text.isBlank c && c != '>'
    .ok (s.takeWhile inValue, s.dropWhile inValue)

theorem length_of_readValue {s : List Char} {r : List Char × List Char}
    (h : readValue s = .ok r) : r.2.length ≤ s.length := by
  unfold readValue at h
  split at h
  · have := length_of_readUntil h
    simp only [List.length_cons]
    omega
  · have := length_of_readUntil h
    simp only [List.length_cons]
    omega
  · cases h
    exact length_dropWhile_le _ _

/-- What follows an attribute's name: an equals sign and a value, or nothing. -/
def readAssigned (s : List Char) : Except Unfinished (String × List Char) :=
  match Text.trimStart s with
  | '=' :: rest =>
    match readValue (Text.trimStart rest) with
    | .ok (raw, after) => .ok (String.ofList (decode raw), after)
    | .error e => .error e
  | after => .ok ("", after)

theorem length_of_readAssigned {s : List Char} {r : String × List Char}
    (h : readAssigned s = .ok r) : r.2.length ≤ s.length := by
  have htrim := length_dropWhile_le Text.isBlank s
  unfold readAssigned Text.trimStart at h
  split at h
  · rename_i rest heq
    split at h
    · rename_i raw after hv
      cases h
      have h₁ := length_of_readValue hv
      have h₂ := length_dropWhile_le Text.isBlank rest
      rw [heq] at htrim
      simp only [List.length_cons] at htrim h₁ ⊢
      omega
    · cases h
  · cases h
    exact htrim

/-- The rest of a start tag after its name: the attributes read so far are `found`. The flag says
whether the tag closes itself. Of attributes with one name the first counts; characters that can
start none are skipped. -/
def readAttributes (found : Attributes) (s : List Char) :
    Except Unfinished (Attributes × Bool × List Char) :=
  match h : Text.trimStart s with
  | [] => .error .startTag
  | '/' :: '>' :: rest => .ok (found, true, rest)
  | '>' :: rest => .ok (found, false, rest)
  | c :: rest =>
    have hlt : (c :: rest).length ≤ s.length := h ▸ length_dropWhile_le _ _
    if isAttributeChar c then
      let name := String.ofList ((c :: rest).takeWhile isAttributeChar)
      match hr : readAssigned (rest.dropWhile isAttributeChar) with
      | .ok (value, after) =>
        have : after.length < s.length := by
          have h₁ := length_of_readAssigned hr
          have h₂ := length_dropWhile_le isAttributeChar rest
          simp only [List.length_cons] at hlt
          simp only at h₁
          omega
        readAttributes (if found.has name then found else found.set name value) after
      | .error e => .error e
    else
      have : rest.length < s.length := by
        simp only [List.length_cons] at hlt
        omega
      readAttributes found rest
termination_by s.length

theorem length_of_readAttributes {found : Attributes} {s : List Char}
    {r : Attributes × Bool × List Char} (h : readAttributes found s = .ok r) :
    r.2.2.length < s.length := by
  fun_induction readAttributes found s with
  | case1 => simp at h
  | case2 found s rest heq =>
    cases h
    have := length_dropWhile_le Text.isBlank s
    simp only [Text.trimStart] at heq
    simp only [heq, List.length_cons] at this
    simp only
    omega
  | case3 found s rest heq =>
    cases h
    have := length_dropWhile_le Text.isBlank s
    simp only [Text.trimStart] at heq
    simp only [heq, List.length_cons] at this
    simp only
    omega
  | case4 =>
    have := ‹_ → _› h
    omega
  | case5 => simp at h
  | case6 =>
    have := ‹_ → _› h
    omega

/-- Raw text up to the end tag of its element, and what comes after that. The end tag may be in any
case and is cut off at its `>`. -/
def readRaw (tag : String) (s : List Char) : Except Unfinished (List Char × List Char) :=
  match Text.cut? ('<' :: '/' :: tag.toList) (s.map Char.toLower) with
  | none => .error .rawText
  | some (text, _) =>
    match readUntil ['>'] .endTag (s.drop text.length) with
    | .ok (_, after) => .ok (s.take text.length, after)
    | .error e => .error e

theorem length_of_readRaw {tag : String} {s : List Char} {r : List Char × List Char}
    (h : readRaw tag s = .ok r) : r.2.length ≤ s.length := by
  unfold readRaw at h
  split at h
  · cases h
  · split at h
    · rename_i hu
      cases h
      have := length_of_readUntil hu
      simp only [List.length_drop] at this
      simp only
      omega
    · cases h

/-- A start tag from its name on, and for an element of raw text also the rest of the element. -/
def readElement (s : List Char) : Except Unfinished (Item × List Char) :=
  let tag := Text.lowercase (String.ofList (s.takeWhile isTagChar))
  match readAttributes .empty (s.dropWhile isTagChar) with
  | .error e => .error e
  | .ok (attributes, selfClosing, after) =>
    if selfClosing || isVoid tag then .ok (.closed tag attributes "", after)
    else if isRaw tag then
      match readRaw tag after with
      | .ok (text, after) => .ok (.closed tag attributes (String.ofList text), after)
      | .error e => .error e
    else .ok (.opening tag attributes, after)

theorem length_of_readElement {s : List Char} {r : Item × List Char}
    (h : readElement s = .ok r) : r.2.length < s.length := by
  have hdrop := length_dropWhile_le isTagChar s
  unfold readElement at h
  simp only at h
  split at h
  · cases h
  · rename_i hr
    have h₁ := length_of_readAttributes hr
    simp only at h₁
    split at h
    · cases h
      simp only
      omega
    · split at h
      · split at h
        · rename_i hraw
          have h₂ := length_of_readRaw hraw
          cases h
          simp only at h₂ ⊢
          omega
        · cases h
      · cases h
        simp only
        omega

/-- An end tag from its name on; what stands between the name and the `>` is skipped. -/
def readEnding (s : List Char) : Except Unfinished (Item × List Char) :=
  let tag := Text.lowercase (String.ofList (s.takeWhile isTagChar))
  match readUntil ['>'] .endTag (s.dropWhile isTagChar) with
  | .ok (_, after) => .ok (.ending tag, after)
  | .error e => .error e

theorem length_of_readEnding {s : List Char} {r : Item × List Char}
    (h : readEnding s = .ok r) : r.2.length ≤ s.length := by
  have hdrop := length_dropWhile_le isTagChar s
  unfold readEnding at h
  simp only at h
  split at h
  · rename_i hu
    have := length_of_readUntil hu
    cases h
    simp only at this ⊢
    omega
  · cases h

/-- Whether a text must stop here because markup may open. -/
def opensMarkup : List Char → Bool
  | '<' :: c :: _ => isTagStart c || c == '/' || c == '!'
  | _ => false

/-- Text up to the next place where markup may open, and what comes from there on. -/
def spanText : List Char → List Char × List Char
  | [] => ([], [])
  | c :: rest =>
    if opensMarkup (c :: rest) then ([], c :: rest)
    else (c :: (spanText rest).1, (spanText rest).2)

theorem length_spanText_le (s : List Char) : (spanText s).2.length ≤ s.length := by
  induction s with
  | nil => simp [spanText]
  | cons c rest ih =>
    simp only [spanText]
    split
    · simp
    · simp only [List.length_cons]
      omega

/-- A piece of text: its first character, whatever it is, and the characters up to where markup
may open. -/
def readText (c : Char) (rest : List Char) : Item × List Char :=
  let (more, after) := spanText rest
  (.text (String.ofList (decode (c :: more))), after)

/-- The first item of an input that is not empty. -/
def readItem (c : Char) (rest : List Char) : Except Unfinished (Item × List Char) :=
  if c = '<' then
    match rest with
    | '!' :: '-' :: '-' :: body =>
      (readUntil ['-', '-', '>'] .comment body).map fun (data, after) =>
        (.comment (String.ofList data), after)
    | '/' :: d :: body =>
      if isTagStart d then readEnding (d :: body) else .ok (readText c rest)
    | '!' :: body =>
      (readUntil ['>'] .declaration body).map fun (_, after) => (.declaration, after)
    | d :: body =>
      if isTagStart d then readElement (d :: body) else .ok (readText c rest)
    | [] => .ok (readText c rest)
  else .ok (readText c rest)

theorem length_of_readItem {c : Char} {rest : List Char} {r : Item × List Char}
    (h : readItem c rest = .ok r) : r.2.length < (c :: rest).length := by
  have htext : ∀ {r}, .ok (readText c rest) = (.ok r : Except Unfinished (Item × List Char)) →
      r.2.length < (c :: rest).length := by
    intro r hr
    cases hr
    have := length_spanText_le rest
    simp only [readText, List.length_cons]
    omega
  have hmap : ∀ {α β : Type} {f : α → β} {x : Except Unfinished α} {y : β},
      x.map f = .ok y → ∃ a, x = .ok a ∧ f a = y := by
    intro α β f x y hx
    cases x with
    | error e => cases hx
    | ok a => exact ⟨a, rfl, by cases hx; rfl⟩
  unfold readItem at h
  split at h
  · split at h
    · obtain ⟨a, ha, rfl⟩ := hmap h
      have := length_of_readUntil ha
      simp only [List.length_cons]
      omega
    · split at h
      · have := length_of_readEnding h
        simp only [List.length_cons] at this ⊢
        omega
      · exact htext h
    · obtain ⟨a, ha, rfl⟩ := hmap h
      have := length_of_readUntil ha
      simp only [List.length_cons]
      omega
    · split at h
      · have := length_of_readElement h
        simp only [List.length_cons] at this ⊢
        omega
      · exact htext h
    · exact htext h
  · exact htext h

/-- The items of an input. -/
def items (s : List Char) : Except Unfinished (List Item) :=
  match s with
  | [] => .ok []
  | c :: rest =>
    match h : readItem c rest with
    | .error e => .error e
    | .ok (item, after) =>
      have : after.length < (c :: rest).length := length_of_readItem h
      match items after with
      | .error e => .error e
      | .ok more => .ok (item :: more)
termination_by s.length
decreasing_by exact this

end LiveMarkup.Markup
