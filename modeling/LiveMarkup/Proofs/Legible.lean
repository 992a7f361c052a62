import LiveMarkup.Proofs.MarkupReading

/-!
Trees that can be told from their markup. A tree is legible if its names are such as markup reads
whole, if void elements are empty and raw ones hold text that does not end them, and if no comment
holds its own end; text and attribute values may be anything. The markup of legible trees reads as
their normal form, in which no text is empty and no two texts touch.
-/
namespace LiveMarkup

namespace Text

/-- A pattern that has its first character nowhere else cannot begin inside a text and end behind
it. -/
theorem cut?_append_of_head {c : Char} {p s : List Char} (new : c ∉ p) (hs : ¬ c :: p <:+: s)
    (rest : List Char) : cut? (c :: p) (s ++ (c :: p ++ rest)) = some (s, rest) := by
  induction s with
  | nil => simp [cut?]
  | cons d s ih =>
    have later : ¬ c :: p <:+: s := fun h => hs (h.trans (List.suffix_cons d s).isInfix)
    have apart : (c :: p).isPrefixOf (d :: (s ++ (c :: p ++ rest))) = false := by
      refine Bool.eq_false_iff.2 fun h => hs ?_
      have whole : c :: p <+: (d :: s) ++ (c :: p ++ rest) := List.isPrefixOf_iff_prefix.1 h
      refine (List.prefix_of_prefix_length_le whole (List.prefix_append _ _) ?_).isInfix
      -- Otherwise the first character of the later copy stands within the pattern.
      refine Nat.le_of_not_lt fun long => new ?_
      have within : s.length < p.length := by simpa using long
      obtain ⟨more, whole⟩ := whole
      have there : p[s.length]? = some c := by
        have := congrArg (·[s.length + 1]?) whole
        simpa [List.getElem?_append_left within] using this
      exact List.mem_of_getElem? there
    rw [List.cons_append, cut?, apart, ih later]
    rfl

end Text

namespace Markup

/-- Whether a string names an attribute that markup reads whole and keeps as it is. -/
structure IsAttributeName (name : String) : Prop where
  nonempty : name.toList ≠ []
  readable : ∀ c ∈ name.toList, isAttributeChar c = true
  small : ∀ c ∈ name.toList, c.isUpper = false

instance : DecidablePred IsAttributeName := fun name =>
  decidable_of_iff (name.toList ≠ [] ∧ name.toList.all isAttributeChar = true ∧
      (name.toList.all fun c => !c.isUpper) = true) <| by
    simp only [List.all_eq_true, Bool.not_eq_true']
    exact ⟨fun ⟨h₁, h₂, h₃⟩ => ⟨h₁, h₂, h₃⟩, fun ⟨h₁, h₂, h₃⟩ => ⟨h₁, h₂, h₃⟩⟩

/-- Whether a text holds the beginning of an end tag, in capitals or not. -/
def Ends (tag text : String) : Prop :=
  '<' :: '/' :: tag.toList <:+: text.toList.map Char.toLower

instance (tag text : String) : Decidable (Ends tag text) :=
  List.instDecidableIsInfixOfDecidableEq _ _

def Tree.IsText : Tree → Prop
  | .text _ => True
  | .comment _ | .element _ _ _ => False

instance : DecidablePred Tree.IsText
  | .text _ => isTrue trivial
  | .comment _ | .element _ _ _ => isFalse id

mutual

/-- Whether a tree can be told from its markup. -/
def Tree.Legible : Tree → Prop
  | .text _ => True
  | .comment data => ¬ "-->".toList <:+: data.toList
  | .element tag attributes children =>
    IsTag tag ∧ (∀ name ∈ attributes.keys, IsAttributeName name) ∧
      (isVoid tag = true → children = []) ∧
      (isRaw tag = true → (∀ t ∈ children, t.IsText) ∧ ¬ Ends tag (contentAll children)) ∧
      LegibleAll children

/-- Whether trees that stand side by side can be told from their markup. -/
def LegibleAll : List Tree → Prop
  | [] => True
  | t :: rest => t.Legible ∧ LegibleAll rest

end

mutual

instance Tree.decidableLegible : (t : Tree) → Decidable t.Legible
  | .text _ => isTrue trivial
  | .comment data =>
    have : Decidable ("-->".toList <:+: data.toList) := List.instDecidableIsInfixOfDecidableEq _ _
    inferInstanceAs (Decidable ¬_)
  | .element tag attributes children =>
    have : Decidable (children = []) := decidable_of_iff _ List.isEmpty_iff
    have := decidableLegibleAll children
    inferInstanceAs (Decidable (IsTag tag ∧ (∀ name ∈ attributes.keys, IsAttributeName name) ∧
      (isVoid tag = true → children = []) ∧
      (isRaw tag = true → (∀ t ∈ children, t.IsText) ∧ ¬ Ends tag (contentAll children)) ∧
      LegibleAll children))

instance decidableLegibleAll : (ts : List Tree) → Decidable (LegibleAll ts)
  | [] => isTrue trivial
  | t :: rest =>
    have := t.decidableLegible
    have := decidableLegibleAll rest
    inferInstanceAs (Decidable (_ ∧ _))

end

/-- Puts a text before trees. An empty text adds nothing, and one that meets a text is joined
to it. -/
def joinText (data : String) : List Tree → List Tree
  | .text more :: rest => .text (data ++ more) :: rest
  | rest => if data = "" then rest else .text data :: rest

mutual

/-- The tree with empty texts dropped and adjacent texts joined inside it. -/
def Tree.normal : Tree → Tree
  | .text data => .text data
  | .comment data => .comment data
  | .element tag attributes children => .element tag attributes (normalAll children)

/-- The trees with empty texts dropped and adjacent texts joined, at all depths. -/
def normalAll : List Tree → List Tree
  | [] => []
  | .text data :: rest => joinText data (normalAll rest)
  | .comment data :: rest => .comment data :: normalAll rest
  | .element tag attributes children :: rest =>
    (Tree.element tag attributes children).normal :: normalAll rest

end

/-! Normal forms. -/

theorem joinText_empty (ts : List Tree) : joinText "" ts = ts := by
  unfold joinText
  split
  case h_1 => rw [String.empty_append]
  case h_2 => rw [if_pos rfl]

theorem joinText_nil (data : String) :
    joinText data [] = if data = "" then [] else [.text data] := rfl

theorem joinText_append (data more : String) (ts : List Tree) :
    joinText (data ++ more) ts = joinText data (joinText more ts) := by
  by_cases touching : ∃ last rest, ts = .text last :: rest
  case pos =>
    obtain ⟨last, rest, rfl⟩ := touching
    simp only [joinText, String.append_assoc]
  case neg =>
    have apart : ∀ data, joinText data ts = if data = "" then ts else .text data :: ts := by
      intro data
      unfold joinText
      split
      case h_1 last rest => exact absurd ⟨last, rest, rfl⟩ touching
      case h_2 => rfl
    rw [apart more]
    split
    case isTrue h => rw [h, String.append_empty]
    case isFalse h =>
      have nonempty : data ++ more ≠ "" := fun e => h (String.append_eq_empty_iff.1 e).2
      rw [apart, if_neg nonempty, joinText]

theorem normalAll_cons_of_not_text {t : Tree} (h : ¬ t.IsText) (rest : List Tree) :
    normalAll (t :: rest) = t.normal :: normalAll rest := by
  cases t with
  | text data => exact absurd trivial h
  | comment data => rfl
  | element tag attributes children => rfl

/-- Texts alone are joined to one, or to none if all are empty. -/
theorem normalAll_texts {ts : List Tree} (h : ∀ t ∈ ts, t.IsText) :
    normalAll ts = if contentAll ts = "" then [] else [.text (contentAll ts)] := by
  induction ts with
  | nil => rfl
  | cons t ts ih =>
    cases t with
    | comment data => exact (h _ List.mem_cons_self).elim
    | element tag attributes children => exact (h _ List.mem_cons_self).elim
    | text data =>
      have alone : joinText (contentAll ts) [] = normalAll ts :=
        (ih fun t ht => h t (List.mem_cons_of_mem _ ht)).symm
      rw [normalAll, ← alone, ← joinText_append]
      rfl

/-! Printing normal forms. -/

theorem print_joinText (raw : Bool) (data : String) (ts : List Tree) :
    printAll raw (joinText data ts) = printAll raw (.text data :: ts) := by
  unfold joinText
  split
  case h_1 more rest => cases raw <;> simp [printAll, Tree.print]
  case h_2 =>
    split
    case isTrue h => cases raw <;> simp [printAll, Tree.print, h]
    case isFalse => rfl

/-- A tree and its normal form have the same markup. -/
theorem printAll_normalAll (raw : Bool) (ts : List Tree) :
    printAll raw (normalAll ts) = printAll raw ts := by
  match ts with
  | [] => rfl
  | .text data :: rest =>
    rw [normalAll, print_joinText, printAll, printAll, printAll_normalAll raw rest]
  | .comment data :: rest =>
    rw [normalAll, printAll, printAll, printAll_normalAll raw rest]
  | .element tag attributes children :: rest =>
    rw [normalAll, printAll, printAll, printAll_normalAll raw rest]
    rw [Tree.normal, Tree.print, Tree.print, printAll_normalAll (isRaw tag) children]

/-! Reading what was printed. -/

/-- Attributes are read as they are printed, after those that were found before them. -/
theorem readAttributes_printed {entries : List (String × String)} (found : Attributes)
    (names : ∀ name ∈ entries.map (·.1), IsAttributeName name)
    (distinct : (found.keys ++ entries.map (·.1)).Nodup) (rest : List Char) :
    readAttributes found (entries.flatMap printAttribute ++ '>' :: rest) =
      .ok (entries.foldl (fun m e => m.insert e.1 e.2) found, false, rest) := by
  induction entries generalizing found with
  | nil => exact readAttributes_close found (trimStart_of_not_blank (by decide) rest)
  | cons e entries ih =>
    obtain ⟨name, value⟩ := e
    have isName : IsAttributeName name := names name List.mem_cons_self
    have new : name ∉ found.keys := fun h =>
      (List.nodup_append.1 distinct).2.2 name h name List.mem_cons_self rfl
    rw [readAttributes_new name (value.toList.flatMap escapeInValue)
      (entries.flatMap printAttribute ++ '>' :: rest) isName.nonempty isName.readable isName.small
      new (not_mem_escapeInValue _) (by simp [printAttribute])]
    rw [decode_escapedValue, String.ofList_toList, List.foldl_cons]
    refine ih _ (fun n hn => names n (List.mem_cons_of_mem _ hn)) ?_
    rw [Ordered.keys_insert new]
    simpa using distinct

theorem readAttributes_all {a : Attributes} (names : ∀ name ∈ a.keys, IsAttributeName name)
    (rest : List Char) :
    readAttributes .empty (a.entries.flatMap printAttribute ++ '>' :: rest) =
      .ok (a, false, rest) := by
  have distinct : (a.entries.map (·.1)).Nodup :=
    List.pairwise_map.2 (a.distinct.imp fun h => by simpa using h)
  have same : a.entries.foldl (fun m e => m.insert e.1 e.2) .empty = a :=
    Ordered.eq_of_entries_eq (Ordered.entries_ofList distinct)
  rw [readAttributes_printed .empty names (by simpa [Ordered.keys, Ordered.empty] using distinct),
    same]

theorem head_printedAttributes (a : Attributes) (rest : List Char) :
    ∀ c ∈ (a.entries.flatMap printAttribute ++ '>' :: rest).head?, isTagChar c = false := by
  cases a.entries with
  | nil => simp [isTagChar]
  | cons e entries => simp [printAttribute, isTagChar]

theorem isVoid_of_isRaw {tag : String} (h : isRaw tag = true) : isVoid tag = false := by
  have : tag = "script" ∨ tag = "style" := by simpa [isRaw, rawTags] using h
  rcases this with rfl | rfl <;> decide

section
variable {tag : String} (h : IsTag tag)
include h

/-- Raw text that does not end its element is read up to the end tag. -/
theorem readRaw_printed {text : String} (opened : ¬ Ends tag text) (rest : List Char) :
    readRaw tag (text.toList ++ (printEnd tag ++ rest)) = .ok (text.toList, rest) := by
  have small : tag.toList.map Char.toLower = tag.toList := by
    have := congrArg String.toList (lowercase_of_small h.small)
    simpa [Text.lowercase] using this
  have new : '<' ∉ '/' :: tag.toList := by
    intro mem
    rcases List.mem_cons.1 mem with eq | mem
    · exact absurd eq (by decide)
    · exact absurd (h.readable _ mem) (by decide)
  have lowered : (text.toList ++ (printEnd tag ++ rest)).map Char.toLower =
      text.toList.map Char.toLower ++
        ('<' :: '/' :: tag.toList ++ ('>' :: rest).map Char.toLower) := by
    simp only [printEnd, List.map_append, List.map_cons, List.cons_append, List.append_assoc, small,
      List.nil_append]
    rfl
  have cut : Text.cut? ('<' :: '/' :: tag.toList)
      ((text.toList ++ (printEnd tag ++ rest)).map Char.toLower) =
      some (text.toList.map Char.toLower, ('>' :: rest).map Char.toLower) := by
    rw [lowered]
    exact Text.cut?_append_of_head new opened _
  have mark : '>' ∉ '<' :: '/' :: tag.toList := by
    intro mem
    rcases List.mem_cons.1 mem with eq | mem
    · exact absurd eq (by decide)
    · rcases List.mem_cons.1 mem with eq | mem
      · exact absurd eq (by decide)
      · exact absurd (h.readable _ mem) (by decide)
  have closed : readUntil ['>'] .endTag (printEnd tag ++ rest) =
      .ok ('<' :: '/' :: tag.toList, rest) := by
    have := Text.cut?_mark mark rest
    simp only [readUntil, printEnd, List.cons_append, List.append_assoc, List.nil_append] at this ⊢
    rw [this]
  rw [readRaw, cut]
  simp only [List.length_map, List.drop_left, List.take_left, closed]

/-- An element of raw text is read with its text as its only child. -/
theorem readInto_raw (raw : isRaw tag = true) {attributes : Attributes}
    (names : ∀ name ∈ attributes.keys, IsAttributeName name) {text : String}
    (opened : ¬ Ends tag text) (b : Builder) (rest : List Char) :
    readInto b (printStart tag attributes ++ (text.toList ++ (printEnd tag ++ rest))) =
      readInto (b.add (.element tag attributes (if text = "" then [] else [.text text]))) rest := by
  let s := attributes.entries.flatMap printAttribute ++ '>' :: (text.toList ++ (printEnd tag ++ rest))
  obtain ⟨taken, dropped⟩ := takeWhile_append_stop s h.readable (head_printedAttributes _ _)
  have element : readElement (tag.toList ++ s) = .ok (.closed tag attributes text, rest) := by
    simp only [readElement, taken, dropped, String.ofList_toList, lowercase_of_small h.small,
      s, readAttributes_all names, Bool.false_or, isVoid_of_isRaw raw, raw, readRaw_printed h opened,
      if_true, Bool.false_eq_true, if_false]
  have := readInto_item b _ ((readItem_element h.start s).trans element)
  rw [printStart]
  simp only [List.append_assoc, List.cons_append, List.nil_append]
  rw [this, Builder.step]
  simp only [String.isEmpty_iff]

end

theorem printAll_texts {ts : List Tree} (h : ∀ t ∈ ts, t.IsText) :
    printAll true ts = (contentAll ts).toList := by
  induction ts with
  | nil => rfl
  | cons t ts ih =>
    cases t with
    | comment data => exact (h _ List.mem_cons_self).elim
    | element tag attributes children => exact (h _ List.mem_cons_self).elim
    | text data =>
      rw [printAll, ih fun t ht => h t (List.mem_cons_of_mem _ ht)]
      simp [Tree.print, contentAll, Tree.content]

/-- Markup that is no text ends the text before it. -/
theorem endsText_print {t : Tree} (legible : t.Legible) (h : ¬ t.IsText) (rest : List Char) :
    EndsText (t.print false ++ rest) := by
  right
  cases t with
  | text data => exact absurd trivial h
  | comment data => rfl
  | element tag attributes children =>
    obtain ⟨c, name, split, letter⟩ := legible.1.start
    simp [Tree.print, printStart, split, opensMarkup, letter]

/-- A text that may be empty is read before whatever ends it. -/
theorem readInto_pending (pending : String) (b : Builder) {rest : List Char} (ends : EndsText rest) :
    readInto b (pending.toList.flatMap escapeInText ++ rest) =
      readInto ⟨(joinText pending []).reverse ++ b.here, b.frames⟩ rest := by
  by_cases empty : pending = ""
  case pos =>
    subst empty
    rfl
  case neg =>
    have nonempty : pending.toList ≠ [] := by simpa using empty
    rw [readInto_text b nonempty ends, String.ofList_toList, joinText_nil, if_neg empty]
    rfl

theorem joinText_cons_of_not_text {t : Tree} (h : ¬ t.IsText) (data : String) (rest : List Tree) :
    joinText data (t :: rest) = joinText data [] ++ t :: rest := by
  have before : joinText data (t :: rest) = if data = "" then t :: rest else .text data :: t :: rest := by
    cases t with
    | text more => exact absurd trivial h
    | comment more => rfl
    | element tag attributes children => rfl
  rw [joinText_nil, before]
  split <;> rfl

theorem not_isText_normal {t : Tree} (h : ¬ t.IsText) : ¬ t.normal.IsText := by
  cases t with
  | text data => exact h
  | comment data => exact id
  | element tag attributes children => exact id

mutual

/-- A legible tree that is no text is read as its normal form. -/
theorem readInto_print (t : Tree) (legible : t.Legible) (h : ¬ t.IsText) (b : Builder)
    (rest : List Char) :
    readInto b (t.print false ++ rest) = readInto (b.add t.normal) rest := by
  match t with
  | .text data => exact absurd trivial h
  | .comment data =>
    rw [Tree.print, readInto_comment b legible, String.ofList_toList, Tree.normal]
  | .element tag attributes children =>
    obtain ⟨isTag, names, void, raw, below⟩ := legible
    rw [Tree.print, Tree.normal]
    by_cases isVoid : isVoid tag = true
    case pos =>
      rw [if_pos isVoid, List.append_nil, void isVoid, normalAll]
      have := readInto_start isTag (Bool.eq_false_iff.2 fun isRaw => ?_)
        (head_printedAttributes attributes rest) (readAttributes_all names rest) b
      · rw [if_pos isVoid] at this
        simpa [printStart] using this
      · exact Bool.eq_false_iff.1 (isVoid_of_isRaw isRaw) isVoid
    case neg =>
      rw [if_neg isVoid]
      by_cases isRaw : isRaw tag = true
      case pos =>
        obtain ⟨texts, opened⟩ := raw isRaw
        rw [isRaw, printAll_texts texts, List.append_assoc, List.append_assoc,
          readInto_raw isTag isRaw names opened b rest, normalAll_texts texts]
      case neg =>
        let s := printAll false children ++ (printEnd tag ++ rest)
        have start := readInto_start isTag (Bool.eq_false_iff.2 isRaw)
          (head_printedAttributes attributes s) (readAttributes_all names s) b
        have inside := readInto_printAll children below ""
          ⟨[], ⟨tag, attributes, b.here⟩ :: b.frames⟩ (printEnd tag ++ rest) (.inr rfl)
        have ending := readInto_ending isTag attributes ((normalAll children).reverse ++ []) b.here
          b.frames rest
        rw [if_neg isVoid] at start
        rw [joinText_empty] at inside
        simp only [Bool.eq_false_iff.2 isRaw, printStart, List.append_assoc, List.cons_append,
          List.nil_append] at start ⊢
        rw [start]
        refine inside.trans (ending.trans ?_)
        simp [Builder.add]

/-- Legible trees after a text are read as their normal form, in which the text may be joined to
what it meets. -/
theorem readInto_printAll (ts : List Tree) (legible : LegibleAll ts) (pending : String) (b : Builder)
    (rest : List Char) (ends : EndsText rest) :
    readInto b (pending.toList.flatMap escapeInText ++ (printAll false ts ++ rest)) =
      readInto ⟨(joinText pending (normalAll ts)).reverse ++ b.here, b.frames⟩ rest := by
  match ts with
  | [] => exact readInto_pending pending b ends
  | t :: ts =>
    by_cases text : t.IsText
    case pos =>
      obtain ⟨data, rfl⟩ : ∃ data, t = .text data := by
        cases t with
        | text data => exact ⟨data, rfl⟩
        | comment data => exact text.elim
        | element tag attributes children => exact text.elim
      have later := readInto_printAll ts legible.2 (pending ++ data) b rest ends
      rw [normalAll, ← joinText_append, ← later]
      simp [printAll, Tree.print]
    case neg =>
      have later := readInto_printAll ts legible.2 ""
        (Builder.add ⟨(joinText pending []).reverse ++ b.here, b.frames⟩ t.normal) rest ends
      rw [printAll, List.append_assoc, readInto_pending pending b (endsText_print legible.1 text _),
        readInto_print t legible.1 text, normalAll_cons_of_not_text text,
        joinText_cons_of_not_text (not_isText_normal text)]
      refine later.trans ?_
      rw [joinText_empty]
      simp [Builder.add]

end

/-- The markup of legible trees parses to their normal form. -/
theorem parse_html {ts : List Tree} (legible : LegibleAll ts) :
    parse (html ts) = .ok (normalAll ts) := by
  have := readInto_printAll ts legible "" .start [] (.inl rfl)
  rw [joinText_empty, List.append_nil] at this
  rw [parse_eq, html, String.toList_ofList]
  refine (congrArg _ this).trans ?_
  simp [Except.map, Builder.finish, Builder.start, Builder.closeAll]

end Markup
end LiveMarkup
