import LiveMarkup.Markup.Fragment
import LiveMarkup.Proofs.Entries

/-!
How markup that was written with care reads: escapes are undone, and each start tag, text, comment and
end tag is one item. Fragments are followed item by item through the builder.
-/
namespace LiveMarkup

namespace Text

/-- A text may be tested character by character. -/
theorem forall_mem_of_all {s : List Char} {P : Char → Prop} [DecidablePred P]
    (h : (s.all fun c => decide (P c)) = true) : ∀ c ∈ s, P c :=
  fun c hc => of_decide_eq_true (List.all_eq_true.1 h c hc)

/-- A pattern cannot begin inside a text and end behind it if its last character is new in it. -/
theorem prefix_of_overlap {a t r : List Char} {d : Char} (new : d ∉ a) (ht : t ≠ [])
    (h : a ++ [d] <+: t ++ (a ++ d :: r)) : a ++ [d] <+: t := by
  have long : a.length < t.length := by
    refine Nat.lt_of_not_le fun short => ?_
    obtain ⟨more, h⟩ := h
    have there : (t ++ (a ++ d :: r))[a.length]? = some d := by
      rw [← h]
      simp
    have positive := List.length_pos_iff.2 ht
    rw [List.getElem?_append_right (by omega), List.getElem?_append_left (by omega)] at there
    exact new (List.mem_of_getElem? there)
  exact List.prefix_of_prefix_length_le h (List.prefix_append t _) (by simp; omega)

theorem cut?_append {a s : List Char} {d : Char} (new : d ∉ a) (hs : ¬ a ++ [d] <:+: s)
    (b rest : List Char) :
    cut? (a ++ d :: b) (s ++ (a ++ d :: b) ++ rest) = some (s, rest) := by
  induction s with
  | nil =>
    obtain ⟨c, pattern, hp⟩ : ∃ c pattern, a ++ d :: b = c :: pattern := by
      cases a with
      | nil => exact ⟨d, b, rfl⟩
      | cons c a => exact ⟨c, a ++ d :: b, rfl⟩
    rw [hp]
    simp [cut?]
  | cons c s ih =>
    have later : ¬ a ++ [d] <:+: s := fun h => hs (h.trans (List.suffix_cons c s).isInfix)
    have apart : (a ++ d :: b).isPrefixOf (c :: (s ++ (a ++ d :: b) ++ rest)) = false := by
      refine Bool.eq_false_iff.2 fun h => hs ?_
      have whole : a ++ [d] <+: (c :: s) ++ (a ++ d :: (b ++ rest)) := by
        refine List.IsPrefix.trans ⟨b, ?_⟩ (List.isPrefixOf_iff_prefix.1 h |>.trans ⟨[], ?_⟩)
        · simp
        · simp
      exact (prefix_of_overlap new (List.cons_ne_nil c s) whole).isInfix
    simp only [List.cons_append, cut?]
    rw [apart, ih later]
    rfl

theorem cut?_eq_none {a s : List Char} {d : Char} {b : List Char} (hs : ¬ a ++ [d] <:+: s) :
    cut? (a ++ d :: b) s = none := by
  induction s with
  | nil => cases a <;> simp [cut?]
  | cons c s ih =>
    have later : ¬ a ++ [d] <:+: s := fun h => hs (h.trans (List.suffix_cons c s).isInfix)
    have apart : (a ++ d :: b).isPrefixOf (c :: s) = false := by
      refine Bool.eq_false_iff.2 fun h => hs ?_
      exact (List.IsPrefix.trans ⟨b, by simp⟩ (List.isPrefixOf_iff_prefix.1 h)).isInfix
    simp only [cut?]
    rw [apart, ih later]
    rfl

theorem cut?_mark {s : List Char} {d : Char} (hs : d ∉ s) (rest : List Char) :
    cut? [d] (s ++ d :: rest) = some (s, rest) := by
  have := cut?_append (a := []) (List.not_mem_nil (a := d)) (s := s)
    (fun h => hs (h.subset (List.mem_singleton_self d))) [] rest
  simpa using this

end Text

namespace Markup

/-! References. -/

theorem decode_cons_of_ne {c : Char} (hc : c ≠ '&') (rest : List Char) :
    decode (c :: rest) = c :: decode rest := by
  rw [decode, if_neg hc]

theorem decode_reference (name : List Char) {c : Char} (short : name.length ≤ 9)
    (mark : ';' ∉ name) (named : named? name = some c) (rest : List Char) :
    decode ('&' :: (name ++ ';' :: rest)) = c :: decode rest := by
  have found : reference? (name ++ ';' :: rest) = some (c, rest) := by
    simp [reference?, Text.cut?_mark mark, short, named]
  rw [decode, if_pos rfl]
  split
  case h_1 c' after h =>
    rw [found] at h
    cases h
    rfl
  case h_2 h =>
    rw [found] at h
    cases h

theorem decode_flatMap (escape : Char → List Char) (s rest : List Char)
    (undone : ∀ c ∈ s, ∀ rest, decode (escape c ++ rest) = c :: decode rest) :
    decode (s.flatMap escape ++ rest) = s ++ decode rest := by
  induction s with
  | nil => rfl
  | cons c s ih =>
    rw [List.flatMap_cons, List.append_assoc, undone c List.mem_cons_self,
      ih fun d hd => undone d (List.mem_cons_of_mem _ hd)]
    rfl

theorem decode_escapeInText (c : Char) (rest : List Char) :
    decode (escapeInText c ++ rest) = c :: decode rest := by
  unfold escapeInText
  split
  case isTrue h =>
    subst h
    exact decode_reference "amp".toList (by decide) (by decide) (by decide) rest
  case isFalse amp =>
    split
    case isTrue h =>
      subst h
      exact decode_reference "lt".toList (by decide) (by decide) (by decide) rest
    case isFalse =>
      split
      case isTrue h =>
        subst h
        exact decode_reference "gt".toList (by decide) (by decide) (by decide) rest
      case isFalse => exact decode_cons_of_ne amp rest

theorem decode_escapeInValue (c : Char) (rest : List Char) :
    decode (escapeInValue c ++ rest) = c :: decode rest := by
  unfold escapeInValue
  split
  case isTrue h =>
    subst h
    exact decode_reference "amp".toList (by decide) (by decide) (by decide) rest
  case isFalse amp =>
    split
    case isTrue h =>
      subst h
      exact decode_reference "quot".toList (by decide) (by decide) (by decide) rest
    case isFalse => exact decode_cons_of_ne amp rest

@[simp] theorem decode_nil : decode [] = [] := by
  rw [decode]

/-- An escaped text reads as what it was. -/
theorem decode_text (s : List Char) : decode (s.flatMap escapeInText) = s := by
  have := decode_flatMap _ s [] fun c _ => decode_escapeInText c
  simpa using this

/-- An escaped value reads as what it was. -/
theorem decode_escapedValue (s : List Char) : decode (s.flatMap escapeInValue) = s := by
  have := decode_flatMap _ s [] fun c _ => decode_escapeInValue c
  simpa using this

theorem decode_plain {s : List Char} (hs : '&' ∉ s) (rest : List Char) :
    decode (s ++ rest) = s ++ decode rest := by
  have := decode_flatMap (fun c => [c]) s rest fun c hc rest =>
    decode_cons_of_ne (fun h => hs (h ▸ hc)) rest
  simpa using this

/-! Start tags. -/

/-- A reader that takes characters of one sort stops where another one comes. -/
theorem takeWhile_append_stop {p : Char → Bool} {s : List Char} (tail : List Char) (hs : ∀ c ∈ s, p c = true)
    (stop : ∀ c ∈ tail.head?, p c = false) :
    (s ++ tail).takeWhile p = s ∧ (s ++ tail).dropWhile p = tail := by
  rw [List.takeWhile_append_of_pos hs, List.dropWhile_append_of_pos hs]
  cases tail with
  | nil => simp
  | cons c tail => simp [stop c rfl]

theorem isBlank_space : Text.isBlank ' ' = true := by decide

theorem not_blank_of_isAttributeChar {c : Char} (h : isAttributeChar c = true) :
    Text.isBlank c = false := by
  unfold isAttributeChar at h
  cases hb : Text.isBlank c with
  | false => rfl
  | true => simp [hb] at h

theorem trimStart_of_not_blank {c : Char} (h : Text.isBlank c = false) (s : List Char) :
    Text.trimStart (c :: s) = c :: s := by
  simp [Text.trimStart, h]

theorem trimStart_space (s : List Char) : Text.trimStart (' ' :: s) = Text.trimStart s := by
  simp [Text.trimStart, isBlank_space]

theorem readAttributes_close {s rest : List Char} (found : Attributes)
    (h : Text.trimStart s = '>' :: rest) : readAttributes found s = .ok (found, false, rest) := by
  unfold readAttributes
  split
  · simp_all
  · simp_all
  · simp_all
  case h_4 c more _ other h' =>
    exact absurd (List.cons.inj (h'.symm.trans h)).1 other

theorem readAttributes_selfClosing {s rest : List Char} (found : Attributes)
    (h : Text.trimStart s = '/' :: '>' :: rest) :
    readAttributes found s = .ok (found, true, rest) := by
  rw [readAttributes.eq_def]
  split
  case h_1 h' => cases h.symm.trans h'
  case h_2 h' =>
    cases h.symm.trans h'
    rfl
  case h_3 h' => cases h.symm.trans h'
  case h_4 other _ h' =>
    cases h.symm.trans h'
    exact absurd rfl (other rest rfl)

theorem readAttributes_skip {s rest : List Char} {c : Char} (found : Attributes)
    (h : Text.trimStart s = c :: rest) (close : c ≠ '>')
    (selfClose : c = '/' → ∀ more, rest ≠ '>' :: more) (other : isAttributeChar c = false) :
    readAttributes found s = readAttributes found rest := by
  rw [readAttributes.eq_def]
  split
  case h_1 h' => cases h.symm.trans h'
  case h_2 h' =>
    cases h.symm.trans h'
    exact absurd rfl (selfClose rfl _)
  case h_3 h' =>
    cases h.symm.trans h'
    exact absurd rfl close
  case h_4 h' =>
    cases h.symm.trans h'
    rw [if_neg (by rw [other]; exact Bool.false_ne_true)]

theorem readAttributes_named {s name after : List Char} (tail : List Char) {value : String}
    (found : Attributes)
    (h : Text.trimStart s = name ++ tail) (nonempty : name ≠ [])
    (readable : ∀ c ∈ name, isAttributeChar c = true)
    (ends : ∀ c ∈ tail.head?, isAttributeChar c = false)
    (assigned : readAssigned tail = .ok (value, after)) :
    readAttributes found s = readAttributes
      (if found.has (String.ofList name) then found else found.set (String.ofList name) value)
      after := by
  obtain ⟨c, name, rfl⟩ := List.exists_cons_of_ne_nil nonempty
  have first : isAttributeChar c = true := readable c List.mem_cons_self
  have more : ∀ d ∈ name, isAttributeChar d = true := fun d hd => readable d (List.mem_cons_of_mem _ hd)
  have taken := (takeWhile_append_stop _ readable ends).1
  have dropped := (takeWhile_append_stop _ more ends).2
  rw [List.cons_append] at taken
  have apart : c ≠ '/' ∧ c ≠ '>' := by
    constructor <;> (rintro rfl; exact absurd first (by decide))
  rw [List.cons_append] at h
  rw [readAttributes.eq_def]
  split
  case h_1 h' => exact absurd (h.symm.trans h') (List.cons_ne_nil _ _)
  case h_2 h' => exact absurd (List.cons.inj (h.symm.trans h')).1 apart.1
  case h_3 h' => exact absurd (List.cons.inj (h.symm.trans h')).1 apart.2
  case h_4 h' =>
    obtain ⟨rfl, rfl⟩ := List.cons.inj (h.symm.trans h')
    rw [if_pos first]
    dsimp only
    rw [taken]
    split
    case h_1 value' after' hr =>
      rw [dropped, assigned] at hr
      cases hr
      rfl
    case h_2 e hr =>
      rw [dropped, assigned] at hr
      cases hr

/-- A value in double quotes is read up to the closing quote. -/
theorem readAttributes_quoted {s name raw rest : List Char} (found : Attributes)
    (h : Text.trimStart s = Text.trimStart (' ' :: name ++ '=' :: '\x22' :: raw ++ '\x22' :: rest))
    (nonempty : name ≠ []) (readable : ∀ c ∈ name, isAttributeChar c = true)
    (closed : '\x22' ∉ raw) :
    readAttributes found s = readAttributes
      (if found.has (String.ofList name) then found
        else found.set (String.ofList name) (String.ofList (decode raw)))
      rest := by
  refine readAttributes_named ('=' :: '\x22' :: (raw ++ '\x22' :: rest)) found ?_ nonempty
    readable ?_ ?_
  · rw [h]
    obtain ⟨c, name, rfl⟩ := List.exists_cons_of_ne_nil nonempty
    have first := not_blank_of_isAttributeChar (readable c List.mem_cons_self)
    simp only [List.cons_append, List.append_assoc]
    rw [trimStart_space, trimStart_of_not_blank first]
  · simp [isAttributeChar]
  · have equals : Text.trimStart ('=' :: '\x22' :: (raw ++ '\x22' :: rest)) =
        '=' :: '\x22' :: (raw ++ '\x22' :: rest) := trimStart_of_not_blank (by decide) _
    have quote : Text.trimStart ('\x22' :: (raw ++ '\x22' :: rest)) =
        '\x22' :: (raw ++ '\x22' :: rest) := trimStart_of_not_blank (by decide) _
    simp only [readAssigned, equals, quote, readValue, readUntil, Text.cut?_mark closed]

/-! Items, and the fragment under construction. -/

/-- The fragment under construction after an input was read. -/
def readInto (b : Builder) (s : List Char) : Except Unfinished Builder :=
  (items s).map fun l => l.foldl Builder.step b

theorem parse_eq (html : String) :
    parse html = (readInto .start html.toList).map Builder.finish := by
  unfold parse readInto ofItems
  cases items html.toList with
  | error e => rfl
  | ok l => rfl

@[simp] theorem readInto_nil (b : Builder) : readInto b [] = .ok b := by
  unfold readInto
  rw [items]
  rfl

theorem readInto_item {c : Char} {rest after : List Char} (b : Builder) (item : Item)
    (h : readItem c rest = .ok (item, after)) :
    readInto b (c :: rest) = readInto (b.step item) after := by
  unfold readInto
  rw [items]
  split
  case h_1 e h' =>
    rw [h] at h'
    cases h'
  case h_2 item' after' h' =>
    rw [h] at h'
    cases h'
    cases items after with
    | error e => rfl
    | ok more => rfl

/-- Whether a text ends before an input. -/
def EndsText (s : List Char) : Prop :=
  s = [] ∨ opensMarkup s = true

theorem spanText_append {s rest : List Char} (plain : '<' ∉ s) (ends : EndsText rest) :
    spanText (s ++ rest) = (s, rest) := by
  induction s with
  | nil =>
    rcases ends with rfl | opens
    · rfl
    · cases rest with
      | nil => rfl
      | cons c rest => simp [spanText, opens]
  | cons c s ih =>
    have apart : c ≠ '<' := fun h => plain (h ▸ List.mem_cons_self)
    have closed : opensMarkup (c :: (s ++ rest)) = false := by
      unfold opensMarkup
      split
      case h_1 h => exact absurd (List.cons.inj h).1 apart
      case h_2 => rfl
    simp [spanText, closed, ih fun h => plain (List.mem_cons_of_mem _ h)]

theorem not_mem_escapeInText (s : List Char) : '<' ∉ s.flatMap escapeInText := by
  intro h
  obtain ⟨c, -, hc⟩ := List.mem_flatMap.1 h
  unfold escapeInText at hc
  split at hc
  · exact absurd hc (by decide)
  · split at hc
    · exact absurd hc (by decide)
    · split at hc
      · exact absurd hc (by decide)
      case isFalse.isFalse.isFalse open' _ => exact open' (List.mem_singleton.1 hc).symm

theorem not_mem_escapeInValue (s : List Char) : '\x22' ∉ s.flatMap escapeInValue := by
  intro h
  obtain ⟨c, -, hc⟩ := List.mem_flatMap.1 h
  unfold escapeInValue at hc
  split at hc
  · exact absurd hc (by decide)
  · split at hc
    · exact absurd hc (by decide)
    case isFalse.isFalse quote => exact quote (List.mem_singleton.1 hc).symm

theorem escapeInText_ne_nil (c : Char) : escapeInText c ≠ [] := by
  unfold escapeInText
  split
  · decide
  · split
    · decide
    · split
      · decide
      · exact List.cons_ne_nil _ _

/-- A text without `<` is read before whatever ends it. -/
theorem readInto_plain {data rest : List Char} (b : Builder) (nonempty : data ≠ [])
    (plain : '<' ∉ data) (ends : EndsText rest) :
    readInto b (data ++ rest) = readInto (b.add (.text (String.ofList (decode data)))) rest := by
  obtain ⟨c, s, rfl⟩ := List.exists_cons_of_ne_nil nonempty
  have apart : c ≠ '<' := fun e => plain (e ▸ List.mem_cons_self)
  refine readInto_item b (.text (String.ofList (decode (c :: s)))) ?_
  have span := spanText_append (fun e => plain (List.mem_cons_of_mem _ e)) ends
  rw [readItem.eq_def, if_neg apart, readText, List.append_eq, span]

theorem readInto_text {data rest : List Char} (b : Builder) (nonempty : data ≠ [])
    (ends : EndsText rest) :
    readInto b (data.flatMap escapeInText ++ rest) =
      readInto (b.add (.text (String.ofList data))) rest := by
  have some : data.flatMap escapeInText ≠ [] := by
    obtain ⟨d, data, rfl⟩ := List.exists_cons_of_ne_nil nonempty
    simp [escapeInText_ne_nil]
  rw [readInto_plain b some (not_mem_escapeInText data) ends, decode_text]

theorem readInto_comment {data : List Char} (b : Builder) (closed : ¬ "-->".toList <:+: data)
    (rest : List Char) :
    readInto b ("<!--".toList ++ data ++ "-->".toList ++ rest) =
      readInto (b.add (.comment (String.ofList data))) rest := by
  have cut : Text.cut? "-->".toList (data ++ "-->".toList ++ rest) = some (data, rest) :=
    Text.cut?_append (a := ['-', '-']) (by decide) closed [] rest
  have read : readItem '<' ('!' :: '-' :: '-' :: (data ++ "-->".toList ++ rest)) =
      .ok (.comment (String.ofList data), rest) := by
    have done : readUntil ['-', '-', '>'] .comment (data ++ "-->".toList ++ rest) =
        .ok (data, rest) := by
      rw [readUntil]
      rw [show ['-', '-', '>'] = "-->".toList from rfl, cut]
    simp only [readItem, if_pos, done]
    rfl
  have := readInto_item b _ read
  simpa [Builder.step] using this

theorem toLower_of_not_upper {c : Char} (h : c.isUpper = false) : c.toLower = c := by
  unfold Char.toLower
  split
  case isFalse => rfl
  case isTrue letter =>
    delta Char.isUpper at h
    simp only [decide_eq_false_iff_not] at h
    exact absurd letter (by simpa [Classical.not_and_iff_not_or_not] using h)

theorem lowercase_of_small {s : String} (small : ∀ c ∈ s.toList, c.isUpper = false) :
    Text.lowercase s = s := by
  have same : s.toList.map Char.toLower = s.toList.map id :=
    List.map_congr_left fun c hc => toLower_of_not_upper (small c hc)
  rw [Text.lowercase, same, List.map_id, String.ofList_toList]

/-- An attribute with a new name in small letters is read as it is written. -/
theorem readAttributes_new (name : String) (raw rest : List Char) {s : List Char} {found : Attributes}
    (nonempty : name.toList ≠ []) (readable : ∀ c ∈ name.toList, isAttributeChar c = true)
    (small : ∀ c ∈ name.toList, c.isUpper = false) (new : name ∉ found.keys) (closed : '\x22' ∉ raw)
    (h : Text.trimStart s =
      Text.trimStart (' ' :: name.toList ++ '=' :: '\x22' :: raw ++ '\x22' :: rest)) :
    readAttributes found s =
      readAttributes (found.insert name (String.ofList (decode raw))) rest := by
  have absent : found.has name = false := by
    simp [Attributes.has, Attributes.value?, lowercase_of_small small, Ordered.get?_of_not_mem new]
  rw [readAttributes_quoted found h nonempty readable closed, String.ofList_toList]
  simp [absent, Attributes.set, lowercase_of_small small]

/-- Whether markup reads a string as the whole tag of an element, and keeps it as it is. -/
structure IsTag (tag : String) : Prop where
  start : ∃ c rest, tag.toList = c :: rest ∧ isTagStart c = true
  readable : ∀ c ∈ tag.toList, isTagChar c = true
  small : ∀ c ∈ tag.toList, c.isUpper = false

instance : DecidablePred IsTag := fun tag =>
  decidable_of_iff (tag.toList.head?.any isTagStart = true ∧ tag.toList.all isTagChar = true ∧
      (tag.toList.all fun c => !c.isUpper) = true) <| by
    simp only [List.all_eq_true, Bool.not_eq_true']
    constructor
    · rintro ⟨start, readable, small⟩
      obtain ⟨c, first, isStart⟩ := (Option.any_eq_true _ _).1 start
      obtain ⟨rest, same⟩ := List.head?_eq_some_iff.1 first
      exact ⟨⟨c, rest, same, isStart⟩, readable, small⟩
    · rintro ⟨⟨c, rest, same, start⟩, readable, small⟩
      refine ⟨?_, readable, small⟩
      rw [same]
      exact start

/-- What begins with a letter after a `<` is read as an element. -/
theorem readItem_element {tag : String}
    (start : ∃ c rest, tag.toList = c :: rest ∧ isTagStart c = true) (s : List Char) :
    readItem '<' (tag.toList ++ s) = readElement (tag.toList ++ s) := by
  obtain ⟨c, name, split, letter⟩ := start
  have notEnd : c ≠ '/' ∧ c ≠ '!' := by
    constructor <;> (rintro rfl; exact absurd letter (by decide))
  rw [split]
  simp only [List.cons_append]
  rw [readItem, if_pos rfl, if_pos letter]
  · exact fun _ h => absurd h notEnd.2
  · exact fun _ _ h => absurd h notEnd.1
  · exact fun h => notEnd.2 h

section
variable {tag : String} (h : IsTag tag)
include h

/-- An end tag closes the innermost element if that has its name. -/
theorem readInto_ending (attributes : Attributes) (here elder : List Tree) (frames : List Frame)
    (rest : List Char) :
    readInto ⟨here, ⟨tag, attributes, elder⟩ :: frames⟩ (printEnd tag ++ rest) =
      readInto ⟨.element tag attributes here.reverse :: elder, frames⟩ rest := by
  obtain ⟨c, name, split, letter⟩ := h.start
  obtain ⟨taken, dropped⟩ := takeWhile_append_stop ('>' :: rest) h.readable (by simp [isTagChar])
  have read : readItem '<' ('/' :: (tag.toList ++ '>' :: rest)) = .ok (.ending tag, rest) := by
    have ending : readEnding (tag.toList ++ '>' :: rest) = .ok (.ending tag, rest) := by
      have cut := Text.cut?_mark (d := '>') List.not_mem_nil rest
      rw [List.nil_append] at cut
      simp only [readEnding, taken, dropped, String.ofList_toList, lowercase_of_small h.small,
        readUntil, cut]
    rw [split] at ending ⊢
    simp only [List.cons_append] at ending ⊢
    simp [readItem, letter, ending]
  have closed : Builder.step ⟨here, ⟨tag, attributes, elder⟩ :: frames⟩ (.ending tag) =
      ⟨.element tag attributes here.reverse :: elder, frames⟩ := by
    simp [Builder.step, Builder.close, Builder.closeAll]
  have := readInto_item ⟨here, ⟨tag, attributes, elder⟩ :: frames⟩ _ read
  rw [closed] at this
  simpa [printEnd] using this

/-- A start tag adds an element, or opens one if that is not void. -/
theorem readInto_start (raw : isRaw tag = false) {attributes : Attributes} {s rest : List Char}
    (stop : ∀ c ∈ s.head?, isTagChar c = false)
    (read : readAttributes .empty s = .ok (attributes, false, rest)) (b : Builder) :
    readInto b ('<' :: tag.toList ++ s) =
      readInto
        (if isVoid tag then b.add (.element tag attributes [])
          else ⟨[], ⟨tag, attributes, b.here⟩ :: b.frames⟩) rest := by
  obtain ⟨taken, dropped⟩ := takeWhile_append_stop _ h.readable stop
  have element : readElement (tag.toList ++ s) =
      .ok (if isVoid tag then .closed tag attributes "" else .opening tag attributes, rest) := by
    simp only [readElement, taken, dropped, String.ofList_toList, lowercase_of_small h.small, read,
      Bool.false_or, raw]
    split <;> rfl
  have := readInto_item b _ ((readItem_element h.start s).trans element)
  rw [List.cons_append, this]
  congr 1
  split <;> simp [Builder.step]

end

end Markup
end LiveMarkup
