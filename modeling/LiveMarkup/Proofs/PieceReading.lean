import LiveMarkup.Proofs.StartTags
import LiveMarkup.Proofs.Legible
import LiveMarkup.Proofs.Carrying

/-!
How a reader of markup takes text, end tags, declarations, comments and raw text that grow character by
character: what is held until it is known to be over, and the item that it is then.
-/
namespace LiveMarkup.Markup

variable {b : Builder} {c : Char} {p behind : List Char} {tag : String}

/-! Text. -/

/-- Whether a character opens markup behind a `<`. -/
def isOpener (c : Char) : Bool :=
  isTagStart c || c == '/' || c == '!'

/-- Text in which no markup opens and that does not end with a bracket. -/
def Mild : List Char → Prop
  | [] => True
  | [c] => c ≠ '<'
  | c :: d :: rest => (c = '<' → isOpener d = false) ∧ Mild (d :: rest)

theorem Mild.append {u : List Char} (h : Mild p) (h' : Mild u) : Mild (p ++ u) := by
  induction p with
  | nil => exact h'
  | cons c p ih =>
    cases p with
    | nil =>
      cases u with
      | nil => exact h
      | cons d u => exact ⟨fun open' => absurd open' h, h'⟩
    | cons d p => exact ⟨h.1, ih h.2⟩

theorem Mild.tail (h : Mild (c :: p)) : Mild p := by
  cases p with
  | nil => trivial
  | cons d p => exact h.2

theorem opensMarkup_of_mild (h : Mild (c :: p)) (s : List Char) :
    opensMarkup (c :: (p ++ s)) = false := by
  unfold opensMarkup
  split
  case h_1 d more same =>
    obtain ⟨rfl, rest⟩ := List.cons.inj same
    cases p with
    | nil => exact absurd rfl h
    | cons e p =>
      have first : e = d := (List.cons.inj rest).1
      exact first ▸ h.1 rfl
  case h_2 => rfl

theorem spanText_mild (h : Mild p) (ends : EndsText behind) :
    spanText (p ++ behind) = (p, behind) := by
  induction p with
  | nil =>
    rcases ends with rfl | opens
    · rfl
    · cases behind with
      | nil => rfl
      | cons c behind => simp [spanText, opens]
  | cons c p ih => simp [spanText, opensMarkup_of_mild h behind, ih h.tail]

/-- The builder with a text that was held. -/
def Builder.flush (b : Builder) (p : List Char) : Builder :=
  if p = [] then b else b.add (.text (String.ofList (decode p)))

/-- Held text is an item when markup opens or the input ends. -/
theorem readInto_mild (h : Mild p) (ends : EndsText behind) :
    readInto b (p ++ behind) = readInto (b.flush p) behind := by
  cases p with
  | nil => rfl
  | cons c p =>
    refine readInto_item b (.text (String.ofList (decode (c :: p)))) ?_
    have read : readItem c (p ++ behind) = .ok (readText c (p ++ behind)) := by
      unfold readItem
      split
      case isFalse => rfl
      case isTrue bracket =>
        subst bracket
        cases p with
        | nil => exact absurd rfl h
        | cons d p =>
          have other : d ≠ '!' ∧ d ≠ '/' ∧ isTagStart d = false := by
            have := h.1 rfl
            simp only [isOpener, Bool.or_eq_false_iff, beq_eq_false_iff_ne] at this
            exact ⟨this.2, this.1.2, this.1.1⟩
          split
          case h_1 same => exact absurd (List.cons.inj same).1 other.1
          case h_2 same => exact absurd (List.cons.inj same).1 other.2.1
          case h_3 same => exact absurd (List.cons.inj same).1 other.1
          case h_4 same =>
            obtain ⟨rfl, -⟩ := List.cons.inj same
            rw [if_neg (by rw [other.2.2]; exact Bool.false_ne_true)]
          case h_5 => rfl
    rw [List.append_eq, read, readText, spanText_mild h.tail ends]

/-! Start tags. -/

section
variable {name s after : List Char} {attributes : Attributes} {selfClosing : Bool}
  (start : ∃ c rest, name = c :: rest ∧ isTagStart c = true) (readable : ∀ d ∈ name, isTagChar d = true)
  (stop : ∀ d ∈ s.head?, isTagChar d = false)
  (read : readAttributes .empty s = .ok (attributes, selfClosing, after))
include start readable stop read

/-- A start tag that no raw text follows. -/
theorem readInto_startTag
    (plain : selfClosing = true ∨ isRaw (Text.lowercase (String.ofList name)) = false) :
    readInto b ('<' :: (name ++ s)) = readInto (b.step
      (if selfClosing || isVoid (Text.lowercase (String.ofList name)) then
        .closed (Text.lowercase (String.ofList name)) attributes ""
      else .opening (Text.lowercase (String.ofList name)) attributes)) after := by
  obtain ⟨taken, dropped⟩ := takeWhile_append_stop s readable stop
  have element := @readItem_element (String.ofList name) (by simpa using start) s
  rw [String.toList_ofList] at element
  refine readInto_item b _ (element.trans ?_)
  simp only [readElement, taken, dropped, read]
  split
  case isTrue => rfl
  case isFalse ended =>
    rcases plain with closing | plain
    · exact absurd (by rw [closing, Bool.true_or]) ended
    · rw [if_neg (by rw [plain]; exact Bool.false_ne_true)]

/-- A start tag with the raw text that follows. -/
theorem readInto_rawTag (on : selfClosing = false)
    (raw : isRaw (Text.lowercase (String.ofList name)) = true) {text rest : List Char}
    (content : readRaw (Text.lowercase (String.ofList name)) after = .ok (text, rest)) :
    readInto b ('<' :: (name ++ s)) = readInto (b.step
      (.closed (Text.lowercase (String.ofList name)) attributes (String.ofList text))) rest := by
  obtain ⟨taken, dropped⟩ := takeWhile_append_stop s readable stop
  have element := @readItem_element (String.ofList name) (by simpa using start) s
  rw [String.toList_ofList] at element
  refine readInto_item b _ (element.trans ?_)
  simp only [readElement, taken, dropped, read, on, isVoid_of_isRaw raw, Bool.or_false,
    Bool.false_eq_true, if_false, raw, if_true, content]

end

/-! End tags and declarations. -/

/-- An end tag is skipped up to its `>`. -/
theorem readInto_skippedEnding {d : Char} {more : List Char} (letter : isTagStart d = true)
    (going : '>' ∉ d :: more) : ∃ tag, ∀ b tail,
      readInto b ('<' :: '/' :: (d :: more ++ '>' :: tail)) = readInto (b.step (.ending tag)) tail := by
  obtain ⟨after, rest, name, stop⟩ : ∃ after, '>' ∉ after ∧
      (∀ tail, (d :: more ++ '>' :: tail).takeWhile isTagChar = (d :: more).takeWhile isTagChar) ∧
      ∀ tail, (d :: more ++ '>' :: tail).dropWhile isTagChar = after ++ '>' :: tail := by
    refine ⟨(d :: more).dropWhile isTagChar, fun mem => going ((List.dropWhile_sublist _).subset mem),
      fun tail => ?_, fun tail => ?_⟩
    · rw [List.takeWhile_append]
      split
      case isTrue whole =>
        rw [show ('>' :: tail).takeWhile isTagChar = [] from rfl, List.append_nil]
        exact (List.IsPrefix.eq_of_length (List.takeWhile_prefix _) whole).symm
      case isFalse => rfl
    · rw [List.dropWhile_append]
      split
      case isTrue none =>
        rw [List.isEmpty_iff.1 none]
        rfl
      case isFalse => rfl
  refine ⟨Text.lowercase (String.ofList ((d :: more).takeWhile isTagChar)), fun b tail => ?_⟩
  have ending : readEnding (d :: more ++ '>' :: tail) =
      .ok (.ending (Text.lowercase (String.ofList ((d :: more).takeWhile isTagChar))), tail) := by
    simp only [readEnding, name, stop, readUntil, Text.cut?_mark rest]
  refine readInto_item b _ ?_
  unfold readItem
  rw [if_pos rfl]
  exact (if_pos letter).trans ending

/-- A declaration is skipped up to its `>`. -/
theorem readInto_skippedDeclaration {more : List Char} (other : ¬ ['-', '-'] <+: more)
    (going : '>' ∉ more) (tail : List Char) :
    readInto b ('<' :: '!' :: (more ++ '>' :: tail)) = readInto b tail := by
  refine readInto_item b .declaration ?_
  unfold readItem
  rw [if_pos rfl]
  split
  case h_1 body same =>
    refine absurd ?_ other
    have same := (List.cons.inj same).2
    cases more with
    | nil => cases same
    | cons c more =>
      cases more with
      | nil =>
        have := (List.cons.inj (List.cons.inj same).2).1
        exact absurd this (by decide)
      | cons d more =>
        have first := (List.cons.inj same).1
        have second := (List.cons.inj (List.cons.inj same).2).1
        exact ⟨more, by rw [first, second]; rfl⟩
  case h_2 same => exact absurd (List.cons.inj same).1 (by decide)
  case h_3 body _ same =>
    obtain ⟨-, rfl⟩ := List.cons.inj same
    simp only [readUntil, Text.cut?_mark going]
    rfl
  case h_4 _ other same =>
    obtain ⟨rfl, rfl⟩ := List.cons.inj same
    exact (other rfl).elim
  case h_5 same => cases same

/-! Comments. -/

/-- How many hyphens a text ends with. -/
def trailing (s : List Char) : Nat :=
  (s.reverse.takeWhile (· == '-')).length

theorem trailing_concat (s : List Char) (c : Char) :
    trailing (s ++ [c]) = if c = '-' then trailing s + 1 else 0 := by
  unfold trailing
  rw [List.reverse_append, List.reverse_singleton, List.singleton_append, List.takeWhile_cons]
  by_cases hyphen : c = '-' <;> simp [hyphen]

theorem two_le_trailing {s : List Char} : 2 ≤ trailing s ↔ ['-', '-'] <:+ s := by
  rcases List.eq_nil_or_concat s with rfl | ⟨s, c, rfl⟩
  · simp [trailing]
  rw [List.concat_eq_append, trailing_concat]
  rcases List.eq_nil_or_concat s with rfl | ⟨s, d, rfl⟩
  · rw [show trailing [] = 0 from rfl, List.nil_append]
    have short : ¬ ['-', '-'] <:+ [c] := fun h => absurd h.length_le (by simp)
    simp only [short, iff_false]
    split <;> omega
  rw [List.concat_eq_append, trailing_concat]
  have pair : ['-', '-'] <:+ s ++ [d] ++ [c] ↔ d = '-' ∧ c = '-' := by
    constructor
    · rintro ⟨front, same⟩
      have := congrArg List.reverse same
      simp only [List.reverse_append, List.reverse_cons, List.reverse_nil, List.nil_append,
        List.cons_append, List.cons.injEq] at this
      exact ⟨this.2.1.symm, this.1.symm⟩
    · rintro ⟨rfl, rfl⟩
      exact ⟨s, by simp⟩
  rw [pair]
  by_cases last : c = '-' <;> by_cases first : d = '-' <;> simp [last, first]

/-- A comment that does not open with what closes it goes on up to `-->`. -/
theorem readInto_closedComment {data : List Char} (going : ¬ "-->".toList <:+: data) (some : data ≠ [])
    (other : data ≠ ['-']) (long : 2 ≤ trailing ('-' :: '-' :: data)) :
    ∃ body, ∀ b tail, readInto b ("<!--".toList ++ (data ++ '>' :: tail)) =
      readInto (b.step (.comment body)) tail := by
  have whole := two_le_trailing.1 long
  obtain ⟨body, rfl⟩ : ['-', '-'] <:+ data := by
    obtain ⟨c, data, rfl⟩ := List.exists_cons_of_ne_nil some
    cases data with
    | nil =>
      obtain ⟨front, same⟩ := whole
      have last := congrArg List.getLast? same
      simp only [List.getLast?_append, List.getLast?_cons_cons, List.getLast?_singleton,
        Option.some_or, Option.some.injEq] at last
      exact absurd (by rw [last]) other
    | cons d data =>
      exact List.suffix_of_suffix_length_le whole (List.suffix_append ['-', '-'] _) (by simp)
  refine ⟨String.ofList body, fun b tail => ?_⟩
  have open' : ¬ "-->".toList <:+: body := fun inside =>
    going (inside.trans (List.prefix_append body _).isInfix)
  have read := readInto_comment b open' tail
  simpa [Builder.step] using read

theorem going_concat {data : List Char} (going : ¬ "-->".toList <:+: data)
    (short : ¬ (c = '>' ∧ 2 ≤ trailing ('-' :: '-' :: data))) : ¬ "-->".toList <:+: data ++ [c] := by
  rw [List.infix_concat_iff]
  rintro (ends | inside)
  · rcases List.suffix_concat_iff.1 ends with none | ⟨front, same, ends⟩
    · exact absurd none (by decide)
    · have last := List.append_inj' (show ['-', '-'] ++ ['>'] = front ++ [c] from same) rfl
      obtain ⟨rfl, close⟩ := last
      refine short ⟨(List.singleton_inj.1 close).symm, two_le_trailing.2 ?_⟩
      exact ends.trans (List.suffix_append ['-', '-'] data)
  · exact going inside

/-! Raw text. -/

/-- The beginning of an end tag. -/
def endOf (tag : String) : List Char :=
  '<' :: '/' :: tag.toList

/-- What a reader holds of raw text: no end tag began in it, or one did, and only blanks came since. -/
inductive Raw (tag : String) : List Char → Prop
  | going {s : List Char} (none : ¬ endOf tag <:+: s.map Char.toLower) : Raw tag s
  | ending {text e u : List Char} (before : ¬ endOf tag <:+: text.map Char.toLower)
      (here : e.map Char.toLower = endOf tag) (blank : ∀ c ∈ u, Text.isBlank c = true) :
      Raw tag (text ++ (e ++ u))

theorem not_blank_of_toLower {d : Char} (h : Text.isBlank d.toLower = false) :
    Text.isBlank d = false := by
  cases capital : d.isUpper with
  | false => rwa [toLower_of_not_upper capital] at h
  | true => exact Template.not_blank_of_isTagChar (Template.isTagChar_of_isUpper capital)

theorem atEndTag_going {s : List Char} (none : ¬ endOf tag <:+: s.map Char.toLower) :
    Template.Scan.atEndTag tag s.reverse = false := by
  refine Bool.eq_false_iff.2 fun ends => none ?_
  have start := List.isPrefixOf_iff_prefix.1 ends
  have whole : (Text.trimStart s.reverse).map Char.toLower <:+ (s.map Char.toLower).reverse := by
    rw [← List.map_reverse]
    exact List.IsSuffix.map _ (List.dropWhile_suffix _)
  exact List.reverse_infix.1 (start.isInfix.trans whole.isInfix)

section
variable (tagged : ∀ d ∈ tag.toList, isTagChar d = true)
include tagged

theorem not_blank_of_endOf {d : Char} (h : d ∈ endOf tag) : Text.isBlank d = false ∧ d ≠ '>' := by
  rcases List.mem_cons.1 h with rfl | h
  · decide
  · rcases List.mem_cons.1 h with rfl | h
    · decide
    · refine ⟨Template.not_blank_of_isTagChar (tagged d h), ?_⟩
      rintro rfl
      exact absurd (tagged '>' h) (by decide)

/-- At the end tag of raw text, blanks may follow its name. -/
theorem atEndTag_ending (text : List Char) {e u : List Char} (here : e.map Char.toLower = endOf tag)
    (blank : ∀ c ∈ u, Text.isBlank c = true) :
    Template.Scan.atEndTag tag (text ++ (e ++ u)).reverse = true := by
  have back : (text ++ (e ++ u)).reverse = u.reverse ++ (e.reverse ++ text.reverse) := by simp
  obtain ⟨d, more, split⟩ : ∃ d more, e.reverse = d :: more := by
    refine List.exists_cons_of_ne_nil fun none => ?_
    rw [List.reverse_eq_nil_iff.1 none] at here
    cases here
  have shown : Text.isBlank d = false := by
    refine not_blank_of_toLower (not_blank_of_endOf tagged ?_).1
    rw [← here]
    exact List.mem_map_of_mem (List.mem_reverse.1 (split ▸ List.mem_cons_self))
  have trimmed : Text.trimStart (text ++ (e ++ u)).reverse = e.reverse ++ text.reverse := by
    rw [back, Text.trimStart, List.dropWhile_append_of_pos fun c hc => blank c (List.mem_reverse.1 hc),
      split]
    exact trimStart_of_not_blank shown _
  unfold Template.Scan.atEndTag
  rw [trimmed, List.map_append, List.map_reverse, here]
  exact List.isPrefixOf_iff_prefix.2 (List.prefix_append _ _)

/-- A character of raw text ends it, for a reader as for the scan, or is part of it. -/
theorem Raw.step {s : List Char} (h : Raw tag s)
    (tidy : Template.Scan.atEndTag tag s.reverse = true → Text.isBlank c = true ∨ c = '>') :
    (c = '>' ∧ Template.Scan.atEndTag tag s.reverse = true ∧
      ∃ text, ∀ tail, readRaw tag (s ++ '>' :: tail) = .ok (text, tail)) ∨
    (¬ (c = '>' ∧ Template.Scan.atEndTag tag s.reverse = true) ∧ Raw tag (s ++ [c])) := by
  cases h with
  | @going s none =>
    have other := atEndTag_going none
    refine .inr ⟨fun ended => absurd ended.2 (by rw [other]; exact Bool.false_ne_true), ?_⟩
    by_cases begins : endOf tag <:+: (s ++ [c]).map Char.toLower
    · rw [List.map_append] at begins
      have ends := (List.infix_concat_iff.1 begins).resolve_right none
      obtain ⟨front, same⟩ := ends
      rw [← List.map_singleton, ← List.map_append] at same
      obtain ⟨text, e, split, before, here⟩ := List.map_eq_append_iff.1 same.symm
      have start : text <+: s := by
        obtain ⟨e', d, rfl⟩ : ∃ e' d, e = e' ++ [d] := by
          rcases List.eq_nil_or_concat e with rfl | ⟨e', d, rfl⟩
          · cases here
          · exact ⟨e', d, List.concat_eq_append⟩
        rw [← List.append_assoc] at split
        exact ⟨e', (List.append_inj' split rfl).1.symm⟩
      rw [split, ← List.append_nil e]
      refine .ending (fun inside => none (inside.trans ?_)) here nofun
      exact (List.IsPrefix.map _ start).isInfix
    · exact .going begins
  | @ending text e u before here blank =>
    have ends := atEndTag_ending tagged text here blank
    rcases tidy ends with isBlank | rfl
    · refine .inr ⟨fun ended => ?_, ?_⟩
      · rw [ended.1] at isBlank
        exact absurd isBlank (by decide)
      · have longer := Raw.ending (u := u ++ [c]) before here (by
          simpa [or_imp, forall_and, isBlank] using blank)
        simpa using longer
    · refine .inl ⟨rfl, ends, text, fun tail => ?_⟩
      have new : '<' ∉ '/' :: tag.toList := by
        intro mem
        rcases List.mem_cons.1 mem with same | mem
        · exact absurd same (by decide)
        · exact absurd (tagged '<' mem) (by decide)
      have cut := Text.cut?_append_of_head new (s := text.map Char.toLower) before
        ((u ++ '>' :: tail).map Char.toLower)
      have lowered : (text ++ (e ++ u) ++ '>' :: tail).map Char.toLower =
          text.map Char.toLower ++ ('<' :: '/' :: tag.toList ++ (u ++ '>' :: tail).map Char.toLower) := by
        simp only [List.map_append, List.append_assoc, here, endOf]
      have rest : (text ++ (e ++ u) ++ '>' :: tail).drop text.length = e ++ u ++ '>' :: tail := by
        rw [List.append_assoc, List.drop_left]
      have shown : '>' ∉ e ++ u := by
        intro mem
        rcases List.mem_append.1 mem with mem | mem
        · have lower : '>' ∈ endOf tag := by
            rw [← here]
            exact List.mem_map.2 ⟨'>', mem, by decide⟩
          exact (not_blank_of_endOf tagged lower).2 rfl
        · exact absurd (blank '>' mem) (by decide)
      unfold readRaw
      rw [lowered, cut]
      simp only [List.length_map, rest, readUntil, Text.cut?_mark shown]
      rw [List.append_assoc, List.take_left]

end

end LiveMarkup.Markup
