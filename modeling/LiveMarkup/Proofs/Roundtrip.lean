import LiveMarkup.Proofs.Legible

/-!
Reading and printing as inverses. Every fragment that parses is legible: each item is, whatever the
input, and the builder puts legible items together. Main statement: legible trees are read from
their markup up to normal form, and what was parsed prints the same after it was printed and parsed
again.
-/
namespace LiveMarkup

namespace Text

/-- The first occurrence of a pattern has none before it. -/
theorem not_infix_of_cut? {pattern s before after : List Char} (nonempty : pattern ≠ [])
    (h : cut? pattern s = some (before, after)) : ¬ pattern <:+: before := by
  induction s generalizing before with
  | nil => exact absurd h (by simp [cut?, nonempty])
  | cons c s ih =>
    rw [cut?] at h
    split at h
    case isTrue =>
      cases h
      exact fun inside => nonempty (List.infix_nil.1 inside)
    case isFalse notHere =>
      obtain ⟨⟨before', after'⟩, later, eq⟩ := Option.map_eq_some_iff.1 h
      cases eq
      intro inside
      rcases List.infix_cons_iff.1 inside with here | there
      · have whole : c :: before' <+: c :: s := by
          rw [eq_append_of_cut? later, List.append_assoc]
          exact List.prefix_append (c :: before') _
        exact notHere (List.isPrefixOf_iff_prefix.2 (here.trans whole))
      · exact ih later there

/-- What the small letters have, and every character that is no capital if it has it itself, a
character has when it is made small. -/
theorem of_toLower {P : Char → Prop} {c : Char}
    (capital : ∀ n < 26, P (Char.ofNat ('A'.toNat + n)).toLower)
    (other : c.isUpper = false → P c) : P c.toLower := by
  cases h : c.isUpper with
  | true =>
    obtain ⟨low, high⟩ : 65 ≤ c.toNat ∧ c.toNat ≤ 90 := by
      delta Char.isUpper at h
      simpa [UInt32.le_iff_toNat_le] using h
    have := capital (c.toNat - 65) (by omega)
    rwa [show 'A'.toNat + (c.toNat - 65) = c.toNat by have : 'A'.toNat = 65 := rfl; omega,
      Char.ofNat_toNat] at this
  | false =>
    rw [Markup.toLower_of_not_upper h]
    exact other h

end Text

namespace Markup
open Text (of_toLower)

/-! Names in small letters. -/

theorem isUpper_toLower (c : Char) : c.toLower.isUpper = false :=
  of_toLower (P := fun c => c.isUpper = false) (by decide) id

theorem isTagStart_toLower {c : Char} (h : isTagStart c = true) : isTagStart c.toLower = true :=
  of_toLower (P := fun c => isTagStart c = true) (by decide) fun _ => h

theorem isTagChar_toLower {c : Char} (h : isTagChar c = true) : isTagChar c.toLower = true :=
  of_toLower (P := fun c => isTagChar c = true) (by decide) fun _ => h

theorem isAttributeChar_toLower {c : Char} (h : isAttributeChar c = true) :
    isAttributeChar c.toLower = true :=
  of_toLower (P := fun c => isAttributeChar c = true) (by decide) fun _ => h

theorem toList_lowercase (s : List Char) :
    (Text.lowercase (String.ofList s)).toList = s.map Char.toLower := by
  simp [Text.lowercase]

theorem isTag_lowercase {c : Char} {s : List Char} (h : isTagStart c = true) :
    IsTag (Text.lowercase (String.ofList ((c :: s).takeWhile isTagChar))) := by
  have first : isTagChar c = true := isTagChar_of_isTagStart h
  refine ⟨⟨c.toLower, (s.takeWhile isTagChar).map Char.toLower, ?_, isTagStart_toLower h⟩, ?_, ?_⟩
  · rw [toList_lowercase, List.takeWhile_cons_of_pos first, List.map_cons]
  · intro d hd
    rw [toList_lowercase] at hd
    obtain ⟨e, he, rfl⟩ := List.mem_map.1 hd
    exact isTagChar_toLower (List.all_eq_true.1 List.all_takeWhile e he)
  · intro d hd
    rw [toList_lowercase] at hd
    obtain ⟨e, -, rfl⟩ := List.mem_map.1 hd
    exact isUpper_toLower e

theorem isAttributeName_lowercase {c : Char} {s : List Char} (h : isAttributeChar c = true) :
    IsAttributeName (Text.lowercase (String.ofList ((c :: s).takeWhile isAttributeChar))) := by
  refine ⟨?_, ?_, ?_⟩
  · rw [toList_lowercase, List.takeWhile_cons_of_pos h]
    exact List.cons_ne_nil _ _
  · intro d hd
    rw [toList_lowercase] at hd
    obtain ⟨e, he, rfl⟩ := List.mem_map.1 hd
    exact isAttributeChar_toLower (List.all_eq_true.1 List.all_takeWhile e he)
  · intro d hd
    rw [toList_lowercase] at hd
    obtain ⟨e, -, rfl⟩ := List.mem_map.1 hd
    exact isUpper_toLower e

/-! Items. -/

/-- Whether a start tag can be told from its markup. -/
structure Named (tag : String) (attributes : Attributes) : Prop where
  tag : IsTag tag
  attributes : ∀ name ∈ attributes.keys, IsAttributeName name

/-- Whether an item can be told from its markup. -/
def Item.Legible : Item → Prop
  | .text _ | .declaration | .ending _ => True
  | .comment data => ¬ "-->".toList <:+: data.toList
  | .opening tag attributes => Named tag attributes ∧ isVoid tag = false ∧ isRaw tag = false
  | .closed tag attributes content =>
    Named tag attributes ∧ (isVoid tag = true → content = "") ∧
      (isRaw tag = true → ¬ Ends tag content)

theorem readAttributes_names {found : Attributes} {s : List Char}
    {r : Attributes × Bool × List Char} (h : readAttributes found s = .ok r)
    (names : ∀ name ∈ found.keys, IsAttributeName name) :
    ∀ name ∈ r.1.keys, IsAttributeName name := by
  fun_induction readAttributes found s with
  | case1 => simp at h
  | case2 => cases h; exact names
  | case3 => cases h; exact names
  | case4 found s c rest _ _ _ _ isName name value after assigned _ ih =>
    refine ih h fun n hn => ?_
    split at hn
    · exact names n hn
    case isFalse =>
      obtain ⟨e, he, rfl⟩ := List.mem_map.1 hn
      rcases Ordered.fst_mem_of_mem_put he with eq | ⟨e', he', eq⟩
      · exact eq ▸ isAttributeName_lowercase isName
      · exact eq ▸ names e'.1 (List.mem_map_of_mem he')
  | case5 => simp at h
  | case6 found s c rest _ _ _ _ _ _ ih => exact ih h names

theorem readRaw_opened {tag : String} {s text after : List Char}
    (h : readRaw tag s = .ok (text, after)) : ¬ Ends tag (String.ofList text) := by
  unfold readRaw at h
  split at h
  case h_1 => cases h
  case h_2 before rest cut =>
    have clear := Text.not_infix_of_cut? (List.cons_ne_nil _ _) cut
    split at h
    case h_2 => cases h
    case h_1 =>
      cases h
      have same : (s.take before.length).map Char.toLower = before := by
        have := congrArg (List.take before.length) (Text.eq_append_of_cut? cut)
        rw [List.append_assoc, List.take_left] at this
        rw [List.map_take, this]
      rwa [Ends, String.toList_ofList, same]

theorem readElement_legible {c : Char} {s after : List Char} {item : Item} (start : isTagStart c = true)
    (h : readElement (c :: s) = .ok (item, after)) : item.Legible := by
  unfold readElement at h
  dsimp only at h
  have isTag := isTag_lowercase (s := s) start
  generalize Text.lowercase (String.ofList ((c :: s).takeWhile isTagChar)) = tag at h isTag
  split at h
  case h_1 => cases h
  case h_2 attributes selfClosing rest read =>
    have named : Named tag attributes := ⟨isTag, readAttributes_names read (by simp [Ordered.keys, Ordered.empty])⟩
    split at h
    case isTrue =>
      cases h
      refine ⟨named, fun _ => rfl, fun _ ends => ?_⟩
      exact absurd (List.infix_nil.1 ends) (List.cons_ne_nil _ _)
    case isFalse open' =>
      have notVoid : isVoid tag = false := by simp_all
      split at h
      case isTrue =>
        split at h
        case h_1 raw =>
          cases h
          refine ⟨named, fun void => ?_, fun _ => readRaw_opened raw⟩
          exact absurd (notVoid.symm.trans void) (by decide)
        case h_2 => cases h
      case isFalse notRaw =>
        cases h
        exact ⟨named, notVoid, Bool.eq_false_iff.2 notRaw⟩

theorem readEnding_legible {s after : List Char} {item : Item}
    (h : readEnding s = .ok (item, after)) : item.Legible := by
  unfold readEnding at h
  dsimp only at h
  split at h
  · cases h
    trivial
  · cases h

theorem readItem_legible {c : Char} {rest after : List Char} {item : Item}
    (h : readItem c rest = .ok (item, after)) : item.Legible := by
  have text : ∀ {c rest}, (.ok (readText c rest) : Except Unfinished _) = .ok (item, after) →
      item.Legible := by
    intro c rest h
    cases h
    trivial
  unfold readItem at h
  split at h
  case isFalse => exact text h
  case isTrue =>
    split at h
    case h_1 body =>
      unfold readUntil at h
      split at h
      case h_1 r cut =>
        obtain ⟨data, rest⟩ := r
        have closed : ¬ "-->".toList <:+: data :=
          Text.not_infix_of_cut? (List.cons_ne_nil _ _) cut
        cases h
        change ¬ "-->".toList <:+: (String.ofList data).toList
        rwa [String.toList_ofList (l := data)]
      case h_2 => cases h
    case h_2 d body =>
      split at h
      · exact readEnding_legible h
      · exact text h
    case h_3 body _ =>
      cases read : readUntil ['>'] .declaration body with
      | error e =>
        rw [read] at h
        cases h
      | ok r =>
        rw [read] at h
        cases h
        trivial
    case h_4 d body _ _ =>
      split at h
      case isTrue start => exact readElement_legible start h
      case isFalse => exact text h
    case h_5 => exact text h

theorem items_legible {s : List Char} {l : List Item} (h : items s = .ok l) :
    ∀ item ∈ l, item.Legible := by
  fun_induction items s generalizing l with
  | case1 =>
    cases h
    exact List.forall_mem_nil _
  | case2 => cases h
  | case3 => cases h
  | case4 c rest item after read _ more later ih =>
    cases h
    exact List.forall_mem_cons.2 ⟨readItem_legible read, ih later⟩

/-! The fragment under construction. -/

theorem legibleAll_iff {ts : List Tree} : LegibleAll ts ↔ ∀ t ∈ ts, t.Legible := by
  induction ts with
  | nil => simp [LegibleAll]
  | cons t ts ih => simp [LegibleAll, ih]

/-- Whether an open element can be told from its markup, when it is closed. -/
structure Frame.Legible (f : Frame) : Prop where
  named : Named f.tag f.attributes
  notVoid : isVoid f.tag = false
  notRaw : isRaw f.tag = false
  elder : ∀ t ∈ f.elder, t.Legible

namespace Builder

/-- Whether everything that was read can be told from its markup. -/
structure Legible (b : Builder) : Prop where
  here : ∀ t ∈ b.here, t.Legible
  frames : ∀ f ∈ b.frames, f.Legible

variable {b : Builder}

theorem Legible.add (h : b.Legible) {t : Tree} (legible : t.Legible) : (b.add t).Legible :=
  ⟨List.forall_mem_cons.2 ⟨legible, h.here⟩, h.frames⟩

theorem closeAll_legible {here : List Tree} {outer inner : List Frame}
    (sound : ∀ t ∈ here, t.Legible) (outside : ∀ f ∈ outer, f.Legible)
    (inside : ∀ f ∈ inner, f.Legible) : (closeAll here outer inner).Legible := by
  induction inner generalizing here with
  | nil => exact ⟨sound, outside⟩
  | cons f inner ih =>
    obtain ⟨frame, later⟩ := List.forall_mem_cons.1 inside
    have closed : (Tree.element f.tag f.attributes here.reverse).Legible := by
      refine ⟨frame.named.tag, frame.named.attributes, fun void => ?_, fun raw => ?_, ?_⟩
      · exact absurd (frame.notVoid.symm.trans void) (by decide)
      · exact absurd (frame.notRaw.symm.trans raw) (by decide)
      · exact legibleAll_iff.2 fun t ht => sound t (List.mem_reverse.1 ht)
    exact ih (List.forall_mem_cons.2 ⟨closed, frame.elder⟩) later

theorem Legible.close (h : b.Legible) (tag : String) : (b.close tag).Legible := by
  unfold Builder.close
  dsimp only
  have kept : ∀ f ∈ b.frames.drop (b.frames.takeWhile fun f => f.tag != tag).length, f.Legible :=
    fun f hf => h.frames f (List.mem_of_mem_drop hf)
  split
  case h_1 => exact h
  case h_2 f outer found =>
    rw [found] at kept
    obtain ⟨first, outside⟩ := List.forall_mem_cons.1 kept
    refine closeAll_legible h.here outside fun g hg => ?_
    rcases List.mem_append.1 hg with hg | hg
    · exact h.frames g ((List.takeWhile_sublist _).subset hg)
    · exact List.mem_singleton.1 hg ▸ first

theorem Legible.step (h : b.Legible) {item : Item} (legible : item.Legible) :
    (b.step item).Legible := by
  cases item with
  | text data => exact h.add trivial
  | comment data => exact h.add legible
  | declaration => exact h
  | ending tag => exact h.close tag
  | opening tag attributes =>
    obtain ⟨named, notVoid, notRaw⟩ := legible
    exact ⟨fun t ht => absurd ht List.not_mem_nil,
      List.forall_mem_cons.2 ⟨⟨named, notVoid, notRaw, h.here⟩, h.frames⟩⟩
  | closed tag attributes content =>
    obtain ⟨named, void, raw⟩ := legible
    have texts : ∀ t ∈ if content.isEmpty then [] else [Tree.text content], t.IsText := by
      split <;> simp [Tree.IsText]
    have whole : contentAll (if content.isEmpty then [] else [.text content]) = content := by
      split
      case isTrue empty => exact (String.isEmpty_iff.1 empty).symm
      case isFalse => simp [contentAll, Tree.content]
    refine h.add ⟨named.tag, named.attributes, fun isVoid => ?_, fun isRaw => ⟨texts, ?_⟩, ?_⟩
    · rw [void isVoid]
      rfl
    · rw [whole]
      exact raw isRaw
    · refine legibleAll_iff.2 fun t ht => ?_
      cases t with
      | text data => trivial
      | comment data => exact (texts _ ht).elim
      | element tag attributes children => exact (texts _ ht).elim

theorem Legible.steps (h : b.Legible) {l : List Item} (legible : ∀ item ∈ l, item.Legible) :
    (l.foldl Builder.step b).Legible := by
  induction l generalizing b with
  | nil => exact h
  | cons item l ih =>
    obtain ⟨first, later⟩ := List.forall_mem_cons.1 legible
    exact ih (h.step first) later

theorem Legible.finish (h : b.Legible) : LegibleAll b.finish := by
  have closed := closeAll_legible h.here (List.forall_mem_nil _) h.frames
  exact legibleAll_iff.2 fun t ht => closed.here t (List.mem_reverse.1 ht)

end Builder

/-- What parses is legible. -/
theorem legible_of_parse {s : String} {ts : List Tree} (h : parse s = .ok ts) : LegibleAll ts := by
  unfold parse at h
  cases read : items s.toList with
  | error e =>
    rw [read] at h
    cases h
  | ok l =>
    rw [read] at h
    cases h
    have start : Builder.start.Legible := ⟨List.forall_mem_nil _, List.forall_mem_nil _⟩
    exact (start.steps (items_legible read)).finish

/-- Printing and parsing are inverse to each other: legible trees come back in normal form, what
parses is legible, and its markup parses to trees that have the same markup again. -/
theorem printing_inverts_parsing :
    (∀ ts, LegibleAll ts → parse (html ts) = .ok (normalAll ts)) ∧
      ∀ s ts, parse s = .ok ts →
        LegibleAll ts ∧ ∃ ts', parse (html ts) = .ok ts' ∧ html ts' = html ts := by
  refine ⟨fun ts legible => parse_html legible, fun s ts parsed => ?_⟩
  have legible : LegibleAll ts := legible_of_parse parsed
  refine ⟨legible, normalAll ts, parse_html legible, ?_⟩
  rw [html, html, printAll_normalAll]

/-- Trees with all that printing and parsing have to take care of: markup in text and in a value,
texts that touch, an empty one, a void element, raw text that looks like an end tag, a comment. -/
def mixed : List Tree :=
  [.element "p" (.ofList [("title", "\x22&amp;")])
    [.text "a<b", .text "", .text "&lt;", .element "br" .empty [],
      .element "script" .empty [.text "x</", .text "b>"], .comment "->"]]

theorem printing_inverts_parsing_mixed :
    LegibleAll mixed ∧
      parse (html mixed) =
        .ok [.element "p" (.ofList [("title", "\x22&amp;")])
          [.text "a<b&lt;", .element "br" .empty [], .element "script" .empty [.text "x</b>"],
            .comment "->"]] ∧
      LegibleAll (normalAll mixed) ∧
        ∃ ts, parse (html (normalAll mixed)) = .ok ts ∧ html ts = html (normalAll mixed) := by
  have legible : LegibleAll mixed := by decide
  have parsed := printing_inverts_parsing.1 mixed legible
  exact ⟨legible, parsed, printing_inverts_parsing.2 (html mixed) _ parsed⟩

end Markup
end LiveMarkup
