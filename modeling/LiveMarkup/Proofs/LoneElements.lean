import LiveMarkup.Proofs.Roundtrip
import LiveMarkup.Proofs.StartTags

/-!
Elements that hold nothing, written in small letters or in capitals: a start tag and, directly behind
it, the end tag. Whatever sort the element is of, void, of raw text or neither, the parser takes the two
for one element in small letters. The scan of the start tag is at the same name behind it, and at the
name of an attribute as it is written.
-/
namespace LiveMarkup

namespace Markup

/-- Whether markup reads a string as the whole name of a tag. It keeps the name in small letters. -/
structure IsTagName (tag : String) : Prop where
  start : ∃ c rest, tag.toList = c :: rest ∧ isTagStart c = true
  readable : ∀ c ∈ tag.toList, isTagChar c = true

/-- Whether markup reads a string as the whole name of an attribute. -/
structure IsKey (name : String) : Prop where
  nonempty : name.toList ≠ []
  readable : ∀ c ∈ name.toList, isAttributeChar c = true

instance : DecidablePred IsKey := fun name =>
  decidable_of_iff (name.toList ≠ [] ∧ name.toList.all isAttributeChar = true) <| by
    rw [List.all_eq_true]
    exact ⟨fun ⟨h₁, h₂⟩ => ⟨h₁, h₂⟩, fun ⟨h₁, h₂⟩ => ⟨h₁, h₂⟩⟩

theorem IsTag.isTagName {tag : String} (h : IsTag tag) : IsTagName tag :=
  ⟨h.start, h.readable⟩

theorem toList_lowercase_string (s : String) :
    (Text.lowercase s).toList = s.toList.map Char.toLower := by
  simp [Text.lowercase]

/-! The parser. -/

section
variable {tag : String} (h : IsTagName tag)
include h

theorem IsTagName.lowercase : IsTag (Text.lowercase tag) := by
  obtain ⟨c, rest, split, letter⟩ := h.start
  have whole := (takeWhile_append_stop [] h.readable nofun).1
  have isTag := isTag_lowercase (s := rest) letter
  rw [List.append_nil, split] at whole
  rwa [whole, ← split, String.ofList_toList] at isTag

/-- An end tag closes its element, if there is one. -/
theorem readInto_printEnd (b : Builder) (rest : List Char) :
    readInto b (printEnd tag ++ rest) = readInto (b.close (Text.lowercase tag)) rest := by
  obtain ⟨c, name, split, letter⟩ := h.start
  obtain ⟨taken, dropped⟩ := takeWhile_append_stop ('>' :: rest) h.readable (by simp [isTagChar])
  have cut := Text.cut?_mark (d := '>') List.not_mem_nil rest
  rw [List.nil_append] at cut
  have ending : readEnding (tag.toList ++ '>' :: rest) = .ok (.ending (Text.lowercase tag), rest) := by
    simp only [readEnding, taken, dropped, String.ofList_toList, readUntil, cut]
  have read : readItem '<' ('/' :: (tag.toList ++ '>' :: rest)) =
      .ok (.ending (Text.lowercase tag), rest) := by
    rw [split] at ending ⊢
    simp only [List.cons_append] at ending ⊢
    simp [readItem, letter, ending]
  simpa [printEnd, Builder.step] using readInto_item b _ read

/-- Raw text that is empty ends at once. -/
theorem readRaw_empty (after : List Char) :
    readRaw (Text.lowercase tag) (printEnd tag ++ after) = .ok ([], after) := by
  have lowered : (printEnd tag ++ after).map Char.toLower =
      '<' :: '/' :: (Text.lowercase tag).toList ++ ('>' :: after).map Char.toLower := by
    simp only [printEnd, toList_lowercase_string, List.map_append, List.map_cons, List.cons_append,
      List.append_assoc, List.nil_append]
    rfl
  have cut : ∀ (p s : List Char), p ≠ [] → Text.cut? p (p ++ s) = some ([], s) := by
    intro p s nonempty
    obtain ⟨c, p, rfl⟩ := List.exists_cons_of_ne_nil nonempty
    simp [Text.cut?]
  have mark : '>' ∉ '<' :: '/' :: tag.toList := by
    simp only [List.mem_cons, not_or]
    exact ⟨by decide, by decide, fun mem => absurd (h.readable _ mem) (by decide)⟩
  have closed := Text.cut?_mark mark after
  rw [readRaw, lowered, cut _ _ (List.cons_ne_nil _ _)]
  simp only [List.length_nil, List.drop_zero, List.take_zero, readUntil, printEnd, List.cons_append,
    List.append_assoc, List.nil_append] at closed ⊢
  rw [closed]

/-- An element that holds nothing is read as that, where it is in no other. A void element is over with
its start tag, and its end tag closes nothing. -/
theorem readInto_lone {attributes : Attributes} {s after : List Char}
    (stop : ∀ c ∈ s.head?, isTagChar c = false)
    (read : readAttributes .empty s = .ok (attributes, false, printEnd tag ++ after)) (here : List Tree) :
    readInto ⟨here, []⟩ ('<' :: tag.toList ++ s) =
      readInto ⟨.element (Text.lowercase tag) attributes [] :: here, []⟩ after := by
  obtain ⟨taken, dropped⟩ := takeWhile_append_stop s h.readable stop
  have item := readItem_element h.start s
  simp only [readElement, taken, dropped, String.ofList_toList, read, Bool.false_or] at item
  by_cases void : isVoid (Text.lowercase tag) = true
  case pos =>
    rw [if_pos void] at item
    rw [List.cons_append, readInto_item _ _ item, readInto_printEnd h]
    simp [Builder.step, Builder.add, Builder.close]
  case neg =>
    rw [if_neg void] at item
    by_cases raw : isRaw (Text.lowercase tag) = true
    case pos =>
      rw [if_pos raw, readRaw_empty h] at item
      rw [List.cons_append, readInto_item _ _ item]
      simp [Builder.step, Builder.add]
    case neg =>
      rw [if_neg raw] at item
      rw [List.cons_append, readInto_item _ _ item, readInto_printEnd h]
      simp [Builder.step, Builder.close, Builder.closeAll]

/-- What a text without `<` is read as. -/
def textTrees (s : List Char) : List Tree :=
  if s = [] then [] else [.text (String.ofList (decode s))]

omit h in
theorem readInto_textTrees {s rest : List Char} (plain : '<' ∉ s) (ends : EndsText rest)
    (here : List Tree) :
    readInto ⟨here, []⟩ (s ++ rest) = readInto ⟨(textTrees s).reverse ++ here, []⟩ rest := by
  unfold textTrees
  split
  case isTrue empty => rw [empty]; rfl
  case isFalse nonempty => exact readInto_plain _ nonempty plain ends

/-- An element that holds nothing between texts parses to that. -/
theorem parse_lone {attributes : Attributes} {s before after : List Char}
    (plain : '<' ∉ before) (plain' : '<' ∉ after) (stop : ∀ c ∈ s.head?, isTagChar c = false)
    (read : readAttributes .empty s = .ok (attributes, false, printEnd tag ++ after)) :
    parse (String.ofList (before ++ ('<' :: tag.toList ++ s))) =
      .ok (textTrees before ++ .element (Text.lowercase tag) attributes [] :: textTrees after) := by
  obtain ⟨c, rest, split, letter⟩ := h.start
  have opens : EndsText ('<' :: tag.toList ++ s) := by
    right
    simp [split, opensMarkup, letter]
  have ends := readInto_textTrees plain' (.inl rfl : EndsText [])
    (.element (Text.lowercase tag) attributes [] :: ((textTrees before).reverse ++ []))
  rw [List.append_nil after] at ends
  rw [parse_eq, String.toList_ofList, Builder.start, readInto_textTrees plain opens,
    readInto_lone h stop read, ends, readInto_nil]
  simp [Except.map, Builder.finish, Builder.closeAll]

end

end Markup

namespace Template

open Markup

/-! The scan. -/

namespace Scan

/-- The letters of a tag's name. -/
theorem feed_tagName {s : Scan} (place : s.place = .tagName) {cs : List Char}
    (plain : ∀ c ∈ cs, isTagChar c = true) (more : List Char) :
    ∃ hyphens, s.feed (cs ++ more) = feed { s with
      tag := s.tag ++ Text.lowercase (String.ofList cs), read := s.read + cs.length, hyphens } more := by
  induction cs generalizing s with
  | nil => exact ⟨s.hyphens, by simp [Text.lowercase]⟩
  | cons c cs ih =>
    have readable := plain c List.mem_cons_self
    have apart : c ≠ '/' ∧ c ≠ '>' := by
      constructor <;> (rintro rfl; exact absurd readable (by decide))
    have advance : s.advance c = { s with tag := s.tag.push c.toLower } := by
      simp [Scan.advance, place, not_blank_of_isTagChar readable, apart]
    obtain ⟨hyphens, later⟩ := ih (s := s.step c) (by rw [Scan.step, advance]; exact place)
      fun d hd => plain d (List.mem_cons_of_mem _ hd)
    refine ⟨hyphens, ?_⟩
    rw [List.cons_append, feed_cons (.inl (by rw [place]; decide)), later]
    have tag : s.tag.push c.toLower ++ Text.lowercase (String.ofList cs) =
        s.tag ++ Text.lowercase (String.ofList (c :: cs)) := by
      apply String.toList_inj.1
      simp [toList_lowercase_string]
    simp only [Scan.step, advance, tag, List.length_cons, Nat.add_assoc, Nat.add_comm 1]

/-- The letters of an attribute's name. -/
theorem feed_attributeName {s : Scan} (place : s.place = .attributeName) {cs : List Char}
    (plain : ∀ c ∈ cs, isAttributeChar c = true) (more : List Char) :
    ∃ hyphens, s.feed (cs ++ more) = feed { s with
      attr := s.attr ++ String.ofList cs, read := s.read + cs.length, hyphens } more := by
  induction cs generalizing s with
  | nil => exact ⟨s.hyphens, by simp⟩
  | cons c cs ih =>
    have readable := plain c List.mem_cons_self
    have apart : c ≠ '=' ∧ c ≠ '/' ∧ c ≠ '>' := by
      refine ⟨?_, ?_, ?_⟩ <;> (rintro rfl; exact absurd readable (by decide))
    have advance : s.advance c = { s with attr := s.attr.push c } := by
      simp [Scan.advance, place, not_blank_of_isAttributeChar readable, apart]
    obtain ⟨hyphens, later⟩ := ih (s := s.step c) (by rw [Scan.step, advance]; exact place)
      fun d hd => plain d (List.mem_cons_of_mem _ hd)
    refine ⟨hyphens, ?_⟩
    rw [List.cons_append, feed_cons (.inl (by rw [place]; decide)), later]
    have attr : s.attr.push c ++ String.ofList cs = s.attr ++ String.ofList (c :: cs) := by
      apply String.toList_inj.1
      simp
    simp only [Scan.step, advance, attr, List.length_cons, Nat.add_assoc, Nat.add_comm 1]

/-- Text goes on up to the next `<`. -/
theorem place_feed_text {s : Scan} (place : s.place = .outer) {cs : List Char} (plain : '<' ∉ cs) :
    (s.feed cs).place = .outer := by
  induction cs generalizing s with
  | nil => simpa [feed] using place
  | cons c cs ih =>
    have apart : c ≠ '<' := fun e => plain (e ▸ List.mem_cons_self)
    rw [feed_cons (.inl (by rw [place]; decide))]
    refine ih ?_ fun mem => plain (List.mem_cons_of_mem _ mem)
    simp [Scan.step, Scan.advance, place, apart]

/-- A scan in the first start tag of a template, behind the name of the tag. The tag carries no marker
yet. -/
def named (n : Nat) (tag : String) (read hyphens : Nat) : Scan where
  place := .tagInner
  tag := Text.lowercase tag
  attr := ""
  ref := some ⟨n⟩
  marked := false
  raw := []
  read := read
  hyphens := hyphens
  nameEnd := some (tag.toList.length + 1)
  nextRef := n + 1

/-- The name of a tag with a blank behind it. -/
theorem feed_named (n : Nat) {tag : String} (h : IsTagName tag) (more : List Char) :
    ∃ read hyphens, (start n).feed ('<' :: tag.toList ++ ' ' :: more) =
      (named n tag read hyphens).feed more := by
  obtain ⟨c, rest, split, letter⟩ := h.start
  have notBang : c ≠ '!' := by
    rintro rfl
    exact absurd letter (by decide)
  obtain ⟨s, opened⟩ : ∃ s, ((start n).step '<').step c = s := ⟨_, rfl⟩
  have one : s = ⟨.tagName, String.singleton c.toLower, "", some ⟨n⟩, false, [], 2,
      if c = '-' then 1 else 0, none, n + 1⟩ := by
    simp [← opened, Scan.step, Scan.advance, start, letter, openTag]
  have letters : ∀ d ∈ rest, isTagChar d = true :=
    fun d hd => h.readable d (split ▸ List.mem_cons_of_mem _ hd)
  obtain ⟨hyphens, read⟩ := feed_tagName (s := s) (by rw [one]) letters (' ' :: more)
  have name : String.singleton c.toLower ++ Text.lowercase (String.ofList rest) =
      Text.lowercase tag := by
    apply String.toList_inj.1
    simp [toList_lowercase_string, split]
  have length : 2 + rest.length = tag.toList.length + 1 := by
    rw [split, List.length_cons]
    omega
  refine ⟨2 + rest.length + 1, 0, ?_⟩
  rw [split, List.cons_append, List.cons_append, feed_cons (.inl (by simp [start])), feed_cons (.inr notBang),
    opened, read, one, feed_cons (.inl (by simp))]
  simp [Scan.step, Scan.advance, endName, isBlank_space, name, Scan.named, length]

/-- The name of an attribute with the equals sign behind it. -/
theorem feed_key {s : Scan} (place : s.place = .tagInner) {name : String} (h : IsKey name) :
    ∃ read hyphens, s.feed (name.toList ++ ['=']) =
      { s with place := .beforeValue, attr := name, read, hyphens } := by
  obtain ⟨c, rest, split⟩ := List.exists_cons_of_ne_nil h.nonempty
  have readable := h.readable c (split ▸ List.mem_cons_self)
  have apart : c ≠ '/' ∧ c ≠ '>' := by
    constructor <;> (rintro rfl; exact absurd readable (by decide))
  have advance : s.advance c = { s with attr := String.singleton c, place := .attributeName } := by
    simp [Scan.advance, place, Scan.inner, not_blank_of_isAttributeChar readable, apart]
  have letters : ∀ d ∈ rest, isAttributeChar d = true :=
    fun d hd => h.readable d (split ▸ List.mem_cons_of_mem _ hd)
  obtain ⟨hyphens, read⟩ := feed_attributeName (s := s.step c) (by simp [Scan.step, advance]) letters
    ['=']
  have whole : String.singleton c ++ String.ofList rest = name := by
    apply String.toList_inj.1
    simp [split]
  refine ⟨s.read + 1 + rest.length + 1, 0, ?_⟩
  rw [split, List.cons_append, feed_cons (.inl (by rw [place]; decide)), read]
  simp only [Scan.step, advance, whole]
  rw [feed_cons (.inl (by simp)), feed]
  simp [Scan.step, Scan.advance]

end Scan
end Template
end LiveMarkup
