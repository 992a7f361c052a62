import LiveMarkup.Proofs.Rereading

/-!
Rescanning: a scan goes the same way from whatever number it counts. The markup that two compilations
put together of raw chunks is spelled after one pattern, because references stand between marks.
-/
namespace LiveMarkup

/-! The course of a scan. -/

namespace Template.Scan
variable {s : Scan} {c : Char} {chars : List Char}

/-- The scan with references counted from `n` on. -/
def later (n : Nat) (s : Scan) : Scan :=
  { s with ref := s.ref.map fun r => ⟨n + r.number⟩, nextRef := n + s.nextRef }

theorem later_closeTag (n : Nat) (s : Scan) (selfClosing : Bool) :
    (s.later n).closeTag selfClosing = (s.closeTag selfClosing).later n := by
  unfold closeTag
  rw [apply_ite (later n)]
  rfl

theorem later_inner (n : Nat) (s : Scan) (c : Char) :
    (s.later n).inner c = (s.inner c).later n := by
  unfold inner
  simp only [apply_ite (later n), later_closeTag]
  rfl

/-- By cases on the place. -/
theorem later_advance (n : Nat) (s : Scan) (c : Char) :
    (s.later n).advance c = (s.advance c).later n := by
  have place : (s.later n).place = s.place := rfl
  unfold advance
  rw [place]
  cases s.place with
  | tagName =>
    simp only [apply_ite (later n)]
    exact congrArg _ (congrArg _ (ite_congr rfl (fun _ => later_closeTag n s.endName false)
      fun _ => rfl))
  | tagInner => exact later_inner n s c
  | afterAttributeName =>
    simp only [apply_ite (later n), ← later_inner]
    rfl
  | selfClosing =>
    simp only [apply_ite (later n), later_closeTag, later_inner]
    rfl
  | valueStart | valueEnd => rfl
  | _ =>
    simp only [apply_ite (later n), later_closeTag]
    rfl

theorem later_step (n : Nat) (s : Scan) (c : Char) : (s.later n).step c = (s.step c).later n := by
  unfold step
  rw [later_advance]
  rfl

theorem opensComment_cases (h : s.opensComment chars = true) :
    s.place = .tagOpen ∧ ∃ more, chars = '!' :: '-' :: '-' :: more := by
  unfold opensComment at h
  split at h
  case h_1 more => exact ⟨eq_of_beq h, more, rfl⟩
  case h_2 => cases h

theorem later_atSlot (n : Nat) (s : Scan) : (s.later n).atSlot = s.atSlot.later n := by
  unfold atSlot
  rw [apply_ite (later n)]
  rfl

theorem markerAt?_later (n : Nat) (s : Scan) :
    (s.later n).markerAt? = s.markerAt?.map fun p => (p.1, ⟨n + p.2.number⟩) := by
  have inside : (s.later n).place = s.place := rfl
  have marked : (s.later n).marked = s.marked := rfl
  have nameEnd : (s.later n).nameEnd = s.nameEnd := rfl
  have ref : (s.later n).ref = s.ref.map fun r => ⟨n + r.number⟩ := rfl
  unfold markerAt?
  rw [inside, marked, nameEnd, ref]
  split
  · cases s.nameEnd with
    | none => rfl
    | some offset =>
      cases s.ref with
      | none => rfl
      | some r => rfl
  · rfl

theorem later_slotToken (n : Nat) (s : Scan) (config : Config) (chunk : String) :
    ((s.later n).slotToken config chunk).2 = (s.slotToken config chunk).2.later n := by
  unfold slotToken
  rw [later_atSlot]
  dsimp only
  rw [markerAt?_later]
  cases s.atSlot.markerAt? with
  | none => rfl
  | some p => rfl

theorem fst_tokens_cons (config : Config) (s : Scan) (chunk chunk' : String) (rest : List String) :
    (s.tokens config (chunk :: chunk' :: rest)).1 =
      ((s.nextChunk.feed chunk.toList).slotToken config chunk).1 ::
        (((s.nextChunk.feed chunk.toList).slotToken config chunk).2.tokens config
          (chunk' :: rest)).1 :=
  rfl

theorem fst_tokens_ne_nil (config : Config) (s : Scan) (chunk : String) (rest : List String) :
    (s.tokens config (chunk :: rest)).1 ≠ [] := by
  cases rest with
  | nil => exact List.cons_ne_nil _ _
  | cons chunk' rest => exact List.cons_ne_nil _ _

/-- What a character does to the name that is pending: it goes on only where names are read. -/
theorem attr_advance (s : Scan) (c : Char) :
    (s.advance c).place ≠ .attributeName ∧
        ((s.advance c).attr = s.attr ∨ (s.advance c).attr = "") ∨
      (s.advance c).place = .attributeName ∧ ((s.advance c).attr = String.singleton c ∨
        s.place = .attributeName ∧ (s.advance c).attr = s.attr.push c) := by
  have close : ∀ (s : Scan) selfClosing, (s.closeTag selfClosing).place ≠ .attributeName ∧
      (s.closeTag selfClosing).attr = "" := by
    intro s selfClosing
    unfold closeTag
    split
    · exact ⟨nofun, rfl⟩
    · exact ⟨nofun, rfl⟩
  have inner : ∀ s : Scan, (s.inner c).place ≠ .attributeName ∧
        ((s.inner c).attr = s.attr ∨ (s.inner c).attr = "") ∨
      (s.inner c).place = .attributeName ∧ (s.inner c).attr = String.singleton c := by
    intro s
    unfold Scan.inner
    grind
  unfold advance
  cases place : s.place with
  | _ => grind [openTag, endName, endAttribute]

/-- What is being read of a name stands at the end of what was read of the chunk; any other name is a
good one. -/
structure Names (P : String → Prop) (read : List Char) (s : Scan) : Prop where
  reading : s.place = .attributeName → s.attr.toList <:+ read
  known : s.place ≠ .attributeName → P s.attr

variable {P : String → Prop} {read : List Char}

theorem Names.step (h : s.Names P read) (empty : P "")
    (parts : ∀ name : String, name.toList <:+ read → P name) : (s.step c).Names P (read ++ [c]) := by
  have old : P s.attr := by
    by_cases place : s.place = .attributeName
    · exact parts _ (h.reading place)
    · exact h.known place
  have place : (s.step c).place = (s.advance c).place := rfl
  have attr : (s.step c).attr = (s.advance c).attr := rfl
  rcases s.attr_advance c with ⟨other, same | none⟩ | ⟨naming, first | ⟨before, more⟩⟩
  · exact ⟨fun naming => absurd naming other, fun _ => by rw [attr, same]; exact old⟩
  · exact ⟨fun naming => absurd naming other, fun _ => by rw [attr, none]; exact empty⟩
  · refine ⟨fun _ => ?_, fun other => absurd naming other⟩
    rw [attr, first, String.toList_singleton]
    exact List.suffix_append read [c]
  · refine ⟨fun _ => ?_, fun other => absurd naming other⟩
    obtain ⟨front, same⟩ := h.reading before
    rw [attr, more, String.toList_push]
    exact ⟨front, by rw [← List.append_assoc, same]⟩

/-- By recursion on the characters. -/
theorem Names.feed (h : s.Names P read) (empty : P "")
    (parts : ∀ name : String, name.toList <:+: read ++ chars → P name) :
    (s.feed chars).Names P (read ++ chars) := by
  fun_induction Scan.feed s chars generalizing read with
  | case1 s => simpa using h
  | case2 s c rest comment ih =>
    obtain ⟨place, more, heq⟩ := opensComment_cases comment
    cases heq
    have entered : s.enterComment.Names P (read ++ ['!', '-', '-']) :=
      ⟨nofun, fun _ => h.known (by rw [place]; decide)⟩
    have all := ih entered (by simpa using parts)
    simpa using all
  | case3 s c rest other ih =>
    have before : ∀ name : String, name.toList <:+ read → P name := fun name suffix =>
      parts name (suffix.isInfix.trans (List.prefix_append read (c :: rest)).isInfix)
    have all := ih (h.step empty before) (by simpa using parts)
    simpa using all

/-! Ends of chunks in tags. -/

/-- A character that leaves a scan between attributes. -/
def Parts (c : Char) : Prop :=
  Text.isBlank c = true ∨ c = '\x22' ∨ c = '\x27'

end Template.Scan

theorem Markup.isBreak_of_isBlank {c : Char} (h : Text.isBlank c = true) :
    IsBreak c ∧ c ≠ '_' := by
  have none : ∀ d : Char, Text.isBlank d = false → c ≠ d := by
    rintro d solid rfl
    rw [h] at solid
    cases solid
  refine ⟨⟨Bool.eq_false_iff.2 fun letter => ?_, ?_⟩, none '_' (by decide)⟩
  · have tagChar : isTagChar c = true := by simp [isTagChar, letter]
    rw [Template.not_blank_of_isTagChar tagChar] at h
    cases h
  · simp only [List.mem_cons, List.not_mem_nil, or_false, not_or]
    exact ⟨none '&' (by decide), none ';' (by decide), none '#' (by decide), none '+' (by decide)⟩

namespace Renaming

open Template (Ref Config Scan Token)

variable (rn : Renaming)

/-- No part of the text could be taken for a reference, in whatever spelling. -/
def Silent (s : List Char) : Prop :=
  ∀ u, u <:+: s → rn.Raw u

/-- Two texts behind which others may follow. -/
def Fronts (s t : List Char) : Prop :=
  ∀ u v, rn.Texts rn.Raw u v → rn.Texts rn.Raw (s ++ u) (t ++ v)

/-- A reference that both compilations give out. -/
def Refs (r r' : Ref) : Prop :=
  ∃ k < rn.count, r = ⟨rn.old + k⟩ ∧ r' = ⟨rn.new + k⟩

variable {rn} {s t u v : List Char} {r r' : Ref}

theorem sharp_refs : Sharp rn.Refs := by
  rintro _ _ _ _ ⟨k, -, rfl, rfl⟩ ⟨j, -, rfl, rfl⟩
  rw [Bool.eq_iff_iff, beq_iff_eq, beq_iff_eq, Ref.mk.injEq, Ref.mk.injEq, Nat.add_left_cancel_iff,
    Nat.add_left_cancel_iff]

theorem Raw.nil : rn.Raw [] :=
  ⟨.nil, by rw [Markup.decode_nil]; exact .nil⟩

namespace Silent

theorem nil : rn.Silent [] := by
  intro u inside
  rw [List.infix_nil.1 inside]
  exact .nil

theorem of_part (h : rn.Silent s) (inside : u <:+: s) : rn.Silent u :=
  fun _ deeper => h _ (deeper.trans inside)

theorem texts (h : rn.Silent s) : rn.Texts rn.Raw s s :=
  ⟨Pattern.letters s, .letters h, Pattern.spell_letters s, Pattern.spell_letters s⟩

end Silent

namespace Fronts

theorem nil : rn.Fronts [] [] :=
  fun _ _ h => h

theorem append (h : rn.Fronts s t) (h' : rn.Fronts u v) : rn.Fronts (s ++ u) (t ++ v) := by
  intro a b both
  rw [List.append_assoc, List.append_assoc]
  exact h _ _ (h' a b both)

theorem texts (h : rn.Fronts s t) : rn.Texts rn.Raw s t := by
  have both := h [] [] (Silent.nil.texts)
  rwa [List.append_nil, List.append_nil] at both

end Fronts

/-- A reference ends the text before it. -/
theorem Texts.fronts_ref (h : rn.Texts rn.Raw s t) (refs : rn.Refs r r') :
    rn.Fronts (s ++ r.text.toList) (t ++ r'.text.toList) := by
  rintro u v ⟨g', valid', rfl, rfl⟩
  obtain ⟨g, valid, rfl, rfl⟩ := h
  obtain ⟨k, given, rfl, rfl⟩ := refs
  exact ⟨g ++ .ref k :: g', valid.append_ref valid' given, by simp [Pattern.spell],
    by simp [Pattern.spell]⟩

/-- A mark ends the text before it. -/
theorem Texts.fronts_mark (h : rn.Texts rn.Raw s t) {c : Char} (stop : Markup.IsBreak c)
    (mark : c ≠ '_') : rn.Fronts (s ++ [c]) (t ++ [c]) := by
  rintro u v ⟨g', valid', rfl, rfl⟩
  obtain ⟨g, valid, rfl, rfl⟩ := h
  exact ⟨g ++ .char c :: g', valid.append_char valid' fun s t hs ht => hs.append_cons ht stop mark,
    by simp [Pattern.spell], by simp [Pattern.spell]⟩

/-- A text between marks. -/
theorem Fronts.mark (h : rn.Fronts s t) (silent : rn.Silent u) {c : Char}
    (stop : Markup.IsBreak c) (mark : c ≠ '_') : rn.Fronts (s ++ (u ++ [c])) (t ++ (u ++ [c])) := by
  rw [← List.append_assoc, ← List.append_assoc]
  exact (h u u silent.texts).fronts_mark stop mark

variable {config : Config}

theorem Texts.fronts_marker (h : rn.Texts rn.Raw s t)
    (named : rn.Silent config.refAttribute.toList) (refs : rn.Refs r r') :
    rn.Fronts (s ++ (Template.marker config r).toList)
      (t ++ (Template.marker config r').toList) := by
  have blank : rn.Fronts (s ++ [' ']) (t ++ [' ']) := h.fronts_mark ⟨by decide, by decide⟩ (by decide)
  have equals := blank.mark named (c := '=') ⟨by decide, by decide⟩ (by decide)
  have opened := equals.mark .nil (c := '\x22') ⟨by decide, by decide⟩ (by decide)
  have closed := (opened.texts.fronts_ref refs).mark .nil (c := '\x22')
    ⟨by decide, by decide⟩ (by decide)
  simpa [Template.marker] using closed

/-! Tokens. -/

variable (rn) in
/-- Tokens that are the same but for references. A slot between attributes may go without markup of
its own, so that the next chunk follows at once. -/
structure Tokens (t t' : Token) : Prop where
  html : rn.Strings rn.Raw t.html t'.html
  front : t.place = .tagInner → rn.Fronts t.html.toList t'.html.toList
  place : t.place = t'.place
  tag : t.tag = t'.tag
  attr : t.attr = t'.attr
  ref : Option.Rel rn.Refs t.ref t'.ref
  name : t.place ≠ .attributeName → rn.Silent t.attr.toList

section
variable {scan : Scan} {chunk html html' : String}

end

end Renaming
end LiveMarkup
