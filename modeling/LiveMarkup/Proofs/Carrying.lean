import LiveMarkup.Markup.Fragment
import LiveMarkup.Proofs.Grafting

/-!
The elements of a fragment under construction. Each item but a start tag leaves the carriers of an
attribute as they are, wherever end tags put them, and what is to hold nothing holds nothing.
-/
namespace LiveMarkup.Markup

variable {name value tag : String} {q : Attributes → Bool}

theorem elementsWithAll_append (name value : String) (l m : List Tree) :
    elementsWithAll name value (l ++ m) =
      elementsWithAll name value l ++ elementsWithAll name value m := by
  induction l with
  | nil => rfl
  | cons t l ih => rw [List.cons_append, elementsWithAll, ih, elementsWithAll, List.append_assoc]

theorem elementsWithAll_reverse (name value : String) (l : List Tree) :
    (elementsWithAll name value l.reverse).Perm (elementsWithAll name value l) := by
  induction l with
  | nil => exact .refl _
  | cons t l ih =>
    rw [List.reverse_cons, elementsWithAll_append, elementsWithAll]
    refine (ih.append_right _).trans ?_
    rw [elementsWithAll, elementsWithAll, List.append_nil]
    exact List.perm_append_comm

/-- The attributes, if the one of the given name has the value. -/
def carrier (name value : String) (attributes : Attributes) : List Attributes :=
  if attributes.value? name = some value then [attributes] else []

theorem elementsWith_element (name value tag : String) (attributes : Attributes)
    (children : List Tree) : (Tree.element tag attributes children).elementsWith name value =
      carrier name value attributes ++ elementsWithAll name value children := by
  rw [Tree.elementsWith]
  rfl

theorem hollowAll_iff {ts : List Tree} : hollowAll q ts = true ↔ ∀ t ∈ ts, t.hollow q = true := by
  induction ts with
  | nil => simp [hollowAll]
  | cons t ts ih => simp [hollowAll, ih]

namespace Builder
variable {b : Builder}

/-- The elements that are there or open whose attribute has the value, the innermost ones first. -/
def carriers (name value : String) (b : Builder) : List Attributes :=
  elementsWithAll name value b.here ++ b.frames.flatMap fun f =>
    carrier name value f.attributes ++ elementsWithAll name value f.elder

/-- Elements that are to hold nothing hold nothing, and none of them is open. -/
structure Hollow (q : Attributes → Bool) (b : Builder) : Prop where
  here : hollowAll q b.here = true
  frames : ∀ f ∈ b.frames, q f.attributes = false ∧ hollowAll q f.elder = true

/-- By recursion on the elements that are closed. -/
theorem carriers_closeAll (name value : String) (here : List Tree) (outer inner : List Frame) :
    ((closeAll here outer inner).carriers name value).Perm
      (carriers name value ⟨here, inner ++ outer⟩) := by
  induction inner generalizing here with
  | nil => exact .refl _
  | cons f inner ih =>
    refine (ih _).trans ?_
    simp only [carriers, List.cons_append, List.flatMap_cons, elementsWithAll, elementsWith_element,
      ← List.append_assoc]
    exact ((List.perm_append_comm.trans
      ((elementsWithAll_reverse name value here).append_right _)).append_right _).append_right _

theorem carriers_finish (name value : String) (b : Builder) :
    (elementsWithAll name value b.finish).Perm (b.carriers name value) := by
  refine (elementsWithAll_reverse name value _).trans ?_
  have closed := carriers_closeAll name value b.here [] b.frames
  rw [List.append_nil] at closed
  have ended : ∀ (here : List Tree) (inner : List Frame), (closeAll here [] inner).frames = [] := by
    intro here inner
    induction inner generalizing here with
    | nil => rfl
    | cons f inner ih => exact ih _
  rw [carriers, ended, List.flatMap_nil, List.append_nil] at closed
  exact closed

/-- Where an end tag closes elements, they only move. -/
theorem close_eq (b : Builder) (tag : String) : b.close tag = b ∨
    ∃ inner outer, b.frames = inner ++ outer ∧ b.close tag = closeAll b.here outer inner := by
  unfold close
  dsimp only
  have split := (List.takeWhile_append_dropWhile (p := fun f : Frame => f.tag != tag) (l := b.frames))
  have rest : b.frames.drop (b.frames.takeWhile fun f => f.tag != tag).length =
      b.frames.dropWhile fun f => f.tag != tag := by
    conv => lhs; arg 2; rw [← split]
    exact List.drop_left
  rw [rest]
  split
  case h_1 => exact .inl rfl
  case h_2 f outer same =>
    refine .inr ⟨b.frames.takeWhile (fun f => f.tag != tag) ++ [f], outer, ?_, rfl⟩
    rw [List.append_assoc, List.singleton_append, ← same, split]

theorem carriers_close (name value : String) (b : Builder) (tag : String) :
    ((b.close tag).carriers name value).Perm (b.carriers name value) := by
  rcases close_eq b tag with same | ⟨inner, outer, frames, closed⟩
  · rw [same]
  · rw [closed]
    refine (carriers_closeAll name value b.here outer inner).trans ?_
    rw [← frames]

theorem carriers_add (name value : String) (b : Builder) (t : Tree) :
    (b.add t).carriers name value = t.elementsWith name value ++ b.carriers name value := by
  simp [add, carriers, elementsWithAll]

/-- Only a start tag makes a new carrier. -/
theorem carriers_step (name value : String) (b : Builder) (item : Item) :
    ((b.step item).carriers name value).Perm
      ((match item with
        | .closed _ attributes _ | .opening _ attributes => carrier name value attributes
        | _ => []) ++ b.carriers name value) := by
  cases item with
  | text data => exact .of_eq (carriers_add name value b _)
  | comment data => exact .of_eq (carriers_add name value b _)
  | declaration => exact .refl _
  | opening tag attributes => simp [step, carriers, elementsWithAll]
  | closed tag attributes content =>
    refine .of_eq ((carriers_add name value b _).trans ?_)
    rw [elementsWith_element]
    split <;> simp [elementsWithAll, Tree.elementsWith]
  | ending tag => exact carriers_close name value b tag

theorem Hollow.add (h : b.Hollow q) {t : Tree} (empty : t.hollow q = true) : (b.add t).Hollow q :=
  ⟨by simp [Builder.add, hollowAll, empty, h.here], h.frames⟩

theorem Hollow.closeAll {here : List Tree} {inner outer : List Frame}
    (h : Hollow q ⟨here, inner ++ outer⟩) : (closeAll here outer inner).Hollow q := by
  induction inner generalizing here with
  | nil => exact h
  | cons f inner ih =>
    obtain ⟨plain, elder⟩ := h.frames f List.mem_cons_self
    refine ih ⟨?_, fun f' hf => h.frames f' (List.mem_cons_of_mem f hf)⟩
    have inside : hollowAll q here.reverse = true :=
      hollowAll_iff.2 fun t ht => hollowAll_iff.1 h.here t (List.mem_reverse.1 ht)
    simp [hollowAll, Tree.hollow, plain, inside, elder]

theorem Hollow.finish (h : b.Hollow q) : hollowAll q b.finish = true := by
  have closed : Hollow q (Builder.closeAll b.here [] b.frames) := Hollow.closeAll (by simpa using h)
  exact hollowAll_iff.2 fun t ht => hollowAll_iff.1 closed.here t (List.mem_reverse.1 ht)

theorem Hollow.step (h : b.Hollow q) {item : Item}
    (plain : ∀ tag attributes content,
      item = .opening tag attributes ∨ item = .closed tag attributes content → q attributes = false) :
    (b.step item).Hollow q := by
  cases item with
  | text data => exact h.add rfl
  | comment data => exact h.add rfl
  | declaration => exact h
  | opening tag attributes =>
    refine ⟨rfl, List.forall_mem_cons.2 ⟨⟨plain tag attributes "" (.inl rfl), h.here⟩, h.frames⟩⟩
  | closed tag attributes content =>
    refine h.add ?_
    have other := plain tag attributes content (.inr rfl)
    by_cases empty : content.isEmpty = true <;> simp [Tree.hollow, hollowAll, empty, other]
  | ending tag =>
    change (b.close tag).Hollow q
    rcases close_eq b tag with same | ⟨inner, outer, frames, closed⟩
    · rw [same]
      exact h
    · rw [closed]
      refine Hollow.closeAll ?_
      rw [← frames]
      exact h

end Builder
end LiveMarkup.Markup
