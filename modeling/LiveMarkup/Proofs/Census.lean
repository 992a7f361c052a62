import LiveMarkup.Proofs.TagReading
import LiveMarkup.Proofs.PieceReading
import LiveMarkup.Proofs.Shaping
import LiveMarkup.Proofs.Writing

/-!
The elements with slots, as the compiled markup has them and as a reader finds them. One that is read
without slots carries no marker; one with slots carries its own, and the shape has an entry for it.
-/
namespace LiveMarkup

namespace Markup

theorem value?_give {found : Attributes} {name mark : String}
    (other : Text.lowercase mark ≠ Text.lowercase name)
    (value : String) : (found.give name value).value? mark = found.value? mark := by
  unfold Attributes.give
  split
  · rfl
  · exact found.value?_set_of_ne other value

/-- Whether an item is no start tag. -/
def Item.IsAside : Item → Prop
  | .opening _ _ | .closed _ _ _ => False
  | _ => True

end Markup

namespace Template
open Markup

variable {r : Ref} {fields done : List Assignment}

/-- The name that marks elements. -/
abbrev markerName : String := Config.standard.refAttribute

theorem lowercase_markerName : Text.lowercase markerName = markerName := by decide

/-- What attributes with slots are recorded as. -/
def recorded (fields : List Assignment) : List (String × List Nat) :=
  (fields.flatMap Assignment.marks).foldl (fun own m => recordIn own (some m.1) m.2) []

theorem recorded_slot (fields : List Assignment) (a : Assignment) (i : Nat) :
    recorded (fields ++ [a.slot i]) = recordIn (recorded (fields ++ [a])) (some a.name) i := by
  simp [recorded, List.flatMap_append]

theorem marks_eq_nil {a : Assignment} : a.marks = [] ↔ a.slotted = false := by
  simp [Assignment.marks, Assignment.slotted]

theorem flatMap_marks_filter (fields : List Assignment) :
    (fields.filter Assignment.slotted).flatMap Assignment.marks = fields.flatMap Assignment.marks := by
  induction fields with
  | nil => rfl
  | cons a fields ih =>
    rw [List.filter_cons]
    cases slotted : a.slotted with
    | true => simp [ih]
    | false => simp [ih, marks_eq_nil.2 slotted]

theorem filter_slotted_eq_nil :
    fields.filter Assignment.slotted = [] ↔ fields.flatMap Assignment.marks = [] := by
  simp [List.filter_eq_nil_iff, List.flatMap_eq_nil_iff, marks_eq_nil]

theorem giveAll_append (r : Ref) (found : Attributes) (fields done : List Assignment) :
    giveAll r found (fields ++ done) = giveAll r (giveAll r found fields) done :=
  List.foldl_append

/-- Attributes that do not mark elements leave the marker as it is. -/
theorem marker_giveAll (r : Ref) (found : Attributes) (spares : ∀ a ∈ fields, a.Spares) :
    (giveAll r found fields).value? markerName = found.value? markerName := by
  induction fields generalizing found with
  | nil => rfl
  | cons a fields ih =>
    obtain ⟨here, later⟩ := List.forall_mem_cons.1 spares
    refine (ih _ later).trans (value?_give ?_ _)
    rw [lowercase_markerName]
    exact Ne.symm here

/-- An element with slots. -/
structure Holder where
  ref : Ref
  fields : List Assignment

namespace Holder
variable (h : Holder)

/-- The attributes that a reader finds. -/
def attributes : Attributes :=
  giveAll h.ref (Attributes.set .empty markerName h.ref.text) h.fields

/-- The entry of the shape. -/
def entry : Ref × List (String × List Nat) :=
  (h.ref, recorded h.fields)

/-- The quoted attributes with slots. -/
def quoted : List (Ref × Assignment) :=
  (h.fields.filter Assignment.slotted).map (h.ref, ·)

/-- Whether no attribute as it is written marks elements or refers to them. -/
def Proper (φ : Prop) : Prop :=
  ∀ a ∈ h.fields, a.Proper φ

theorem marker_attributes {φ : Prop} (proper : h.Proper φ) :
    h.attributes.value? markerName = some h.ref.text :=
  (marker_giveAll h.ref _ fun a ha => (proper a ha).1).trans (Attributes.value?_set_self _ _ _)

end Holder

/-- What does not change while a template is compiled. -/
structure Setting where
  /-- Whether attributes are those of an outlet. -/
  isOutlet : Attributes → Bool
  /-- The number of the first reference of an outlet. Those of start tags are smaller. -/
  first : Nat
  /-- Whether the chunks are known to be clean. -/
  clean : Prop
  outlets : ∀ a, isOutlet a = true → ∃ r : Ref, first ≤ r.number ∧ a.value? markerName = some r.text

/-- The fragment under construction has the elements with slots that were compiled, each one once, and no
other element carries a marker. -/
structure Census (k : Setting) (held : List Holder) (b : Builder) (slots : List Slot)
    (records : Records) (n m : Nat) : Prop where
  carriers : ∀ r : Ref, (b.carriers markerName r.text).Perm
    ((held.filter fun h => h.ref == r).map Holder.attributes)
  entries : records = held.map Holder.entry
  distinct : (held.map Holder.ref).Nodup
  proper : ∀ h ∈ held, h.Proper k.clean
  given : Stage.Given k.first n m records
  known : ∀ s ∈ slots, s.ref ∈ held.map Holder.ref
  nodes : ∀ r, Slot.node r ∈ slots → k.first ≤ r.number
  hollow : b.Hollow k.isOutlet
  room : k.first ≤ m

theorem map_fst_entry (held : List Holder) : (held.map Holder.entry).map (·.1) = held.map Holder.ref := by
  rw [List.map_map]
  rfl

namespace Census

section
variable {k : Setting} {n m : Nat} {held : List Holder} {b : Builder} {slots mine : List Slot}
  {records : Records} {item : Item} {tag content : String} {attributes : Attributes}

theorem start (k : Setting) (n : Nat) : Census k [] .start [] [] n k.first where
  carriers _ := .refl _
  entries := rfl
  distinct := List.nodup_nil
  proper := List.forall_mem_nil _
  given _ hr := absurd hr List.not_mem_nil
  known := List.forall_mem_nil _
  nodes _ hr := absurd hr List.not_mem_nil
  hollow := ⟨rfl, List.forall_mem_nil _⟩
  room := Nat.le_refl _

theorem aside (h : Census k held b slots records n m) (item : Item) (aside : item.IsAside) :
    Census k held (b.step item) slots records n m :=
  { h with
    carriers := fun r => by
      refine (Builder.carriers_step _ _ b item).trans ?_
      cases item with
      | opening => exact aside.elim
      | closed => exact aside.elim
      | _ => exact h.carriers r
    hollow := by
      refine h.hollow.step fun tag attributes content same => ?_
      rcases same with rfl | rfl
      · exact aside.elim
      · exact aside.elim }

theorem flush (h : Census k held b slots records n m) (p : List Char) :
    Census k held (b.flush p) slots records n m := by
  unfold Builder.flush
  split
  · exact h
  · exact h.aside (.text _) trivial

theorem carriers_starting (starts : item = .opening tag attributes ∨ item = .closed tag attributes content)
    (r : Ref) : ((b.step item).carriers markerName r.text).Perm
      (carrier markerName r.text attributes ++ b.carriers markerName r.text) := by
  rcases starts with rfl | rfl
  · exact Builder.carriers_step _ _ b _
  · exact Builder.carriers_step _ _ b _

theorem hollow_starting {q : Attributes → Bool} (h : b.Hollow q)
    (starts : item = .opening tag attributes ∨ item = .closed tag attributes content)
    (other : q attributes = false) : (b.step item).Hollow q := by
  refine h.step fun tag' attributes' content' same => ?_
  rcases starts with rfl | rfl
  · rcases same with same | same
    · cases same
      exact other
    · cases same
  · rcases same with same | same
    · cases same
    · cases same
      exact other

/-- One more element with slots. -/
theorem joined (h : Census k held b slots records n m) (holder : Holder) {b' : Builder} {n' m' : Nat}
    (new : holder.ref ∉ held.map Holder.ref) (proper : holder.Proper k.clean)
    (carriers : ∀ r : Ref, (b'.carriers markerName r.text).Perm
      (carrier markerName r.text holder.attributes ++ b.carriers markerName r.text))
    (here : ∀ s ∈ mine, s.ref = holder.ref) (nodes : ∀ r, Slot.node r ∈ mine → k.first ≤ r.number)
    (later : n ≤ n' ∧ m ≤ m')
    (given : holder.ref.number < n' ∨ k.first ≤ holder.ref.number ∧ holder.ref.number < m')
    (hollow : b'.Hollow k.isOutlet) :
    Census k (held ++ [holder]) b' (slots ++ mine) (records ++ [holder.entry]) n' m' where
  carriers r := by
    refine (carriers r).trans (((h.carriers r).append_left _).trans ?_)
    rw [carrier, holder.marker_attributes proper, List.filter_append, List.map_append]
    refine List.perm_append_comm.trans (.of_eq (congrArg _ ?_))
    by_cases this : holder.ref = r
    · simp [this]
    · have other : holder.ref.text ≠ r.text := fun e => this (Ref.text_injective e)
      simp [this, other]
  entries := by rw [h.entries, List.map_append]; rfl
  distinct := by
    rw [List.map_append]
    refine List.nodup_append.2 ⟨h.distinct, List.pairwise_singleton _ _, fun r hr r' hr' same => ?_⟩
    rw [same, List.mem_singleton.1 hr'] at hr
    exact new hr
  proper := List.forall_mem_append.2 ⟨h.proper, List.forall_mem_singleton.2 proper⟩
  given := (h.given.mono later.1 later.2).append fun r hr => by
    rw [List.mem_singleton.1 hr]
    exact given
  known := by
    rw [List.map_append]
    refine List.forall_mem_append.2 ⟨fun s hs => List.mem_append_left _ (h.known s hs), fun s hs => ?_⟩
    rw [here s hs]
    exact List.mem_append_right _ (List.mem_singleton_self _)
  nodes r hr := (List.mem_append.1 hr).elim (h.nodes r) (nodes r)
  hollow := hollow
  room := Nat.le_trans h.room later.2

/-- A start tag without slots. -/
theorem unmarked (h : Census k held b slots records n m)
    (starts : item = .opening tag attributes ∨ item = .closed tag attributes content)
    (bare : attributes.value? markerName = none) :
    Census k held (b.step item) slots records (n + 1) m := by
  refine { h with
    carriers := fun r => (carriers_starting starts r).trans ?_
    given := h.given.mono (Nat.le_succ n) (Nat.le_refl m)
    hollow := hollow_starting h.hollow starts ?_ }
  · rw [carrier, bare, if_neg nofun]
    exact h.carriers r
  · refine Bool.eq_false_iff.2 fun outlet => ?_
    obtain ⟨r, -, some⟩ := k.outlets _ outlet
    cases bare.symm.trans some

/-- A start tag with slots. -/
theorem marked (h : Census k held b slots records n m) (low : n < k.first) {own : List Assignment}
    (starts : item = .opening tag (Holder.attributes ⟨⟨n⟩, own⟩) ∨
      item = .closed tag (Holder.attributes ⟨⟨n⟩, own⟩) content)
    (proper : ∀ a ∈ own, a.Proper k.clean) (here : ∀ s ∈ mine, s.ref = ⟨n⟩ ∧ s.isOutlet = false) :
    Census k (held ++ [⟨⟨n⟩, own⟩]) (b.step item) (slots ++ mine) (records ++ [(⟨n⟩, recorded own)])
      (n + 1) m := by
  refine h.joined ⟨⟨n⟩, own⟩ ?_ proper (carriers_starting starts) (fun s hs => (here s hs).1)
    (fun r hr => absurd (here _ hr).2 (show ¬ true = false by decide))
    ⟨Nat.le_succ n, Nat.le_refl m⟩ (.inl (Nat.lt_succ_self n)) (hollow_starting h.hollow starts (Bool.eq_false_iff.2 fun outlet => ?_))
  · intro old
    rw [← map_fst_entry, ← h.entries] at old
    rcases h.given ⟨n⟩ old with below | ⟨above, -⟩
    · exact absurd below (Nat.lt_irrefl n)
    · exact absurd above (Nat.not_le_of_lt low)
  · obtain ⟨r, above, some⟩ := k.outlets _ outlet
    have bears := Holder.marker_attributes ⟨⟨n⟩, own⟩ proper
    have same : r = ⟨n⟩ := Ref.text_injective (Option.some.inj (some.symm.trans bears))
    rw [same] at above
    exact absurd above (Nat.not_le_of_lt low)

/-- An outlet. -/
theorem outlet (h : Census k held b slots records n m) (low : n ≤ k.first) :
    Census k (held ++ [⟨⟨m⟩, []⟩]) (b.add (Written.tree 0 m .hole)) (slots ++ [.node ⟨m⟩])
      (records ++ [(⟨m⟩, [])]) n (m + 1) := by
  have tree : Written.tree 0 m .hole =
      .element Config.standard.outletTag (Holder.attributes ⟨⟨m⟩, []⟩) [] := rfl
  refine h.joined ⟨⟨m⟩, []⟩ ?_ (List.forall_mem_nil _) (fun r => ?_) (List.forall_mem_singleton.2 rfl) (fun r hr => ?_)
    ⟨Nat.le_refl n, Nat.le_succ m⟩ (.inr ⟨h.room, Nat.lt_succ_self m⟩)
    (h.hollow.add (by simp [tree, Tree.hollow, hollowAll]))
  · intro old
    rw [← map_fst_entry, ← h.entries] at old
    rcases h.given ⟨m⟩ old with below | ⟨-, above⟩
    · have room := h.room
      simp only at below
      omega
    · exact absurd above (Nat.lt_irrefl m)
  · rw [tree, Builder.carriers_add, elementsWith_element, elementsWithAll, List.append_nil]
  · cases List.mem_singleton.1 hr
    exact h.room

end

end Census

end Template
end LiveMarkup
