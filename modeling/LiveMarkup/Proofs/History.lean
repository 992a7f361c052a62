import LiveMarkup.Live.Moment

/-!
Histories: what the moments of a signal say about it, and the order that they are to keep. A history
lists the last moment first, so what is said of a moment is said of the list behind it.
-/
namespace LiveMarkup.Live.History

/-- The content that the moments lead to. -/
def content : List Moment → Option Value
  | [] => none
  | .made value :: _ => value
  | .changed value :: _ => value
  | _ :: past => content past

/-- How many changes there were: the version that the moments lead to. -/
def version : List Moment → Nat
  | [] => 0
  | .changed _ :: past => version past + 1
  | _ :: past => version past

/-- Those who ever joined, in the order of subscription. -/
def joiners : List Moment → List EntryId
  | [] => []
  | .joined e _ :: past => joiners past ++ [e]
  | _ :: past => joiners past

/-- Those who joined and did not leave, in the order of subscription. -/
def members : List Moment → List EntryId
  | [] => []
  | .joined e _ :: past => members past ++ [e]
  | .left e :: past => (members past).erase e
  | _ :: past => members past

/-- The version that a subscriber was shown last. -/
def lastShown (e : EntryId) : List Moment → Option Nat
  | [] => none
  | .told e' _ v _ :: past => if e' = e then some v else lastShown e past
  | _ :: past => lastShown e past

/-- A subscriber joined to hear of the changes after a version. -/
def JoinedAt (e : EntryId) (v : Nat) (past : List Moment) : Prop :=
  ∃ since before, past = since ++ .joined e .normal :: before ∧ version before = v

/-- A subscriber joined to hear of the next change, and none came since. -/
def JoinedLate (e : EntryId) (past : List Moment) : Prop :=
  ∃ since before, past = since ++ .joined e .normal :: before ∧ ∀ value, .changed value ∉ since

/-- Whether a moment may follow the moments of before. Nobody joins twice. Whoever is called is
subscribed, is shown the content of the moment under a version that it was not shown yet, and within
a round comes after those who subscribed earlier. -/
def Allowed (past : List Moment) : Moment → Prop
  | .made _ => past = []
  | .changed _ | .left _ => True
  | .joined e _ => e ∉ joiners past
  | .told e round v value =>
    value = content past ∧ v = version past ∧ e ∈ members past ∧
    (∀ r u x, .told e r u x ∈ past → u < v) ∧
    ∀ n, round = some n → n ≤ v ∧
      ∀ e' u x, .told e' (some n) u x ∈ past → [e', e].Sublist (joiners past)

/-- Every moment may follow those before it. -/
def Orderly : List Moment → Prop
  | [] => True
  | m :: past => Allowed past m ∧ Orderly past

/-- Nothing is owed to the subscribers: each was shown the newest version, or it is to wait for the
next one. -/
def Settled (past : List Moment) : Prop :=
  ∀ e ∈ members past, lastShown e past = some (version past) ∨ JoinedLate e past

variable {e : EntryId} {v : Nat} {past : List Moment} {m : Moment}

theorem version_append (since past : List Moment) :
    version (since ++ past) = version since + version past := by
  induction since with
  | nil => simp [version]
  | cons m since ih => cases m <;> simp only [List.cons_append, version] <;> omega

theorem not_mem_changed_of_version_eq_zero (h : version past = 0) (value : Option Value) :
    .changed value ∉ past := by
  induction past with
  | nil => simp
  | cons m past ih =>
    cases m <;> simp only [version] at h <;> simp_all

theorem version_le_cons : version past ≤ version (m :: past) := by
  cases m <;> simp [version]

theorem members_sublist_joiners : (members past).Sublist (joiners past) := by
  induction past with
  | nil => exact .slnil
  | cons m past ih =>
    cases m with
    | joined e mode => exact ih.append_right [e]
    | left e => exact List.erase_sublist.trans ih
    | made value => exact ih
    | changed value => exact ih
    | told e r v x => exact ih

theorem JoinedAt.cons (h : JoinedAt e v past) : JoinedAt e v (m :: past) := by
  obtain ⟨since, before, rfl, hv⟩ := h
  exact ⟨m :: since, before, rfl, hv⟩

/-- Whoever joined at the newest version saw no change since. -/
theorem JoinedAt.late (h : JoinedAt e (version past) past) : JoinedLate e past := by
  obtain ⟨since, before, rfl, hv⟩ := h
  refine ⟨since, before, rfl, not_mem_changed_of_version_eq_zero ?_⟩
  rw [version_append] at hv
  simp only [version] at hv
  omega

/-- In a list that is sorted, what is smaller comes first. -/
theorem pair_sublist {l : List EntryId} (sorted : l.Pairwise (·.index < ·.index)) {a b : EntryId}
    (ha : a ∈ l) (hb : b ∈ l) (hab : a.index < b.index) : [a, b].Sublist l := by
  induction l with
  | nil => cases ha
  | cons c l ih =>
    obtain ⟨first, rest⟩ := List.pairwise_cons.1 sorted
    rcases List.mem_cons.1 ha with rfl | hal
    · rcases List.mem_cons.1 hb with rfl | hbl
      · omega
      · exact (List.singleton_sublist.2 hbl).cons_cons a
    · rcases List.mem_cons.1 hb with rfl | hbl
      · have := first a hal
        omega
      · exact (ih rest hal hbl).cons c

theorem joiners_append_subset (since past : List Moment) :
    (joiners past).Sublist (joiners (since ++ past)) := by
  induction since with
  | nil => exact .refl _
  | cons m since ih =>
    cases m with
    | joined e mode => exact ih.trans (List.sublist_append_left _ _)
    | made value => exact ih
    | changed value => exact ih
    | left e => exact ih
    | told e r v x => exact ih

theorem joiners_subset_of_suffix {past past' : List Moment} (h : past <:+ past') :
    joiners past ⊆ joiners past' := by
  obtain ⟨since, rfl⟩ := h
  exact (joiners_append_subset since past).subset

theorem mem_joiners {mode : Mode} (h : .joined e mode ∈ past) : e ∈ joiners past := by
  obtain ⟨since, before, rfl⟩ := List.append_of_mem h
  refine joiners_subset_of_suffix (List.suffix_append since (.joined e mode :: before)) ?_
  simp [joiners]

namespace Orderly

theorem of_append {since : List Moment} (h : Orderly (since ++ past)) : Orderly past := by
  induction since with
  | nil => exact h
  | cons m since ih => exact ih h.2

end Orderly

end LiveMarkup.Live.History
