import LiveMarkup.Ordered

/-!
Entries of ordered maps as lists: where a key is found, and what writing one does to the list.
-/
namespace LiveMarkup.Ordered

section
variable {κ ν μ : Type} [BEq κ] (k : κ) (f : ν → μ) (l : List (κ × ν))

theorem find?_map : find? k (l.map fun e => (e.1, f e.2)) = (find? k l).map f := by
  induction l with
  | nil => rfl
  | cons e l ih =>
    simp only [List.map_cons, find?]
    split
    · rfl
    · exact ih

theorem put_map (v : ν) :
    (put k v l).map (fun e => (e.1, f e.2)) = put k (f v) (l.map fun e => (e.1, f e.2)) := by
  induction l with
  | nil => rfl
  | cons e l ih =>
    simp only [List.map_cons, put]
    split
    · rfl
    · rw [List.map_cons, ih]

end

theorem keys_put_congr {κ ν : Type} [BEq κ] (k : κ) (v v' : ν) {l l' : List (κ × ν)}
    (h : l.map Prod.fst = l'.map Prod.fst) :
    (put k v l).map Prod.fst = (put k v' l').map Prod.fst := by
  induction l generalizing l' with
  | nil =>
    cases l' with
    | nil => rfl
    | cons _ _ => cases h
  | cons e l ih =>
    cases l' with
    | nil => cases h
    | cons e' l' =>
      obtain ⟨key, value⟩ := e
      obtain ⟨key', value'⟩ := e'
      obtain ⟨rfl, rest⟩ := List.cons.inj h
      simp only [put]
      split
      · simpa using rest
      · simpa using ih rest

/-- Which keys there are after an insertion depends on no value. -/
theorem keys_insert_congr {κ ν : Type} [BEq κ] {m m' : Ordered κ ν} (h : m.keys = m'.keys) (k : κ)
    (v v' : ν) : (m.insert k v).keys = (m'.insert k v').keys :=
  keys_put_congr k v v' h

section
variable {κ ν : Type} [BEq κ] [LawfulBEq κ] {k : κ} {l : List (κ × ν)}

theorem find?_append_of_not_mem (h : k ∉ l.map (·.1)) (more : List (κ × ν)) :
    find? k (l ++ more) = find? k more := by
  induction l with
  | nil => rfl
  | cons e l ih =>
    obtain ⟨key, value⟩ := e
    obtain ⟨apart, later⟩ := not_or.1 (mt List.mem_cons.2 (List.map_cons ▸ h))
    have : (key == k) = false := beq_eq_false_iff_ne.2 (Ne.symm apart)
    simp [find?, this, ih later]

theorem put_append_of_not_mem (h : k ∉ l.map (·.1)) (v : ν) (more : List (κ × ν)) :
    put k v (l ++ more) = l ++ put k v more := by
  induction l with
  | nil => rfl
  | cons e l ih =>
    obtain ⟨key, value⟩ := e
    obtain ⟨apart, later⟩ := not_or.1 (mt List.mem_cons.2 (List.map_cons ▸ h))
    have : (key == k) = false := beq_eq_false_iff_ne.2 (Ne.symm apart)
    simp [put, this, ih later]

theorem put_of_not_mem (h : k ∉ l.map (·.1)) (v : ν) : put k v l = l ++ [(k, v)] := by
  have := put_append_of_not_mem h v []
  simpa [put] using this

variable {m : Ordered κ ν}

omit [LawfulBEq κ] in
theorem eq_of_entries_eq {m' : Ordered κ ν} (h : m.entries = m'.entries) : m = m' := by
  cases m
  cases m'
  cases h
  rfl

theorem get?_of_not_mem (h : k ∉ m.keys) : m.get? k = none := by
  have := find?_append_of_not_mem h []
  simpa [get?, find?] using this

theorem get?_of_mem {v : ν} (h : (k, v) ∈ m.entries) : m.get? k = some v := by
  obtain ⟨l, distinct⟩ := m
  change find? k l = some v
  replace h : (k, v) ∈ l := h
  induction l with
  | nil => cases h
  | cons e l ih =>
    obtain ⟨apart, later⟩ := List.pairwise_cons.1 distinct
    rcases List.mem_cons.1 h with rfl | h
    · simp [find?]
    · have : (e.1 == k) = false := apart _ h
      simp [find?, this, ih later h]

theorem keys_insert (h : k ∉ m.keys) (v : ν) : (m.insert k v).keys = m.keys ++ [k] := by
  simp [keys, insert, put_of_not_mem h]

omit [LawfulBEq κ] in
/-- Writing to a key that is there adds none. -/
theorem keys_insert_of_get? {v : ν} (h : m.get? k = some v) (v' : ν) :
    (m.insert k v').keys = m.keys := by
  have kept : ∀ l : List (κ × ν), find? k l = some v →
      (put k v' l).map Prod.fst = l.map Prod.fst := by
    intro l found
    induction l with
    | nil => cases found
    | cons e l ih =>
      obtain ⟨key, value⟩ := e
      simp only [find?] at found
      simp only [put]
      split
      case isTrue => rfl
      case isFalse other =>
        rw [if_neg other] at found
        simpa using ih found
  exact kept m.entries h

theorem entries_insert (h : k ∉ m.keys) (v : ν) :
    (m.insert k v).entries = m.entries ++ [(k, v)] :=
  put_of_not_mem h v

/-- Entries with distinct keys are kept as they are. -/
theorem entries_foldl_insert (l : List (κ × ν)) (m : Ordered κ ν)
    (distinct : (m.keys ++ l.map (·.1)).Nodup) :
    (l.foldl (fun m e => m.insert e.1 e.2) m).entries = m.entries ++ l := by
  induction l generalizing m with
  | nil => simp
  | cons e l ih =>
    have new : e.1 ∉ m.keys := by
      intro h
      exact (List.nodup_append.1 distinct).2.2 _ h _ (by simp) rfl
    rw [List.foldl_cons, ih]
    · simp [entries_insert new]
    · rw [keys_insert new]
      simpa using distinct

theorem entries_ofList (distinct : (l.map (·.1)).Nodup) : (ofList l).entries = l := by
  have := entries_foldl_insert l empty (by simpa [keys, empty] using distinct)
  simpa [ofList, empty] using this

end
end LiveMarkup.Ordered
