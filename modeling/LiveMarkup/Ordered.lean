/-!
Ordered maps: keys with values, in the order in which the keys first came. Writing to a key that is
there keeps its place, and no two keys of a map are equal.
-/
namespace LiveMarkup

/-- A map that remembers the order of its keys. -/
structure Ordered (κ : Type) [BEq κ] (ν : Type) where
  entries : List (κ × ν)
  distinct : entries.Pairwise fun a b => (a.1 == b.1) = false

namespace Ordered
variable {κ ν : Type} [BEq κ]

/-- The map without entries. -/
def empty : Ordered κ ν := ⟨[], .nil⟩

instance : Inhabited (Ordered κ ν) := ⟨empty⟩

def keys (m : Ordered κ ν) : List κ :=
  m.entries.map (·.1)

def isEmpty (m : Ordered κ ν) : Bool :=
  m.entries.isEmpty

/-- The value of a key in a list of entries. -/
def find? (k : κ) : List (κ × ν) → Option ν
  | [] => none
  | (key, value) :: rest => if key == k then some value else find? k rest

/-- The value of a key. -/
def get? (m : Ordered κ ν) (k : κ) : Option ν :=
  find? k m.entries

def contains (m : Ordered κ ν) (k : κ) : Bool :=
  (m.get? k).isSome

/-- Writes a value in place of the key's old one, or at the end. -/
def put (k : κ) (v : ν) : List (κ × ν) → List (κ × ν)
  | [] => [(k, v)]
  | (key, value) :: rest => if key == k then (key, v) :: rest else (key, value) :: put k v rest

theorem fst_mem_of_mem_put {k : κ} {v : ν} {l : List (κ × ν)} {e : κ × ν} (h : e ∈ put k v l) :
    e.1 = k ∨ ∃ e' ∈ l, e'.1 = e.1 := by
  induction l with
  | nil => simp_all [put]
  | cons head rest ih =>
    obtain ⟨key, value⟩ := head
    simp only [put] at h
    split at h
    · rcases List.mem_cons.1 h with rfl | h
      · exact .inr ⟨(key, value), by simp, rfl⟩
      · exact .inr ⟨e, by simp [h], rfl⟩
    · rcases List.mem_cons.1 h with rfl | h
      · exact .inr ⟨(key, value), by simp, rfl⟩
      · rcases ih h with h | ⟨e', he', h⟩
        · exact .inl h
        · exact .inr ⟨e', by simp [he'], h⟩

theorem distinct_put {k : κ} {v : ν} {l : List (κ × ν)}
    (h : l.Pairwise fun a b => (a.1 == b.1) = false) :
    (put k v l).Pairwise fun a b => (a.1 == b.1) = false := by
  induction l with
  | nil => simp [put]
  | cons head rest ih =>
    obtain ⟨key, value⟩ := head
    obtain ⟨hhead, hrest⟩ := List.pairwise_cons.1 h
    simp only [put]
    split
    · exact List.pairwise_cons.2 ⟨hhead, hrest⟩
    · rename_i hk
      refine List.pairwise_cons.2 ⟨fun e he => ?_, ih hrest⟩
      rcases fst_mem_of_mem_put he with he | ⟨e', he', heq⟩
      · simpa [he] using hk
      · rw [← heq]
        exact hhead e' he'

/-- The map with a key's value written. -/
def insert (m : Ordered κ ν) (k : κ) (v : ν) : Ordered κ ν :=
  ⟨put k v m.entries, distinct_put m.distinct⟩

/-- The map without a key; the other keys keep their order. -/
def erase (m : Ordered κ ν) (k : κ) : Ordered κ ν :=
  ⟨m.entries.filter fun e => !(e.1 == k), m.distinct.filter _⟩

/-- The map that the entries build when they are inserted one after another. -/
def ofList (l : List (κ × ν)) : Ordered κ ν :=
  l.foldl (fun m e => m.insert e.1 e.2) empty

theorem find?_put_self [ReflBEq κ] (k : κ) (v : ν) (l : List (κ × ν)) :
    find? k (put k v l) = some v := by
  induction l with
  | nil => simp [put, find?]
  | cons head rest ih =>
    simp only [put]
    split <;> simp_all [find?]

theorem find?_put_of_ne [LawfulBEq κ] {k j : κ} (h : j ≠ k) (v : ν) (l : List (κ × ν)) :
    find? j (put k v l) = find? j l := by
  induction l with
  | nil => simp [put, find?, Ne.symm h]
  | cons head rest ih =>
    simp only [put]
    split
    · rename_i hk
      have hk := eq_of_beq hk
      simp [find?, hk, Ne.symm h]
    · simp [find?, ih]

@[simp] theorem get?_insert_self [ReflBEq κ] (m : Ordered κ ν) (k : κ) (v : ν) :
    (m.insert k v).get? k = some v :=
  find?_put_self k v m.entries

theorem get?_insert_of_ne [LawfulBEq κ] (m : Ordered κ ν) {k j : κ} (h : j ≠ k) (v : ν) :
    (m.insert k v).get? j = m.get? j :=
  find?_put_of_ne h v m.entries

theorem find?_filter_of_ne [LawfulBEq κ] {k j : κ} (h : j ≠ k) (l : List (κ × ν)) :
    find? j (l.filter fun e => !(e.1 == k)) = find? j l := by
  induction l with
  | nil => rfl
  | cons head rest ih =>
    obtain ⟨key, value⟩ := head
    by_cases hk : key = k
    · subst hk
      simp [find?, Ne.symm h, ih]
    · simp [find?, hk, ih]

theorem get?_erase_of_ne [LawfulBEq κ] (m : Ordered κ ν) {k j : κ} (h : j ≠ k) :
    (m.erase k).get? j = m.get? j :=
  find?_filter_of_ne h m.entries

end Ordered
end LiveMarkup
