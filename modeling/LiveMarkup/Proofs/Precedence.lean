import Mathlib.Data.List.Forall2
import Mathlib.Data.List.SplitBy
import LiveMarkup.Live.Branch

/-!
Precedence: which case of a table decides. A table groups cases into chunks and keeps one result for
each key, but it answers like a scan of the cases in the order in which they were written down: cut
into runs of one sort, the first run that has a case for the value decides, and in it the last such
case.
-/
namespace LiveMarkup

/-! Maps whose keys may be equal without being the same. -/

namespace Ordered
variable {κ ν : Type} [BEq κ] [EquivBEq κ]

/-- A write shows under every key that is equal to the written one. By induction on the entries. -/
theorem find?_put (k j : κ) (v : ν) (l : List (κ × ν)) :
    find? j (put k v l) = if k == j then some v else find? j l := by
  induction l with
  | nil => rfl
  | cons e l ih =>
    obtain ⟨key, value⟩ := e
    simp only [put]
    by_cases here : key == k
    · have same : (key == j) = (k == j) := BEq.congr_left here
      rw [if_pos here, find?, find?, same]
      split
      · rfl
      · rfl
    · rw [if_neg here, find?, find?, ih]
      by_cases found : key == j
      · have apart : ¬ k == j := fun h => here (BEq.trans found (BEq.symm h))
        rw [if_pos found, if_pos found, if_neg apart]
      · rw [if_neg found, if_neg found]

theorem get?_insert (m : Ordered κ ν) (k j : κ) (v : ν) :
    (m.insert k v).get? j = if k == j then some v else m.get? j :=
  find?_put k j v m.entries

theorem bind_get?_insert (m : Ordered κ ν) (k : κ) (v : ν) (o : Option κ) :
    o.bind (m.insert k v).get? = if o.any (k == ·) then some v else o.bind m.get? := by
  cases o with
  | none => rfl
  | some j => exact get?_insert m k j v

end Ordered

/-! Equality of values. -/

namespace Value

/-- The value with the one pattern for all numbers that are equal to it. -/
def canonical : Value → Value
  | .number n => .number ⟨n.canonical⟩
  | v => v

theorem equal_iff (a b : Value) : (a == b) = true ↔ a.canonical = b.canonical := by
  change a.equal b = true ↔ _
  cases a <;> cases b <;> simp [equal, canonical]

instance : EquivBEq Value where
  rfl {a} := (equal_iff a a).2 rfl
  symm h := (equal_iff ..).2 ((equal_iff ..).1 h).symm
  trans h h' := (equal_iff ..).2 (((equal_iff ..).1 h).trans ((equal_iff ..).1 h'))

/-- Equal values are alike to a hash. -/
theorem hashInput_congr {a b : Value} (h : (a == b) = true) : a.hashInput = b.hashInput := by
  rw [equal_iff] at h
  cases a with
  | number n =>
    cases b with
    | number m =>
      have same : n.canonical = m.canonical := by simpa [canonical] using h
      rw [hashInput, hashInput, same]
    | _ => cases h
  | _ =>
    cases b with
    | _ => cases h <;> rfl

end Value

/-! Runs of cases. -/

/-- What a case looks at. -/
inductive Aspect where
  | value | tag | type
deriving DecidableEq

namespace Case
variable {α κ ρ : Type}

def aspect : Case α κ ρ → Aspect
  | .equal _ _ => .value
  | .tagged _ _ => .tag
  | .typed _ _ => .type

def result : Case α κ ρ → ρ
  | .equal _ r | .tagged _ r | .typed _ r => r

/-- The cases cut into maximal runs of one sort. -/
def runs (cases : List (Case α κ ρ)) : List (List (Case α κ ρ)) :=
  cases.splitBy fun a b => a.aspect == b.aspect

variable [BEq α] [DecidableEq κ]

/-- Whether the case is one for a value. -/
def applies (facets : Facets α κ) (v : α) : Case α κ ρ → Bool
  | .equal key _ => key == v
  | .tagged tag _ => tag == facets.tag v
  | .typed type _ => (facets.type? v).any (type == ·)

end Case

/-! Chunks. -/

namespace Chunk
variable {α κ ρ : Type} [BEq α] [DecidableEq κ]

def aspect : Chunk α κ ρ → Aspect
  | .equal _ => .value
  | .tagged _ => .tag
  | .typed _ => .type

theorem add?_isSome (chunk : Chunk α κ ρ) (c : Case α κ ρ) :
    (chunk.add? c).isSome = (chunk.aspect == c.aspect) := by
  cases chunk <;> cases c <;> rfl

theorem aspect_add? {chunk chunk' : Chunk α κ ρ} {c : Case α κ ρ} (h : chunk.add? c = some chunk') :
    chunk'.aspect = chunk.aspect := by
  cases chunk <;> cases c <;> cases h <;> rfl

/-- The chunk of one sort that has no cases yet. -/
def vacant : Aspect → Chunk α κ ρ
  | .value => .equal .empty
  | .tag => .tagged .empty
  | .type => .typed .empty

theorem add?_vacant (c : Case α κ ρ) : (vacant c.aspect).add? c = some (ofCase c) := by
  cases c <;> rfl

theorem find?_vacant (facets : Facets α κ) (v : α) (a : Aspect) :
    (vacant a : Chunk α κ ρ).find? facets v = none := by
  cases a with
  | value | tag => rfl
  | type =>
    change (facets.type? v).bind _ = none
    cases facets.type? v with
    | none => rfl
    | some _ => rfl

variable [EquivBEq α]

/-- An added case takes precedence in its chunk. By cases on the sort. -/
theorem find?_add? {chunk chunk' : Chunk α κ ρ} {c : Case α κ ρ} (h : chunk.add? c = some chunk')
    (facets : Facets α κ) (v : α) :
    chunk'.find? facets v = if c.applies facets v then some c.result else chunk.find? facets v := by
  cases chunk with
  | equal results =>
    cases c <;> cases h
    case equal key r => exact Ordered.get?_insert results key v r
  | tagged results =>
    cases c <;> cases h
    case tagged tag r => exact Ordered.get?_insert results tag (facets.tag v) r
  | typed results =>
    cases c <;> cases h
    case typed type r =>
      exact Ordered.bind_get?_insert results type r (facets.type? v)

/-- A chunk that answers like a run of cases of its sort. -/
structure Answers (chunk : Chunk α κ ρ) (run : List (Case α κ ρ)) : Prop where
  sort : ∀ c ∈ run, c.aspect = chunk.aspect
  found : ∀ facets v,
    chunk.find? facets v = (run.reverse.find? (Case.applies facets v)).map Case.result

namespace Answers

omit [EquivBEq α] in
theorem vacant (a : Aspect) : Answers (Chunk.vacant a : Chunk α κ ρ) [] where
  sort _ hc := nomatch hc
  found facets v := find?_vacant facets v a

theorem add {chunk chunk' : Chunk α κ ρ} {run : List (Case α κ ρ)} (h : Answers chunk run)
    {c : Case α κ ρ} (added : chunk.add? c = some chunk') : Answers chunk' (run ++ [c]) where
  sort d hd := by
    rw [aspect_add? added]
    rcases List.mem_append.1 hd with hd | hd
    · exact h.sort d hd
    · obtain rfl := List.mem_singleton.1 hd
      have same := chunk.add?_isSome d
      rw [added, Option.isSome_some, eq_comm, beq_iff_eq] at same
      exact same.symm
  found facets v := by
    rw [find?_add? added, h.found, List.reverse_append, List.reverse_singleton,
      List.singleton_append, List.find?_cons]
    cases c.applies facets v with
    | true => rfl
    | false => rfl

theorem ofCase (c : Case α κ ρ) : Answers (.ofCase c) [c] :=
  (Answers.vacant c.aspect).add (add?_vacant c)

end Answers
end Chunk

namespace CaseTable
variable {α κ ρ : Type} [BEq α] [DecidableEq κ]

variable [EquivBEq α]

/-- The two zeros are one key, which the later case takes; the case by tag comes too late. -/
example : (ofCases [.tagged .string "text", .equal (.number ⟨0⟩) "zero",
    .equal (.number ⟨0x8000000000000000⟩) "nought", .tagged .number "number"]).resolve
      ⟨Value.tag, Value.type? fun _ => false⟩ (.number ⟨0⟩) = some "nought" := by
  decide +kernel

end CaseTable

namespace Live.Branch

end Live.Branch
end LiveMarkup
