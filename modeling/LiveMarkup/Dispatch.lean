import LiveMarkup.Ordered
import LiveMarkup.Value

/-!
Case tables. A case tests a value by equality, by tag, or by exact type. Adjacent cases of one sort
share a chunk, in which a later case with the same key takes the place of an earlier one; the first
chunk that knows the value decides.
-/
namespace LiveMarkup

/-- What cases can test of a value. -/
structure Facets (α κ : Type) where
  tag : α → TypeTag
  type? : α → Option κ

/-- One registered case. -/
inductive Case (α κ ρ : Type) where
  | equal (key : α) (result : ρ)
  | tagged (tag : TypeTag) (result : ρ)
  | typed (type : κ) (result : ρ)

/-- A maximal run of cases of one sort. -/
inductive Chunk (α κ ρ : Type) [BEq α] [DecidableEq κ] where
  | equal (results : Ordered α ρ)
  | tagged (results : Ordered TypeTag ρ)
  | typed (results : Ordered κ ρ)

namespace Chunk
variable {α κ ρ : Type} [BEq α] [DecidableEq κ]

/-- The chunk of one case. -/
def ofCase : Case α κ ρ → Chunk α κ ρ
  | .equal key r => .equal (Ordered.empty.insert key r)
  | .tagged tag r => .tagged (Ordered.empty.insert tag r)
  | .typed type r => .typed (Ordered.empty.insert type r)

/-- The chunk with a case of its own sort added. -/
def add? : Chunk α κ ρ → Case α κ ρ → Option (Chunk α κ ρ)
  | .equal results, .equal key r => some (.equal (results.insert key r))
  | .tagged results, .tagged tag r => some (.tagged (results.insert tag r))
  | .typed results, .typed type r => some (.typed (results.insert type r))
  | _, _ => none

/-- The result that the chunk has for a value. -/
def find? (facets : Facets α κ) (v : α) : Chunk α κ ρ → Option ρ
  | .equal results => results.get? v
  | .tagged results => results.get? (facets.tag v)
  | .typed results => (facets.type? v).bind results.get?

end Chunk

/-- The chunks of a table, in the order of their cases. -/
abbrev CaseTable (α κ ρ : Type) [BEq α] [DecidableEq κ] := List (Chunk α κ ρ)

namespace CaseTable
variable {α κ ρ : Type} [BEq α] [DecidableEq κ]

/-- The table with one more case, which joins the last chunk if that is of its sort. -/
def add (case : Case α κ ρ) : CaseTable α κ ρ → CaseTable α κ ρ
  | [] => [.ofCase case]
  | [last] =>
    match last.add? case with
    | some chunk => [chunk]
    | none => [last, .ofCase case]
  | first :: second :: rest => first :: add case (second :: rest)

/-- The table of a list of cases. -/
def ofCases (cases : List (Case α κ ρ)) : CaseTable α κ ρ :=
  cases.foldl (fun table case => table.add case) []

/-- The result of the first chunk that knows the value. -/
def resolve (facets : Facets α κ) (table : CaseTable α κ ρ) (v : α) : Option ρ :=
  table.findSome? (Chunk.find? facets v)

end CaseTable
end LiveMarkup
