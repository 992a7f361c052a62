import LiveMarkup.Template.Descriptor
import LiveMarkup.Proofs.MarkupReading

/-!
Templates as they are written: trees of markup with holes for values. Such a tree is printed to the
literal chunks between its holes, and it says by itself what compiling those chunks is to give: the use
of each hole, the fragment, and the programs of the quoted attributes. Start tags are numbered in the
order in which they are written, and the outlets, which stand for the holes in text, after them.
-/
namespace LiveMarkup.Template

open Markup (Tree Attributes escapeInText escapeInValue isAttributeChar isVoid isRaw printEnd
  IsTag)

/-- Characters with holes between them; nothing stands for a hole. -/
abbrev Gapped := List (Option Char)

/-- Characters without a hole. -/
def letters (s : List Char) : Gapped :=
  s.map some

/-- The runs of characters between the holes. -/
def runs : Gapped → List (List Char)
  | [] => [[]]
  | none :: rest => [] :: runs rest
  | some c :: rest =>
    match runs rest with
    | [] => [[c]]
    | run :: more => (c :: run) :: more

/-- What stands between the blanks of a start tag. -/
inductive Field where
  /-- A value in double quotes: a hole stands before every literal but the first. -/
  | quoted (name first : String) (rest : List String)
  /-- A hole for the value of an attribute. -/
  | bare (name : String)
  /-- A hole for the value of a directive. -/
  | directive (kind : DirectiveKind) (name : String)
  /-- A hole for a component. -/
  | component

/-- A piece of a template. -/
inductive Written where
  | text (data : String)
  /-- A hole in text. -/
  | hole
  | comment (data : String)
  | element (tag : String) (fields : List Field) (children : List Written)

namespace Field

/-- The name in front of the equals sign. -/
def name? : Field → Option String
  | .quoted name _ _ | .bare name => some name
  | .directive kind name => some (kind.name ++ ":" ++ name)
  | .component => none

/-- The number of holes. -/
def holes : Field → Nat
  | .quoted _ _ rest => rest.length
  | .bare _ | .directive _ _ | .component => 1

/-- The field with the blank before it. -/
def print : Field → Gapped
  | .quoted name first rest =>
    letters (' ' :: name.toList ++ ['=', '\x22'] ++ first.toList.flatMap escapeInValue) ++
      rest.flatMap (fun literal => none :: letters (literal.toList.flatMap escapeInValue)) ++
      letters ['\x22']
  | .bare name => letters (' ' :: name.toList ++ ['=']) ++ [none]
  | .directive kind name =>
    letters (' ' :: (kind.name ++ ":" ++ name).toList ++ ['=']) ++ [none]
  | .component => letters [' '] ++ [none]

/-- Whether a string can name an attribute: markup reads it whole, it has no capitals, and it is not
the name of the marker. -/
structure IsName (name : String) : Prop where
  nonempty : name.toList ≠ []
  readable : ∀ c ∈ name.toList, isAttributeChar c = true
  small : ∀ c ∈ name.toList, c.isUpper = false
  unmarked : name ≠ Config.standard.refAttribute

instance : DecidablePred IsName := fun name =>
  decidable_of_iff (name.toList ≠ [] ∧ name.toList.all isAttributeChar = true ∧
      (name.toList.all fun c => !c.isUpper) = true ∧ name ≠ Config.standard.refAttribute) <| by
    simp only [List.all_eq_true, Bool.not_eq_true']
    exact ⟨fun ⟨h₁, h₂, h₃, h₄⟩ => ⟨h₁, h₂, h₃, h₄⟩, fun ⟨h₁, h₂, h₃, h₄⟩ => ⟨h₁, h₂, h₃, h₄⟩⟩

/-- Whether a literal can be told from the references around it. -/
def Literal (s : String) : Prop :=
  ¬ "__ref_".toList <:+: s.toList

instance : DecidablePred Literal := fun _ => inferInstanceAs (Decidable ¬_)

/-- Whether the field may stand in a start tag. -/
def Fits (tag : String) : Field → Prop
  | .quoted name first rest =>
    IsName name ∧ (rest ≠ [] → ':' ∉ name.toList ∧ ∀ literal ∈ first :: rest, Literal literal)
  | .bare name => IsName name ∧ ':' ∉ name.toList
  | .directive kind name => IsName (kind.name ++ ":" ++ name)
  | .component => tag = Config.standard.outletTag

instance (tag : String) : DecidablePred (Fits tag)
  | .quoted _ _ _ => inferInstanceAs (Decidable (_ ∧ (_ → _ ∧ _)))
  | .bare _ => inferInstanceAs (Decidable (_ ∧ _))
  | .directive kind name => inferInstanceAs (Decidable (IsName (kind.name ++ ":" ++ name)))
  | .component => inferInstanceAs (Decidable (_ = _))

/-- The uses of the holes. -/
def slots (r : Ref) : Field → List Slot
  | .quoted name _ rest => List.replicate rest.length (.attr name .double r)
  | .bare name => [.attr name .none r]
  | .directive kind name => [.directive kind name r]
  | .component => [.component r]

/-- The attribute of the fragment: the reference stands for the holes of a quoted value, and nothing
for any other hole. -/
def pair? (r : Ref) : Field → Option (String × String)
  | .quoted name first rest =>
    some (name, first ++ String.join (rest.map fun literal => r.text ++ literal))
  | .bare name => some (name, "")
  | .directive kind name => some (kind.name ++ ":" ++ name, "")
  | .component => none

/-- A literal as a part of a program; an empty one is left out. -/
def literalPart (s : String) : List Part :=
  if s.isEmpty then [] else [.literal s]

/-- The parts of a quoted value behind its first literal; the first hole has the index `i`. -/
def partsFrom (i : Nat) : List String → List Part
  | [] => []
  | literal :: rest => .slot i :: literalPart literal ++ partsFrom (i + 1) rest

/-- The program of a quoted value with holes, of which the first has the index `i`. -/
def program? (i : Nat) : Field → Option (String × List Part)
  | .quoted name first (literal :: rest) =>
    some (name, literalPart first ++ partsFrom i (literal :: rest))
  | _ => none

/-- The number of holes in a start tag. -/
def holesAll : List Field → Nat
  | [] => 0
  | field :: rest => field.holes + holesAll rest

/-- The programs of a start tag, whose first hole has the index `i`. -/
def programs (i : Nat) : List Field → List (String × List Part)
  | [] => []
  | field :: rest => (field.program? i).toList ++ programs (i + field.holes) rest

/-- The attributes of an element of the fragment. Its marker stands first if it has holes. -/
def attributes (r : Ref) (fields : List Field) : Attributes :=
  .ofList ((if holesAll fields = 0 then [] else [(Config.standard.refAttribute, r.text)]) ++
    fields.filterMap (pair? r))

end Field

namespace Written

/-- Whether a piece is a text. -/
def IsText : Written → Prop
  | .text _ => True
  | _ => False

instance : DecidablePred IsText
  | .text _ => isTrue trivial
  | .hole | .comment _ | .element _ _ _ => isFalse id

mutual

/-- The number of start tags. -/
def tags : Written → Nat
  | .text _ | .hole | .comment _ => 0
  | .element _ _ children => 1 + tagsAll children

def tagsAll : List Written → Nat
  | [] => 0
  | t :: rest => t.tags + tagsAll rest

end

mutual

/-- The number of holes in text. -/
def outlets : Written → Nat
  | .text _ | .comment _ => 0
  | .hole => 1
  | .element _ _ children => outletsAll children

def outletsAll : List Written → Nat
  | [] => 0
  | t :: rest => t.outlets + outletsAll rest

end

mutual

/-- The number of holes. -/
def holes : Written → Nat
  | .text _ | .comment _ => 0
  | .hole => 1
  | .element _ fields children => Field.holesAll fields + holesAll children

def holesAll : List Written → Nat
  | [] => 0
  | t :: rest => t.holes + holesAll rest

end

mutual

/-- The characters and holes of a piece. -/
def print : Written → Gapped
  | .text data => letters (data.toList.flatMap escapeInText)
  | .hole => [none]
  | .comment data => letters ("<!--".toList ++ data.toList ++ "-->".toList)
  | .element tag fields children =>
    letters ('<' :: tag.toList) ++ fields.flatMap Field.print ++ letters ['>'] ++
      if isVoid tag then [] else printAll children ++ letters (printEnd tag)

def printAll : List Written → Gapped
  | [] => []
  | t :: rest => t.print ++ printAll rest

end

/-- The literal chunks of a template. -/
def chunks (template : List Written) : List String :=
  (runs (printAll template)).map String.ofList

/-- Whether a string can be the data of a comment. -/
structure IsComment (data : List Char) : Prop where
  closed : ¬ "-->".toList <:+: data
  opened : ¬ ['>'] <+: data
  openedLate : ¬ ['-', '>'] <+: data

instance : DecidablePred IsComment := fun data =>
  have : Decidable ("-->".toList <:+: data) := List.instDecidableIsInfixOfDecidableEq _ _
  decidable_of_iff (¬ "-->".toList <:+: data ∧ ¬ ['>'] <+: data ∧ ¬ ['-', '>'] <+: data)
    ⟨fun ⟨h₁, h₂, h₃⟩ => ⟨h₁, h₂, h₃⟩, fun ⟨h₁, h₂, h₃⟩ => ⟨h₁, h₂, h₃⟩⟩

mutual

/-- Whether a piece is well formed. -/
def Fits : Written → Prop
  | .text data => data ≠ ""
  | .hole => True
  | .comment data => IsComment data.toList
  | .element tag fields children =>
    IsTag tag ∧ isRaw tag = false ∧ (∀ field ∈ fields, field.Fits tag) ∧
      (fields.filterMap Field.name?).Nodup ∧ (isVoid tag = true → children = []) ∧ FitsAll children

/-- Whether pieces that stand side by side are well formed: no two texts touch. -/
def FitsAll : List Written → Prop
  | [] => True
  | t :: rest => t.Fits ∧ (t.IsText → ∀ u ∈ rest.head?, ¬ u.IsText) ∧ FitsAll rest

end

mutual

instance decidableFits : (t : Written) → Decidable t.Fits
  | .text _ => inferInstanceAs (Decidable (_ ≠ _))
  | .hole => isTrue trivial
  | .comment data => inferInstanceAs (Decidable (IsComment data.toList))
  | .element tag fields children =>
    have := decidableFitsAll children
    inferInstanceAs (Decidable (IsTag tag ∧ isRaw tag = false ∧ (∀ field ∈ fields, field.Fits tag) ∧
      (fields.filterMap Field.name?).Nodup ∧ (isVoid tag = true → children = []) ∧ FitsAll children))

instance decidableFitsAll : (ts : List Written) → Decidable (FitsAll ts)
  | [] => isTrue trivial
  | t :: rest =>
    have := decidableFits t
    have := decidableFitsAll rest
    inferInstanceAs (Decidable (_ ∧ _ ∧ _))

end

mutual

/-- The uses of the holes, in order, where `n` is the number of the next start tag and `m` the number
of the next outlet. -/
def slots (n m : Nat) : Written → List Slot
  | .text _ | .comment _ => []
  | .hole => [.node ⟨m⟩]
  | .element _ fields children => fields.flatMap (Field.slots ⟨n⟩) ++ slotsAll (n + 1) m children

def slotsAll (n m : Nat) : List Written → List Slot
  | [] => []
  | t :: rest => t.slots n m ++ slotsAll (n + t.tags) (m + t.outlets) rest

end

mutual

/-- The tree of the fragment: a hole in text becomes an outlet with a marker. -/
def tree (n m : Nat) : Written → Tree
  | .text data => .text data
  | .hole =>
    .element Config.standard.outletTag (.ofList [(Config.standard.refAttribute, Ref.text ⟨m⟩)]) []
  | .comment data => .comment data
  | .element tag fields children =>
    .element tag (Field.attributes ⟨n⟩ fields) (trees (n + 1) m children)

def trees (n m : Nat) : List Written → List Tree
  | [] => []
  | t :: rest => t.tree n m :: trees (n + t.tags) (m + t.outlets) rest

end

mutual

/-- The programs of the elements with quoted holes, where `i` is the index of the next hole. -/
def programs (n i : Nat) : Written → List (Ref × List (String × List Part))
  | .text _ | .hole | .comment _ => []
  | .element _ fields children =>
    (match Field.programs i fields with
      | [] => []
      | programs => [(⟨n⟩, programs)]) ++
      programsAll (n + 1) (i + Field.holesAll fields) children

def programsAll (n i : Nat) : List Written → List (Ref × List (String × List Part))
  | [] => []
  | t :: rest => t.programs n i ++ programsAll (n + t.tags) (i + t.holes) rest

end

end Written
end LiveMarkup.Template
