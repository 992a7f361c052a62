import LiveMarkup.Live.Script

/-!
Moments: what happens to a signal and to its subscribers. A signal keeps its moments for the sake of
those who reason about it; nothing that runs looks at them. The same goes for deeds: what matches do
with the values that they are shown.
-/
namespace LiveMarkup.Live

/-- Something that happened to a signal. -/
inductive Moment where
  /-- It was made with its first content. -/
  | made (value : Option Value)
  /-- It was given a content, and a new version with it. -/
  | changed (value : Option Value)
  | joined (e : EntryId) (mode : Mode)
  | left (e : EntryId)
  /-- A subscriber was called. A round is named by the version that it set out to show; there is
  none when a subscriber is called as it joins. -/
  | told (e : EntryId) (round : Option Nat) (version : Nat) (value : Option Value)
deriving DecidableEq

/-- What a match does with a value. -/
inductive Response where
  /-- It runs the handler of a case. -/
  | handled (handler : Formula) (result : Value)
  | fellBack (fallback : Formula) (result : Value)
  /-- It leaves the last result of the fallback in place. -/
  | stayed
  /-- It has no fallback to run. -/
  | emptied

/-- Something that a match did. -/
structure Deed where
  branch : BranchId
  activation : ActivationId
  /-- Whether the output was started. -/
  active : Bool
  /-- What cases could test. -/
  facets : Facets Value ValueType
  value : Value
  response : Response

end LiveMarkup.Live
