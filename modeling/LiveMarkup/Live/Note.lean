import LiveMarkup.Value

/-!
Notes: what callbacks report. A note keeps a value as it looked when the note was taken, so a node
is kept as its name and its markup.
-/
namespace LiveMarkup.Live

/-- The name under which a session knows a thing. -/
abbrev Name := String

/-- A value as it looked at one moment. -/
inductive Snapshot where
  | null
  | bool (b : Bool)
  | number (n : Number)
  | string (s : String)
  | date (d : Date)
  | node (name html : String)
  | object (type : String)
deriving DecidableEq

/-- An entry of the log. -/
inductive Note where
  /-- A subscriber was called; nothing was there to show if there is no value. -/
  | told (name : Name) (value : Option Snapshot)
  | followed (name : Name) (value : Option Snapshot)
  /-- A computation ran, under a tracker that may or may not record reads, or under none. -/
  | ran (name : Name) (tracking : Option Bool)
  | matched (value : Snapshot)
  | fellBack (value : Snapshot)
  | started (name : Name)
  | stopped (name : Name)
  | logged (value : Snapshot)
  | dispatched (event tag : String)
  | heard (name : Name)
  | mounted (name : Name)
  | unmounted (name : Name)
  | cardChildren (name : Name) (children : List String)
  | cardAttribute (name : Name) (attr value : String)
deriving DecidableEq

end LiveMarkup.Live
