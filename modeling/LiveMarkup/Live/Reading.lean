import LiveMarkup.Live.Note

/-!
Readings: computations of a value that may look at signals on their way. A reading is a tree of
questions; what it does next may depend on every answer it got, so any function of the signals it
reads is a reading. Reading through `get` is seen by a tracker, reading through `peek` is not.
-/
namespace LiveMarkup.Live

/-- A value that is written down: a plain one, a node by name, or a node that is made under its name
unless there is one already. -/
inductive Literal where
  | plain (v : Value)
  | node (name : Name)
  | element (tag : String) (name : Name)
  | text (data : String) (name : Name)

/-- A computation of a value. -/
inductive Reading where
  | done (v : Value)
  /-- The value of a signal, which may be absent; a tracker takes note. -/
  | get (s : SignalId) (next : Option Value → Reading)
  /-- The value of a signal, unseen by trackers. -/
  | peek (s : SignalId) (next : Option Value → Reading)
  /-- Shows a signal to the tracker without reading it. -/
  | track (s : SignalId) (next : Reading)
  /-- Whether a tracker records reads; nothing where there is no tracker. -/
  | mode (next : Option Bool → Reading)
  /-- The signal of a name. -/
  | signal (name : Name) (next : SignalId → Reading)
  | literal (l : Literal) (next : Value → Reading)
  /-- The text of a value, for which nodes are looked at. -/
  | text (v : Value) (next : String → Reading)
  | note (n : Note) (next : Reading)

instance : Inhabited Reading := ⟨.done .null⟩

/-- A computation with a current value. -/
abbrev Formula := Value → Reading

/-- An expression: the written form of a formula. -/
inductive Expr where
  | literal (l : Literal)
  | current
  | get (name : Name)
  | peek (name : Name)
  | track (name : Name)
  | tracking
  | ran (name : Name) (x : Expr)
  | sum (xs : List Expr)
  | product (x y : Expr)
  | concat (xs : List Expr)
  | equal (x y : Expr)
  | greater (x y : Expr)
  | not (x : Expr)
  | choose (condition x y : Expr)

namespace Expr

mutual

/-- Computes an expression and goes on with its value. -/
def andThen (current : Value) (next : Value → Reading) : Expr → Reading
  | .literal l => .literal l next
  | .current => next current
  | .get name => .signal name fun s => .get s fun v => next (v.getD .null)
  | .peek name => .signal name fun s => .peek s fun v => next (v.getD .null)
  | .track name => .signal name fun s => .track s (next .null)
  | .tracking => .mode fun m => next (.bool (m.getD false))
  | .ran name x => .mode fun m => .note (.ran name m) (x.andThen current next)
  | .sum xs => andThenAll current (fun vs =>
      next (.number (vs.foldl (fun n v => n.add v.numberOrZero) .zero))) xs
  | .product x y => x.andThen current fun a => y.andThen current fun b =>
      next (.number (a.numberOrZero.mul b.numberOrZero))
  | .concat xs => andThenJoined current (fun s => next (.string s)) "" xs
  | .equal x y => x.andThen current fun a => y.andThen current fun b => next (.bool (a.equal b))
  | .greater x y => x.andThen current fun a => y.andThen current fun b =>
      next (.bool (b.numberOrZero.less a.numberOrZero))
  | .not x => x.andThen current fun a => next (.bool !a.isTruthy)
  | .choose condition x y => condition.andThen current fun c =>
      if c.isTruthy then x.andThen current next else y.andThen current next

/-- Computes expressions in order and goes on with their values. -/
def andThenAll (current : Value) (next : List Value → Reading) : List Expr → Reading
  | [] => next []
  | x :: rest => x.andThen current fun v => andThenAll current (fun vs => next (v :: vs)) rest

/-- Computes expressions in order, takes the text of each value before the next one is computed, and
goes on with all texts joined. -/
def andThenJoined (current : Value) (next : String → Reading) (soFar : String) :
    List Expr → Reading
  | [] => next soFar
  | x :: rest => x.andThen current fun v =>
      .text v fun s => andThenJoined current next (soFar ++ s) rest

end

/-- The formula that an expression writes down. -/
def formula (e : Expr) : Formula :=
  fun current => e.andThen current .done

end Expr
end LiveMarkup.Live
