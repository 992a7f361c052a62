import LiveMarkup.Proofs.Drafting

/-!
Sources: what the values of a template contribute to its texts. A value of its own contributes the same
text for ever. A signal contributes the text of whatever it holds, and a computation does so through
its derived signal, which is up to date as long as somebody is subscribed to it.
-/
namespace LiveMarkup
namespace Number

theorem text_eq_of_same {x y : Number} (h : x.same y = true) : x.text = y.text := by
  simp only [same, Bool.and_eq_true, Bool.or_eq_true, beq_iff_eq] at h
  obtain ⟨-, rfl | ⟨zero, zero'⟩⟩ := h
  · rfl
  · simp only [isZero, beq_iff_eq] at zero zero'
    have unsigned : ∀ negative, plainStyle.write Decimal.double negative 0 = "0" := by
      intro negative
      cases negative <;> rfl
    simp only [text, write, zero, zero', unsigned]

end Number

namespace Value

/-- Two values are the same, or a write of one over the other would go unnoticed. -/
def Alike (v u : Value) : Prop :=
  v = u ∨ v.isSame u = true

/-- Values that are alike have the same texts. -/
theorem Alike.texts {v u : Value} (h : v.Alike u) (plain : u.node? = none) :
    v.node? = none ∧ v.ownText = u.ownText ∧ v.ownTextOrEmpty = u.ownTextOrEmpty := by
  rcases h with rfl | same
  · exact ⟨plain, rfl, rfl⟩
  cases v with
  | bool a =>
    cases u with
    | bool b => exact eq_of_beq same ▸ ⟨rfl, rfl, rfl⟩
    | _ => cases same
  | number a =>
    cases u with
    | number b =>
      have text : a.text = b.text := Number.text_eq_of_same same
      exact ⟨rfl, text, text⟩
    | _ => cases same
  | string a =>
    cases u with
    | string b => exact eq_of_beq same ▸ ⟨rfl, rfl, rfl⟩
    | _ => cases same
  | _ => cases same

end Value

namespace Live

variable {w w' : World} {s : SignalId} {v : Value} {taken : NodeId → Option String → Prop}

namespace TemplateValue

/-- What a value amounts to now. -/
def current (w : World) : TemplateValue → Value
  | .value v => v
  | .signal s | .writable s => (Signal.content w s).getD .null
  | .formula fn => (w.formulas.get fn).reading.value w
  | .listener _ | .component _ => .null

/-- A value that is no node, a signal, or a computation that depends on nothing but signals. -/
def Plain (w : World) : TemplateValue → Prop
  | .value v => v.node? = none
  | .signal s | .writable s => s.index < w.signals.size
  | .formula fn => fn.index < w.formulas.size ∧
    (w.formulas.get fn).reading.Pure w.names.signals w.signals.size
  | .listener _ | .component _ => False

/-- What stands behind a value in a text. -/
inductive Yields (w : World) : TemplateValue → Render.Source → Prop
  | value {v : Value} (plain : v.node? = none) : Yields w (.value v) (.value v)
  | signal {s : SignalId} (known : s.index < w.signals.size) : Yields w (.signal s) (.signal s)
  | writable {s : SignalId} (known : s.index < w.signals.size) : Yields w (.writable s) (.signal s)
  | formula {fn : FormulaId} {s : SignalId} (known : fn.index < w.formulas.size)
    (pure : (w.formulas.get fn).reading.Pure w.names.signals w.signals.size)
    (memo : (w.formulas.get fn).signal = some s) (made : s.index < w.signals.size) :
    Yields w (.formula fn) (.signal s)

variable {value : TemplateValue} {src : Render.Source}

theorem Plain.next (h : value.Plain w) (persists : Persists taken w w') : value.Plain w' := by
  cases value with
  | value v => exact h
  | signal s => exact Nat.lt_of_lt_of_le h persists.count
  | writable s => exact Nat.lt_of_lt_of_le h persists.count
  | formula fn =>
    refine ⟨Nat.lt_of_lt_of_le h.1 persists.formulas, ?_⟩
    rw [persists.readings fn h.1]
    exact h.2.mono persists.names persists.count
  | listener l => exact h
  | component c => exact h

theorem Yields.next (h : value.Yields w src) (persists : Persists taken w w') :
    value.Yields w' src := by
  cases h with
  | value plain => exact .value plain
  | signal known => exact .signal (Nat.lt_of_lt_of_le known persists.count)
  | writable known => exact .writable (Nat.lt_of_lt_of_le known persists.count)
  | @formula fn s known pure memo made =>
    refine .formula (Nat.lt_of_lt_of_le known persists.formulas) ?_ (persists.memo fn s memo)
      (Nat.lt_of_lt_of_le made persists.count)
    rw [persists.readings fn known]
    exact pure.mono persists.names persists.count

theorem Yields.made (h : value.Yields w (.signal s)) : s.index < w.signals.size := by
  cases h with
  | signal known => exact known
  | writable known => exact known
  | formula _ _ _ made => exact made

end TemplateValue

namespace Render

/-- The signal of a source. -/
def Source.signal? : Source → Option SignalId
  | .signal s => some s
  | _ => none

/-- What a source amounts to now. -/
def Source.current (w : World) : Source → Value
  | .literal text => .string text
  | .value v => v
  | .signal s => (Signal.content w s).getD .null

/-- What a source contributes now. -/
def Source.textIn (w : World) (src : Source) : String :=
  (src.current w).ownTextOrEmpty

variable {sources : List Source} {soFar : String} {l : List SignalId}

theorem joined_grounded {names : Ordered Name (SignalId × Role)} {limit : Nat}
    (before : ∀ s, .signal s ∈ sources → s.index < limit) :
    (joined soFar sources).Grounded names limit := by
  have value : ∀ (v : Value) (next : String → Reading),
      (∀ t, (next t).Grounded names limit) → (joined.joinedValue v next).Grounded names limit := by
    intro v next rest
    unfold joined.joinedValue
    split
    · exact rest ""
    · exact .text rest
  induction sources generalizing soFar with
  | nil => exact .done _
  | cons src rest ih =>
    have later : ∀ soFar, (joined soFar rest).Grounded names limit :=
      fun soFar => ih fun s hs => before s (List.mem_cons_of_mem _ hs)
    cases src with
    | literal text => exact later _
    | value v => exact value v _ fun t => later _
    | signal s => exact .get (before s List.mem_cons_self) fun v => value _ _ fun t => later _

theorem joinedValue_gives {u : Value} {next : String → Reading}
    (h : (joined.joinedValue u next).Gives w l v) :
    ∃ t, (next t).Gives w l v ∧ (u.node? = none → t = u.ownTextOrEmpty) := by
  cases null : u.isNull with
  | true =>
    simp only [joined.joinedValue, null, if_true] at h
    refine ⟨"", h, fun _ => ?_⟩
    simp [Value.ownTextOrEmpty, Value.textOrEmpty, null]
  | false =>
    simp only [joined.joinedValue, null, Bool.false_eq_true, if_false] at h
    cases h with
    | @text _ _ t _ _ own rest =>
      refine ⟨t, rest, fun plain => ?_⟩
      rw [own plain]
      simp [Value.ownTextOrEmpty, Value.textOrEmpty, null, Value.ownText]

/-- What sources make together is the text of them all, and every signal among them is read for it. -/
theorem joined_gives (h : (joined soFar sources).Gives w l v) :
    (∀ s, .signal s ∈ sources → s ∈ l) ∧ ((∀ src ∈ sources, (src.current w).node? = none) →
      v = .string (soFar ++ String.join (sources.map (Source.textIn w)))) := by
  induction sources generalizing soFar l with
  | nil =>
    cases h
    exact ⟨nofun, fun _ => by simp⟩
  | cons src rest ih =>
    cases src with
    | literal text =>
      obtain ⟨reads, gives⟩ := ih h
      refine ⟨by simpa using reads, fun plain => ?_⟩
      rw [gives fun src hs => plain src (List.mem_cons_of_mem _ hs), List.map_cons, String.join_cons,
        String.append_assoc]
      rfl
    | value u =>
      obtain ⟨t, h, own⟩ := joinedValue_gives h
      obtain ⟨reads, gives⟩ := ih h
      refine ⟨by simpa using reads, fun plain => ?_⟩
      rw [gives fun src hs => plain src (List.mem_cons_of_mem _ hs), List.map_cons, String.join_cons,
        String.append_assoc, own (plain _ List.mem_cons_self)]
      rfl
    | signal s =>
      cases h with
      | @get _ _ l _ h =>
        obtain ⟨t, h, own⟩ := joinedValue_gives h
        obtain ⟨reads, gives⟩ := ih h
        refine ⟨fun s' hs => ?_, fun plain => ?_⟩
        · rcases List.mem_cons.1 hs with here | later
          · cases here
            exact List.mem_cons_self
          · exact List.mem_cons_of_mem _ (reads s' later)
        · rw [gives fun src hs => plain src (List.mem_cons_of_mem _ hs), List.map_cons,
            String.join_cons, String.append_assoc, own (plain _ List.mem_cons_self)]
          rfl

/-- What the parts of an attribute's value come from. -/
inductive Sourced (w : World) (values : List TemplateValue) :
    List Template.Part → List Source → Prop
  | nil : Sourced w values [] []
  | literal {parts : List Template.Part} {sources : List Source} (text : String)
    (rest : Sourced w values parts sources) :
    Sourced w values (.literal text :: parts) (.literal text :: sources)
  | slot {index : Nat} {value : TemplateValue} {src : Source} {parts : List Template.Part}
    {sources : List Source} (given : values[index]? = some value) (yields : value.Yields w src)
    (rest : Sourced w values parts sources) :
    Sourced w values (.slot index :: parts) (src :: sources)

theorem Sourced.next {values : List TemplateValue} {parts : List Template.Part}
    {sources : List Source} (h : Sourced w values parts sources) (persists : Persists taken w w') :
    Sourced w' values parts sources := by
  induction h with
  | nil => exact .nil
  | literal text _ ih => exact .literal text ih
  | slot given yields _ ih => exact .slot given (yields.next persists) ih

theorem Sourced.made {values : List TemplateValue} {parts : List Template.Part}
    {sources : List Source} (h : Sourced w values parts sources) (mem : .signal s ∈ sources) :
    s.index < w.signals.size := by
  induction h with
  | nil => cases mem
  | literal text _ ih => exact ih ((List.mem_cons.1 mem).resolve_left Source.noConfusion)
  | slot given yields _ ih =>
    rcases List.mem_cons.1 mem with rfl | later
    · exact yields.made
    · exact ih later

theorem Sourced.plain {values : List TemplateValue} {parts : List Template.Part}
    {sources : List Source} (h : Sourced w values parts sources)
    (signals : ∀ s, .signal s ∉ sources) : ∀ src ∈ sources, (src.current w).node? = none := by
  induction h with
  | nil => exact List.forall_mem_nil _
  | literal text _ ih =>
    exact List.forall_mem_cons.2 ⟨rfl, ih fun s mem => signals s (List.mem_cons_of_mem _ mem)⟩
  | slot given yields _ ih =>
    refine List.forall_mem_cons.2 ⟨?_, ih fun s mem => signals s (List.mem_cons_of_mem _ mem)⟩
    cases yields with
    | value plain => exact plain
    | _ => exact absurd List.mem_cons_self (signals _)

/-- What a part of an attribute's value amounts to now. -/
def partCurrent (w : World) (values : List TemplateValue) : Template.Part → Value
  | .literal text => .string text
  | .slot index => ((values[index]?).map (·.current w)).getD .null

/-- The text of a program's value now. -/
def programText (w : World) (values : List TemplateValue) (parts : List Template.Part) : String :=
  String.join (parts.map fun part => w.textOrEmpty (partCurrent w values part))

end Render

open Render

/-- A source whose signal has a subscriber amounts to what the value does. -/
theorem Stage.yields_alike (h : Stage w) {value : TemplateValue} {src : Source}
    (yields : value.Yields w src)
    (observed : ∀ s, src = .signal s → (w.signals.get s).subscribers ≠ []) :
    (src.current w).Alike (value.current w) := by
  cases yields with
  | value _ => exact .inl rfl
  | signal _ => exact .inl rfl
  | writable _ => exact .inl rfl
  | @formula fn s known pure memo _ =>
    obtain ⟨v, u, l, content, gives, alike, -⟩ := h.current (h.formulas fn s memo) (observed s rfl)
    have value : u = (w.formulas.get fn).reading.value w := gives.eq_value pure
    simp only [Source.current, content, Option.getD_some, TemplateValue.current]
    exact value ▸ alike

/-- What parts come to, where every signal behind them has a subscriber. -/
theorem Stage.sourced_texts (h : Stage w) {values : List TemplateValue} {parts : List Template.Part}
    {sources : List Source} (sourced : Sourced w values parts sources)
    (observed : ∀ s, .signal s ∈ sources → (w.signals.get s).subscribers ≠ [])
    (plain : ∀ part ∈ parts, (partCurrent w values part).node? = none) :
    (∀ x ∈ sources, (x.current w).node? = none) ∧
      String.join (sources.map (Source.textIn w)) = programText w values parts := by
  have cons : ∀ {part : Template.Part} {src : Source} {parts sources},
      (src.current w).Alike (partCurrent w values part) →
        (partCurrent w values part).node? = none →
          (∀ x ∈ sources, (x.current w).node? = none) ∧
            String.join (sources.map (Source.textIn w)) = programText w values parts →
              (∀ x ∈ src :: sources, (x.current w).node? = none) ∧
                String.join ((src :: sources).map (Source.textIn w)) =
                  programText w values (part :: parts) := by
    intro part src parts sources alike here rest
    obtain ⟨plains, texts⟩ := rest
    obtain ⟨plain, -, text⟩ := alike.texts here
    have same : Source.textIn w src = w.textOrEmpty (partCurrent w values part) :=
      text.trans (Value.textOrEmpty_eq_own here _).symm
    refine ⟨List.forall_mem_cons.2 ⟨plain, plains⟩, ?_⟩
    unfold programText at texts ⊢
    rw [List.map_cons, List.map_cons, String.join_cons, String.join_cons, texts, same]
  induction sourced with
  | nil => exact ⟨List.forall_mem_nil _, rfl⟩
  | literal text _ ih =>
    obtain ⟨here, later⟩ := List.forall_mem_cons.1 plain
    exact cons (.inl rfl) here (ih (fun s hs => observed s (List.mem_cons_of_mem _ hs)) later)
  | @slot index value src _ _ given yields _ ih =>
    obtain ⟨here, later⟩ := List.forall_mem_cons.1 plain
    have current : partCurrent w values (.slot index) = value.current w := by
      simp [partCurrent, given]
    have alike : (src.current w).Alike (partCurrent w values (.slot index)) := by
      rw [current]
      exact h.yields_alike yields fun s hs => observed s (hs ▸ List.mem_cons_self)
    exact cons alike here (ih (fun s hs => observed s (List.mem_cons_of_mem _ hs)) later)

/-- A derived signal that puts sources together holds the text of what they come from, if it has a
subscriber. -/
theorem Stage.joined_current (h : Stage w) {values : List TemplateValue} {parts : List Template.Part}
    {sources : List Source} (sourced : Sourced w values parts sources)
    (derives : Derives w s (joined "" sources)) (observed : (w.signals.get s).subscribers ≠ [])
    (plain : ∀ part ∈ parts, (partCurrent w values part).node? = none) :
    ∃ v, Signal.content w s = some v ∧ v.node? = none ∧ v.ownText = programText w values parts := by
  obtain ⟨v, u, l, content, gives, alike, below⟩ := h.current derives observed
  obtain ⟨reads, text⟩ := joined_gives gives
  obtain ⟨plains, texts⟩ := h.sourced_texts sourced (fun s hs => below s (reads s hs)) plain
  obtain rfl := text plains
  obtain ⟨plain', text', -⟩ := Value.Alike.texts alike rfl
  refine ⟨v, content, plain', ?_⟩
  calc v.ownText
    _ = "" ++ String.join (sources.map (Source.textIn w)) := text'
    _ = String.join (sources.map (Source.textIn w)) := String.empty_append
    _ = programText w values parts := texts

end Live
end LiveMarkup
