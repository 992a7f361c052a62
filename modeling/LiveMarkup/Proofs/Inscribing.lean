import LiveMarkup.Proofs.Sources

/-!
Inscribing: what a rendering writes to its copy. A text takes the place of an outlet, and the value of an
attribute is put together from its parts; both are shown from then on, once and for all where no
signal is behind them, and by a follow where one is.
-/
namespace LiveMarkup.Live

open Render

/-- Whatever goes well satisfies a condition. -/
def Succeeds {ε α : Type} (run : Runner) (x : ExceptT ε Op α) (w : World)
    (Q : α → World → Prop) : Prop :=
  ∀ a w', x.run run w = .ok (.ok a, w') → Q a w'

namespace Succeeds
variable {ε α β : Type} {run : Runner} {w : World}

theorem pure {a : α} {Q : α → World → Prop} (h : Q a w) :
    Succeeds run (pure a : ExceptT ε Op α) w Q := by
  rintro _ _ ⟨⟩
  exact h

theorem throw {e : ε} {Q : α → World → Prop} :
    Succeeds run (throw e : ExceptT ε Op α) w Q := by
  rintro _ _ ⟨⟩

theorem bind {x : ExceptT ε Op α} {f : α → ExceptT ε Op β} {Q : β → World → Prop}
    (h : Succeeds run x w fun a w' => Succeeds run (f a) w' Q) : Succeeds run (x >>= f) w Q := by
  intro b w' ran
  obtain ⟨a, w₁, first, rest⟩ := run_bind_eq_ok ran
  exact h a w₁ first b w' rest

theorem mono {x : ExceptT ε Op α} {Q Q' : α → World → Prop} (h : Succeeds run x w Q)
    (imp : ∀ a w', Q a w' → Q' a w') : Succeeds run x w Q' :=
  fun a w' ran => imp a w' (h a w' ran)

theorem lift {x : Op α} {Q : α → World → Prop} (h : Ensures run x w Q) :
    Succeeds run (liftM x : ExceptT ε Op α) w Q := by
  intro a w' ran
  have lifted : (liftM x : ExceptT ε Op α).run = Except.ok <$> x := rfl
  rw [lifted] at ran
  have all : Ensures run (Except.ok <$> x) w fun r w' => ∀ a, (r : Except ε α) = .ok a → Q a w' := by
    refine (ensures_map ..).2 (h.mono ?_)
    rintro a w' hq _ ⟨⟩
    exact hq
  exact all _ _ ran a rfl

theorem atSlot {x : Fitting α} {index : Option Nat} {Q : α → World → Prop}
    (h : Succeeds run x w Q) : Succeeds run (x.atSlot index) w Q := by
  intro a w' ran
  rw [atSlot_run] at ran
  cases hx : x.run run w with
  | error e =>
    rw [hx] at ran
    cases ran
  | ok p =>
    obtain ⟨r, w₁⟩ := p
    cases r with
    | ok b =>
      rw [hx] at ran
      cases ran
      exact h _ _ hx
    | error e =>
      rw [hx] at ran
      cases ran

end Succeeds

variable {w₀ w w' : World} {n m p element : NodeId} {e : Effect} {s : SignalId} {t name : String}
  {value : TemplateValue} {values : List TemplateValue} {parts : List Template.Part}
  {taken : NodeId → Option String → Prop}

/-! What stands at nodes. -/

/-- A text stands at a node for good: no follow shows anything in its place. -/
structure Settled (w : World) (n : NodeId) (e : Effect) (t : String) : Prop where
  known : n.index < w.nodes.size
  off : ∀ e' s, w.board n e' s → e.part ≠ e'.part
  look : e.look (w.nodes.get n) = some t

theorem Settled.next (h : Settled w n e t) (persists : Persists taken w w')
    (free : ¬ taken n e.part) : Settled w' n e t := by
  refine ⟨Nat.lt_of_lt_of_le h.known persists.nodes, fun e' s shows => ?_, ?_⟩
  · rcases persists.added n e' s shows with before | new
    · exact h.off e' s before
    · exact fun same => free (same ▸ new)
  · rw [persists.look n h.known e h.off free]
    exact h.look

/-- A text shows a value of a template. -/
inductive Tells (w : World) (n : NodeId) : TemplateValue → Prop
  | settled {v : Value} (plain : v.node? = none) (settled : Settled w n .text v.ownTextOrEmpty) :
    Tells w n (.value v)
  | live {value : TemplateValue} {s : SignalId} (yields : value.Yields w (.signal s))
    (shows : w.board n .text s) : Tells w n value

/-- An attribute shows what its parts make together. -/
inductive Inscribed (w : World) (values : List TemplateValue) (n : NodeId) (name : String)
    (parts : List Template.Part) : Prop
  | settled {sources : List Source} (sourced : Sourced w values parts sources)
    (plain : ∀ s, .signal s ∉ sources)
    (settled : Settled w n (.wholeAttr name) (String.join (sources.map (Source.textIn w))))
  | live {sources : List Source} {s : SignalId} (sourced : Sourced w values parts sources)
    (derives : Derives w s (joined "" sources)) (shows : w.board n (.wholeAttr name) s)

theorem Tells.next (h : Tells w n value) (persists : Persists taken w w')
    (free : ¬ taken n none) : Tells w' n value := by
  cases h with
  | settled plain settled => exact .settled plain (settled.next persists free)
  | live yields shows => exact .live (yields.next persists) (persists.board n _ _ shows)

/-- Sources without signals contribute the same for ever. -/
theorem textIn_of_plain {sources : List Source} (plain : ∀ s, .signal s ∉ sources) (w w' : World) :
    sources.map (Source.textIn w') = sources.map (Source.textIn w) := by
  refine List.map_congr_left fun src mem => ?_
  cases src with
  | signal s => exact absurd mem (plain s)
  | _ => rfl

theorem Inscribed.next (h : Inscribed w values n name parts) (persists : Persists taken w w')
    (free : ¬ taken n (some (Text.lowercase name))) : Inscribed w' values n name parts := by
  cases h with
  | settled sourced plain settled =>
    refine .settled (sourced.next persists) plain ?_
    rw [textIn_of_plain plain w w']
    exact settled.next persists free
  | live sourced derives shows =>
    exact .live (sourced.next persists) (persists.derives _ _ derives) (persists.board n _ _ shows)

/-- A text of a mounted node is the text of what its value amounts to now. -/
theorem Stage.tells (h : Stage w) (tells : Tells w n value)
    (connected : (w.nodes.get n).connected = true) (plain : (value.current w).node? = none) :
    (w.nodes.get n).content = .text (w.textOrEmpty (value.current w)) := by
  have content : ∀ {t}, Effect.text.look (w.nodes.get n) = some t →
      (w.nodes.get n).content = .text t := by
    intro t look
    unfold Effect.look at look
    cases content : (w.nodes.get n).content with
    | text data =>
      simp only [content, Option.some.injEq] at look
      rw [look]
    | _ =>
      simp only [content] at look
      cases look
  refine content ?_
  unfold World.textOrEmpty
  rw [Value.textOrEmpty_eq_own plain]
  cases tells with
  | settled _ settled => exact settled.look
  | @live _ s yields shows =>
    have lit : w.lit n .text s := ⟨shows, connected⟩
    obtain ⟨entry, member, -⟩ := h.listens lit
    have alike := h.yields_alike yields fun _ eq => by
      cases eq
      exact List.ne_nil_of_mem member
    obtain ⟨plain', -, text⟩ := alike.texts plain
    rw [h.shown lit plain']
    exact congrArg some text

/-- A put-together attribute of a mounted node is the text of what its parts amount to now. -/
theorem Stage.inscribed (h : Stage w) (inscribed : Inscribed w values n name parts)
    (connected : (w.nodes.get n).connected = true)
    (plain : ∀ part ∈ parts, (partCurrent w values part).node? = none) :
    (w.nodes.attributes n).value? name = some (programText w values parts) := by
  have content : ∀ {t}, (Effect.wholeAttr name).look (w.nodes.get n) = some t →
      (w.nodes.attributes n).value? name = some t := by
    intro t look
    unfold Effect.look at look
    unfold Dom.Forest.attributes Dom.Node.element?
    cases content : (w.nodes.get n).content with
    | element a =>
      simp only [content] at look ⊢
      exact look
    | _ =>
      simp only [content] at look
      cases look
  refine content ?_
  cases inscribed with
  | settled sourced signals settled =>
    obtain ⟨-, texts⟩ := h.sourced_texts sourced (fun s mem => absurd mem (signals s)) plain
    rw [settled.look, texts]
  | @live _ s sourced derives shows =>
    have lit : w.lit n (.wholeAttr name) s := ⟨shows, connected⟩
    obtain ⟨entry, member, -⟩ := h.listens lit
    obtain ⟨v, content, plain', text⟩ :=
      h.joined_current sourced derives (List.ne_nil_of_mem member) plain
    have current : (Signal.content w s).getD .null = v := by rw [content, Option.getD_some]
    have look := h.shown lit (current ▸ plain')
    rw [current] at look
    rw [look]
    exact congrArg some text

/-- A node that an effect suits is known. -/
theorem known_of_suits (suits : e.Suits (w.nodes.get n)) : n.index < w.nodes.size := by
  rcases Nat.lt_or_ge n.index w.nodes.size with known | unknown
  · exact known
  · rw [Dom.Forest.get_unknown unknown] at suits
    cases e <;> cases suits

theorem fillProgram_several (several : ∀ i, parts ≠ [.slot i]) :
    fillProgram values n name parts = (do
      let sources ← parts.mapM (sourceOfPart values)
      if sources.any Source.isSignal then
        let s ← (Derivation.create (joined "" sources) : Op SignalId)
        Effect.bind n s (.wholeAttr name)
      else
        let v ← ((joined "" sources).run .passing : Op Value)
        Effect.apply n v (.wholeAttr name) : Rendering Unit) := by
  unfold fillProgram
  split
  case h_1 i => exact absurd rfl (several i)
  case h_2 => rfl

namespace Draft
variable {fuel : Nat}

/-- What stands behind a value. -/
theorem signal? (h : Draft w₀ w) (plain : value.Plain w) :
    Ensures (exec fuel) value.signal? w fun o w' => Draft w₀ w' ∧ Persists Untaken w w' ∧
      w'.nodes = w.nodes ∧ ((∃ v, value = .value v ∧ o = none) ∨
        ∃ s, o = some s ∧ value.Yields w' (.signal s)) := by
  cases value with
  | value v => exact (ensures_pure ..).2 ⟨h, .refl w, rfl, .inl ⟨v, rfl, rfl⟩⟩
  | signal s => exact (ensures_pure ..).2 ⟨h, .refl w, rfl, .inr ⟨s, rfl, .signal plain⟩⟩
  | writable s => exact (ensures_pure ..).2 ⟨h, .refl w, rfl, .inr ⟨s, rfl, .writable plain⟩⟩
  | formula fn =>
    refine (ensures_map ..).2 ((h.derived plain.1 plain.2 fuel).mono ?_)
    rintro s w' ⟨h', persists, nodes, memo⟩
    have plain' : TemplateValue.Plain w' (.formula fn) := TemplateValue.Plain.next plain persists
    refine ⟨h', persists, nodes, .inr ⟨s, rfl, .formula plain'.1 plain'.2 memo ?_⟩⟩
    exact (h'.formulas fn s memo).known
  | listener l => exact plain.elim
  | component c => exact plain.elim

/-- What a part of an attribute comes from. -/
theorem sourceOf (h : Draft w₀ w) (plain : value.Plain w) :
    Succeeds (exec fuel) (sourceOf value) w fun src w' => Draft w₀ w' ∧ Persists Untaken w w' ∧
      w'.nodes = w.nodes ∧ value.Yields w' src := by
  refine .bind (.lift ((h.signal? plain).mono ?_))
  rintro o w' ⟨h', persists, nodes, ⟨v, rfl, rfl⟩ | ⟨s, rfl, yields⟩⟩
  · exact .pure ⟨h', persists, nodes, .value plain⟩
  · exact .pure ⟨h', persists, nodes, yields⟩

/-- What the parts of an attribute come from. By induction on the parts. -/
theorem sourcesOf (h : Draft w₀ w) (plain : ∀ value ∈ values, value.Plain w) :
    Succeeds (exec fuel) (parts.mapM (sourceOfPart values)) w fun sources w' =>
      Draft w₀ w' ∧ Persists Untaken w w' ∧ w'.nodes = w.nodes ∧ Sourced w' values parts sources := by
  induction parts generalizing w with
  | nil => exact .pure ⟨h, .refl w, rfl, .nil⟩
  | cons part parts ih =>
    rw [List.mapM_cons]
    have go : ∀ {w₁ : World} (src : Source), Draft w₀ w₁ → Persists Untaken w w₁ →
        w₁.nodes = w.nodes → (∀ w₂ sources, Persists Untaken w₁ w₂ →
          Sourced w₂ values parts sources → Sourced w₂ values (part :: parts) (src :: sources)) →
        Succeeds (exec fuel) (do
          let rest ← parts.mapM (sourceOfPart values)
          return src :: rest) w₁ fun sources w' => Draft w₀ w' ∧ Persists Untaken w w' ∧
            w'.nodes = w.nodes ∧ Sourced w' values (part :: parts) sources := by
      intro w₁ src h₁ persists₁ nodes₁ sourced
      refine .bind ((ih h₁ fun value mem => (plain value mem).next persists₁).mono ?_)
      rintro sources w₂ ⟨h₂, persists₂, nodes₂, rest⟩
      exact .pure ⟨h₂, persists₁.trans persists₂, nodes₂.trans nodes₁,
        sourced w₂ sources persists₂ rest⟩
    cases part with
    | literal text =>
      refine .bind (.pure ?_)
      exact go _ h (.refl w) rfl fun _ _ _ rest => .literal text rest
    | slot index =>
      cases given : values[index]? with
      | none =>
        simp only [sourceOfPart, given]
        exact .bind .throw
      | some value =>
        simp only [sourceOfPart, given]
        refine .bind (.atSlot ((h.sourceOf (plain value (List.mem_of_getElem? given))).mono ?_))
        rintro src w₁ ⟨h₁, persists₁, nodes₁, yields⟩
        exact go src h₁ persists₁ nodes₁ fun _ _ persists₂ rest =>
          .slot given (yields.next persists₂) rest

/-- The text of a new node. -/
theorem settle (h : Draft w₀ w) (new : w₀.nodes.size ≤ n.index) (known : n.index < w.nodes.size)
    (suits : e.Suits (w.nodes.get n)) (off : ∀ e' s', w.board n e' s' → e'.part ≠ e.part)
    {v : Value} (run : Runner) : Ensures run (e.apply n v) w fun _ w' => Draft w₀ w' ∧
      Persists (fun m part => m = n ∧ part = e.part) w w' ∧ Settled w' n e (e.textIn w v) := by
  intro _ w' applied
  rw [Effect.apply_of_suits suits] at applied
  cases applied
  obtain ⟨h', persists⟩ := h.paint new suits off (e.textIn w v)
  refine ⟨h', persists, Nat.lt_of_lt_of_le known persists.nodes, fun e' s shows => ?_, ?_⟩
  · exact (off e' s shows).symm
  · dsimp only
    rw [Heap.get_modify_self _ _ _ known]
    exact Effect.look_paint suits

end Draft

/-- A node came to be that shows a value, and stands alone so far. -/
structure Newcomer (w₀ w : World) (value : TemplateValue) (n : NodeId) (w' : World) : Prop where
  draft : Draft w₀ w'
  persists : Persists (fun m part => w.nodes.size ≤ m.index ∧ part = none) w w'
  new : w.nodes.size ≤ n.index
  known : n.index < w'.nodes.size
  whole : (w'.nodes.get n).isFragment = false
  orphan : (w'.nodes.get n).parent = none
  childless : (w'.nodes.get n).children = []
  tells : Tells w' n value
  old : ∀ m, m.index < w.nodes.size → w'.nodes.get m = w.nodes.get m

namespace Draft
variable {fuel : Nat}

/-- A new text, at which nothing is shown yet. -/
theorem text (h : Draft w₀ w) (t : String) :
    let w' : World := { w with nodes := (w.nodes.create (.text t)).2 }
    Draft w₀ w' ∧ Persists Untaken w w' ∧ w.nodes.next.index < w'.nodes.size ∧
      w'.nodes.get w.nodes.next = ⟨.text t, none, [], false⟩ ∧
        (∀ e s, ¬ w'.board w.nodes.next e s) ∧
          ∀ m, m.index < w.nodes.size → w'.nodes.get m = w.nodes.get m := by
  intro w'
  obtain ⟨h', persists⟩ := h.create (.text t)
  refine ⟨h', persists, (Heap.size_push ..).symm ▸ Nat.lt_succ_self _, Heap.get_push_next ..,
    fun e s shows => ?_, fun m hm => Heap.get_push_of_lt _ _ _ hm⟩
  have before : w.board w.nodes.next e s := shows
  exact Nat.lt_irrefl _ (h.finished.suits _ e s before).1

/-- A text that is written once. -/
theorem newText (h : Draft w₀ w) {v : Value} (plain : v.node? = none) (run : Runner) :
    Ensures run (onNodes (·.create (.text (w.textOrEmpty v)))) w (Newcomer w₀ w (.value v)) := by
  rintro n w' ⟨⟩
  obtain ⟨h', persists, known, cell, off, old⟩ := h.text (w.textOrEmpty v)
  refine ⟨h', persists.lax, Nat.le_refl _, known, ?_, ?_, ?_, .settled plain ?_, old⟩
  · exact congrArg Dom.Node.isFragment cell
  · exact congrArg Dom.Node.parent cell
  · exact congrArg Dom.Node.children cell
  · refine ⟨known, fun e s shows => absurd shows (off e s), ?_⟩
    refine (congrArg Effect.text.look cell).trans ?_
    exact congrArg some (Value.textOrEmpty_eq_own plain _)

/-- A text that follows a signal. -/
theorem signalNode (h : Draft w₀ w) (yields : value.Yields w (.signal s)) (run : Runner) :
    Ensures run (signalNode s) w (Newcomer w₀ w value) := by
  simp only [Render.signalNode, onNodes, ensures_bind, ensures_get, ensures_set, ensures_pure]
  obtain ⟨h₁, persists₁, known, cell, off, old⟩ :=
    h.text (w.textOrEmpty ((Signal.content w s).getD .null))
  intro _ w₂ followed
  have new : w₀.nodes.size ≤ w.nodes.next.index := h.size
  have ran := Lifecycle.follow_run (s := s) (e := .text) (h₁.unmounted _ new) run
  cases ran.symm.trans followed
  obtain ⟨h₂, persists₂⟩ := h₁.hung (e := .text) (s := s) new known (by rw [cell]; rfl)
    (fun e s shows => absurd shows (off e s)) yields.made
  refine ⟨h₂, ?_, Nat.le_refl _, known, ?_, ?_, ?_,
    .live ((yields.next persists₁).next persists₂) (hung_board.2 (.inr ⟨rfl, rfl, rfl⟩)), old⟩
  · refine persists₁.lax.trans (persists₂.mono ?_)
    rintro m part ⟨rfl, rfl⟩
    exact ⟨Nat.le_refl _, rfl⟩
  · exact congrArg Dom.Node.isFragment cell
  · exact congrArg Dom.Node.parent cell
  · exact congrArg Dom.Node.children cell

/-- The text of a value that is shown for as long as its signal lives. -/
theorem liveNode (h : Draft w₀ w) (plain : value.Plain w) (other : ∀ v, value ≠ .value v) :
    Succeeds (exec fuel) (do
      match ← value.signal? with
      | some s => Render.signalNode s
      | none => throw .unrenderableValue : Fitting NodeId) w (Newcomer w₀ w value) := by
  refine .bind (.lift ((h.signal? plain).mono ?_))
  rintro o w₁ ⟨h₁, persists₁, nodes₁, ⟨v, rfl, -⟩ | ⟨s, rfl, yields⟩⟩
  · exact absurd rfl (other v)
  refine .lift ((h₁.signalNode yields (exec fuel)).mono ?_)
  intro n w₂ new
  have persists := new.persists
  have old := new.old
  have young := new.new
  rw [nodes₁] at persists old young
  exact { new with
    persists := persists₁.lax.trans persists
    old, new := young }

/-- The text that takes the place of an outlet. -/
theorem nodeOf (h : Draft w₀ w) (plain : value.Plain w) :
    Succeeds (exec fuel) (nodeOf value) w (Newcomer w₀ w value) := by
  cases value with
  | value v =>
    cases v with
    | node n => cases plain
    | _ => exact .lift (h.newText plain (exec fuel))
  | signal s => exact h.liveNode plain fun _ => TemplateValue.noConfusion
  | writable s => exact h.liveNode plain fun _ => TemplateValue.noConfusion
  | formula fn => exact h.liveNode plain fun _ => TemplateValue.noConfusion
  | listener l => exact plain.elim
  | component c => exact plain.elim

/-- The text that shows a value takes the place of its outlet. -/
theorem outlet (h : Draft w₀ w) (plain : value.Plain w) (new : w₀.nodes.size ≤ element.index)
    (parent : (w.nodes.get element).parent = some p) (r : Template.Ref) :
    Succeeds (exec fuel) (fillElement element (.node r) value) w fun asked w' => asked = [] ∧
      Draft w₀ w' ∧ Persists (fun m part => w.nodes.size ≤ m.index ∧ part = none) w w' ∧
        ∃ n, n.index < w'.nodes.size ∧ Tells w' n value ∧
          (w'.nodes.get p).children =
            (w.nodes.get p).children.map fun c => if c = element then n else c := by
  refine .bind ((h.nodeOf plain).mono ?_)
  intro n w₁ came
  have known := Dom.Forest.Linked.known parent
  have above := Dom.Forest.known_of_mem_children ((h.linked.child p element).2 parent)
  have parent₁ : (w₁.nodes.get element).parent = some p := by
    rw [came.old element known]
    exact parent
  refine .bind (.lift ((came.draft.replace new parent₁
    (Nat.le_trans h.size came.new) came.known came.whole came.orphan came.childless
    (exec fuel)).mono ?_))
  rintro _ w₂ ⟨h₂, persists₂, swapped⟩
  refine .pure ⟨rfl, h₂, came.persists.trans persists₂.lax, n, ?_,
    came.tells.next persists₂ id, ?_⟩
  · rw [swapped.relinked.size]
    exact came.known
  · rw [swapped.place, came.old p above]

/-- An attribute is put together, and shown from then on. -/
theorem program (h : Draft w₀ w) (new : w₀.nodes.size ≤ n.index)
    (suits : (Effect.wholeAttr name).Suits (w.nodes.get n)) (plain : ∀ value ∈ values, value.Plain w)
    (several : ∀ i, parts ≠ [.slot i])
    (off : ∀ e s, w.board n e s → e.part ≠ some (Text.lowercase name)) :
    Succeeds (exec fuel) (fillProgram values n name parts) w fun _ w' => Draft w₀ w' ∧
      Persists (fun m part => m = n ∧ part = some (Text.lowercase name)) w w' ∧
        Inscribed w' values n name parts := by
  have known := known_of_suits suits
  rw [fillProgram_several several]
  refine .bind ((h.sourcesOf plain).mono ?_)
  rintro sources w₁ ⟨h₁, persists₁, nodes₁, sourced⟩
  have suits₁ : (Effect.wholeAttr name).Suits (w₁.nodes.get n) := nodes₁ ▸ suits
  have known₁ : n.index < w₁.nodes.size := nodes₁ ▸ known
  have off₁ : ∀ e s, w₁.board n e s → e.part ≠ some (Text.lowercase name) :=
    fun e s shows => off e s ((persists₁.added n e s shows).resolve_right id)
  have grounded : (joined "" sources).Grounded w₁.names.signals w₁.signals.size :=
    joined_grounded fun s mem => sourced.made mem
  cases live : sources.any Source.isSignal with
  | true =>
    rw [if_pos rfl]
    refine .bind (.lift ((h₁.createDerivation grounded fuel).mono ?_))
    rintro s w₂ ⟨h₂, persists₂, derives, nodes₂, -⟩
    refine .lift ((h₂.bind (e := .wholeAttr name) new (nodes₂ ▸ known₁) (nodes₂ ▸ suits₁)
      (fun e s shows => off₁ e s ((persists₂.added n e s shows).resolve_right id)) derives.known
      (exec fuel)).mono ?_)
    rintro _ w₃ ⟨h₃, persists₃, shows⟩
    exact ⟨h₃, (persists₁.trans persists₂).lax.trans persists₃,
      .live ((sourced.next persists₂).next persists₃) (persists₃.derives _ _ derives) shows⟩
  | false =>
    rw [if_neg Bool.false_ne_true]
    have signals : ∀ s, .signal s ∉ sources := by
      intro s mem
      have found : sources.any Source.isSignal = true := List.any_eq_true.2 ⟨_, mem, rfl⟩
      rw [live] at found
      cases found
    obtain ⟨v, l, ran, gives⟩ :=
      grounded.run_unseen (t := .passing) (fun _ => Tracker.noConfusion) (exec fuel)
    have text := (joined_gives gives).2 (sourced.plain signals)
    refine .bind (.lift fun u w₂ ran' => ?_)
    cases ran.symm.trans ran'
    refine .lift ((h₁.settle new known₁ suits₁ off₁ (exec fuel)).mono ?_)
    rintro _ w₂ ⟨h₂, persists₂, settled⟩
    refine ⟨h₂, persists₁.lax.trans persists₂,
      .settled (sourced.next persists₂) signals ?_⟩
    have written : (Effect.wholeAttr name).textIn w₁ v =
        String.join (sources.map (Source.textIn w₂)) := by
      rw [text, textIn_of_plain signals w₁ w₂]
      exact String.empty_append
    exact written ▸ settled

/-- All put-together attributes of an element, where no two have the same name. By induction on the
attributes. -/
theorem programs {entries : List (String × List Template.Part)} (h : Draft w₀ w)
    (new : w₀.nodes.size ≤ n.index) (element : (w.nodes.get n).element?.isSome = true)
    (plain : ∀ value ∈ values, value.Plain w) (several : ∀ p ∈ entries, ∀ i, p.2 ≠ [.slot i])
    (once : (entries.map fun p => Text.lowercase p.1).Nodup)
    (off : ∀ p ∈ entries, ∀ e s, w.board n e s → e.part ≠ some (Text.lowercase p.1)) :
    Succeeds (exec fuel) (entries.forM fun p => fillProgram values n p.1 p.2) w fun _ w' =>
      Draft w₀ w' ∧
        Persists (fun m part => m = n ∧ ∃ p ∈ entries, part = some (Text.lowercase p.1)) w w' ∧
          ∀ p ∈ entries, Inscribed w' values n p.1 p.2 := by
  induction entries generalizing w with
  | nil => exact .pure ⟨h, .refl w, List.forall_mem_nil _⟩
  | cons p entries ih =>
    obtain ⟨severalHere, several⟩ := List.forall_mem_cons.1 several
    obtain ⟨offHere, off⟩ := List.forall_mem_cons.1 off
    obtain ⟨distinct, once⟩ := List.nodup_cons.1 once
    have apart : ∀ q ∈ entries, Text.lowercase q.1 ≠ Text.lowercase p.1 :=
      fun q mem same => distinct (List.mem_map.2 ⟨q, mem, same⟩)
    refine .bind ((h.program new element plain severalHere offHere).mono ?_)
    rintro _ w₁ ⟨h₁, persists₁, inscribed⟩
    have known := known_of_suits (e := .wholeAttr "") element
    refine (ih h₁ ((persists₁.kind n known (.wholeAttr "")).2 element)
      (fun value mem => (plain value mem).next persists₁) several once fun q mem e s shows => ?_).mono ?_
    · rcases persists₁.added n e s shows with before | ⟨-, part⟩
      · exact off q mem e s before
      · rw [part]
        exact fun same => apart q mem (Option.some.inj same).symm
    · rintro _ w₂ ⟨h₂, persists₂, rest⟩
      refine ⟨h₂, (persists₁.mono ?_).trans (persists₂.mono ?_), List.forall_mem_cons.2 ⟨?_, rest⟩⟩
      · rintro m part ⟨rfl, rfl⟩
        exact ⟨rfl, p, List.mem_cons_self, rfl⟩
      · rintro m part ⟨rfl, q, mem, rfl⟩
        exact ⟨rfl, q, List.mem_cons_of_mem _ mem, rfl⟩
      · refine inscribed.next persists₂ ?_
        rintro ⟨-, q, mem, same⟩
        exact apart q mem (Option.some.inj same).symm

end Draft
end LiveMarkup.Live
