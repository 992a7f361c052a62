import LiveMarkup.Proofs.Consistency
import LiveMarkup.Proofs.Showing
import LiveMarkup.Proofs.Turning

/-!
Staging: a graph and a tree together, when nothing is under way. What follows show is a board, whose
effects are up to date while their nodes are mounted; whatever is done then leaves such a world behind,
and everything on the board.
-/
namespace LiveMarkup

theorem Dom.Node.eq_of_parts {a b : Dom.Node} (content : a.content = b.content)
    (parent : a.parent = b.parent) (children : a.children = b.children)
    (connected : a.connected = b.connected) : a = b := by
  cases a
  cases b
  simp_all

namespace Live

theorem Step.Operates.aloof {step : Step} (h : step.Operates) : step.Aloof := by
  induction h with
  | subscribe _ ih => exact .subscribe ih
  | choose _ _ yes no => exact .choose yes no
  | _ => exact .plain rfl

/-- What the follows of a world show. -/
def World.board (w : World) : Board :=
  fun n e s => ∃ f, f.index < w.follows.size ∧ (w.follows.get f).reaction = .effect n e ∧
    (w.follows.get f).signal = s

/-- What they show at nodes that are mounted. -/
def World.lit (w : World) : Board :=
  fun n e s => w.board n e s ∧ (w.nodes.get n).connected = true

/-- A world in which everything is in order and nothing is under way. -/
structure Stage (w : World) : Prop extends Pitched w where
  told : UpTo Nobody w
  finished : Finished w.board w
  timely : ∀ n f, Owns w n f → Timely w n f
  even : ∀ c p, (w.nodes.get c).parent = some p →
    (w.nodes.get c).connected = (w.nodes.get p).connected
  formulas : ∀ fn s, (w.formulas.get fn).signal = some s →
    Derives w s (w.formulas.get fn).reading

/-- What there is of a graph and on the board is there still, and so is what else is shown, but for
the parts of nodes that are taken. -/
structure Persists (taken : NodeId → Option String → Prop) (w w' : World) : Prop
    extends Builds w w' where
  nodes : w.nodes.size ≤ w'.nodes.size
  formulas : w.formulas.size ≤ w'.formulas.size
  readings : ∀ fn, fn.index < w.formulas.size →
    (w'.formulas.get fn).reading = (w.formulas.get fn).reading
  memo : ∀ fn s, (w.formulas.get fn).signal = some s → (w'.formulas.get fn).signal = some s
  board : ∀ n e s, w.board n e s → w'.board n e s
  added : ∀ n e s, w'.board n e s → w.board n e s ∨ taken n e.part
  look : ∀ n, n.index < w.nodes.size → ∀ e : Effect, (∀ e' s, w.board n e' s → e.part ≠ e'.part) →
    ¬ taken n e.part → e.look (w'.nodes.get n) = e.look (w.nodes.get n)
  kind : ∀ n, n.index < w.nodes.size → ∀ e : Effect,
    e.Suits (w'.nodes.get n) ↔ e.Suits (w.nodes.get n)

/-- No part is taken. -/
abbrev Untaken : NodeId → Option String → Prop := fun _ _ => False

variable {w w₁ w' : World} {n p : NodeId} {e : Effect} {s : SignalId} {f : FollowId}
  {taken : NodeId → Option String → Prop}

namespace Persists

theorem refl (w : World) : Persists taken w w where
  toBuilds := Lasting.refl w
  nodes := Nat.le_refl _
  formulas := Nat.le_refl _
  readings _ _ := rfl
  memo _ _ h := h
  board _ _ _ h := h
  added _ _ _ h := .inl h
  look _ _ _ _ _ := rfl
  kind _ _ _ := Iff.rfl

theorem trans (h : Persists taken w w₁) (h' : Persists taken w₁ w') : Persists taken w w' where
  toBuilds := Lasting.trans h.toBuilds h'.toBuilds
  nodes := Nat.le_trans h.nodes h'.nodes
  formulas := Nat.le_trans h.formulas h'.formulas
  readings fn hf := (h'.readings fn (Nat.lt_of_lt_of_le hf h.formulas)).trans (h.readings fn hf)
  memo fn s hs := h'.memo fn s (h.memo fn s hs)
  board n e s hb := h'.board n e s (h.board n e s hb)
  added n e s hb := (h'.added n e s hb).elim (h.added n e s) .inr
  look n hn e off free := by
    refine (h'.look n (Nat.lt_of_lt_of_le hn h.nodes) e (fun e' s hb => ?_) free).trans
      (h.look n hn e off free)
    rcases h.added n e' s hb with before | new
    · exact off e' s before
    · exact fun same => free (same ▸ new)
  kind n hn e := (h'.kind n (Nat.lt_of_lt_of_le hn h.nodes) e).trans (h.kind n hn e)

theorem mono {taken' : NodeId → Option String → Prop} (h : Persists taken w w')
    (more : ∀ n part, taken n part → taken' n part) : Persists taken' w w' :=
  { h with
    added := fun n e s hb => (h.added n e s hb).imp_right (more n e.part)
    look := fun n hn e off free => h.look n hn e off fun took => free (more n e.part took) }

theorem lax (h : Persists Untaken w w') : Persists taken w w' :=
  h.mono fun _ _ none => none.elim

end Persists

theorem Standing.board (h : Standing w w') : w'.board = w.board := by
  funext n e s
  unfold World.board
  rw [h.followCount]
  refine propext (exists_congr fun f => ?_)
  obtain ⟨signal, reaction, -⟩ := h.cell f
  rw [signal, reaction]

namespace Stage

theorem bears (h : Stage w) (hf : f.index < w.follows.size) : w.board.Bears w f := by
  obtain ⟨mode, n, e, reaction, -⟩ := h.effects f hf
  exact ⟨hf, mode, n, e, reaction, f, hf, reaction, rfl⟩

theorem hangs (h : Stage w) : w.board.HangsAll w := by
  intro b n hook mem
  obtain ⟨f, rfl, hf⟩ := h.turns b n hook mem
  exact ⟨f, b, rfl, h.bears hf⟩

/-- A node whose follow is known is known. -/
theorem owned (h : Stage w) (owns : Owns w n f) : n.index < w.nodes.size ∧
    f.index < w.follows.size ∧ ∃ e, (w.follows.get f).reaction = .effect n e := by
  obtain ⟨g, eq, hg⟩ := h.turns true n _ ((owns true n).2 rfl)
  cases (Hook.follow.inj eq : f = g)
  obtain ⟨-, m, e, reaction, owner⟩ := h.effects f hg
  cases (owner true n).1 ((owns true n).2 rfl)
  exact ⟨(h.finished.suits n e _ ⟨f, hg, reaction, rfl⟩).1, hg, e, reaction⟩

/-- What follows show at a mounted node has a subscriber, and the subscriber is one of a follow that
listens. -/
theorem listens (h : Stage w) (shows : w.lit n e s) :
    ∃ entry ∈ (w.signals.get s).subscribers, (w.entries.get entry).reaction = .effect n e := by
  obtain ⟨⟨f, hf, reaction, rfl⟩, connected⟩ := shows
  obtain ⟨-, m, e', reaction', owns⟩ := h.effects f hf
  rw [reaction] at reaction'
  cases reaction'
  have listening : (w.follows.get f).slot.isSome = true := (h.timely n f owns).trans connected
  obtain ⟨entry, -, joined⟩ := h.following.listens f (Option.isSome_iff_ne_none.1 listening)
  exact ⟨entry, joined.subscriber, joined.reaction.trans reaction⟩

/-- An effect of a mounted node has left the text of its signal's value. -/
theorem shown (h : Stage w) (shows : w.lit n e s) : Shown w n e s := by
  obtain ⟨entry, member, reaction⟩ := h.listens shows
  exact h.finished.painted s entry member id n e reaction (h.told s entry member id)

/-- No effect of a node that is not mounted is a subscriber. -/
theorem unlit (h : Stage w) : Finished w.lit w := by
  refine { h.finished with
    suits := fun n e s shows => h.finished.suits n e s shows.1
    apart := fun n e s e' s' shows shows' => h.finished.apart n e s e' s' shows.1 shows'.1
    placed := fun s entry member n effect reaction => ?_ }
  refine ⟨h.finished.placed s entry member n effect reaction, ?_⟩
  obtain ⟨f, sub, slot, takes⟩ := h.finished.owned s entry member id n effect reaction
  have held : (w.follows.get f).slot ≠ none := slot ▸ Option.some_ne_none sub
  obtain ⟨entry', ⟨sub', slot', takes'⟩, joined⟩ := h.following.listens f held
  rw [slot] at slot'
  cases slot'
  rw [takes] at takes'
  cases takes'
  -- The follow is that of the node, which is mounted because the follow listens.
  have hf : f.index < w.follows.size := by
    rcases Nat.lt_or_ge f.index w.follows.size with known | unknown
    · exact known
    · rw [Heap.get_of_size_le _ _ unknown] at slot
      cases slot
  obtain ⟨-, m, e', reaction', owns⟩ := h.effects f hf
  rw [joined.reaction, reaction'] at reaction
  cases reaction
  have timely := h.timely n f owns
  unfold Timely at timely
  rw [← timely, slot]
  rfl

/-- A derived signal that has a subscriber is up to date, and so is whatever it reads. -/
theorem current (h : Stage w) {r : Reading} (derives : Derives w s r)
    (observed : (w.signals.get s).subscribers ≠ []) :
    ∃ v u l, Signal.content w s = some v ∧ r.Gives w l u ∧ (v = u ∨ v.isSame u = true) ∧
      ∀ t ∈ l, (w.signals.get t).subscribers ≠ [] := by
  obtain ⟨d, produced, rfl⟩ := derives
  obtain ⟨real, rfl⟩ := h.shape.real_of_producer produced
  have started := h.flow.started _ observed (by rw [produced]; nofun)
  have notLagging : ¬ Lagging d w := by
    rintro ⟨t, e, he, -, unseen⟩
    rw [h.told t e he id] at unseen
    exact Nat.lt_irrefl _ unseen
  obtain ⟨l, sees, v, u, hv, gives, same⟩ :=
    (h.flow.current d id ⟨real, started⟩).resolve_right notLagging
  refine ⟨v, u, l, hv, gives, same, fun t ht => ?_⟩
  obtain ⟨e, he, -⟩ := h.flow.attached d id ⟨real, started⟩ t (sees t ht)
  exact List.ne_nil_of_mem he

end Stage

/-! What is done to the graph. -/

theorem Spares.persists (h : Spares w.board w w') (standing : Standing w w') (builds : Builds w w') :
    Persists Untaken w w' where
  toBuilds := builds
  nodes := h.size
  formulas := Nat.le_of_eq (congrArg _ h.formulas.symm)
  readings _ _ := by rw [h.formulas]
  memo fn s hs := by
    rw [h.formulas]
    exact hs
  board n e s hb := by
    rw [standing.board]
    exact hb
  added n e s hb := by
    rw [standing.board] at hb
    exact .inl hb
  look n hn e off _ := h.look n hn e off
  kind := h.kind

namespace Stage

/-- What is done to the graph alone. -/
theorem carry (h : Stage w) (ready : Ready Nowhere w') (delivers : Delivers w w')
    (followed : Following w' ∧ Unmoved (fun _ => False) w w')
    (canvas : Finished w.board w' ∧ Spares w.board w w') (builds : Builds w w') :
    Stage w' ∧ Persists Untaken w w' := by
  obtain ⟨following, unmoved⟩ := followed
  obtain ⟨finished, spares⟩ := canvas
  have standing := unmoved.toStanding
  refine ⟨{ h.toPitched.next ready following standing with
    told := (delivers h.faithful).upTo _ h.told
    finished := standing.board ▸ finished
    timely := fun n f owns => ?_
    even := fun c p parent => ?_
    formulas := fun fn s hs => ?_ }, spares.persists standing builds⟩
  · unfold Timely
    rw [unmoved.slot f id, unmoved.connected]
    exact h.timely n f (standing.owns.1 owns)
  · rw [standing.nodes.parent] at parent
    rw [unmoved.connected, unmoved.connected]
    exact h.even c p parent
  · rw [spares.formulas] at hs ⊢
    exact builds.derives s _ (h.formulas fn s hs)

/-- Writes, subscriptions and what comes of them: the nodes that are not mounted stay as they are. -/
theorem operate (h : Stage w) {step : Step} (operates : step.Operates) {fuel : Nat}
    {current : Value} {a : Answer} (run : runFrom fuel w (step.run current) = .ok (a, w')) :
    Stage w' ∧ Persists Untaken w w' ∧ ∀ n, n.index < w.nodes.size →
      (w.nodes.get n).connected = false → w'.nodes.get n = w.nodes.get n := by
  obtain ⟨ready, ev⟩ := upkeep_works.step h.toReady current operates a w' run
  have delivers : Delivers w w' := keeps_step current step w a w' run
  have followed := h.following.minds (fun _ => False) (Ward.minds_step current operates.aloof) a w' run
  have canvas := upkeep_paints.step h.finished current operates a w' run
  obtain ⟨h', persists⟩ := h.carry ready delivers followed canvas ev.builds
  refine ⟨h', persists, fun n hn unmounted => ?_⟩
  obtain ⟨-, spares⟩ := upkeep_paints.step h.unlit current operates a w' run
  have content := spares.content n hn fun e s shows => by
    rw [shows.2] at unmounted
    cases unmounted
  exact Dom.Node.eq_of_parts content (followed.2.nodes.parent n) (followed.2.nodes.children n)
    (followed.2.connected n)

/-- A step that runs no script. -/
theorem plain (h : Stage w) {step : Step} {fuel : Nat} {current : Value} {a : Answer}
    (plain : step.isPlain = true) (built : Wired Nowhere w' ∧ Builds w w')
    (keeping : Keeps (Keeping w.board) (exec fuel) (step.run current))
    (run : runFrom fuel w (step.run current) = .ok (a, w')) : Stage w' ∧ Persists Untaken w w' := by
  have delivers : Delivers w w' := keeps_step current step w a w' run
  have minds := h.following.minds (fun _ => False) (Ward.minds_plain current plain) a w' run
  exact h.carry (h.toReady.next delivers built.1) delivers minds (keeping w a w' run h.finished)
    built.2

/-- A derived signal that is made. -/
theorem createDerivation (h : Stage w) {r : Reading}
    (grounded : r.Grounded w.names.signals w.signals.size) {fuel : Nat}
    (run : Derivation.create r (exec fuel) w = .ok (s, w')) :
    Stage w' ∧ Persists Untaken w w' ∧ Derives w' s r ∧ s.index < w'.signals.size := by
  obtain ⟨wired, builds, derives, -, known, -⟩ := createDerivation_works h.toReady grounded s w' run
  have delivers : Delivers w w' := keeps_createDerivation r w s w' run
  have minds := h.following.minds (fun _ => False) (Ward.minds_createDerivation r) s w' run
  obtain ⟨h', persists⟩ := h.carry (h.toReady.next delivers wired) delivers minds
    (keeping_createDerivation r w s w' run h.finished) builds
  exact ⟨h', persists, derives, known⟩

end Stage

/-! What is done to the tree. -/

/-- Where nodes are changed and what else is shown is shown as before. -/
theorem Persists.of_nodes {nodes : Dom.Forest} (size : w.nodes.size ≤ nodes.size)
    (look : ∀ n, n.index < w.nodes.size → ∀ e : Effect,
      (∀ e' s, w.board n e' s → e.part ≠ e'.part) → ¬ taken n e.part →
        e.look (nodes.get n) = e.look (w.nodes.get n))
    (kind : ∀ n, n.index < w.nodes.size → ∀ e : Effect,
      e.Suits (nodes.get n) ↔ e.Suits (w.nodes.get n)) : Persists taken w { w with nodes } :=
  { Persists.refl w with nodes := size, look, kind }

/-- Where the nodes are what they were. -/
theorem Persists.of_contents {nodes : Dom.Forest} (size : w.nodes.size ≤ nodes.size)
    (same : ∀ n, n.index < w.nodes.size → (nodes.get n).content = (w.nodes.get n).content) :
    Persists taken w { w with nodes } :=
  .of_nodes size (fun n hn _ _ _ => Effect.look_congr (same n hn)) fun n hn _ =>
    Effect.suits_congr (same n hn)

namespace Stage

theorem pitched_nodes (h : Stage w) {nodes : Dom.Forest} (linked : nodes.Linked) :
    Pitched { w with nodes } :=
  ⟨h.toReady.aside ⟨rfl, rfl, rfl, rfl, rfl, rfl⟩, h.following.of_nodes nodes, linked, h.turns,
    h.effects⟩

theorem of_nodes (h : Stage w) {nodes : Dom.Forest} (linked : nodes.Linked)
    (size : w.nodes.size ≤ nodes.size)
    (shown : ∀ n e s, w.board n e s → e.Suits (nodes.get n) ∧
      e.look (nodes.get n) = e.look (w.nodes.get n))
    (connected : ∀ n, n.index < w.nodes.size →
      (nodes.get n).connected = (w.nodes.get n).connected)
    (even : ∀ c p, (nodes.get c).parent = some p →
      (nodes.get c).connected = (nodes.get p).connected) : Stage { w with nodes } :=
  { h.pitched_nodes linked with
    told := h.told
    finished := h.finished.of_nodes
      (fun n e s shows => ⟨Nat.lt_of_lt_of_le (h.finished.suits n e s shows).1 size,
        (shown n e s shows).1⟩) fun n e s shows => (shown n e s shows).2
    timely := fun n f owns => by
      have known := (h.owned owns).1
      unfold Timely
      rw [connected n known]
      exact h.timely n f owns
    even
    formulas := h.formulas }

/-- A node whose place is another, and which is then taken to be mounted or not as its parent is. -/
theorem reconnect (h : Stage w) {nodes : Dom.Forest} {b : Bool} (relinked : w.nodes.Relinked nodes)
    (linked : nodes.Linked) (known : n.index < w.nodes.size)
    (other : ∀ m, m ≠ n → (nodes.get m).parent = (w.nodes.get m).parent)
    (above : ∀ p, (nodes.get n).parent = some p → (w.nodes.get p).connected = b) (fuel : Nat) :
    Ensures (exec fuel) (Mount.connect n b) { w with nodes } fun _ w' =>
      Stage w' ∧ Persists Untaken w w' := by
  intro u w' hw'
  let w₁ : World := { w with nodes }
  have pitched₁ : Pitched w₁ := h.pitched_nodes linked
  have finished₁ : Finished w.board w₁ := by
    refine h.finished.of_nodes (fun m e s shows => ?_) fun m e s _ =>
      Effect.look_congr (relinked.content m)
    obtain ⟨hm, suits⟩ := h.finished.suits m e s shows
    exact ⟨relinked.size ▸ hm, (Effect.suits_congr (relinked.content m)).2 suits⟩
  have known₁ : n.index < w₁.nodes.size := relinked.size ▸ known
  have persists₁ : Persists Untaken w w₁ :=
    .of_contents (Nat.le_of_eq relinked.size.symm) fun m _ => relinked.content m
  have turned := connect_turns pitched₁.following pitched₁.hooked linked known₁ b u w' hw'
  obtain ⟨pitched, ev, standing⟩ := connect_pitches pitched₁ n b u w' hw'
  obtain ⟨finished, spares⟩ := connect_paints finished₁ h.hangs n b u w' hw'
  have delivers : Delivers w₁ w' := keeps_connect n b w₁ u w' hw'
  have board : w'.board = w.board := standing.board
  refine ⟨{ pitched with
    told := (delivers pitched₁.faithful).upTo _ h.told
    finished := board ▸ finished
    timely := fun m f owns => ?_
    even := fun c p parent => ?_
    formulas := fun fn s hs => ?_ }, persists₁.trans (spares.persists standing ev.builds)⟩
  · refine turned.timely m f (standing.owns.1 owns) ?_
    unfold Timely
    rw [relinked.connected m]
    exact h.timely m f (standing.owns.1 owns)
  · rw [standing.nodes.parent] at parent
    by_cases hc : c = n
    · subst hc
      rw [turned.turned c (List.mem_singleton_self c)]
      refine ((turned.toward p).elim (fun same => ?_) id).symm
      rw [same, relinked.connected]
      exact above p parent
    · refine turned.even c p parent (by simpa using hc) ?_
      rw [relinked.connected, relinked.connected]
      exact h.even c p (other c hc ▸ parent)
  · rw [spares.formulas] at hs ⊢
    exact ev.builds.derives s _ (h.formulas fn s hs)

/-- A node becomes the last child of another, which is not below it. -/
theorem mount (h : Stage w) (hn : n.index < w.nodes.size) (hp : p.index < w.nodes.size)
    (whole : (w.nodes.get n).isFragment = false) (apart : ¬ w.nodes.Under n p) {fuel : Nat}
    (run : runFrom fuel w (Mount.append p n) = .ok ((), w')) :
    Stage w' ∧ Persists Untaken w w' := by
  have moved := Dom.Forest.Moved.attach h.linked hn hp whole apart
  have appended : Ensures (exec fuel) (Mount.append p n) w fun _ w' =>
      Stage w' ∧ Persists Untaken w w' := by
    simp only [Mount.append, onNodes, Dom.Forest.takeForInsertion_other whole, ensures_bind,
      ensures_get, ensures_set, ensures_pure]
    refine (ensures_bind ..).2 (Ensures.mono ?_ fun _ _ staged => (ensures_pure ..).2 staged)
    simp only [Mount.appendOne, modifyNodes, ensures_bind, ensures_modify, ensures_get]
    refine h.reconnect moved.relinked moved.linked hn (fun m hm => ?_) (fun q hq => ?_) fuel
    · exact moved.other m List.not_mem_nil (by simpa using hm)
    · rw [moved.below n (List.mem_singleton_self n)] at hq
      cases hq
      exact (moved.relinked.connected p).symm
  exact appended () w' run

/-- A node leaves its parent. -/
theorem unmount (h : Stage w) {fuel : Nat} (run : runFrom fuel w (Mount.remove n) = .ok ((), w')) :
    Stage w' ∧ Persists Untaken w w' := by
  have removed : Ensures (exec fuel) (Mount.remove n) w fun _ w' =>
      Stage w' ∧ Persists Untaken w w' := by
    simp only [Mount.remove, ensures_bind, ensures_get]
    cases parent : (w.nodes.get n).parent with
    | none => exact (ensures_pure ..).2 ⟨h, .refl w⟩
    | some p =>
      have moved := Dom.Forest.Moved.detach (p := p) h.linked n
      have orphan := moved.left n (List.mem_singleton_self n)
      refine (ensures_bind ..).2 ((ensures_modify ..).2 ?_)
      refine h.reconnect moved.relinked moved.linked (Dom.Forest.Linked.known parent)
        (fun m hm => moved.other m (by simpa using hm) List.not_mem_nil) (fun q hq => ?_) fuel
      rw [orphan] at hq
      cases hq
  exact removed () w' run

end Stage

/-! What is done elsewhere. -/

/-- Signals, follows and hooks are as they were, and so are the nodes and the computations that there
were. New nodes stand alone, and a computation may come to have a signal that was derived by it. -/
structure Apart (w w' : World) : Prop extends Aside w w' where
  follows : w'.follows = w.follows
  mountHooks : w'.mountHooks = w.mountHooks
  unmountHooks : w'.unmountHooks = w.unmountHooks
  nodes : w.nodes.size ≤ w'.nodes.size
  cells : ∀ n, n.index < w.nodes.size → w'.nodes.get n = w.nodes.get n
  alone : ∀ n, w.nodes.size ≤ n.index →
    (w'.nodes.get n).parent = none ∧ (w'.nodes.get n).children = []
  formulas : w.formulas.size ≤ w'.formulas.size
  readings : ∀ fn, fn.index < w.formulas.size →
    (w'.formulas.get fn).reading = (w.formulas.get fn).reading
  memo : ∀ fn s, (w.formulas.get fn).signal = some s → (w'.formulas.get fn).signal = some s
  derived : ∀ fn s, (w'.formulas.get fn).signal = some s → (w.formulas.get fn).signal = some s ∨
    Derives w s (w'.formulas.get fn).reading

namespace Apart

theorem extended (h : Apart w w') : w.nodes.Extended w'.nodes := by
  refine ⟨h.nodes, fun n => ?_, fun n => ?_, fun n hn => by rw [h.cells n hn]⟩
  · rcases Nat.lt_or_ge n.index w.nodes.size with known | unknown
    · rw [h.cells n known]
    · rw [(h.alone n unknown).1, Dom.Forest.get_unknown unknown]
      rfl
  · rcases Nat.lt_or_ge n.index w.nodes.size with known | unknown
    · rw [h.cells n known]
    · rw [(h.alone n unknown).2, Dom.Forest.get_unknown unknown]
      rfl

/-- Where the nodes are the same. -/
theorem kept (h : Apart w w') {g : Ward} (nodes : w'.nodes = w.nodes) : g.Kept w w' := by
  obtain ⟨⟨signals, entries, subscriptions, derivations, -, named⟩, follows, mountHooks,
    unmountHooks, -⟩ := h
  constructor
  case nodes => exact nodes ▸ .refl _
  case mountHooks => exact mountHooks
  case unmountHooks => exact unmountHooks
  case follows => exact follows
  all_goals simp only [signals, entries, subscriptions, derivations, named, Nat.le_refl,
    implies_true, true_or, and_self]
  all_goals grind

theorem standing (h : Apart w w') : Standing w w' where
  nodes := h.extended
  mountHooks := h.mountHooks
  unmountHooks := h.unmountHooks
  followCount := by rw [h.follows]
  cell f := by
    rw [h.follows]
    exact ⟨rfl, rfl, rfl⟩
  signalCount := Nat.le_of_eq (congrArg _ h.signals.symm)

theorem following (h : Apart w w') (following : Following w) : Following w' := by
  let w₁ : World := { w' with nodes := w.nodes }
  have alone : ∀ n : NodeId, w.nodes.size ≤ n.index →
      (w.nodes.get n).parent = none ∧ (w.nodes.get n).children = [] := by
    intro n hn
    rw [Dom.Forest.get_unknown hn]
    exact ⟨rfl, rfl⟩
  have apart : Apart w w₁ := { h with nodes := Nat.le_refl _, cells := fun _ _ => rfl, alone }
  have kept : (followed w).Kept w w₁ := apart.kept rfl
  exact (following.kept kept).of_nodes w'.nodes

theorem finished (h : Apart w w') {B : Board} (finished : Finished B w) : Finished B w' := by
  let w₁ : World := { w' with nodes := w.nodes }
  have h₁ : Finished B w₁ :=
    finished.of_rest h.signals h.entries rfl h.subscriptions h.follows
  have cells : ∀ n e s, B n e s → w'.nodes.get n = w.nodes.get n :=
    fun n e s shows => h.cells n (finished.suits n e s shows).1
  have suits : ∀ n e s, B n e s → n.index < w'.nodes.size ∧ e.Suits (w'.nodes.get n) := by
    intro n e s shows
    rw [cells n e s shows]
    exact ⟨Nat.lt_of_lt_of_le (finished.suits n e s shows).1 h.nodes,
      (finished.suits n e s shows).2⟩
  exact h₁.of_nodes suits fun n e s shows => by rw [cells n e s shows]

end Apart

/-- What is done elsewhere leaves everything in order. -/
theorem Stage.elsewhere (h : Stage w) (apart : Apart w w') : Stage w' ∧ Persists Untaken w w' := by
  have standing := apart.standing
  have board : w'.board = w.board := standing.board
  have delivers : Delivers w w' := .apart apart.signals apart.entries
  have builds : Builds w w' := apart.toAside.evolves.builds
  have pitched := h.toPitched.next (h.toReady.aside apart.toAside) (apart.following h.following)
    standing
  refine ⟨{ pitched with
    told := (delivers h.faithful).upTo _ h.told
    finished := board ▸ apart.finished h.finished
    timely := fun n f owns => ?_
    even := fun c p parent => ?_
    formulas := fun fn s hs => ?_ }, { builds with
    nodes := apart.nodes
    formulas := apart.formulas
    readings := apart.readings
    memo := apart.memo
    board := fun n e s shows => board.symm ▸ shows
    added := fun n e s shows => .inl (board ▸ shows)
    look := fun n hn e _ _ => by rw [apart.cells n hn]
    kind := fun n hn e => by rw [apart.cells n hn] }⟩
  · have owns' := standing.owns.1 owns
    unfold Timely
    rw [apart.follows, apart.cells n (h.owned owns').1]
    exact h.timely n f owns'
  · rw [standing.nodes.parent] at parent
    have hc := Dom.Forest.Linked.known parent
    have hp := Dom.Forest.known_of_mem_children ((h.linked.child p c).2 parent)
    rw [apart.cells c hc, apart.cells p hp]
    exact h.even c p parent
  · refine builds.derives s _ ((apart.derived fn s hs).elim (fun before => ?_) id)
    have known : fn.index < w.formulas.size := by
      rcases Nat.lt_or_ge fn.index w.formulas.size with known | unknown
      · exact known
      · rw [Heap.get_of_size_le _ _ unknown] at before
        cases before
    rw [apart.readings fn known]
    exact h.formulas fn s before

/-- Before anything is made, everything is in order. -/
theorem Stage.empty : Stage .empty where
  toReady := ⟨.empty, .empty⟩
  following :=
    { sound := by
        refine ⟨?_, ?_, nofun, nofun, ?_, nofun, nofun, nofun⟩
        · rintro sub ⟨f, slot⟩
          cases slot
        · rintro e ⟨f, sub, slot, -⟩
          cases slot
        · exact fun e step hs => nomatch hs
      reactions := fun f step hs => nomatch hs
      signals := fun f hf => absurd hf (Nat.not_lt_zero _)
      listens := fun f slot => absurd rfl slot
      apart := fun f f' e ⟨sub, slot, _⟩ => nomatch slot }
  linked := ⟨fun p c => ⟨nofun, nofun⟩, fun p => .nil, nofun, fun n => ⟨n, .here, rfl⟩⟩
  turns b n h mem := by cases b <;> cases mem
  effects f hf := absurd hf (Nat.not_lt_zero _)
  told s e he := nomatch he
  finished := by
    constructor
    case faithful => exact .empty
    case reactions => exact fun e step hs => nomatch hs
    case suits =>
      rintro n e s ⟨f, hf, -⟩
      exact absurd hf (Nat.not_lt_zero _)
    case apart =>
      rintro n e s e' s' ⟨f, hf, -⟩
      exact absurd hf (Nat.not_lt_zero _)
    all_goals exact nofun
  timely n f owns := nomatch (owns true n).2 rfl
  even := nofun
  formulas := nofun

end Live
end LiveMarkup
