import LiveMarkup.Proofs.Operations
import LiveMarkup.Proofs.Mounting

/-!
Painting: what effects show at nodes. An effect that writes the data of a text, or an attribute that
is never taken away, leaves a text at its node. A subscriber that has seen the newest version of its
signal has left the text of the signal's value there, and no other subscriber has written over it.
-/
namespace LiveMarkup

/-- The text of a value that is no node, where null contributes nothing. -/
def Value.ownTextOrEmpty (v : Value) : String :=
  v.textOrEmpty fun _ => ""

theorem Value.textOrEmpty_eq_own {v : Value} (plain : v.node? = none) (content : NodeId → String) :
    v.textOrEmpty content = v.ownTextOrEmpty := by
  cases v with
  | node n => cases plain
  | _ => rfl

namespace Live
namespace Effect

/-- Where an effect writes, among the effects that suit a node: the name of an attribute, or the
text. -/
def part : Effect → Option String
  | .wholeAttr name => some (Text.lowercase name)
  | _ => none

/-- The nodes that an effect writes a text to. -/
def Suits (e : Effect) (node : Dom.Node) : Prop :=
  match e with
  | .wholeAttr _ => node.element?.isSome = true
  | .text => node.isText = true
  | _ => False

/-- The text that an effect has left at a node. -/
def look (e : Effect) (node : Dom.Node) : Option String :=
  match e, node.content with
  | .wholeAttr name, .element element => element.attributes.value? name
  | .text, .text data => some data
  | _, _ => none

/-- The text that an effect leaves for a value that is no node. -/
def shown (e : Effect) (v : Value) : String :=
  match e with
  | .text => v.ownTextOrEmpty
  | _ => v.ownText

/-- The text that an effect leaves for a value. -/
def textIn (w : World) (e : Effect) (v : Value) : String :=
  match e with
  | .text => w.textOrEmpty v
  | _ => w.text v

/-- A node to which an effect has written a text. -/
def paint (e : Effect) (t : String) (node : Dom.Node) : Dom.Node :=
  match e with
  | .wholeAttr name => node.mapElement fun a => { a with attributes := a.attributes.set name t }
  | .text => node.withData t
  | _ => node

variable {e e' : Effect} {node : Dom.Node} {t : String}

theorem textIn_eq_shown {w : World} {v : Value} (plain : v.node? = none) :
    e.textIn w v = e.shown v := by
  cases e with
  | text => exact v.textOrEmpty_eq_own plain _
  | _ => exact v.text_eq_ownText plain _

theorem look_congr {node' : Dom.Node} (same : node'.content = node.content) :
    e.look node' = e.look node := by
  unfold look
  rw [same]

theorem suits_congr {node' : Dom.Node} (same : node'.content = node.content) :
    e.Suits node' ↔ e.Suits node := by
  unfold Suits Dom.Node.element? Dom.Node.isText
  rw [same]

theorem paint_isElement (e : Effect) (t : String) (node : Dom.Node) :
    (e.paint t node).element?.isSome = node.element?.isSome ∧
      (e.paint t node).isText = node.isText := by
  obtain ⟨content, parent, children, connected⟩ := node
  cases e with
  | wholeAttr name => cases content <;> exact ⟨rfl, rfl⟩
  | text => cases content <;> exact ⟨rfl, rfl⟩
  | _ => exact ⟨rfl, rfl⟩

/-- Writing makes no node into one of another kind. -/
theorem suits_paint : e'.Suits (e.paint t node) ↔ e'.Suits node := by
  obtain ⟨element, isText⟩ := paint_isElement e t node
  unfold Suits
  rw [element, isText]

theorem look_paint (suits : e.Suits node) : e.look (e.paint t node) = some t := by
  obtain ⟨content, parent, children, connected⟩ := node
  cases e with
  | wholeAttr name =>
    cases content with
    | element a => exact Ordered.get?_insert_self ..
    | _ => cases suits
  | text =>
    cases content with
    | text data => rfl
    | _ => cases suits
  | _ => exact suits.elim

/-- What is written in one place shows in no other. -/
theorem look_paint_other (suits : e.Suits node) (other : e'.part ≠ e.part) :
    e'.look (e.paint t node) = e'.look node := by
  obtain ⟨content, parent, children, connected⟩ := node
  cases e with
  | wholeAttr name =>
    cases content with
    | element a =>
      cases e' with
      | wholeAttr name' =>
        have ne : Text.lowercase name' ≠ Text.lowercase name :=
          fun eq => other (congrArg some eq)
        exact Ordered.get?_insert_of_ne _ ne _
      | _ => rfl
    | _ => cases suits
  | text =>
    cases content with
    | text data =>
      cases e' with
      | text => exact absurd rfl other
      | _ => rfl
    | _ => cases suits
  | _ => exact suits.elim

/-- What an effect that suits its node comes to. -/
theorem apply_of_suits {w : World} {n : NodeId} (suits : e.Suits (w.nodes.get n)) (v : Value)
    (run : Runner) : e.apply n v run w =
      .ok ((), { w with nodes := w.nodes.modify n (e.paint (e.textIn w v)) }) := by
  cases e with
  | wholeAttr name => rfl
  | text => rfl
  | _ => exact suits.elim

end Effect

/-- Which effects write to which nodes, and the signals whose values they show. -/
def Board := NodeId → Effect → SignalId → Prop

/-- An effect leaves the text of a signal's value at a node, unless the value is a node. -/
def Shown (w : World) (n : NodeId) (e : Effect) (s : SignalId) : Prop :=
  ((Signal.content w s).getD .null).node? = none →
    e.look (w.nodes.get n) = some (e.shown ((Signal.content w s).getD .null))

/-- A subscriber that only works with signals, or writes to a node. -/
def Reaction.Tame : Reaction → Prop
  | .told _ script => ∀ step ∈ script, step.Operates
  | .refresh _ | .effect _ _ => True
  | _ => False

/-- Runs no script. -/
def Cancel.Silent : Cancel → Prop
  | .stopped _ _ => False
  | _ => True

/-- A follow has the subscription that takes a subscriber off a signal. -/
def Owned (w : World) (s : SignalId) (e : EntryId) : Prop :=
  ∃ f sub, (w.follows.get f).slot = some sub ∧ w.subscriptions.get sub = some (.entry s e)

/-- A world in which effects stay on a board. Those who have seen the newest value of their signal
show it, but for the subscribers in `P`, and every effect is owned by a follow, but for those in `L`. -/
structure Canvas (B : Board) (P : EntryId → Prop) (L : SignalId → EntryId → Prop) (w : World) :
    Prop where
  faithful : Faithful w
  producers : ∀ s p, (w.signals.get s).producer = some p → ∃ d, p = .derivation d
  cancels : ∀ sub c, w.subscriptions.get sub = some c → c.Silent
  reactions : ∀ e, (w.entries.get e).reaction.Tame
  suits : ∀ n e s, B n e s → n.index < w.nodes.size ∧ e.Suits (w.nodes.get n)
  apart : ∀ n e s e' s', B n e s → B n e' s' → e'.part = e.part → e' = e ∧ s' = s
  placed : ∀ s, ∀ e ∈ (w.signals.get s).subscribers, ∀ n effect,
    (w.entries.get e).reaction = .effect n effect → B n effect s
  painted : ∀ s, ∀ e ∈ (w.signals.get s).subscribers, ¬ P e → ∀ n effect,
    (w.entries.get e).reaction = .effect n effect →
      (w.entries.get e).seen = (w.signals.get s).version → Shown w n effect s
  owned : ∀ s, ∀ e ∈ (w.signals.get s).subscribers, ¬ L s e → ∀ n effect,
    (w.entries.get e).reaction = .effect n effect → Owned w s e

/-- No subscriber is excepted. -/
abbrev Nobody : EntryId → Prop := fun _ => False

/-- A canvas on which nothing is left to be done. -/
abbrev Finished (B : Board) (w : World) : Prop := Canvas B Nobody (fun _ => Nobody) w

/-- Where nothing on a board is shown, nothing is written. Hooks stay, and follows but for their
subscriptions. -/
structure Spares (B : Board) (w w' : World) : Prop where
  size : w.nodes.size ≤ w'.nodes.size
  look : ∀ n, n.index < w.nodes.size → ∀ e : Effect,
    (∀ e' s, B n e' s → e.part ≠ e'.part) →
      e.look (w'.nodes.get n) = e.look (w.nodes.get n)
  content : ∀ n, n.index < w.nodes.size → (∀ e s, ¬ B n e s) →
    (w'.nodes.get n).content = (w.nodes.get n).content
  kind : ∀ n, n.index < w.nodes.size → ∀ e : Effect,
    e.Suits (w'.nodes.get n) ↔ e.Suits (w.nodes.get n)
  formulas : w'.formulas = w.formulas
  mountHooks : w'.mountHooks = w.mountHooks
  unmountHooks : w'.unmountHooks = w.unmountHooks
  follows : w'.follows.size = w.follows.size
  follow : ∀ f, (w'.follows.get f).signal = (w.follows.get f).signal ∧
    (w'.follows.get f).reaction = (w.follows.get f).reaction ∧
      (w'.follows.get f).mode = (w.follows.get f).mode

/-- The effect of a follow is on a board, and is to show the value at once. -/
def Board.Bears (B : Board) (w : World) (f : FollowId) : Prop :=
  f.index < w.follows.size ∧ (w.follows.get f).mode = .immediate ∧ ∃ n e, (w.follows.get f).reaction = .effect n e ∧
    B n e (w.follows.get f).signal

section
variable {B : Board} {P : EntryId → Prop} {L : SignalId → EntryId → Prop} {w w' w₁ w₂ : World} {s : SignalId} {e : EntryId}
  {f : FollowId}

namespace Spares

theorem refl (w : World) : Spares B w w :=
  ⟨Nat.le_refl _, fun _ _ _ _ => rfl, fun _ _ _ => rfl, fun _ _ _ => Iff.rfl, rfl, rfl, rfl, rfl,
    fun _ => ⟨rfl, rfl, rfl⟩⟩

theorem trans (h : Spares B w w₁) (h' : Spares B w₁ w₂) : Spares B w w₂ where
  size := Nat.le_trans h.size h'.size
  look n hn e off := (h'.look n (Nat.lt_of_lt_of_le hn h.size) e off).trans (h.look n hn e off)
  content n hn off := (h'.content n (Nat.lt_of_lt_of_le hn h.size) off).trans (h.content n hn off)
  kind n hn e := (h'.kind n (Nat.lt_of_lt_of_le hn h.size) e).trans (h.kind n hn e)
  formulas := h'.formulas.trans h.formulas
  mountHooks := h'.mountHooks.trans h.mountHooks
  unmountHooks := h'.unmountHooks.trans h.unmountHooks
  follows := h'.follows.trans h.follows
  follow f := ⟨(h'.follow f).1.trans (h.follow f).1, (h'.follow f).2.1.trans (h.follow f).2.1,
    (h'.follow f).2.2.trans (h.follow f).2.2⟩

theorem bears (h : Spares B w w') : B.Bears w' f ↔ B.Bears w f := by
  unfold Board.Bears
  obtain ⟨signal, reaction, mode⟩ := h.follow f
  rw [h.follows, signal, reaction, mode]

/-- Nothing happens to nodes, formulas, hooks and follows. -/
theorem of_same (nodes : w'.nodes = w.nodes) (formulas : w'.formulas = w.formulas) (mountHooks : w'.mountHooks = w.mountHooks)
    (unmountHooks : w'.unmountHooks = w.unmountHooks) (follows : w'.follows = w.follows) :
    Spares B w w' := by
  refine ⟨?_, ?_, ?_, ?_, formulas, mountHooks, unmountHooks, congrArg _ follows, ?_⟩
  · simp only [nodes, Nat.le_refl]
  · simp only [nodes, implies_true]
  · simp only [nodes, implies_true]
  · simp only [nodes, implies_true]
  · simp only [follows, and_self, implies_true]

end Spares

namespace Canvas

/-- Only what concerns signals and nodes matters, as long as subscriptions run no scripts and whoever
is to have an owner has one. -/
theorem of_same {L' : SignalId → EntryId → Prop} (h : Canvas B P L w) (signals : w'.signals = w.signals)
    (entries : w'.entries = w.entries) (nodes : w'.nodes = w.nodes)
    (cancels : ∀ sub c, w'.subscriptions.get sub = some c → c.Silent)
    (owned : ∀ s e, L s e ∨ Owned w s e → L' s e ∨ Owned w' s e) : Canvas B P L' w' := by
  refine ⟨(Delivers.apart signals entries h.faithful).faithful, ?_, cancels, ?_, ?_, h.apart, ?_, ?_,
    fun s e he hL n effect hr => (owned s e ?_).resolve_left hL⟩
  · rw [signals]
    exact h.producers
  · rw [entries]
    exact h.reactions
  · rw [nodes]
    exact h.suits
  · rw [signals, entries]
    exact h.placed
  · unfold Shown Signal.content
    rw [signals, entries, nodes]
    exact h.painted
  · rw [signals] at he
    rw [entries] at hr
    by_cases loose : L s e
    · exact .inl loose
    · exact .inr (h.owned s e he loose n effect hr)

/-- Nor do subscriptions and follows, if nothing happens to them. -/
theorem of_rest (h : Canvas B P L w) (signals : w'.signals = w.signals)
    (entries : w'.entries = w.entries) (nodes : w'.nodes = w.nodes)
    (subscriptions : w'.subscriptions = w.subscriptions) (follows : w'.follows = w.follows) :
    Canvas B P L w' := by
  refine h.of_same signals entries nodes (subscriptions ▸ h.cancels) fun s e => ?_
  unfold Owned
  rw [subscriptions, follows]
  exact id

/-- Taking a note, or making a node, writes to no node that was there. -/
theorem idling (h : Canvas B P L w) (idling : Idling w w') : Canvas B P L w' ∧ Spares B w w' := by
  have suits : ∀ n e s, B n e s → w'.nodes.get n = w.nodes.get n :=
    fun n e s shows => idling.cell n (h.suits n e s shows).1
  refine ⟨⟨(Delivers.apart idling.signals idling.entries h.faithful).faithful, ?_, ?_, ?_,
    fun n e s shows => ?_, h.apart, ?_, fun s e he hP n effect hr hv => ?_, ?_⟩, ?_⟩
  · rw [idling.signals]
    exact h.producers
  · rw [idling.subscriptions]
    exact h.cancels
  · rw [idling.entries]
    exact h.reactions
  · rw [suits n e s shows]
    exact ⟨Nat.lt_of_lt_of_le (h.suits n e s shows).1 idling.size, (h.suits n e s shows).2⟩
  · rw [idling.signals, idling.entries]
    exact h.placed
  · rw [idling.signals] at he hv
    rw [idling.entries] at hr hv
    unfold Shown Signal.content
    rw [idling.signals, suits n effect s (h.placed s e he n effect hr)]
    exact h.painted s e he hP n effect hr hv
  · unfold Owned
    rw [idling.signals, idling.entries, idling.follows, idling.subscriptions]
    exact h.owned
  · refine ⟨idling.size, fun n hn e _ => ?_, fun n hn _ => ?_, fun n hn e => ?_,
      idling.formulas, idling.mountHooks, idling.unmountHooks, congrArg _ idling.follows, ?_⟩
    · rw [idling.cell n hn]
    · rw [idling.cell n hn]
    · rw [idling.cell n hn]
    · rw [idling.follows]
      exact fun _ => ⟨rfl, rfl, rfl⟩

/-- A change to signals and subscribers after which nobody hears of a signal who did not before, and
nobody counts as having seen what it has not. -/
theorem of_signals (h : Canvas B P L w) (nodes : w'.nodes = w.nodes)
    (subscriptions : w'.subscriptions = w.subscriptions) (follows : w'.follows = w.follows) (faithful : Faithful w')
    (producers : ∀ s, (w'.signals.get s).producer = (w.signals.get s).producer)
    (reactions : ∀ e, (w'.entries.get e).reaction = (w.entries.get e).reaction)
    (subscribers : ∀ s, (w'.signals.get s).subscribers ⊆ (w.signals.get s).subscribers)
    (seen : ∀ s, ∀ e ∈ (w'.signals.get s).subscribers,
      (w'.entries.get e).seen = (w'.signals.get s).version →
        (w.entries.get e).seen = (w.signals.get s).version ∧
          Signal.content w' s = Signal.content w s) : Canvas B P L w' := by
  refine ⟨faithful, fun s p hp => ?_, ?_, fun e => ?_, ?_, h.apart, fun s e he n effect hr => ?_,
    fun s e he hP n effect hr hv => ?_, fun s e he hL n effect hr => ?_⟩
  · rw [producers] at hp
    exact h.producers s p hp
  · rw [subscriptions]
    exact h.cancels
  · rw [reactions]
    exact h.reactions e
  · rw [nodes]
    exact h.suits
  · rw [reactions] at hr
    exact h.placed s e (subscribers s he) n effect hr
  · rw [reactions] at hr
    obtain ⟨seen, same⟩ := seen s e he hv
    unfold Shown
    rw [same, nodes]
    exact h.painted s e (subscribers s he) hP n effect hr seen
  · rw [reactions] at hr
    unfold Owned
    rw [follows, subscriptions]
    exact h.owned s e (subscribers s he) hL n effect hr

/-- A change to nodes in which what stands on the board is shown as before. -/
theorem of_nodes (h : Canvas B P L w) {nodes : Dom.Forest}
    (suits : ∀ n e s, B n e s → n.index < nodes.size ∧ e.Suits (nodes.get n))
    (look : ∀ n e s, B n e s → e.look (nodes.get n) = e.look (w.nodes.get n)) :
    Canvas B P L { w with nodes } :=
  { h with
    faithful := ⟨h.faithful.signals, h.faithful.owner⟩
    suits
    painted := fun s e he hP n effect hr hv plain => by
      rw [look n effect s (h.placed s e he n effect hr)]
      exact h.painted s e he hP n effect hr hv plain }

/-- A new signal has no subscribers. -/
theorem added (h : Canvas B P L w) (value : Option Value) {producer : Option Producer}
    (derives : ∀ p, producer = some p → ∃ d, p = .derivation d) :
    Canvas B P L { w with signals := w.signals.push (.fresh value producer) } := by
  let w' : World := { w with signals := w.signals.push (.fresh value producer) }
  have new : w'.signals.get w.signals.next = .fresh value producer := Heap.get_push_next ..
  have old : ∀ s, s ≠ w.signals.next → w'.signals.get s = w.signals.get s :=
    fun s hs => Heap.get_push_of_ne _ _ _ hs
  have subscribed : ∀ {s e}, e ∈ (w'.signals.get s).subscribers → s ≠ w.signals.next := by
    rintro s e he rfl
    rw [new] at he
    cases he
  have delivers : Delivers w w' := made_delivers value producer rfl rfl
  refine ⟨(delivers h.faithful).faithful, fun s p hp => ?_, h.cancels, h.reactions,
    h.suits, h.apart, fun s e he => ?_, fun s e he => ?_, fun s e he => ?_⟩
  · by_cases hs : s = w.signals.next
    · have made : (w'.signals.get s).producer = some p := hp
      rw [hs, new] at made
      exact derives p made
    · exact h.producers s p (old s hs ▸ hp)
  · have same := old s (subscribed he)
    exact h.placed s e (same ▸ he)
  · have same := old s (subscribed he)
    intro hP n effect hr hv
    have shown := h.painted s e (same ▸ he) hP n effect hr (same ▸ hv)
    unfold Shown Signal.content at shown ⊢
    exact same.symm ▸ shown
  · have same := old s (subscribed he)
    exact h.owned s e (same ▸ he)

theorem mono {P' : EntryId → Prop} (h : Canvas B P L w) (fewer : ∀ e, P e → P' e) :
    Canvas B P' L w :=
  { h with painted := fun s e he hP => h.painted s e he fun late => hP (fewer e late) }

/-- A new content, which nobody has seen yet. -/
theorem changed (h : Canvas B P L w) (s : SignalId) (value : Option Value) :
    Canvas B P L (Signal.changed s value w) := by
  have field : ∀ {β : Type} (g : Signal → β), (∀ a, g (.bumped { a with value }) = g a) →
      ∀ t, g ((Signal.changed s value w).signals.get t) = g (w.signals.get t) :=
    fun g same t => Heap.get_modify_same w.signals s t _ g same
  have subscribers := field Signal.subscribers fun _ => rfl
  refine h.of_signals rfl rfl rfl (changed_grows h.faithful value).faithful
    (field Signal.producer fun _ => rfl) (fun _ => rfl) (fun t => ?_) fun t e he hv => ?_
  · rw [subscribers]
    exact List.Subset.refl _
  · rw [subscribers] at he
    have seen := (h.faithful.signals t).seen e he
    by_cases hts : t = s
    · subst hts
      have joined := (h.faithful.signals t).joined he
      rw [changed_version (index_lt_of_joined joined) value] at hv
      have unseen : (w.entries.get e).seen = (w.signals.get t).version + 1 := hv
      omega
    · have same : (Signal.changed s value w).signals.get t = w.signals.get t :=
        Heap.get_modify_of_ne _ _ _ _ (Ne.symm hts)
      rw [same] at hv
      exact ⟨hv, congrArg Signal.value same⟩

/-- A subscriber that counts as having seen the newest version is excepted until it shows it. -/
theorem marked (h : Canvas B Nobody L w) {n : Nat} (c : Callable s n e w)
    (active : (w.entries.get e).active = true)
    (unseen : (w.entries.get e).seen < (w.signals.get s).version) :
    Canvas B (fun e' => e' = e ∧ ∃ m effect, (w.entries.get e).reaction = .effect m effect) L
      (Signal.marked s n e w) := by
  have reactions : ∀ e', ((Signal.marked s n e w).entries.get e').reaction =
      (w.entries.get e').reaction :=
    fun e' => Heap.get_modify_same _ e e' _ Entry.reaction fun _ => rfl
  have field : ∀ {β : Type} (g : Signal → β), (∀ a, g (Signal.showing e (some n) a) = g a) →
      ∀ t, g ((Signal.marked s n e w).signals.get t) = g (w.signals.get t) :=
    fun g same t => Heap.get_modify_same w.signals s t _ g same
  have producers := field Signal.producer fun _ => rfl
  have subscribers := field Signal.subscribers fun _ => rfl
  have values := field Signal.value fun _ => rfl
  have versions := field Signal.version fun _ => rfl
  refine ⟨(marked_called h.faithful c active unseen).faithful, fun t p hp => ?_, h.cancels,
    fun e' => ?_, h.suits, h.apart, fun t e' he' m effect hr => ?_, fun t e' he' hP m effect hr hv => ?_,
    fun t e' he' hL m effect hr => ?_⟩
  · rw [producers] at hp
    exact h.producers t p hp
  · rw [reactions]
    exact h.reactions e'
  · rw [subscribers] at he'
    rw [reactions] at hr
    exact h.placed t e' he' m effect hr
  · rw [subscribers] at he'
    rw [reactions] at hr
    have ne : e' ≠ e := by
      rintro rfl
      exact hP ⟨rfl, m, effect, hr⟩
    have other : (Signal.marked s n e w).entries.get e' = w.entries.get e' :=
      Heap.get_modify_of_ne _ _ _ _ (Ne.symm ne)
    rw [other, versions] at hv
    have content : Signal.content (Signal.marked s n e w) t = Signal.content w t := values t
    unfold Shown
    rw [content]
    exact h.painted t e' he' id m effect hr hv
  · rw [subscribers] at he'
    rw [reactions] at hr
    exact h.owned t e' he' hL m effect hr

/-- A subscriber that joins has seen the newest version; it is excepted until it shows it. -/
theorem joined (h : Finished B w) (s : SignalId) {reaction : Reaction} (tame : reaction.Tame)
    (mode : Mode) (placed : ∀ n effect, reaction = .effect n effect → B n effect s)
    (signals : w₁.signals = w.signals.modify s (Signal.withJoined w.entries.next mode))
    (entries : w₁.entries = w.entries.push ⟨true, (w.signals.get s).version, reaction⟩)
    (nodes : w₁.nodes = w.nodes) (subscriptions : w₁.subscriptions = w.subscriptions)
    (follows : w₁.follows = w.follows) :
    Canvas B (fun e => e = w.entries.next ∧ ∃ m effect, reaction = .effect m effect)
      (fun t e => t = s ∧ e = w.entries.next ∧ ∃ m effect, reaction = .effect m effect) w₁ := by
  have field : ∀ {β : Type} (g : Signal → β),
      (∀ a, g (Signal.withJoined w.entries.next mode a) = g a) →
        ∀ t, g (w₁.signals.get t) = g (w.signals.get t) := by
    intro β g same t
    rw [signals]
    exact Heap.get_modify_same w.signals s t _ g same
  have producers := field Signal.producer fun _ => by cases mode <;> rfl
  have values := field Signal.value fun _ => by cases mode <;> rfl
  have versions := field Signal.version fun _ => by cases mode <;> rfl
  have new : w₁.entries.get w.entries.next = ⟨true, (w.signals.get s).version, reaction⟩ := by
    rw [entries, Heap.get_push_next]
  have old : ∀ e, e ≠ w.entries.next → w₁.entries.get e = w.entries.get e := by
    intro e he
    rw [entries, Heap.get_push_of_ne _ _ _ he]
  have stranger : ∀ t, w.entries.next ∉ (w.signals.get t).subscribers := fun t he =>
    Nat.lt_irrefl _ ((h.faithful.signals t).known _ ((h.faithful.signals t).joined he))
  have members : ∀ t, ∀ e ∈ (w₁.signals.get t).subscribers,
      e ∈ (w.signals.get t).subscribers ∨ t = s ∧ e = w.entries.next := by
    intro t e he
    rw [signals] at he
    by_cases hts : s = t
    · subst hts
      rcases Nat.lt_or_ge s.index w.signals.size with known | unknown
      · rw [Heap.get_modify_self _ _ _ known] at he
        have here : e ∈ (w.signals.get s).subscribers ++ [w.entries.next] := by
          cases mode <;> exact he
        exact (List.mem_append.1 here).imp_right fun he => ⟨rfl, List.mem_singleton.1 he⟩
      · rw [Heap.modify_of_size_le _ _ _ unknown] at he
        exact .inl he
    · rw [Heap.get_modify_of_ne _ _ _ _ hts] at he
      exact .inl he
  refine ⟨(joined_delivers s reaction mode signals entries h.faithful).faithful, fun t p hp => ?_,
    ?_, fun e => ?_, ?_, h.apart, fun t e he m effect hr => ?_, fun t e he hP m effect hr hv => ?_,
    fun t e he hL m effect hr => ?_⟩
  · rw [producers] at hp
    exact h.producers t p hp
  · rw [subscriptions]
    exact h.cancels
  · by_cases he : e = w.entries.next
    · rw [he, new]
      exact tame
    · rw [old e he]
      exact h.reactions e
  · rw [nodes]
    exact h.suits
  · rcases members t e he with he | ⟨rfl, rfl⟩
    · rw [old e fun eq => stranger t (eq ▸ he)] at hr
      exact h.placed t e he m effect hr
    · rw [new] at hr
      exact placed m effect hr
  · have content : Signal.content w₁ t = Signal.content w t := values t
    unfold Shown
    rw [content, nodes]
    rcases members t e he with he | ⟨rfl, rfl⟩
    · rw [old e fun eq => stranger t (eq ▸ he)] at hr hv
      rw [versions] at hv
      exact h.painted t e he id m effect hr hv
    · rw [new] at hr
      exact absurd ⟨rfl, m, effect, hr⟩ hP
  · unfold Owned
    rw [follows, subscriptions]
    rcases members t e he with he | ⟨rfl, rfl⟩
    · rw [old e fun eq => stranger t (eq ▸ he)] at hr
      exact h.owned t e he id m effect hr
    · rw [new] at hr
      exact absurd ⟨rfl, rfl, m, effect, hr⟩ hL

/-- An effect that shows the value of its signal. Whoever writes in the same place shows the same
signal; whatever else is on the board is written elsewhere. -/
theorem paint (h : Canvas B P L w) {n : NodeId} {effect : Effect} (shows : B n effect s)
    (own : ∀ e', P e' → (w.entries.get e').reaction = .effect n effect) {w' : World}
    {run : Runner}
    (applied : effect.apply n ((Signal.content w s).getD .null) run w = .ok ((), w')) :
    Canvas B Nobody L w' ∧ Spares B w w' := by
  obtain ⟨known, suits⟩ := h.suits n effect s shows
  rw [Effect.apply_of_suits suits] at applied
  cases applied
  let t := effect.textIn w ((Signal.content w s).getD .null)
  have here : (w.nodes.modify n (effect.paint t)).get n = effect.paint t (w.nodes.get n) :=
    Heap.get_modify_self _ _ _ known
  have there : ∀ m, m ≠ n → (w.nodes.modify n (effect.paint t)).get m = w.nodes.get m :=
    fun m hm => Heap.get_modify_of_ne _ _ _ _ (Ne.symm hm)
  have kind : ∀ (m : NodeId) (e : Effect),
      e.Suits ((w.nodes.modify n (effect.paint t)).get m) ↔ e.Suits (w.nodes.get m) := by
    intro m e
    by_cases hm : m = n
    · rw [hm, here]
      exact Effect.suits_paint
    · rw [there m hm]
  refine ⟨⟨⟨h.faithful.signals, h.faithful.owner⟩, h.producers, h.cancels, h.reactions,
    fun m e' s' shows' => ?_, h.apart, h.placed, fun s' e' he' _ m effect' hr hv plain => ?_,
    h.owned⟩, ?_⟩
  · rw [Heap.size_modify, kind]
    exact h.suits m e' s' shows'
  · have shows' := h.placed s' e' he' m effect' hr
    have content : Signal.content w s' = (w.signals.get s').value := rfl
    by_cases same : m = n ∧ effect'.part = effect.part
    · obtain ⟨rfl, part⟩ := same
      obtain ⟨rfl, rfl⟩ := h.apart _ _ _ _ _ shows shows' part
      dsimp only
      rw [here, Effect.look_paint suits]
      exact congrArg some (Effect.textIn_eq_shown plain)
    · have notLate : ¬ P e' := by
        intro late
        rw [own e' late] at hr
        cases hr
        exact same ⟨rfl, rfl⟩
      have before := h.painted s' e' he' notLate m effect' hr hv plain
      dsimp only
      by_cases hm : m = n
      · subst hm
        rw [here, Effect.look_paint_other suits fun part => same ⟨rfl, part⟩]
        exact before
      · rw [there m hm]
        exact before
  · refine ⟨Nat.le_of_eq (Heap.size_modify ..).symm, fun m _ e' off => ?_, fun m _ off => ?_,
      fun m _ e' => kind m e', rfl, rfl, rfl, rfl, fun _ => ⟨rfl, rfl, rfl⟩⟩
    · by_cases hm : m = n
      · subst hm
        dsimp only
        rw [here, Effect.look_paint_other suits (off effect s shows)]
      · dsimp only
        rw [there m hm]
    · have hm : m ≠ n := by
        rintro rfl
        exact off effect s shows
      dsimp only
      rw [there m hm]

end Canvas

end

end Live
end LiveMarkup
