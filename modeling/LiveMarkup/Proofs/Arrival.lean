import LiveMarkup.Proofs.Fitting

/-!
Arrival: what becomes of the copy when a node or a component takes the place of an outlet. The jobs
that are left still find their elements.
-/
namespace LiveMarkup

/-! What a component takes over from its outlet. -/

namespace Markup.Attributes

/-- The attributes with others written over them. -/
def setAll (a : Attributes) (l : List (String × String)) : Attributes :=
  l.foldl (fun a e => a.set e.1 e.2) a

variable {l : List (String × String)}

/-- By induction on those that are written. -/
theorem Small.setAll {a : Attributes} (h : a.Small) : (a.setAll l).Small := by
  induction l generalizing a with
  | nil => exact h
  | cons e l ih => exact ih (h.set e.1 e.2)

theorem value?_setAll_of_ne (a : Attributes) {name : String}
    (other : ∀ e ∈ l, Text.lowercase name ≠ Text.lowercase e.1) :
    (a.setAll l).value? name = a.value? name := by
  induction l generalizing a with
  | nil => rfl
  | cons e l ih =>
    obtain ⟨here, rest⟩ := List.forall_mem_cons.1 other
    exact (ih (a.set e.1 e.2) rest).trans (a.value?_set_of_ne here e.2)

/-- By induction on those that are written: none is written over again. -/
theorem value?_setAll (a : Attributes) {name value : String}
    (distinct : l.Pairwise fun a b => (a.1 == b.1) = false)
    (small : ∀ e ∈ l, Text.lowercase e.1 = e.1) (mem : (Text.lowercase name, value) ∈ l) :
    (a.setAll l).value? name = some value := by
  induction l generalizing a with
  | nil => cases mem
  | cons e l ih =>
    obtain ⟨apart, rest⟩ := List.pairwise_cons.1 distinct
    obtain ⟨here, names⟩ := List.forall_mem_cons.1 small
    rcases List.mem_cons.1 mem with rfl | mem
    · refine (value?_setAll_of_ne (l := l) (a.set _ value) fun e he => ?_).trans ?_
      · rw [names e he]
        simpa using apart e he
      · unfold value? set
        rw [here, Ordered.get?_insert_self]
    · exact ih (a.set e.1 e.2) rest names mem

end Markup.Attributes

namespace Dom.Forest
variable {f f₁ f₂ f' : Forest} {n : NodeId} {l : List (String × String)}

/-- Attributes were written to an element. -/
structure Inscribed (n : NodeId) (l : List (String × String)) (f f' : Forest) : Prop
    extends Enlarged f f' where
  size_eq : f'.size = f.size
  other : ∀ m, m ≠ n → f'.get m = f.get m
  here : ∀ e, (f.get n).content = .element e →
    (f'.get n).content = .element { e with attributes := e.attributes.setAll l }

theorem Inscribed.refl (n : NodeId) (f : Forest) : Inscribed n [] f f :=
  ⟨.refl f, rfl, fun _ _ => rfl, fun _ h => h⟩

theorem Inscribed.cons {a : String × String}
    (h : Inscribed n l (f.mapAttributes n (·.set a.1 a.2)) f') : Inscribed n (a :: l) f f' := by
  refine ⟨(Enlarged.mapElement n _).trans h.toEnlarged, h.size_eq.trans (Heap.size_modify ..),
    fun m hm => (h.other m hm).trans (Heap.get_modify_of_ne _ _ _ _ (Ne.symm hm)), fun e content => ?_⟩
  have known : n.index < f.size := by
    refine Nat.not_le.1 fun unknown => ?_
    rw [get_unknown unknown] at content
    cases content
  refine h.here { e with attributes := e.attributes.set a.1 a.2 } ?_
  unfold mapAttributes mapElement
  rw [Heap.get_modify_self _ _ _ known, Node.mapElement, content]

/-- Links have changed, and attributes were written to an element. -/
structure Taken (n : NodeId) (l : List (String × String)) (f f' : Forest) : Prop where
  size : f'.size = f.size
  connected : ∀ m, (f'.get m).connected = (f.get m).connected
  other : ∀ m, m ≠ n → (f'.get m).content = (f.get m).content
  here : ∀ e, (f.get n).content = .element e →
    (f'.get n).content = .element { e with attributes := e.attributes.setAll l }

namespace Taken

theorem of_inscribed (before : f.Relinked f₁) (inscribed : Inscribed n l f₁ f₂)
    (after : f₂.Relinked f') : Taken n l f f' where
  size := after.size.trans (inscribed.size_eq.trans before.size)
  connected m := (after.connected m).trans ((inscribed.connected m).trans (before.connected m))
  other m hm := by rw [after.content, inscribed.other m hm, before.content]
  here e content := by
    rw [after.content]
    exact inscribed.here e ((before.content n).trans content)

theorem lettered (h : Taken n l f f') {m : NodeId} (hm : f.Lettered m) : f'.Lettered m := by
  obtain ⟨e, content, small⟩ := hm
  by_cases eq : m = n
  · subst eq
    exact ⟨_, h.here e content, small.setAll⟩
  · exact ⟨e, (h.other m eq).trans content, small⟩

theorem carries_iff (h : Taken n l f f') {m : NodeId} (ne : m ≠ n) (mark value : String) :
    f'.Carries mark value m ↔ f.Carries mark value m := by
  unfold Carries
  rw [h.other m ne]

/-- The marker is among the attributes that were taken over. -/
theorem marks {e : NodeId} {eb : Element} {mark ref : String}
    (h : Taken n eb.attributes.entries f f') (lettered : f.Lettered n)
    (content : (f.get e).content = .element eb) (small : eb.attributes.Small)
    (carries : f.Carries mark ref e) (value : String) :
    f'.Carries mark value n ↔ f.Carries mark value e := by
  obtain ⟨nb, contentHere, -⟩ := lettered
  unfold Carries at carries ⊢
  rw [content] at carries
  have found : eb.attributes.value? mark = some ref := eq_of_beq carries
  have taken : (nb.attributes.setAll eb.attributes.entries).value? mark = some ref :=
    Markup.Attributes.value?_setAll _ eb.attributes.distinct
      (fun a ha => small a.1 (List.mem_map_of_mem ha)) (Ordered.mem_of_get? found)
  rw [h.here nb contentHere, content]
  show ((nb.attributes.setAll eb.attributes.entries).value? mark == some value) = true ↔
    (eb.attributes.value? mark == some value) = true
  rw [found, taken]

end Taken

/-- A component that is not in the tree takes the place of its outlet, when it has got the children and
the attributes of that. -/
theorem Replaced.component {e p : NodeId} (h : f.Linked) (place : (f.get e).parent = some p)
    (known : n.index < f.size) (whole : (f.get n).isFragment = false) (ne : n ≠ e)
    (orphan : (f.get n).parent ≠ some e) (apart : ¬ f.Under n p)
    (moved : Moved f f₁ [] n (f.get e).children) (inscribed : Inscribed n l f₁ f₂) :
    (f₂.splice e [n]).2 = some (p, [n]) ∧ Replaced f (f₂.splice e [n]).1 e p n [n] n := by
  have parents : ∀ m, (f₂.get m).parent = (f₁.get m).parent := inscribed.parent
  have size : f₂.size = f.size := inscribed.size_eq.trans moved.relinked.size
  have stays : ∀ m, (f.get m).parent ≠ some e → (f₂.get m).parent = (f.get m).parent :=
    fun m hm => (parents m).trans (moved.other m List.not_mem_nil (mt (h.child e m).1 hm))
  have place₂ : (f₂.get e).parent = some p :=
    (stays e fun self => h.acyclic self .here).trans place
  have hollow : ∀ m, (f₂.get m).parent ≠ some e := by
    intro m
    by_cases child : (f.get m).parent = some e
    · rw [parents, moved.below m ((h.child e m).2 child)]
      exact fun eq => ne (Option.some.inj eq)
    · rwa [stays m child]
  have apart₂ : ¬ f₂.Under n p := by
    have others : ∀ m, m ∉ (f.get e).children → (f₂.get m).parent = (f.get m).parent :=
      fun m hm => stays m (mt (h.child e m).2 hm)
    refine fun under => apart (under.of_below others fun c hc below => ?_)
    exact h.acyclic place ((Under.up ((h.child e c).1 hc) .here).trans below)
  have whole₂ : (f₂.get n).isFragment = false := by
    have known₁ : n.index < f₁.size := moved.relinked.size ▸ known
    rw [inscribed.isFragment n known₁, Linked.relinked_whole moved.relinked]
    exact whole
  obtain ⟨spliced, replaced⟩ := Replaced.splice (moved.linked.extended inscribed.toExtended) place₂
    hollow (size ▸ known) ne apart₂ n
  rw [takeForInsertion_other whole₂] at spliced replaced
  exact ⟨spliced, replaced.succeed h place orphan moved inscribed.toEnlarged⟩

end Dom.Forest

namespace Live
open Dom (Forest)

variable {mark : String} {w w₁ w' : World} {value : TemplateValue}

namespace Mount
variable {c : NodeId} {l : List NodeId}

/-- Nodes come below another one, one after another. By induction on their list. -/
theorem appendEach_same (hc : (w.nodes.get c).connected = false)
    (unmounted : ∀ k ∈ l, (w.nodes.get k).connected = false)
    (whole : ∀ k ∈ l, (w.nodes.get k).isFragment = false) (run : Runner) :
    appendEach c l run w =
      .ok ((), { w with nodes := l.foldl (fun f k => (f.detach k).attach c k) w.nodes }) := by
  induction l generalizing w with
  | nil => rfl
  | cons k l ih =>
    obtain ⟨out, unmounted⟩ := List.forall_mem_cons.1 unmounted
    obtain ⟨here, whole⟩ := List.forall_mem_cons.1 whole
    let w₁ : World := { w with nodes := (w.nodes.detach k).attach c k }
    have relinked : w.nodes.Relinked w₁.nodes :=
      (Forest.Relinked.detach k).trans (Forest.Relinked.attach c k)
    have one : appendOne c k run w = .ok ((), w₁) := by
      have below : isConnected w₁ c = false := (relinked.connected c).trans hc
      have read : appendOne c k run w = connect k (isConnected w₁ c) run w₁ := rfl
      rw [read, below]
      exact connect_same ((relinked.connected k).trans out) run
    have first : append c k run w = .ok ((), w₁) := by
      have read : append c k run w = (w.nodes.takeForInsertion k).1.forM (appendOne c) run
          { w with nodes := (w.nodes.takeForInsertion k).2 } := rfl
      rw [read, Forest.takeForInsertion_other here]
      exact (bind_of_ok one).trans rfl
    refine (bind_of_ok first).trans (ih ((relinked.connected c).trans hc)
      (fun k' hk => (relinked.connected k').trans (unmounted k' hk)) fun k' hk => ?_)
    exact (Forest.Linked.relinked_whole relinked k').trans (whole k' hk)

end Mount

namespace Render
open Template (Slot)

/-! Outlets for text. -/

/-- A node that was made meanwhile. -/
def Made (w w' : World) (n : NodeId) : Prop :=
  w.nodes.size ≤ n.index ∧ n.index < w'.nodes.size

variable (mark)

theorem createText_settles (text : String) :
    Settles (onNodes (·.create (.text text))) w fun n w' => Nearby mark w w' ∧ Made w w' n := by
  refine (create_settles mark fun _ _ => rfl).mono ?_
  rintro n w' ⟨rfl, rfl, near⟩
  refine ⟨near, Nat.le_refl _, ?_⟩
  have size : (w.nodes.create (.text text)).2.size = w.nodes.size + 1 := Forest.size_create _
  exact size ▸ Nat.lt_succ_self _

theorem signalNode_settles (s : SignalId) :
    Settles (signalNode s) w fun n w' => Nearby mark w w' ∧ Made w w' n := by
  refine Settles.get_bind ((createText_settles mark _).bind ?_)
  rintro n w₁ ⟨near, new, known⟩
  have unmounted : (w₁.nodes.get n).connected = false := by
    rw [near.kept.connected, Forest.get_unknown new]
    rfl
  refine (follow_settles mark unmounted s .text).bind fun _ w₂ more => .pure ?_
  exact ⟨near.trans more, new, Nat.lt_of_lt_of_le known more.kept.size⟩

variable {mark}

/-- What is to take the place of an outlet: the node that is given, or a new one. -/
structure Arrives (mark : String) (w : World) (value : TemplateValue) (answer : Except RenderFault NodeId)
    (w' : World) : Prop where
  fault : fault? answer = value.unshown?
  near : Nearby mark w w'
  node : ∀ n, answer = .ok n → value.node? = some n ∨ Made w w' n

theorem nodeOf_settles (ends : value.Ends w) :
    Settles (nodeOf value).run w (Arrives mark w value) := by
  have given : ∀ n, value.unshown? = none → value.node? = some n →
      Settles (pure n : Fitting NodeId).run w (Arrives mark w value) := by
    refine fun n shown node => .pure ⟨shown.symm, .refl mark w, fun m hm => ?_⟩
    cases hm
    exact .inl node
  have shows : ∀ {x : Op NodeId} {w₁}, value.unshown? = none → Nearby mark w w₁ →
      (Settles x w₁ fun n w' => Nearby mark w₁ w' ∧ Made w₁ w' n) →
        Settles (liftM x : Fitting NodeId).run w₁ (Arrives mark w value) := by
    intro x w₁ shown near hx
    rw [run_liftM]
    refine hx.bind ?_
    rintro n w' ⟨more, new, known⟩
    refine .pure ⟨shown.symm, near.trans more, fun m hm => ?_⟩
    cases hm
    exact .inr ⟨Nat.le_trans near.kept.size new, known⟩
  cases value with
  | value v =>
    cases v with
    | node n => exact given n rfl rfl
    | _ => exact shows rfl (.refl mark w) (createText_settles mark _)
  | component c => exact given c.node rfl rfl
  | signal s => exact shows rfl (.refl mark w) (signalNode_settles mark s)
  | writable s => exact shows rfl (.refl mark w) (signalNode_settles mark s)
  | listener l => exact .pure ⟨rfl, .refl mark w, nofun⟩
  | formula fn =>
    refine Settles.run_lift_bind (signal?_settles mark ends) ?_
    rintro s w₁ ⟨live, near⟩
    cases s with
    | some s => exact shows rfl near (signalNode_settles mark s)
    | none => cases live

variable {root e p g : NodeId} {aim : Aim} {job : Job} {js : List Job} {f f' : Forest}

/-- The element of the first job has a parent under the root. -/
theorem Hosts.place (h : Hosts mark root aim (job :: js) f) (aims : aim job.ref = some e) :
    f.Under root e ∧ ∃ p, (f.get e).parent = some p ∧ f.Under root p := by
  obtain ⟨e', aims', he, ne, -⟩ := h.aimed job List.mem_cons_self
  obtain rfl := Option.some.inj (aims.symm.trans aims')
  cases parent : (f.get e).parent with
  | none => exact absurd (he.eq_of_root parent).symm ne
  | some p => exact ⟨he, p, rfl, he.of_child ne parent⟩

/-- A node comes in for an outlet for text. -/
theorem Hosts.replaceOutlet (h : Hosts mark root aim (job :: js) w.nodes) (outlet : job.isOutlet = true)
    (aims : aim job.ref = some e) (comes : Comes mark root js w.nodes g)
    (after : job.after aim = aim) :
    Settles (Mount.replace e [g]) w fun _ w' =>
      Hosts mark root (job.after aim) js w'.nodes ∧ Retains w w' := by
  obtain ⟨he, p, parent, hp⟩ := h.place aims
  have ne : g ≠ e := by
    rintro rfl
    exact comes.out he
  obtain ⟨spliced, replaced⟩ := Forest.Replaced.splice h.linked parent
    (h.hollow job List.mem_cons_self outlet e aims) comes.known ne
    (Forest.Under.outside h.top comes.out hp) e
  have relinked : w.nodes.Relinked (w.nodes.splice e [g]).1 := .splice e [g]
  let f := (w.nodes.splice e [g]).1
  have same : ∀ {n}, f.Lettered n ↔ w.nodes.Lettered n := by
    intro n
    unfold Forest.Lettered
    rw [relinked.content]
  have unchanged : ∀ n, Forest.heir e e n = n := by
    intro n
    unfold Forest.heir
    split
    case isTrue eq => exact eq.symm
    case isFalse => rfl
  have seating : Seating mark root aim job js w.nodes f e p g (w.nodes.takeForInsertion g).1 e :=
    { before := h
      aims := aims
      guest := comes
      replaced := replaced
      size := Nat.le_of_eq relinked.size.symm
      connected := relinked.connected
      lettered := fun _ => same.2
      marks := fun n value carries => .inl ((relinked.carries mark value n).1 carries)
      carried := fun n value _ carries lettered _ => by
        rw [unchanged]
        exact ⟨(relinked.carries mark value n).2 carries, same.2 lettered⟩
      same := fun j hj ref =>
        absurd ref.symm ((List.pairwise_cons.1 h.distinct).1 j hj (.inl outlet))
      other := fun r _ => by rw [after] }
  refine .of_eq (Mount.replace_same (h.unmounted e he) fun q l seated => ?_)
    ⟨seating.hosts, .of_eq rfl rfl⟩
  rw [spliced] at seated
  cases seated
  exact ⟨h.unmounted p hp, fun c hc => comes.unmounted c (replaced.came c hc).2⟩

/-! Components. -/

theorem giveAttributes_settles (n : NodeId) (l : List (String × String)) :
    Settles (l.forM fun (name, value) => giveAttribute (.element n) name value) w fun _ w' =>
      ∃ f, w.nodes.Inscribed n l f ∧ w' = { w with nodes := f } := by
  induction l generalizing w with
  | nil => exact .pure ⟨w.nodes, .refl n w.nodes, rfl⟩
  | cons a l ih =>
    let w₁ : World := { w with nodes := w.nodes.mapAttributes n (·.set a.1 a.2) }
    refine Settles.bind (Q := fun _ w' => w' = w₁) (Settles.modify rfl) ?_
    rintro _ _ rfl
    refine ih.mono ?_
    rintro _ _ ⟨f, inscribed, rfl⟩
    exact ⟨f, inscribed.cons, rfl⟩

theorem Hosts.seating {n : NodeId} (h : Hosts mark root aim (job :: js) f)
    (aims : aim job.ref = some e) (comes : Comes mark root js f n) (lettered : f.Lettered n)
    (after : job.after aim = fun r => if r = job.ref then some n else aim r)
    (replaced : f.Replaced f' e p n [n] n) {eb : Dom.Element}
    (content : (f.get e).content = .element eb) (taken : f.Taken n eb.attributes.entries f') :
    Seating mark root aim job js f f' e p n [n] n := by
  obtain ⟨e', aims', he, -, carries, eb', content', small⟩ := h.aimed job List.mem_cons_self
  obtain rfl := Option.some.inj (aims.symm.trans aims')
  obtain rfl := Dom.Content.element.inj (content.symm.trans content')
  have marks := taken.marks lettered content small carries
  have mem : n ∈ [n] := List.mem_singleton_self n
  refine ⟨h, aims, comes, replaced, Nat.le_of_eq taken.size.symm, taken.connected,
    fun _ => taken.lettered, fun m value hm => ?_, fun m value hm marked names _ => ?_,
    fun j hj ref => ⟨mem, ?_⟩, fun r hr => ?_⟩
  · by_cases eq : m = n
    · subst eq
      exact .inr ⟨rfl, mem, (marks value).1 hm⟩
    · exact .inl ((taken.carries_iff eq mark value).1 hm)
  · unfold Forest.heir
    split
    case isTrue eq =>
      subst eq
      exact ⟨(marks value).2 marked, taken.lettered lettered⟩
    case isFalse =>
      have apart : m ≠ n := by
        rintro rfl
        exact comes.out hm
      exact ⟨(taken.carries_iff apart mark value).2 marked, taken.lettered names⟩
  · rw [after, ref]
    exact if_pos rfl
  · rw [after]
    exact if_neg hr

/-- A component comes in for its outlet: it gets the children of the outlet, its attributes and its
place. -/
theorem Hosts.replaceComponent {n : NodeId} (h : Hosts mark root aim (job :: js) w.nodes)
    (aims : aim job.ref = some e) (comes : Comes mark root js w.nodes n)
    (lettered : w.nodes.Lettered n)
    (after : job.after aim = fun r => if r = job.ref then some n else aim r) :
    Settles (placeComponent e (.element n)) w fun _ w' =>
      Hosts mark root (job.after aim) js w'.nodes ∧ Retains w w' := by
  obtain ⟨he, p, parent, hp⟩ := h.place aims
  obtain ⟨e', aims', -, -, -, eb, content, -⟩ := h.aimed job List.mem_cons_self
  obtain rfl := Option.some.inj (aims.symm.trans aims')
  have below : ∀ k ∈ (w.nodes.get e).children, (w.nodes.get k).parent = some e := fun k hk =>
    (h.linked.child e k).1 hk
  have inside : ∀ k ∈ (w.nodes.get e).children, w.nodes.Under root k := fun k hk =>
    .up (below k hk) he
  have whole : ∀ k ∈ (w.nodes.get e).children, (w.nodes.get k).isFragment = false := fun k hk =>
    h.linked.whole k e (below k hk)
  let f₁ := (w.nodes.get e).children.foldl (fun f k => (f.detach k).attach n k) w.nodes
  have moved : w.nodes.Moved f₁ [] n (w.nodes.get e).children :=
    .attachAll h.linked comes.known (fun k hk => Forest.Linked.known (below k hk)) whole
      fun k hk under => comes.out ((inside k hk).trans under)
  have given : Settles (giveChildren (.element n) (w.nodes.get e).children) w fun _ w' =>
      w' = { w with nodes := f₁ } :=
    .of_eq (Mount.appendEach_same (comes.unmounted n .here)
      (fun k hk => h.unmounted k (inside k hk)) whole) rfl
  refine Settles.get_bind (given.bind ?_)
  rintro _ _ rfl
  refine Settles.get_bind ?_
  have attributes : f₁.attributes e = eb.attributes := by
    unfold Forest.attributes Dom.Node.element?
    rw [moved.relinked.content, content]
    rfl
  dsimp only
  rw [attributes]
  refine (giveAttributes_settles n eb.attributes.entries).bind ?_
  rintro _ _ ⟨f₂, inscribed, rfl⟩
  dsimp only at inscribed
  obtain ⟨spliced, replaced⟩ := Forest.Replaced.component h.linked parent comes.known
    lettered.whole (fun same => comes.out (same ▸ he)) (fun child => comes.out (.up child he))
    (Forest.Under.outside h.top comes.out hp) moved inscribed
  have taken := Forest.Taken.of_inscribed moved.relinked inscribed (.splice e [n])
  let w₂ : World := { w with nodes := f₂ }
  have unmounted : ∀ m, (w.nodes.get m).connected = false → (w₂.nodes.get m).connected = false :=
    fun m hm => (inscribed.connected m).trans ((moved.relinked.connected m).trans hm)
  refine .of_eq (w := w₂) (Mount.replace_same (unmounted e (h.unmounted e he)) fun q l seated => ?_)
    ⟨(h.seating aims comes lettered after replaced content taken).hosts, .of_eq rfl rfl⟩
  cases spliced.symm.trans seated
  exact ⟨unmounted p (h.unmounted p hp),
    List.forall_mem_singleton.2 (unmounted n (comes.unmounted n .here))⟩

end Render
end Live
end LiveMarkup
