import LiveMarkup.Proofs.Binding

/-!
The attributes that a compiled template writes. A name with a colon is a directive or is refused, so
no slot writes an attribute with a colon in its name, such as the standard marker. What programs put
together are attributes that slots are part of.
-/
namespace LiveMarkup

theorem Ordered.mem_put {κ ν : Type} [BEq κ] [LawfulBEq κ] {k : κ} {v : ν} {l : List (κ × ν)}
    {e : κ × ν} (h : e ∈ put k v l) : e = (k, v) ∨ e ∈ l := by
  induction l with
  | nil => exact .inl (List.mem_singleton.1 h)
  | cons head rest ih =>
    obtain ⟨key, value⟩ := head
    simp only [put] at h
    split at h
    case isTrue hk =>
      rw [eq_of_beq hk] at h
      rcases List.mem_cons.1 h with rfl | h
      · exact .inl rfl
      · exact .inr (List.mem_cons_of_mem _ h)
    case isFalse =>
      rcases List.mem_cons.1 h with rfl | h
      · exact .inr List.mem_cons_self
      · exact (ih h).imp id (List.mem_cons_of_mem _)

theorem Ordered.mem_insert {κ ν : Type} [BEq κ] [LawfulBEq κ] {m : Ordered κ ν} {k : κ} {v : ν}
    {e : κ × ν} (h : e ∈ (m.insert k v).entries) : e = (k, v) ∨ e ∈ m.entries :=
  mem_put h

theorem Ordered.mem_of_get? {κ ν : Type} [BEq κ] [LawfulBEq κ] {m : Ordered κ ν} {k : κ} {v : ν}
    (h : m.get? k = some v) : (k, v) ∈ m.entries := by
  unfold get? at h
  generalize m.entries = l at h
  induction l with
  | nil => cases h
  | cons head rest ih =>
    obtain ⟨key, value⟩ := head
    simp only [find?] at h
    split at h
    case isTrue hk =>
      cases h
      rw [eq_of_beq hk]
      exact List.mem_cons_self
    case isFalse => exact List.mem_cons_of_mem _ (ih h)

namespace Text

theorem notMem_of_cut? {mark : Char} {s : List Char} (h : cut? [mark] s = none) : mark ∉ s := by
  induction s with
  | nil => exact List.not_mem_nil
  | cons c rest ih =>
    simp only [cut?] at h
    split at h
    · cases h
    case isFalse hc =>
      have apart : mark ≠ c := by
        rintro rfl
        exact hc (by simp)
      exact List.not_mem_cons_of_ne_of_not_mem apart (ih (Option.map_eq_none_iff.1 h))

theorem eq_colon_of_toLower {c : Char} (h : c.toLower = ':') : c = ':' := by
  unfold Char.toLower at h
  split at h
  case isFalse => exact h
  case isTrue letter =>
    obtain ⟨low, high⟩ := letter
    have value := congrArg (fun c : Char => c.val.toNat) h
    simp only [ge_iff_le, UInt32.le_iff_toNat_le] at low high
    simp [UInt32.toNat_add] at value low high
    omega

/-- A name with a colon is none without one, in whatever letters. -/
theorem lowercase_ne_of_colon {s t : String} (hs : ':' ∈ s.toList) (ht : ':' ∉ t.toList) :
    lowercase s ≠ lowercase t := by
  intro same
  have mem : ':' ∈ (lowercase s).toList := by
    unfold lowercase
    rw [String.toList_ofList]
    exact List.mem_map.2 ⟨':', hs, rfl⟩
  rw [same] at mem
  unfold lowercase at mem
  rw [String.toList_ofList] at mem
  obtain ⟨c, hc, colon⟩ := List.mem_map.1 mem
  exact ht (eq_colon_of_toLower colon ▸ hc)

end Text
namespace Template

/-- What every step of a fold keeps, the fold keeps. -/
theorem foldlM_keeps {α β ε : Type} {f : β → α → Except ε β} {P : β → Prop} {l : List α}
    (step : ∀ a ∈ l, ∀ b b', P b → f b a = .ok b' → P b') {b b' : β} (start : P b)
    (h : l.foldlM f b = .ok b') : P b' := by
  induction l generalizing b with
  | nil =>
    cases h
    exact start
  | cons a l ih =>
    obtain ⟨here, rest⟩ := List.forall_mem_cons.1 step
    rw [List.foldlM_cons] at h
    cases first : f b a with
    | error e =>
      rw [first] at h
      cases h
    | ok b₁ =>
      rw [first] at h
      exact ih rest (here b b₁ start first) h

section
variable {mark : String} (colon : ':' ∈ mark.toList) {t : Token} {r : Ref} {p : Placement}
include colon

theorem spares_of_placeValue (h : placeValue t r = .ok p) : p.slot.Spares mark := by
  unfold placeValue at h
  dsimp only at h
  split at h
  case h_1 kind name _ =>
    split at h
    · cases h
    · split at h
      · cases h
      case h_2 k _ =>
        cases h
        cases k with
        | classes => exact Text.lowercase_ne_of_colon colon (by decide)
        | style => exact Text.lowercase_ne_of_colon colon (by decide)
        | on => trivial
        | bind => trivial
        | ref => trivial
  case h_2 cut =>
    have none : ':' ∉ t.attr.toList := Text.notMem_of_cut? (Option.map_eq_none_iff.1 cut)
    have spares := Text.lowercase_ne_of_colon colon none
    split at h
    · cases h
      exact spares
    · cases h
      exact spares

theorem spares_of_place {config : Config} {index : Nat}
    (h : place config index r t = .ok p) : p.slot.Spares mark := by
  unfold place at h
  split at h
  · cases h
    trivial
  · split at h
    · cases h
    · split at h
      · cases h
      · split at h
        · cases h
          trivial
        · split at h
          · cases h
          · exact spares_of_placeValue colon h

end

/-- The attribute to whose program a slot belongs. -/
def Slot.quoted? : Slot → Option String
  | .attr name quote _ => if quote = .none then none else some name
  | _ => none

/-- The slot is an outlet for text. -/
def Slot.isOutlet : Slot → Bool
  | .node _ => true
  | _ => false

/-- A slot outside of tags takes the fresh reference; any other slot has the one of its start tag. What
is recorded of it is the quoted attribute that it is part of. -/
theorem place_cases {config : Config} {index : Nat} {fresh : Ref} {t : Token} {p : Placement}
    (h : place config index fresh t = .ok p) :
    p.recorded = p.slot.quoted? ∧
      (t.place = .outer ∧ p.slot = .node fresh ∨
        t.place ≠ .outer ∧ p.slot.isOutlet = false ∧ t.ref = some p.slot.ref) := by
  have value : ∀ r, placeValue t r = .ok p →
      p.recorded = p.slot.quoted? ∧ p.slot.isOutlet = false ∧ p.slot.ref = r := by
    intro r h
    unfold placeValue at h
    grind [Slot.quoted?, Slot.isOutlet, Slot.ref]
  unfold place at h
  split at h
  case isTrue outer =>
    cases h
    exact ⟨rfl, .inl ⟨outer, rfl⟩⟩
  case isFalse inside =>
    split at h
    case h_1 => cases h
    case h_2 r ref =>
      split at h
      · cases h
      · split at h
        · cases h
          exact ⟨rfl, .inr ⟨inside, rfl, ref⟩⟩
        · split at h
          · cases h
          · obtain ⟨recorded, other, same⟩ := value r h
            exact ⟨recorded, .inr ⟨inside, other, same ▸ ref⟩⟩

theorem attr_of_quoted {slot : Slot} {name : String} (h : slot.quoted? = some name) :
    ∃ quote, slot = .attr name quote slot.ref := by
  cases slot with
  | attr other quote r =>
    unfold Slot.quoted? at h
    dsimp only at h
    split at h
    · cases h
    · cases h
      exact ⟨quote, rfl⟩
  | _ => cases h

/-- No slot writes the mark, and every name that is recorded with an element is that of an attribute
that a slot is part of. -/
structure Shape.Plain (mark : String) (s : Shape) : Prop where
  slots : ∀ slot ∈ s.slots, slot.Spares mark
  elements : ∀ e ∈ s.elements.entries, ∀ p ∈ e.2.entries, ∃ quote, Slot.attr p.1 quote e.1 ∈ s.slots

namespace Shape.Plain
variable {mark : String} {s s' : Shape}

theorem add (h : s.Plain mark) {index : Nat} {p : Placement} (spares : p.slot.Spares mark)
    (recorded : ∀ name, p.recorded = some name → ∃ quote, p.slot = .attr name quote p.slot.ref) :
    (s.add index p).Plain mark := by
  have here : p.slot ∈ (s.add index p).slots :=
    List.mem_append_right _ (List.mem_singleton_self _)
  have before : ∀ {slot}, slot ∈ s.slots → slot ∈ (s.add index p).slots :=
    fun hs => List.mem_append_left _ hs
  refine ⟨fun slot hs => ?_, fun e he q hq => ?_⟩
  · rcases List.mem_append.1 hs with hs | hs
    · exact h.slots slot hs
    · cases List.mem_singleton.1 hs
      exact spares
  · have old : ∀ q ∈ ((s.elements.get? p.slot.ref).getD .empty).entries,
        ∃ quote, Slot.attr q.1 quote p.slot.ref ∈ (s.add index p).slots := by
      intro q hq
      cases found : s.elements.get? p.slot.ref with
      | none =>
        rw [found] at hq
        cases hq
      | some attributes =>
        rw [found] at hq
        obtain ⟨quote, mem⟩ := h.elements _ (Ordered.mem_of_get? found) q hq
        exact ⟨quote, before mem⟩
    rcases Ordered.mem_insert he with rfl | he
    · cases name : p.recorded with
      | none =>
        simp only [name] at hq
        exact old q hq
      | some name' =>
        simp only [name] at hq
        rcases Ordered.mem_insert hq with rfl | hq
        · obtain ⟨quote, slot⟩ := recorded name' name
          exact ⟨quote, slot ▸ here⟩
        · exact old q hq
    · obtain ⟨quote, mem⟩ := h.elements e he q hq
      exact ⟨quote, before mem⟩

/-- By recursion on the tokens. -/
theorem build (colon : ':' ∈ mark.toList) (config : Config) (nextRef : Nat) (h : s.Plain mark)
    (tokens : List Token) (built : (Shape.build config nextRef s tokens).1 = .ok s') :
    s'.Plain mark := by
  induction tokens generalizing nextRef s with
  | nil =>
    cases built
    exact h
  | cons t rest ih =>
    cases rest with
    | nil =>
      cases built
      exact ⟨h.slots, h.elements⟩
    | cons t' rest =>
      unfold Shape.build at built
      dsimp only at built
      split at built
      case h_1 p placed =>
        have grown : ({ s with html := s.html ++ t.html } : Shape).Plain mark :=
          ⟨h.slots, h.elements⟩
        exact ih _ (grown.add (spares_of_place colon placed) fun _ recorded =>
          attr_of_quoted ((place_cases placed).1 ▸ recorded)) built
      case h_2 => cases built

end Shape.Plain

/-- The names of the attributes that programs put together are among those recorded. -/
theorem names_of_elementPrograms {r : Ref} {attributes : Markup.Attributes} {P : String → Prop}
    {entries : List (String × List Nat)} (names : ∀ e ∈ entries, P e.1)
    {programs : Programs} (h : elementPrograms r attributes entries = .ok programs) :
    ∀ p ∈ programs.entries, P p.1 := by
  cases entries with
  | nil =>
    cases h
    exact fun p hp => nomatch hp
  | cons entry rest =>
    unfold elementPrograms at h
    refine foldlM_keeps (P := fun programs : Programs => ∀ p ∈ programs.entries, P p.1)
      (fun e he before after hb ha => ?_) (fun p hp => absurd hp List.not_mem_nil) h
    obtain ⟨name, indexes⟩ := e
    dsimp only at ha
    split at ha
    · cases ha
      intro p hp
      rcases Ordered.mem_insert hp with rfl | hp
      · exact names _ he
      · exact hb p hp
    · cases ha

theorem names_of_allPrograms {config : Config} {fragment : List Markup.Tree}
    {P : Ref → String → Prop} {elements : List (Ref × SlotIndexes)}
    (names : ∀ e ∈ elements, ∀ p ∈ e.2.entries, P e.1 p.1)
    {programs : Ordered Ref Programs} (h : allPrograms config fragment elements = .ok programs) :
    ∀ e ∈ programs.entries, ∀ p ∈ e.2.entries, P e.1 p.1 := by
  refine foldlM_keeps (P := fun programs : Ordered Ref Programs =>
    ∀ e ∈ programs.entries, ∀ p ∈ e.2.entries, P e.1 p.1)
    (fun e he before after hb ha => ?_) (fun e he => absurd he List.not_mem_nil) h
  obtain ⟨r, indexes⟩ := e
  dsimp only at ha
  split at ha
  · cases ha
    exact hb
  · split at ha
    · cases ha
    case h_2 attributes _ =>
      cases made : elementPrograms r attributes indexes.entries with
      | error fault =>
        rw [made] at ha
        cases ha
      | ok new =>
        rw [made] at ha
        cases ha
        intro e' he'
        rcases Ordered.mem_insert he' with rfl | he'
        · exact names_of_elementPrograms (names _ he) made
        · exact hb e' he'

/-- No slot of a template writes the mark, and every attribute that programs put together has a slot
as its part. -/
structure Descriptor.Supplied (d : Descriptor) : Prop where
  slots : ∀ slot ∈ d.slots, slot.Spares d.config.refAttribute
  programs : ∀ e ∈ d.programs.entries, ∀ p ∈ e.2.entries,
    ∃ quote, Slot.attr p.1 quote e.1 ∈ d.slots

/-- A template that compiles has a shape, whose markup is its fragment. -/
theorem shape_of_compile {config : Config} {nextRef : Nat} {chunks : List String} {d : Descriptor}
    (compiled : (Descriptor.compile config nextRef chunks).1 = .ok d) :
    ∃ s, (Shape.parse config nextRef chunks).1 = .ok s ∧ Markup.parse s.html = .ok d.fragment ∧
      allPrograms config d.fragment s.elements.entries = .ok d.programs ∧
        d = ⟨d.fragment, s.html, s.slots, d.programs, config⟩ := by
  unfold Descriptor.compile Descriptor.compileEdited at compiled
  dsimp only at compiled
  cases parsed : (Shape.parse config nextRef chunks).1 with
  | error e =>
    rw [parsed] at compiled
    cases compiled
  | ok s =>
    rw [parsed] at compiled
    have shaped : Descriptor.ofShape config s = .ok d := compiled
    unfold Descriptor.ofShape at shaped
    split at shaped
    · cases shaped
    case h_2 fragment read =>
      split at shaped
      · cases shaped
      case h_2 programs assembled =>
        cases shaped
        exact ⟨s, rfl, read, assembled, rfl⟩

theorem supplied_of_compile {config : Config} (colon : ':' ∈ config.refAttribute.toList)
    {nextRef : Nat} {chunks : List String} {d : Descriptor}
    (compiled : (Descriptor.compile config nextRef chunks).1 = .ok d) :
    d.config = config ∧ d.Supplied := by
  obtain ⟨s, parsed, -, assembled, eq⟩ := shape_of_compile compiled
  have plain : s.Plain config.refAttribute := by
    refine Shape.Plain.build colon config _ ⟨?_, ?_⟩ _ parsed
    · exact fun slot hs => nomatch hs
    · exact fun e he => nomatch he
  have named := names_of_allPrograms (P := fun r name => ∃ quote, Slot.attr name quote r ∈ s.slots)
    plain.elements assembled
  rw [eq]
  exact ⟨rfl, plain.slots, named⟩

end Template

namespace Live.Render

/-- The markers of a compiled template are good for searches if each is on one element at most. -/
theorem sound_of_compile {config : Template.Config} (colon : ':' ∈ config.refAttribute.toList)
    {nextRef : Nat} {chunks : List String} {d : Template.Descriptor}
    (compiled : (Template.Descriptor.compile config nextRef chunks).1 = .ok d)
    (sole : ∀ r ∈ refs d,
      (Markup.elementsWithAll d.config.refAttribute r.text d.fragment).length ≤ 1) : Sound d := by
  obtain ⟨-, supplied⟩ := Template.supplied_of_compile colon compiled
  refine ⟨sole, supplied.slots, fun e he p hp => ?_⟩
  obtain ⟨quote, mem⟩ := supplied.programs e he p hp
  exact supplied.slots _ mem

end Live.Render
end LiveMarkup
