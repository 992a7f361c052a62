import LiveMarkup.Proofs.Rescanning
import LiveMarkup.Proofs.Allotment
import LiveMarkup.Proofs.Compilation

/-!
Recompiling: a template that compiles does so again with whatever references are free then, and the
two descriptors are the same but for these. The texts of the template must be silent: nothing in them
could be taken for a reference that is given out.
-/
namespace LiveMarkup.Renaming

open Template (Ref Config Token Slot Shape SlotIndexes Placement Part Programs Descriptor)

variable {rn : Renaming} {config : Config} {r r' : Ref} {t t' : Token}

/-! Slots. -/

variable (rn) in
/-- Uses of slots that are the same but for references. -/
inductive Slots : Slot → Slot → Prop
  | attr {name : String} {quote : Template.Quote} {r r' : Ref} (name_silent : rn.Silent name.toList)
    (refs : rn.Refs r r') : Slots (.attr name quote r) (.attr name quote r')
  | directive {kind : Template.DirectiveKind} {name : String} {r r' : Ref}
    (name_silent : rn.Silent name.toList) (refs : rn.Refs r r') :
    Slots (.directive kind name r) (.directive kind name r')
  | component {r r' : Ref} (refs : rn.Refs r r') : Slots (.component r) (.component r')
  | node {r r' : Ref} (refs : rn.Refs r r') : Slots (.node r) (.node r')

theorem Slots.refs {a b : Slot} (h : rn.Slots a b) : rn.Refs a.ref b.ref := by
  cases h with
  | attr _ refs => exact refs
  | directive _ refs => exact refs
  | component refs => exact refs
  | node refs => exact refs

variable (rn) in
/-- What the slots behind two tokens add to two shapes. -/
structure Placements (t t' : Token) (p p' : Placement) : Prop where
  slot : rn.Slots p.slot p'.slot
  recorded : p.recorded = p'.recorded
  name : ∀ name, p.recorded = some name → rn.Silent name.toList
  html : ∀ {u v}, rn.Fronts u v →
    rn.Fronts (u ++ t.html.toList ++ p.insertion.toList) (v ++ t'.html.toList ++ p'.insertion.toList)

/-- An empty value in quotation marks. -/
theorem Tokens.fronts_empty (h : rn.Tokens t t') {u v : List Char} (front : rn.Fronts u v) :
    rn.Fronts (u ++ t.html.toList ++ "\"\"".toList) (v ++ t'.html.toList ++ "\"\"".toList) := by
  have opened := (front _ _ h.html).fronts_mark (c := '\x22') ⟨by decide, by decide⟩ (by decide)
  simpa using opened.mark .nil (c := '\x22') ⟨by decide, by decide⟩ (by decide)

theorem Tokens.fronts_outlet (h : rn.Tokens t t') (named : rn.Silent config.refAttribute.toList)
    (outlet : rn.Silent config.outletTag.toList) (refs : rn.Refs r r') {u v : List Char}
    (front : rn.Fronts u v) :
    rn.Fronts (u ++ t.html.toList ++ (Template.outlet config r).toList)
      (v ++ t'.html.toList ++ (Template.outlet config r').toList) := by
  have opened := (front _ _ h.html).fronts_mark (c := '<') ⟨by decide, by decide⟩ (by decide)
  have marked := (opened _ _ outlet.texts).fronts_marker named refs
  have closed := marked.mark .nil (c := '>') ⟨by decide, by decide⟩ (by decide)
  have ending := closed.mark .nil (c := '<') ⟨by decide, by decide⟩ (by decide)
  have slash := ending.mark .nil (c := '/') ⟨by decide, by decide⟩ (by decide)
  have whole := slash.mark outlet (c := '>') ⟨by decide, by decide⟩ (by decide)
  simpa [Template.outlet] using whole

theorem infix_of_cutAt? {mark : Char} {s kind name : String}
    (h : Text.cutAt? mark s = some (kind, name)) : name.toList <:+: s.toList := by
  unfold Text.cutAt? at h
  obtain ⟨parts, found, same⟩ := Option.map_eq_some_iff.1 h
  cases same
  rw [Text.eq_append_of_cut? found, String.toList_ofList]
  exact (List.suffix_append _ _).isInfix

theorem Tokens.ok_of_placeValue (h : rn.Tokens t t') (value : t.place.isValue = true)
    (refs : rn.Refs r r') {p : Placement} (placed : Template.placeValue t r = .ok p) :
    ∃ p', Template.placeValue t' r' = .ok p' ∧ rn.Placements t t' p p' := by
  have silent := h.name (by rintro naming; rw [naming] at value; exact absurd value (by decide))
  unfold Template.placeValue at placed ⊢
  rw [← h.place, ← h.attr]
  cases cut : Text.cutAt? ':' t.attr with
  | some parts =>
    obtain ⟨kind, name⟩ := parts
    rw [cut] at placed
    dsimp only at placed ⊢
    split at placed
    case isTrue => cases placed
    case isFalse bare =>
      rw [if_neg bare]
      cases known : Template.DirectiveKind.ofName? kind with
      | none =>
        rw [known] at placed
        cases placed
      | some k =>
        rw [known] at placed
        cases placed
        exact ⟨_, rfl, .directive (silent.of_part (infix_of_cutAt? cut)) refs, rfl, nofun,
          h.fronts_empty⟩
  | none =>
    rw [cut] at placed
    dsimp only at placed ⊢
    split at placed
    case isTrue bare =>
      cases placed
      rw [if_pos bare]
      exact ⟨_, rfl, .attr silent refs, rfl, nofun, h.fronts_empty⟩
    case isFalse quoted =>
      cases placed
      rw [if_neg quoted]
      refine ⟨_, rfl, .attr silent refs, rfl, fun name same => ?_, fun front => ?_⟩
      · cases same
        exact silent
      · exact (front _ _ h.html).fronts_ref refs

/-- A slot that can be placed by one compilation can be by the other. -/
theorem Tokens.ok_of_place (h : rn.Tokens t t') (named : rn.Silent config.refAttribute.toList)
    (outlet : rn.Silent config.outletTag.toList) {fresh fresh' : Ref}
    (given : t.place = .outer → rn.Refs fresh fresh') {index : Nat} {p : Placement}
    (placed : Template.place config index fresh t = .ok p) :
    ∃ p', Template.place config index fresh' t' = .ok p' ∧ rn.Placements t t' p p' := by
  have refs := h.ref
  unfold Template.place at placed ⊢
  rw [← h.place, ← h.attr, ← h.tag]
  split at placed
  case isTrue outer =>
    cases placed
    rw [if_pos outer]
    exact ⟨_, rfl, .node (given outer), rfl, nofun, h.fronts_outlet named outlet (given outer)⟩
  case isFalse inside =>
    rw [if_neg inside]
    generalize t.ref = o, t'.ref = o' at placed refs
    cases refs with
    | none => cases placed
    | some refs =>
      dsimp only at placed ⊢
      split at placed
      case isTrue => cases placed
      case isFalse inTag =>
        rw [if_neg inTag]
        split at placed
        case isTrue component =>
          cases placed
          rw [if_pos component]
          refine ⟨_, rfl, .component refs, rfl, nofun, fun front => ?_⟩
          simpa using front.append (h.front component.1)
        case isFalse other =>
          rw [if_neg other]
          split at placed
          case isTrue => cases placed
          case isFalse value =>
            rw [if_neg value]
            exact h.ok_of_placeValue (by simpa using value) refs placed

/-! Shapes. -/

variable (rn) in
/-- The quoted attributes of an element, which are the same in both shapes. -/
def Indexes (indexes indexes' : SlotIndexes) : Prop :=
  indexes = indexes' ∧ ∀ p ∈ indexes.entries, rn.Silent p.1.toList

variable (rn) in
/-- Shapes that are the same but for references. -/
structure Shapes (s s' : Shape) : Prop where
  html : rn.Strings rn.Raw s.html s'.html
  slots : List.Forall₂ rn.Slots s.slots s'.slots
  elements : Entries rn.Refs (fun _ => rn.Indexes) s.elements.entries s'.elements.entries

theorem le_build (config : Config) (nextRef : Nat) (s : Shape) (tokens : List Token) :
    nextRef ≤ (Shape.build config nextRef s tokens).2 := by
  have bump : ∀ (t : Token) n, n ≤ if t.place = .outer then n + 1 else n := fun t n => by
    split
    · exact Nat.le_succ n
    · exact Nat.le_refl n
  induction tokens generalizing nextRef s with
  | nil => exact Nat.le_refl _
  | cons t rest ih =>
    cases rest with
    | nil => exact Nat.le_refl _
    | cons t' rest =>
      unfold Shape.build
      dsimp only
      split
      · exact Nat.le_trans (bump t nextRef) (ih _ _)
      · exact bump t nextRef

theorem entries_get? {elements elements' : Ordered Ref SlotIndexes}
    (h : Entries rn.Refs (fun _ => rn.Indexes) elements.entries elements'.entries)
    (refs : rn.Refs r r') :
    rn.Indexes ((elements.get? r).getD .empty) ((elements'.get? r').getD .empty) := by
  have both := h.find? sharp_refs refs
  unfold Ordered.get?
  generalize Ordered.find? r elements.entries = o, Ordered.find? r' elements'.entries = o' at both
  cases both with
  | none => exact ⟨rfl, nofun⟩
  | some same => exact same

theorem Shapes.add {s s' : Shape} (h : rn.Shapes s s') (front : rn.Fronts s.html.toList s'.html.toList)
    {p p' : Placement} (placements : rn.Placements t t' p p') (index : Nat) :
    rn.Fronts (({ s with html := s.html ++ t.html } : Shape).add index p).html.toList
        (({ s' with html := s'.html ++ t'.html } : Shape).add index p').html.toList ∧
      rn.Shapes (({ s with html := s.html ++ t.html } : Shape).add index p)
        (({ s' with html := s'.html ++ t'.html } : Shape).add index p') := by
  have html := placements.html front
  rw [← String.toList_append, ← String.toList_append, ← String.toList_append,
    ← String.toList_append] at html
  refine ⟨html, html.texts, List.rel_append h.slots (.cons placements.slot .nil), ?_⟩
  obtain ⟨same, silent⟩ := entries_get? h.elements placements.slot.refs
  refine h.elements.put sharp_refs placements.slot.refs ?_
  rw [← placements.recorded, ← same]
  cases recorded : p.recorded with
  | none => exact ⟨rfl, silent⟩
  | some name =>
    refine ⟨rfl, fun q hq => ?_⟩
    rcases Ordered.mem_insert hq with rfl | hq
    · exact placements.name name recorded
    · exact silent q hq

/-- By recursion on the tokens. -/
theorem Shapes.build {s s' built : Shape} (h : rn.Shapes s s')
    (front : rn.Fronts s.html.toList s'.html.toList)
    (named : rn.Silent config.refAttribute.toList) (outlet : rn.Silent config.outletTag.toList)
    {tokens tokens' : List Token} (same : List.Forall₂ rn.Tokens tokens tokens') {m : Nat}
    (bound : (Shape.build config (rn.old + m) s tokens).2 ≤ rn.old + rn.count)
    (ok : (Shape.build config (rn.old + m) s tokens).1 = .ok built) :
    ∃ built', (Shape.build config (rn.new + m) s' tokens').1 = .ok built' ∧
      rn.Shapes built built' := by
  induction same generalizing s s' m with
  | nil =>
    cases ok
    exact ⟨s', rfl, h⟩
  | @cons t t' rest rest' token more ih =>
    cases more with
    | nil =>
      cases ok
      refine ⟨_, rfl, ?_, h.slots, h.elements⟩
      have whole := front _ _ token.html
      rwa [← String.toList_append, ← String.toList_append] at whole
    | @cons t₁ t₁' rest rest' token₁ more =>
      unfold Shape.build at ok bound ⊢
      dsimp only at ok bound ⊢
      rw [h.slots.length_eq] at ok bound
      split at ok
      case h_2 => cases ok
      case h_1 p placed =>
        rw [placed] at bound
        dsimp only at bound
        have given : t.place = .outer → rn.Refs ⟨rn.old + m⟩ ⟨rn.new + m⟩ := by
          intro outer
          rw [if_pos outer] at bound
          have := Nat.le_trans (le_build _ _ _ _) bound
          exact ⟨m, by omega, rfl, rfl⟩
        obtain ⟨p', placed', placements⟩ := token.ok_of_place named outlet given placed
        obtain ⟨front', shapes⟩ := h.add front placements s'.slots.length
        rw [placed', ← token.place]
        have next : ∀ n, (if t.place = .outer then n + m + 1 else n + m) =
            n + if t.place = .outer then m + 1 else m := fun n => by split <;> omega
        rw [next] at ok bound ⊢
        exact ih shapes front' bound ok

/-! Programs. -/

/-- The text of a reference. -/
theorem Refs.strings (h : rn.Refs r r') : rn.Strings rn.Free r.text r'.text := by
  obtain ⟨k, given, rfl, rfl⟩ := h
  have none : rn.Over rn.Free (Pattern.letters []) := .letters fun u inside =>
    .of_part .nil inside
  exact ⟨_, none.append_ref none given, by simp [Pattern.letters, Pattern.spell],
    by simp [Pattern.letters, Pattern.spell]⟩

theorem Silent.strings {name : String} (h : rn.Silent name.toList) :
    rn.Strings rn.Raw name name :=
  h.texts

/-- An element is marked with a reference in both fragments or in none. -/
theorem Attributes.marked {P : String → List Char → Prop} {a b : Markup.Attributes}
    (h : rn.Attributes P a b) {mark : String} (silent : rn.Silent mark.toList)
    (strict : ∀ u, P (Text.lowercase mark) u → rn.Free u) (refs : rn.Refs r r') :
    a.value? mark = some r.text ↔ b.value? mark = some r'.text := by
  have both := h.value? silent.strings
  generalize a.value? mark = o, b.value? mark = o' at both
  cases both with
  | none => exact ⟨nofun, nofun⟩
  | some same =>
    rw [Option.some.injEq, Option.some.injEq]
    exact (same.mono strict).eq_iff refs.strings

theorem Trees.elementsWith {l l' : List Markup.Tree} (h : rn.Trees (fun _ => rn.Free) l l')
    {mark : String} (silent : rn.Silent mark.toList) (refs : rn.Refs r r') :
    List.Forall₂ (rn.Attributes fun _ => rn.Free) (Markup.elementsWithAll mark r.text l)
      (Markup.elementsWithAll mark r'.text l') := by
  induction h with
  | nil => exact .nil
  | @element _ _ a b _ _ _ _ tags attributes inside beside ihInside ihBeside =>
    rw [Markup.elementsWithAll, Markup.elementsWithAll, Markup.Tree.elementsWith,
      Markup.Tree.elementsWith]
    refine List.rel_append (List.rel_append ?_ ihInside) ihBeside
    have marked := attributes.marked silent (fun _ free => free) refs
    by_cases here : a.value? mark = some r.text
    · rw [if_pos here, if_pos (marked.1 here)]
      exact .cons attributes .nil
    · rw [if_neg here, if_neg (mt marked.2 here)]
      exact .nil
  | text data beside ih => exact ih
  | comment data beside ih => exact ih

variable (rn) in
/-- Parts of attribute values that are the same but for references. -/
inductive Parts : Part → Part → Prop
  | literal {text text' : String} (texts : rn.Strings rn.Free text text') :
    Parts (.literal text) (.literal text')
  | slot (index : Nat) : Parts (.slot index) (.slot index)

/-- A name that stands in a silent text. -/
def Named (rn : Renaming) (name name' : String) : Prop :=
  name = name' ∧ rn.Silent name.toList

theorem sharp_named : Sharp rn.Named := by
  rintro _ _ _ _ ⟨rfl, -⟩ ⟨rfl, -⟩
  rfl

variable (rn) in
/-- The attributes that are put together of one element. -/
def ElementPrograms (p p' : Programs) : Prop :=
  Entries rn.Named (fun _ => List.Forall₂ rn.Parts) p.entries p'.entries

theorem interleave_rel {pieces pieces' : List String}
    (h : List.Forall₂ (rn.Strings rn.Free) pieces pieces') (indexes : List Nat) :
    List.Forall₂ rn.Parts (Template.interleave pieces indexes)
      (Template.interleave pieces' indexes) := by
  induction h generalizing indexes with
  | nil => exact .nil
  | @cons piece piece' _ _ here _ ih =>
    have literal : List.Forall₂ rn.Parts (if piece.isEmpty then [] else [.literal piece])
        (if piece'.isEmpty then [] else [.literal piece']) := by
      rw [← here.isEmpty]
      split
      · exact .nil
      · exact .cons (.literal here) .nil
    cases indexes with
    | nil => exact List.rel_append literal (ih [])
    | cons index indexes => exact List.rel_append literal (.cons (.slot index) (ih indexes))

theorem program?_rel (refs : rn.Refs r r') {value value' : String}
    (values : rn.Strings rn.Free value value') {indexes : List Nat} {parts : List Part}
    (made : Template.program? r value indexes = some parts) :
    ∃ parts', Template.program? r' value' indexes = some parts' ∧
      List.Forall₂ rn.Parts parts parts' := by
  obtain ⟨k, given, rfl, rfl⟩ := refs
  have pieces : List.Forall₂ (rn.Strings rn.Free) (Text.pieces (Ref.mk (rn.old + k)).text value)
      (Text.pieces (Ref.mk (rn.new + k)).text value') := by
    unfold Text.pieces
    rw [List.forall₂_map_left_iff, List.forall₂_map_right_iff]
    exact (Texts.pieces_ref values given).imp fun _ _ same => same.strings
  unfold Template.program? at made ⊢
  dsimp only at made ⊢
  rw [← pieces.length_eq]
  split at made
  case isTrue count =>
    cases made
    rw [if_pos count]
    exact ⟨_, rfl, interleave_rel pieces indexes⟩
  case isFalse => cases made

/-- Two folds whose steps go well together. -/
theorem foldlM_rel {α α' β β' ε : Type} {E : α → α' → Prop} {R : β → β' → Prop}
    {f : β → α → Except ε β} {f' : β' → α' → Except ε β'}
    (step : ∀ a a' b b' c, E a a' → R b b' → f b a = .ok c → ∃ c', f' b' a' = .ok c' ∧ R c c')
    {l : List α} {l' : List α'} (h : List.Forall₂ E l l') {b c : β} {b' : β'} (start : R b b')
    (ok : l.foldlM f b = .ok c) : ∃ c', l'.foldlM f' b' = .ok c' ∧ R c c' := by
  induction h generalizing b b' with
  | nil =>
    cases ok
    exact ⟨b', rfl, start⟩
  | @cons a a' l l' here _ ih =>
    rw [List.foldlM_cons] at ok ⊢
    cases first : f b a with
    | error e =>
      rw [first] at ok
      cases ok
    | ok b₁ =>
      rw [first] at ok
      obtain ⟨b₁', first', related⟩ := step a a' b b' b₁ here start first
      rw [first']
      exact ih related ok

theorem elementPrograms_rel (refs : rn.Refs r r') {a b : Markup.Attributes}
    (attributes : rn.Attributes (fun _ => rn.Free) a b) {indexes indexes' : SlotIndexes}
    (same : rn.Indexes indexes indexes') {programs : Programs}
    (made : Template.elementPrograms r a indexes.entries = .ok programs) :
    ∃ programs', Template.elementPrograms r' b indexes'.entries = .ok programs' ∧
      rn.ElementPrograms programs programs' := by
  obtain ⟨rfl, silent⟩ := same
  rw [Template.Field.elementPrograms_eq] at made ⊢
  have entries : List.Forall₂ (fun e e' => e = e' ∧ rn.Silent e.1.toList) indexes.entries
      indexes.entries := List.forall₂_same.2 fun e he => ⟨rfl, silent e he⟩
  have start : rn.ElementPrograms .empty .empty := List.Forall₂.nil
  refine foldlM_rel ?_ entries start made
  rintro e _ before before' after ⟨rfl, name⟩ related ok
  have values := attributes.value? name.strings
  unfold Template.Field.addProgram at ok ⊢
  generalize a.value? e.1 = o, b.value? e.1 = o' at values ok
  cases values with
  | none => cases ok
  | @some value value' values =>
    rw [Option.bind_some] at ok ⊢
    cases made : Template.program? r value e.2 with
    | none =>
      rw [made] at ok
      cases ok
    | some parts =>
      rw [made] at ok
      cases ok
      obtain ⟨parts', made', partsRel⟩ := program?_rel refs values made
      rw [made']
      exact ⟨_, rfl, related.put sharp_named ⟨rfl, name⟩ partsRel⟩

variable (rn) in
/-- The attributes that are put together of all elements. -/
def AllPrograms (p p' : Ordered Ref Programs) : Prop :=
  Entries rn.Refs (fun _ => rn.ElementPrograms) p.entries p'.entries

theorem allPrograms_rel (named : rn.Silent config.refAttribute.toList) {l l' : List Markup.Tree}
    (trees : rn.Trees (fun _ => rn.Free) l l') {elements elements' : Ordered Ref SlotIndexes}
    (same : Entries rn.Refs (fun _ => rn.Indexes) elements.entries elements'.entries)
    {programs : Ordered Ref Programs}
    (made : Template.allPrograms config l elements.entries = .ok programs) :
    ∃ programs', Template.allPrograms config l' elements'.entries = .ok programs' ∧
      rn.AllPrograms programs programs' := by
  have start : rn.AllPrograms .empty .empty := List.Forall₂.nil
  refine foldlM_rel ?_ same start made
  rintro ⟨r, indexes⟩ ⟨r', indexes'⟩ before before' after ⟨refs, entries⟩ related ok
  have empty : indexes.isEmpty = indexes'.isEmpty := congrArg Ordered.isEmpty entries.1
  have found := trees.elementsWith named refs
  dsimp only at refs entries ok found ⊢
  rw [← empty]
  split at ok
  case isTrue none =>
    cases ok
    rw [if_pos none]
    exact ⟨_, rfl, related⟩
  case isFalse some =>
    rw [if_neg some]
    generalize Markup.elementsWithAll config.refAttribute r.text l = here,
      Markup.elementsWithAll config.refAttribute r'.text l' = there at found ok
    cases found with
    | nil => cases ok
    | @cons a b _ _ attributes _ =>
      rw [List.head?_cons] at ok ⊢
      dsimp only at ok ⊢
      obtain ⟨made, element, rfl⟩ := ok_of_map ok
      obtain ⟨made', element', programs⟩ := elementPrograms_rel refs attributes entries element
      rw [element']
      exact ⟨_, rfl, related.put sharp_refs refs programs⟩

/-! Descriptors. -/

variable (rn) in
/-- Compiled templates that are the same but for references. -/
structure Descriptors (d d' : Descriptor) : Prop where
  config : d.config = d'.config
  mark : rn.Silent d.config.refAttribute.toList
  fragment : rn.Trees (fun _ => rn.Free) d.fragment d'.fragment
  html : rn.Strings rn.Raw d.html d'.html
  slots : List.Forall₂ rn.Slots d.slots d'.slots
  programs : rn.AllPrograms d.programs d'.programs

theorem Shapes.ofShape {s s' : Shape} (h : rn.Shapes s s')
    (named : rn.Silent config.refAttribute.toList) {d : Descriptor}
    (compiled : Descriptor.ofShape config s = .ok d) :
    ∃ d', Descriptor.ofShape config s' = .ok d' ∧ rn.Descriptors d d' := by
  unfold Descriptor.ofShape at compiled ⊢
  split at compiled
  case h_1 => cases compiled
  case h_2 fragment parsed =>
    split at compiled
    case h_1 => cases compiled
    case h_2 programs assembled =>
      cases compiled
      obtain ⟨fragment', parsed', trees⟩ := h.html.parse parsed
      obtain ⟨programs', assembled', related⟩ := allPrograms_rel named trees h.elements assembled
      simp only [parsed', assembled']
      exact ⟨_, rfl, rfl, named, trees, h.html, h.slots, related⟩

end LiveMarkup.Renaming
