import LiveMarkup.Proofs.SlotNames
import LiveMarkup.Proofs.Entries

/-!
Allotment: which references a compiled template gives to its slots. The tokenizer numbers the start
tags, and the outlets for text take the numbers after those, so that nothing else has the reference of
such an outlet. A slot in a quoted attribute is a part of the program of that attribute, and programs
have no other slots as parts.
-/
namespace LiveMarkup.Template

namespace Scan
variable {s : Scan}

/-- The references that were given out have smaller numbers than the next one. -/
def Counts (s : Scan) : Prop :=
  ∀ r, s.ref = some r → r.number < s.nextRef

theorem Counts.of_same {t : Scan} (h : s.Counts) (ref : t.ref = s.ref)
    (nextRef : t.nextRef = s.nextRef) : t.Counts ∧ s.nextRef ≤ t.nextRef := by
  refine ⟨fun r hr => ?_, Nat.le_of_eq nextRef.symm⟩
  rw [nextRef]
  exact h r (ref ▸ hr)

theorem closeTag_same (s : Scan) (selfClosing : Bool) :
    (s.closeTag selfClosing).ref = s.ref ∧ (s.closeTag selfClosing).nextRef = s.nextRef := by
  unfold closeTag
  split
  · exact ⟨rfl, rfl⟩
  · exact ⟨rfl, rfl⟩

theorem inner_same (s : Scan) (c : Char) :
    (s.inner c).ref = s.ref ∧ (s.inner c).nextRef = s.nextRef := by
  unfold inner
  grind [closeTag_same]

/-- A character gives out a reference only if it opens a start tag. By cases on the place. -/
theorem advance_same (s : Scan) (c : Char) :
    (s.advance c).ref = s.ref ∧ (s.advance c).nextRef = s.nextRef ∨ s.advance c = s.openTag c := by
  unfold advance
  cases s.place with
  | tagOpen => grind
  | _ =>
    left
    simp only
    grind [closeTag_same, inner_same, endName, endAttribute]

theorem advance_counts (h : s.Counts) (c : Char) :
    (s.advance c).Counts ∧ s.nextRef ≤ (s.advance c).nextRef := by
  rcases s.advance_same c with ⟨ref, nextRef⟩ | opened
  · exact h.of_same ref nextRef
  · rw [opened]
    refine ⟨fun r hr => ?_, Nat.le_succ _⟩
    cases hr
    exact Nat.lt_succ_self _

/-- By recursion on the characters. -/
theorem feed_counts (h : s.Counts) (chars : List Char) :
    (s.feed chars).Counts ∧ s.nextRef ≤ (s.feed chars).nextRef := by
  fun_induction feed s chars with
  | case1 s => exact ⟨h, Nat.le_refl _⟩
  | case2 s c rest _ ih => exact ih h
  | case3 s c rest _ ih =>
    obtain ⟨counts, le⟩ := advance_counts h c
    obtain ⟨counts', le'⟩ := ih counts
    exact ⟨counts', Nat.le_trans le le'⟩

theorem slotToken_counts (h : s.Counts) (config : Config) (chunk : String) :
    (s.slotToken config chunk).1.ref = s.ref ∧
      (s.slotToken config chunk).2.Counts ∧ (s.slotToken config chunk).2.nextRef = s.nextRef := by
  have same : s.atSlot.ref = s.ref ∧ s.atSlot.nextRef = s.nextRef := by
    unfold atSlot
    split
    · exact ⟨rfl, rfl⟩
    · exact ⟨rfl, rfl⟩
  obtain ⟨ref, nextRef⟩ := same
  obtain ⟨counts, -⟩ := h.of_same ref nextRef
  unfold slotToken
  dsimp only
  split
  · exact ⟨ref, counts, nextRef⟩
  · exact ⟨ref, counts, nextRef⟩

/-- By recursion on the chunks. -/
theorem tokens_counts (h : s.Counts) (config : Config) (chunks : List String) :
    s.nextRef ≤ (s.tokens config chunks).2 ∧
      ∀ t ∈ (s.tokens config chunks).1, ∀ r, t.ref = some r →
        r.number < (s.tokens config chunks).2 := by
  induction chunks generalizing s with
  | nil => exact ⟨Nat.le_refl _, fun t ht => nomatch ht⟩
  | cons chunk rest ih =>
    have next : s.nextChunk.Counts := h
    obtain ⟨fed, le⟩ := feed_counts next chunk.toList
    cases rest with
    | nil =>
      refine ⟨le, fun t ht r hr => ?_⟩
      cases List.mem_singleton.1 ht
      exact fed r hr
    | cons chunk' rest =>
      obtain ⟨ref, counts, nextRef⟩ := slotToken_counts fed config chunk
      obtain ⟨le', all⟩ := ih counts
      rw [nextRef] at le'
      refine ⟨Nat.le_trans le le', fun t ht r hr => ?_⟩
      rcases List.mem_cons.1 ht with rfl | ht
      · exact Nat.lt_of_lt_of_le (fed r (ref ▸ hr)) le'
      · exact all t ht r hr

end Scan

theorem tokenize_counts (config : Config) (nextRef : Nat) (chunks : List String) :
    ∀ t ∈ (tokenize config nextRef chunks).1, ∀ r, t.ref = some r →
      r.number < (tokenize config nextRef chunks).2 := by
  have start : (Scan.start nextRef).Counts := fun r hr => nomatch hr
  exact (Scan.tokens_counts start config chunks).2

/-! Shapes. -/

/-- Neither of two slots has the reference of the other if that is an outlet for text. -/
def Slot.Apart (a b : Slot) : Prop :=
  a.isOutlet = true ∨ b.isOutlet = true → a.ref ≠ b.ref

/-- An index is recorded with an attribute of an element. -/
def Recorded (elements : Ordered Ref SlotIndexes) (r : Ref) (name : String) (i : Nat) : Prop :=
  ∃ a l, elements.get? r = some a ∧ a.get? name = some l ∧ i ∈ l

theorem recorded_add (s : Shape) (index : Nat) (p : Placement) (r : Ref) (name : String) (i : Nat) :
    Recorded (s.add index p).elements r name i ↔ Recorded s.elements r name i ∨
      i = index ∧ p.slot.ref = r ∧ p.recorded = some name := by
  let old := (s.elements.get? p.slot.ref).getD .empty
  have before : (∃ l, old.get? name = some l ∧ i ∈ l) ↔
      Recorded s.elements p.slot.ref name i := by
    unfold Recorded old
    cases s.elements.get? p.slot.ref with
    | none => simp [Ordered.get?, Ordered.find?, Ordered.empty]
    | some a => simp
  by_cases here : p.slot.ref = r
  case neg =>
    have same : (s.add index p).elements.get? r = s.elements.get? r :=
      Ordered.get?_insert_of_ne _ (Ne.symm here) _
    simp [Recorded, same, here]
  case pos =>
    subst here
    rw [← before]
    unfold Recorded Shape.add
    simp only [Ordered.get?_insert_self, Option.some.injEq, exists_and_left, exists_eq_left', true_and]
    cases p.recorded with
    | none => simp [old]
    | some name' =>
      by_cases hn : name = name'
      · subst hn
        cases hl : old.get? name with
        | none => simp [old] at hl; simp [hl]
        | some l => simp [old] at hl; simp [hl]
      · simp only [Ordered.get?_insert_of_ne _ hn, Option.some.injEq, Ne.symm hn, and_false, or_false, old]

/-- The references of slots: those of outlets are `low` or later, and all others are earlier. A quoted
attribute is recorded with its element, with just those slots that are part of it, each one once. -/
structure Shape.Allotted (low nextRef : Nat) (s : Shape) : Prop where
  apart : s.slots.Pairwise Slot.Apart
  outlets : ∀ slot ∈ s.slots, slot.isOutlet = true → low ≤ slot.ref.number
  others : ∀ slot ∈ s.slots, slot.isOutlet = false → slot.ref.number < low
  used : ∀ slot ∈ s.slots, slot.ref.number < nextRef
  recorded : ∀ r name i, Recorded s.elements r name i ↔
    ∃ slot, s.slots[i]? = some slot ∧ slot.ref = r ∧ slot.quoted? = some name
  once : ∀ r a name l, s.elements.get? r = some a → a.get? name = some l → l.Nodup

namespace Shape.Allotted
variable {low nextRef : Nat} {s s' : Shape}

theorem once_add (h : s.Allotted low nextRef) {p : Placement} {r : Ref} {a : SlotIndexes} {name : String}
    {l : List Nat} (ha : (s.add s.slots.length p).elements.get? r = some a)
    (hl : a.get? name = some l) : l.Nodup := by
  by_cases here : r = p.slot.ref
  case neg =>
    have same : (s.add s.slots.length p).elements.get? r = s.elements.get? r :=
      Ordered.get?_insert_of_ne _ here _
    exact h.once r a name l (same ▸ ha) hl
  case pos =>
    subst here
    have old : ∀ name l, ((s.elements.get? p.slot.ref).getD .empty).get? name = some l →
        l.Nodup ∧ s.slots.length ∉ l := by
      intro name l hl
      cases ha : s.elements.get? p.slot.ref with
      | none =>
        rw [ha] at hl
        cases hl
      | some a =>
        rw [ha] at hl
        refine ⟨h.once _ a name l ha hl, fun mem => ?_⟩
        obtain ⟨slot, hs, -⟩ := (h.recorded _ name _).1 ⟨a, l, ha, hl, mem⟩
        simp at hs
    unfold Shape.add at ha
    rw [Ordered.get?_insert_self] at ha
    obtain rfl := Option.some.inj ha
    cases recorded : p.recorded with
    | none =>
      simp only [recorded] at hl
      exact (old name l hl).1
    | some name' =>
      simp only [recorded] at hl
      by_cases same : name = name'
      · subst same
        rw [Ordered.get?_insert_self] at hl
        obtain rfl := Option.some.inj hl
        cases found : ((s.elements.get? p.slot.ref).getD .empty).get? name with
        | none => simp
        | some l =>
          obtain ⟨nodup, new⟩ := old name l found
          rw [Option.getD_some]
          exact List.nodup_append.2 ⟨nodup, List.pairwise_singleton _ _, fun i hi j hj same =>
            new (List.mem_singleton.1 hj ▸ same ▸ hi)⟩
      · rw [Ordered.get?_insert_of_ne _ same] at hl
        exact (old name l hl).1

theorem add (h : s.Allotted low nextRef) {nextRef' : Nat} (le : nextRef ≤ nextRef') {p : Placement}
    (recorded : p.recorded = p.slot.quoted?)
    (outlet : p.slot.isOutlet = true → low ≤ p.slot.ref.number ∧ nextRef ≤ p.slot.ref.number)
    (other : p.slot.isOutlet = false → p.slot.ref.number < low)
    (used : p.slot.ref.number < nextRef') : (s.add s.slots.length p).Allotted low nextRef' := by
  have each : ∀ {P : Slot → Prop}, (∀ slot ∈ s.slots, P slot) → P p.slot →
      ∀ slot ∈ s.slots ++ [p.slot], P slot := by
    intro P old new slot hs
    rcases List.mem_append.1 hs with hs | hs
    · exact old slot hs
    · exact List.mem_singleton.1 hs ▸ new
  refine ⟨?_, each h.outlets fun ho => (outlet ho).1, each h.others other,
    each (fun slot hs => Nat.lt_of_lt_of_le (h.used slot hs) le) used, fun r name i => ?_,
    fun r a name l ha hl => h.once_add ha hl⟩
  · refine List.pairwise_append.2 ⟨h.apart, List.pairwise_singleton _ _, fun a ha b hb => ?_⟩
    cases List.mem_singleton.1 hb
    intro either same
    cases kind : p.slot.isOutlet with
    | true =>
      have := h.used a ha
      have := (outlet kind).2
      rw [same] at *
      omega
    | false =>
      have := h.outlets a ha (either.resolve_right (by simp [kind]))
      have := other kind
      rw [same] at *
      omega
  · rw [recorded_add, h.recorded, recorded]
    show _ ↔ ∃ slot, (s.slots ++ [p.slot])[i]? = some slot ∧ _
    rcases Nat.lt_trichotomy i s.slots.length with lt | eq | gt
    · simp [List.getElem?_append_left lt, Nat.ne_of_lt lt]
    · subst eq
      simp
    · have none : (s.slots ++ [p.slot])[i]? = none := by
        refine List.getElem?_eq_none ?_
        simp only [List.length_append, List.length_singleton]
        omega
      simp [none, List.getElem?_eq_none (Nat.le_of_lt gt), Nat.ne_of_gt gt]

/-- By recursion on the tokens. -/
theorem build (config : Config) (h : s.Allotted low nextRef) (le : low ≤ nextRef)
    {tokens : List Token} (counts : ∀ t ∈ tokens, ∀ r, t.ref = some r → r.number < low)
    (built : (Shape.build config nextRef s tokens).1 = .ok s') : ∃ n, s'.Allotted low n := by
  induction tokens generalizing nextRef s with
  | nil =>
    cases built
    exact ⟨nextRef, h⟩
  | cons t rest ih =>
    cases rest with
    | nil =>
      cases built
      exact ⟨nextRef, h.apart, h.outlets, h.others, h.used, h.recorded, h.once⟩
    | cons t' rest =>
      obtain ⟨here, later⟩ := List.forall_mem_cons.1 counts
      unfold Shape.build at built
      dsimp only at built
      split at built
      case h_2 => cases built
      case h_1 p placed =>
        obtain ⟨recorded, cases⟩ := place_cases placed
        have grown : ({ s with html := s.html ++ t.html } : Shape).Allotted low nextRef :=
          ⟨h.apart, h.outlets, h.others, h.used, h.recorded, h.once⟩
        rcases cases with ⟨outer, outlet⟩ | ⟨inside, other, ref⟩
        · rw [if_pos outer] at built
          refine ih (grown.add (Nat.le_succ _) recorded ?_ ?_ ?_) (Nat.le_succ_of_le le) later built
          · rw [outlet]
            exact fun _ => ⟨le, Nat.le_refl _⟩
          · rw [outlet]
            exact fun no => absurd no (by simp [Slot.isOutlet])
          · rw [outlet]
            exact Nat.lt_succ_self _
        · rw [if_neg inside] at built
          have low := here _ ref
          refine ih (grown.add (Nat.le_refl _) recorded ?_ (fun _ => low) ?_) le later built
          · exact fun yes => absurd yes (by simp [other])
          · exact Nat.lt_of_lt_of_le low le

end Shape.Allotted

theorem allotted_of_parse {config : Config} {nextRef : Nat} {chunks : List String} {s : Shape}
    (parsed : (Shape.parse config nextRef chunks).1 = .ok s) :
    ∃ n, s.Allotted (tokenize config nextRef chunks).2 n := by
  have empty : Shape.empty.Allotted (tokenize config nextRef chunks).2
      (tokenize config nextRef chunks).2 := by
    refine ⟨.nil, ?_, ?_, ?_, fun r name i => ?_, fun r a name l ha => nomatch ha⟩
    · exact fun slot hs => nomatch hs
    · exact fun slot hs => nomatch hs
    · exact fun slot hs => nomatch hs
    · simp [Recorded, Shape.empty, Ordered.get?, Ordered.find?, Ordered.empty]
  have counts := tokenize_counts config nextRef chunks
  exact empty.build config (Nat.le_refl _) counts parsed

/-! Programs. -/

theorem mem_interleave {pieces : List String} {indexes : List Nat} {i : Nat}
    (count : pieces.length = indexes.length + 1) :
    .slot i ∈ interleave pieces indexes ↔ i ∈ indexes := by
  induction indexes generalizing pieces with
  | nil =>
    obtain ⟨piece, rfl⟩ := List.length_eq_one_iff.1 count
    simp [interleave]
  | cons index indexes ih =>
    cases pieces with
    | nil => simp at count
    | cons piece pieces =>
      have rest : .slot i ∈ interleave pieces indexes ↔ i ∈ indexes := ih (by simpa using count)
      simp [interleave, rest]

theorem mem_program? {r : Ref} {value : String} {indexes : List Nat} {parts : List Part}
    (h : program? r value indexes = some parts) (i : Nat) : .slot i ∈ parts ↔ i ∈ indexes := by
  unfold program? at h
  dsimp only at h
  split at h
  case isTrue count =>
    cases h
    exact mem_interleave count
  case isFalse => cases h

/-- A fold that writes something good at the key of every entry, other than those that it skips. -/
theorem foldlM_insert {κ ν α ε : Type} [BEq κ] [LawfulBEq κ] (skips : α → Prop)
    (good : κ × α → ν → Prop) {step : Ordered κ ν → κ × α → Except ε (Ordered κ ν)}
    (steps : ∀ m e m', step m e = .ok m' →
      skips e.2 ∧ m' = m ∨ ∃ v, good e v ∧ m' = m.insert e.1 v) {l : List (κ × α)}
    (distinct : l.Pairwise fun a b => (a.1 == b.1) = false) {m m' : Ordered κ ν}
    (h : l.foldlM step m = .ok m') :
    (∀ e ∈ l, skips e.2 ∨ ∃ v, good e v ∧ m'.get? e.1 = some v) ∧
      (∀ p ∈ m'.entries, p ∈ m.entries ∨ ∃ a, (p.1, a) ∈ l ∧ good (p.1, a) p.2) ∧
        ∀ k, (∀ e ∈ l, e.1 ≠ k) → m'.get? k = m.get? k := by
  induction l generalizing m with
  | nil =>
    cases h
    exact ⟨fun e he => (List.not_mem_nil he).elim, fun p hp => .inl hp, fun _ _ => rfl⟩
  | cons e l ih =>
    obtain ⟨apart, rest⟩ := List.pairwise_cons.1 distinct
    rw [List.foldlM_cons] at h
    cases first : step m e with
    | error fault =>
      rw [first] at h
      cases h
    | ok m₁ =>
      rw [first] at h
      obtain ⟨written, source, same⟩ := ih rest h
      have later : m'.get? e.1 = m₁.get? e.1 :=
        same e.1 fun e' he' eq => by simpa [eq] using apart e' he'
      rcases steps m e m₁ first with ⟨skip, rfl⟩ | ⟨v, hv, rfl⟩
      · refine ⟨fun e' he' => ?_, fun p hp => ?_, fun k hk => same k fun e' he' =>
          hk e' (List.mem_cons_of_mem e he')⟩
        · rcases List.mem_cons.1 he' with rfl | he'
          · exact .inl skip
          · exact written e' he'
        · exact (source p hp).imp_right fun ⟨a, mem, ha⟩ => ⟨a, List.mem_cons_of_mem e mem, ha⟩
      · refine ⟨fun e' he' => ?_, fun p hp => ?_, fun k hk => ?_⟩
        · rcases List.mem_cons.1 he' with rfl | he'
          · exact .inr ⟨v, hv, by rw [later, Ordered.get?_insert_self]⟩
          · exact written e' he'
        · rcases source p hp with hp | ⟨a, mem, ha⟩
          · rcases Ordered.mem_insert hp with rfl | hp
            · exact .inr ⟨e.2, List.mem_cons_self, hv⟩
            · exact .inl hp
          · exact .inr ⟨a, List.mem_cons_of_mem e mem, ha⟩
        · obtain ⟨ne, others⟩ := List.forall_mem_cons.1 hk
          rw [same k others, Ordered.get?_insert_of_ne _ (Ne.symm ne)]

/-- The programs of an element are those of the attributes that are recorded with it. -/
theorem elementPrograms_get {r : Ref} {attributes : Markup.Attributes} {indexes : SlotIndexes}
    {programs : Programs} (h : elementPrograms r attributes indexes.entries = .ok programs) :
    (∀ e ∈ indexes.entries, ∃ parts, (attributes.value? e.1).bind (program? r · e.2) = some parts ∧
        programs.get? e.1 = some parts) ∧
      ∀ p ∈ programs.entries, ∃ l, (p.1, l) ∈ indexes.entries ∧
        (attributes.value? p.1).bind (program? r · l) = some p.2 := by
  obtain ⟨entries, distinct⟩ := indexes
  cases entries with
  | nil =>
    cases h
    exact ⟨fun e he => (List.not_mem_nil he).elim, fun p hp => (List.not_mem_nil hp).elim⟩
  | cons entry rest =>
    unfold elementPrograms at h
    have fold := foldlM_insert (fun _ => False)
      (fun (e : String × List Nat) (parts : List Part) =>
        (attributes.value? e.1).bind (program? r · e.2) = some parts)
      (fun m e m' step => ?_) distinct h
    case refine_1 =>
      obtain ⟨name, l⟩ := e
      dsimp only at step
      split at step
      case h_1 parts made =>
        cases step
        exact .inr ⟨parts, made, rfl⟩
      case h_2 => cases step
    obtain ⟨written, source, -⟩ := fold
    exact ⟨fun e he => (written e he).resolve_left id,
      fun p hp => (source p hp).resolve_left List.not_mem_nil⟩

/-- The programs are those of the elements that something is recorded with. -/
theorem allPrograms_get {config : Config} {fragment : List Markup.Tree}
    {elements : Ordered Ref SlotIndexes} {programs : Ordered Ref Programs}
    (h : allPrograms config fragment elements.entries = .ok programs) :
    (∀ e ∈ elements.entries, e.2.entries ≠ [] → ∃ own attributes,
        (Markup.elementsWithAll config.refAttribute e.1.text fragment).head? = some attributes ∧
        elementPrograms e.1 attributes e.2.entries = .ok own ∧ programs.get? e.1 = some own) ∧
      ∀ p ∈ programs.entries, ∃ indexes attributes, (p.1, indexes) ∈ elements.entries ∧
        indexes.entries ≠ [] ∧ elementPrograms p.1 attributes indexes.entries = .ok p.2 := by
  unfold allPrograms at h
  have fold := foldlM_insert (fun indexes : SlotIndexes => indexes.entries = [])
    (fun e own => e.2.entries ≠ [] ∧ ∃ attributes,
      (Markup.elementsWithAll config.refAttribute e.1.text fragment).head? = some attributes ∧
      elementPrograms e.1 attributes e.2.entries = .ok own)
    (fun m e m' step => ?_) elements.distinct h
  case refine_1 =>
    obtain ⟨r, indexes⟩ := e
    dsimp only at step
    split at step
    case isTrue empty =>
      cases step
      exact .inl ⟨List.isEmpty_iff.1 empty, rfl⟩
    case isFalse some =>
      have some : indexes.entries ≠ [] := fun none => some (List.isEmpty_iff.2 none)
      split at step
      · cases step
      case h_2 attributes found =>
        cases made : elementPrograms r attributes indexes.entries with
        | error fault =>
          rw [made] at step
          cases step
        | ok programs =>
          rw [made] at step
          cases step
          exact .inr ⟨programs, ⟨some, attributes, found, made⟩, rfl⟩
  obtain ⟨written, source, -⟩ := fold
  refine ⟨fun e he some => ?_, fun p hp => ?_⟩
  · obtain ⟨own, ⟨-, attributes, found, made⟩, get⟩ := (written e he).resolve_left some
    exact ⟨own, attributes, found, made, get⟩
  · obtain ⟨indexes, mem, some, attributes, -, made⟩ := (source p hp).resolve_left List.not_mem_nil
    exact ⟨indexes, attributes, mem, some, made⟩

/-- The programs of an element belong to the attributes that are recorded with it. -/
def Matches (indexes : SlotIndexes) (programs : Programs) : Prop :=
  (∀ e ∈ indexes.entries, ∃ p ∈ programs.entries, ∀ i, .slot i ∈ p.2 ↔ i ∈ e.2) ∧
    ∀ p ∈ programs.entries, ∃ e ∈ indexes.entries, ∀ i, .slot i ∈ p.2 ↔ i ∈ e.2

theorem matches_of_elementPrograms {r : Ref} {attributes : Markup.Attributes} {indexes : SlotIndexes}
    {programs : Programs} (h : elementPrograms r attributes indexes.entries = .ok programs) :
    Matches indexes programs := by
  obtain ⟨written, source⟩ := elementPrograms_get h
  have same : ∀ {name l parts}, (attributes.value? name).bind (program? r · l) = some parts →
      ∀ i, .slot i ∈ parts ↔ i ∈ l := by
    intro name l parts made
    obtain ⟨value, -, program⟩ := Option.bind_eq_some_iff.1 made
    exact mem_program? program
  refine ⟨fun e he => ?_, fun p hp => ?_⟩
  · obtain ⟨parts, made, found⟩ := written e he
    exact ⟨(e.1, parts), Ordered.mem_of_get? found, same made⟩
  · obtain ⟨l, mem, made⟩ := source p hp
    exact ⟨(p.1, l), mem, same made⟩

/-- Every element with quoted attributes has its programs, and no other programs there are. -/
theorem matches_of_allPrograms {config : Config} {fragment : List Markup.Tree}
    {elements : Ordered Ref SlotIndexes} {programs : Ordered Ref Programs}
    (h : allPrograms config fragment elements.entries = .ok programs) :
    (∀ e ∈ elements.entries, e.2.entries ≠ [] →
      ∃ p ∈ programs.entries, Matches e.2 p.2) ∧
      ∀ p ∈ programs.entries, ∃ e ∈ elements.entries, e.2.entries ≠ [] ∧ Matches e.2 p.2 := by
  obtain ⟨written, source⟩ := allPrograms_get h
  refine ⟨fun e he some => ?_, fun p hp => ?_⟩
  · obtain ⟨own, attributes, -, made, found⟩ := written e he some
    exact ⟨(e.1, own), Ordered.mem_of_get? found, matches_of_elementPrograms made⟩
  · obtain ⟨indexes, attributes, mem, some, made⟩ := source p hp
    exact ⟨(p.1, indexes), mem, some, matches_of_elementPrograms made⟩

/-- The slots of a template: an outlet for text has its reference to itself, every program is that of
the element of some other slot, and the parts of programs are the slots in quoted attributes. -/
structure Descriptor.Allotted (d : Descriptor) : Prop where
  apart : d.slots.Pairwise Slot.Apart
  outlets : ∀ a ∈ d.slots, a.isOutlet = true → ∀ b ∈ d.slots, b.isOutlet = false → a.ref ≠ b.ref
  programs : ∀ e ∈ d.programs.entries, ∃ slot ∈ d.slots, slot.ref = e.1 ∧ slot.isOutlet = false
  parts : ∀ e ∈ d.programs.entries, ∀ p ∈ e.2.entries, ∀ i, .slot i ∈ p.2 →
    ∃ slot name, d.slots[i]? = some slot ∧ slot.quoted? = some name
  quoted : ∀ i slot name, d.slots[i]? = some slot → slot.quoted? = some name →
    ∃ e ∈ d.programs.entries, ∃ p ∈ e.2.entries, .slot i ∈ p.2

theorem allotted_of_compile {config : Config} (colon : ':' ∈ config.refAttribute.toList)
    {nextRef : Nat} {chunks : List String} {d : Descriptor}
    (compiled : (Descriptor.compile config nextRef chunks).1 = .ok d) : d.Allotted := by
  obtain ⟨-, supplied⟩ := supplied_of_compile colon compiled
  obtain ⟨s, parsed, -, assembled, eq⟩ := shape_of_compile compiled
  obtain ⟨n, allotted⟩ := allotted_of_parse parsed
  obtain ⟨written, source⟩ := matches_of_allPrograms assembled
  have slots : d.slots = s.slots := congrArg Descriptor.slots eq
  refine ⟨slots ▸ allotted.apart, fun a ha outlet b hb other same => ?_, fun e he => ?_,
    fun e he p hp i hi => ?_, fun i slot name hs hn => ?_⟩
  · have after := allotted.outlets a (slots ▸ ha) outlet
    rw [same] at after
    exact absurd (allotted.others b (slots ▸ hb) other) (Nat.not_lt.2 after)
  · obtain ⟨⟨r, indexes⟩, -, some, same⟩ := source e he
    obtain ⟨entry, mem⟩ := List.exists_mem_of_ne_nil _ some
    obtain ⟨p, hp, -⟩ := same.1 entry mem
    obtain ⟨quote, slot⟩ := supplied.programs e he p hp
    exact ⟨_, slot, rfl, rfl⟩
  · obtain ⟨⟨r, indexes⟩, mem, -, same⟩ := source e he
    obtain ⟨⟨name, l⟩, hl, parts⟩ := same.2 p hp
    have recorded : Recorded s.elements r name i :=
      ⟨indexes, l, Ordered.get?_of_mem mem, Ordered.get?_of_mem hl, (parts i).1 hi⟩
    obtain ⟨slot, hs, -, hn⟩ := (allotted.recorded r name i).1 recorded
    exact ⟨slot, name, slots ▸ hs, hn⟩
  · rw [slots] at hs
    obtain ⟨a, l, ha, hl, hi⟩ := (allotted.recorded slot.ref name i).2 ⟨slot, hs, rfl, hn⟩
    have entry := Ordered.mem_of_get? hl
    obtain ⟨e, he, same⟩ := written _ (Ordered.mem_of_get? ha) (List.ne_nil_of_mem entry)
    obtain ⟨p, hp, parts⟩ := same.1 _ entry
    exact ⟨e, he, p, hp, (parts i).2 hi⟩

end LiveMarkup.Template
