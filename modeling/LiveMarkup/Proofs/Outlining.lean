import LiveMarkup.Proofs.Allotment

/-!
Outlining: how the parts of a shape agree. The slots, the records of the elements and the markup are
put together side by side, one token after another. Every slot enters its reference among the
elements, a slot in a quoted attribute enters its index as well, and the markup that stands for a
slot comes right behind its token.
-/
namespace LiveMarkup

theorem Ordered.mem_keys_insert {κ ν : Type} [BEq κ] [LawfulBEq κ] (m : Ordered κ ν) (k : κ) (v : ν)
    (j : κ) : j ∈ (m.insert k v).keys ↔ j = k ∨ j ∈ m.keys := by
  cases old : m.get? k with
  | none =>
    have new : k ∉ m.keys := by
      intro h
      obtain ⟨e, he, rfl⟩ := List.mem_map.1 h
      rw [get?_of_mem he] at old
      cases old
    rw [keys_insert new, List.mem_append, List.mem_singleton, or_comm]
  | some v' =>
    have here : k ∈ m.keys := List.mem_map.2 ⟨(k, v'), mem_of_get? old, rfl⟩
    rw [keys_insert_of_get? old]
    refine ⟨.inr, fun h => h.elim ?_ id⟩
    rintro rfl
    exact here

namespace Template

/-- The markup that stands for a slot. -/
def Slot.insertion (config : Config) : Slot → String
  | .attr _ quote r => if quote = .none then "\"\"" else r.text
  | .directive _ _ _ => "\"\""
  | .component _ => ""
  | .node r => outlet config r

theorem insertion_of_placeValue (config : Config) {t : Token} {r : Ref} {p : Placement}
    (h : placeValue t r = .ok p) : p.insertion = p.slot.insertion config := by
  unfold placeValue at h
  grind [Slot.insertion]

theorem insertion_of_place {config : Config} {index : Nat} {fresh : Ref} {t : Token} {p : Placement}
    (h : place config index fresh t = .ok p) : p.insertion = p.slot.insertion config := by
  unfold place at h
  split at h
  · cases h
    rfl
  · split at h
    · cases h
    · split at h
      · cases h
      · split at h
        · cases h
          rfl
        · split at h
          · cases h
          · exact insertion_of_placeValue config h

/-- The markup of tokens, with what stands for the slot behind each of them. -/
def interlaced (config : Config) : List Token → List Slot → String
  | [], _ => ""
  | t :: tokens, [] => t.html ++ interlaced config tokens []
  | t :: tokens, slot :: slots => t.html ++ slot.insertion config ++ interlaced config tokens slots

namespace Shape

/-- The indexes that are recorded with an attribute of an element. -/
def indexes (s : Shape) (r : Ref) (name : String) : List Nat :=
  ((s.elements.get? r).bind (·.get? name)).getD []

theorem indexes_add (s : Shape) (index : Nat) (p : Placement) (r : Ref) (name : String) :
    (s.add index p).indexes r name =
      if p.slot.ref = r ∧ p.recorded = some name then s.indexes r name ++ [index]
      else s.indexes r name := by
  by_cases here : p.slot.ref = r
  case neg =>
    have same : (s.add index p).elements.get? r = s.elements.get? r :=
      Ordered.get?_insert_of_ne _ (Ne.symm here) _
    unfold indexes
    rw [same, if_neg fun h => here h.1]
  case pos =>
    subst here
    have old : s.indexes p.slot.ref name =
        (((s.elements.get? p.slot.ref).getD .empty).get? name).getD [] := by
      unfold indexes
      cases s.elements.get? p.slot.ref with
      | none => rfl
      | some a => rfl
    rw [old]
    unfold indexes add
    simp only [Ordered.get?_insert_self, Option.bind_some, true_and]
    cases p.recorded with
    | none => rw [if_neg nofun]
    | some name' =>
      by_cases same : name' = name
      · subst same
        rw [if_pos rfl, Ordered.get?_insert_self, Option.getD_some]
      · rw [if_neg fun h => same (Option.some.inj h), Ordered.get?_insert_of_ne _ (Ne.symm same)]

/-- What the elements of a shape record of its slots: the references of all, and the indexes of those
in quoted attributes in ascending order. -/
structure Records (s : Shape) : Prop where
  keys : ∀ r, r ∈ s.elements.keys ↔ ∃ slot ∈ s.slots, slot.ref = r
  recorded : ∀ r name i,
    i ∈ s.indexes r name ↔ ∃ quote, quote ≠ .none ∧ s.slots[i]? = some (.attr name quote r)
  ascending : ∀ r name, (s.indexes r name).Pairwise (· < ·)

theorem recorded_iff {slot : Slot} {name : String} {r : Ref} :
    slot.ref = r ∧ slot.quoted? = some name ↔
      ∃ quote, quote ≠ .none ∧ slot = .attr name quote r := by
  constructor
  · rintro ⟨rfl, quoted⟩
    obtain ⟨quote, eq⟩ := attr_of_quoted quoted
    refine ⟨quote, ?_, eq⟩
    rintro rfl
    rw [eq] at quoted
    cases quoted
  · rintro ⟨quote, quoted, rfl⟩
    exact ⟨rfl, if_neg quoted⟩

namespace Records
variable {s s' : Shape}

theorem empty : Records .empty where
  keys r := by simp [Shape.empty, Ordered.keys, Ordered.empty]
  recorded r name i := by simp [indexes, Shape.empty, Ordered.get?, Ordered.find?, Ordered.empty]
  ascending r name := List.Pairwise.nil

theorem of_same (h : Records s) (slots : s'.slots = s.slots) (elements : s'.elements = s.elements) :
    Records s' := by
  obtain ⟨html', slots', elements'⟩ := s'
  obtain rfl : slots' = s.slots := slots
  obtain rfl : elements' = s.elements := elements
  exact ⟨h.keys, h.recorded, h.ascending⟩

theorem lt_of_mem (h : Records s) {r : Ref} {name : String} {i : Nat}
    (hi : i ∈ s.indexes r name) : i < s.slots.length := by
  obtain ⟨quote, -, slot⟩ := (h.recorded r name i).1 hi
  exact (List.getElem?_eq_some_iff.1 slot).1

/-- The next slot keeps the records: its index is that of no slot before it. -/
theorem add (h : Records s) {p : Placement} (recorded : p.recorded = p.slot.quoted?) :
    Records (s.add s.slots.length p) where
  keys r := by
    refine (Ordered.mem_keys_insert _ _ _ r).trans ?_
    rw [h.keys]
    show _ ↔ ∃ slot ∈ s.slots ++ [p.slot], slot.ref = r
    grind
  recorded r name i := by
    have new : i ∈ (s.add s.slots.length p).indexes r name ↔ i ∈ s.indexes r name ∨
        i = s.slots.length ∧ ∃ quote, quote ≠ .none ∧ p.slot = .attr name quote r := by
      rw [indexes_add, recorded, ← recorded_iff]
      split
      case isTrue here => simp [here]
      case isFalse other => simp [other]
    rw [new, h.recorded]
    show _ ↔ ∃ quote, quote ≠ .none ∧ (s.slots ++ [p.slot])[i]? = some (.attr name quote r)
    rcases Nat.lt_trichotomy i s.slots.length with lt | rfl | gt
    · simp [List.getElem?_append_left lt, Nat.ne_of_lt lt]
    · simp
    · have none : (s.slots ++ [p.slot])[i]? = none := by
        refine List.getElem?_eq_none ?_
        simp only [List.length_append, List.length_singleton]
        omega
      simp [none, List.getElem?_eq_none (Nat.le_of_lt gt), Nat.ne_of_gt gt]
  ascending r name := by
    rw [indexes_add]
    split
    · refine List.pairwise_append.2 ⟨h.ascending r name, List.pairwise_singleton _ _, ?_⟩
      intro i hi j hj
      cases List.mem_singleton.1 hj
      exact h.lt_of_mem hi
    · exact h.ascending r name

end Records

variable {config : Config} {s s' : Shape}

/-- What the tokens that are left add to a shape. By recursion on the tokens. -/
theorem build_adds (nextRef : Nat) {tokens : List Token} (records : Records s)
    (built : (build config nextRef s tokens).1 = .ok s') :
    Records s' ∧ ∃ slots, slots.length = tokens.length - 1 ∧ s'.slots = s.slots ++ slots ∧
      s'.html = s.html ++ interlaced config tokens slots := by
  induction tokens generalizing nextRef s with
  | nil =>
    cases built
    exact ⟨records, [], rfl, (List.append_nil _).symm, by simp [interlaced]⟩
  | cons t rest ih =>
    cases rest with
    | nil =>
      cases built
      exact ⟨records.of_same rfl rfl, [], rfl, (List.append_nil _).symm, by simp [interlaced]⟩
    | cons t' rest =>
      unfold build at built
      dsimp only at built
      split at built
      case h_2 => cases built
      case h_1 p placed =>
        have written : Records { s with html := s.html ++ t.html } := records.of_same rfl rfl
        obtain ⟨after, slots, count, more, html⟩ := ih _ (written.add (place_cases placed).1) built
        refine ⟨after, p.slot :: slots, ?_, ?_, ?_⟩
        · simp [count]
        · simp [more, add]
        · simp [html, add, insertion_of_place placed, interlaced, String.append_assoc]

/-- The parts of a shape agree with each other and with its tokens: there is a slot behind every token
but the last, the elements record the slots, and the markup is that of the tokens with what stands for
each slot behind its token. -/
theorem ofTokens_coherent {nextRef : Nat} {tokens : List Token}
    (shaped : (ofTokens config nextRef tokens).1 = .ok s) :
    s.slots.length = tokens.length - 1 ∧
      (∀ r, r ∈ s.elements.keys ↔ ∃ slot ∈ s.slots, slot.ref = r) ∧
        (∀ r name, (s.indexes r name).Pairwise (· < ·) ∧ ∀ i, i ∈ s.indexes r name ↔
          ∃ quote, quote ≠ .none ∧ s.slots[i]? = some (.attr name quote r)) ∧
          s.html = interlaced config tokens s.slots := by
  obtain ⟨records, slots, count, more, html⟩ := build_adds nextRef .empty shaped
  obtain rfl : s.slots = slots := more
  refine ⟨count, records.keys, fun r name => ⟨records.ascending r name, records.recorded r name⟩, ?_⟩
  simpa [empty] using html

/-- A paragraph with two slots in its title, one in a class and one in its text. -/
theorem ofTokens_coherent_paragraph :
    let tokens := (tokenize .standard 0 ["<p title=\"", " ", "\" class=", ">", "</p>"]).1
    ∃ s, (ofTokens .standard 1 tokens).1 = .ok s ∧ s.slots.length = 4 ∧
      s.indexes ⟨0⟩ "title" = [0, 1] ∧ s.html = interlaced .standard tokens s.slots := by
  intro tokens
  have shapes : ∃ s, (ofTokens .standard 1 tokens).1 = .ok s ∧ s.indexes ⟨0⟩ "title" = [0, 1] := by
    have both : ((ofTokens .standard 1 tokens).1.toOption.map
        fun s => s.indexes ⟨0⟩ "title") = some [0, 1] := by decide +kernel
    cases shaped : (ofTokens .standard 1 tokens).1 with
    | error e =>
      rw [shaped] at both
      cases both
    | ok s =>
      rw [shaped] at both
      exact ⟨s, rfl, Option.some.inj both⟩
  obtain ⟨s, shaped, indexes⟩ := shapes
  obtain ⟨count, -, -, html⟩ := ofTokens_coherent shaped
  exact ⟨s, shaped, count, indexes, html⟩

end Shape
end Template
end LiveMarkup
