import LiveMarkup.Proofs.Shaping

/-!
Compilation is correct on every well-formed template: the use of each slot, the fragment and the
programs are those that the template promises.
-/
namespace LiveMarkup.Template

open Markup

/-! The parts of a value. -/

theorem splitOn_literals {r : Ref} {first : String} {rest : List String}
    (literals : ∀ literal ∈ first :: rest, Field.Literal literal) :
    Text.splitOn r.text.toList
        (first.toList ++ rest.flatMap fun literal => r.text.toList ++ literal.toList) =
      first.toList :: rest.map String.toList := by
  obtain ⟨d, digits, hd⟩ := List.exists_cons_of_ne_nil
    (Nat.toDigits_ne_nil (n := r.number) (b := 10))
  have pattern : r.text.toList = "__ref_".toList ++ d :: (digits ++ "__".toList) := by
    rw [Ref.toList_text, hd]
    simp
  have new : d ∉ "__ref_".toList := by
    have digit : d.isDigit = true :=
      Nat.isDigit_of_mem_toDigits (n := r.number) (b := 10) (by decide) (by decide) (by simp [hd])
    intro mem
    have none : ∀ c ∈ "__ref_".toList, c.isDigit = false := Text.forall_mem_of_all (by decide)
    rw [none d mem] at digit
    cases digit
  have apart : ∀ literal ∈ first :: rest, ¬ "__ref_".toList ++ [d] <:+: literal.toList := by
    intro literal mem inside
    exact literals literal mem ((List.prefix_append _ _).isInfix.trans inside)
  clear literals
  induction rest generalizing first with
  | nil =>
    have none := Text.cut?_eq_none (b := digits ++ "__".toList) (apart first List.mem_cons_self)
    rw [← pattern] at none
    rw [List.flatMap_nil, List.append_nil, Text.splitOn]
    split
    case h_1 => rfl
    case h_2 h =>
      rw [none] at h
      cases h
  | cons literal rest ih =>
    have cut := Text.cut?_append new (apart first List.mem_cons_self) (digits ++ "__".toList)
      (literal.toList ++ rest.flatMap fun literal => r.text.toList ++ literal.toList)
    rw [← pattern] at cut
    have later : Text.splitOn r.text.toList (literal.toList ++
        rest.flatMap fun literal => r.text.toList ++ literal.toList) =
          literal.toList :: rest.map String.toList :=
      ih fun l hl => apart l (List.mem_cons_of_mem _ hl)
    have nonempty : r.text.toList ≠ [] := by rw [pattern]; simp
    rw [List.flatMap_cons, Text.splitOn]
    split
    case h_1 h =>
      rw [← List.append_assoc, ← List.append_assoc, List.append_assoc, cut] at h
      cases h
    case h_2 before after h =>
      rw [← List.append_assoc, ← List.append_assoc, List.append_assoc, cut] at h
      cases h
      rw [dif_neg nonempty, later]
      rfl

theorem interleave_range (i : Nat) (first : String) (rest : List String) :
    interleave (first :: rest) (List.range' i rest.length) =
      Field.literalPart first ++ Field.partsFrom i rest := by
  induction rest generalizing i first with
  | nil => simp [interleave, Field.literalPart, Field.partsFrom]
  | cons literal rest ih =>
    have := ih (i + 1) literal
    simp only [List.length_cons, List.range'_succ]
    rw [interleave, this]
    simp [Field.literalPart, Field.partsFrom]

/-- The parts of a quoted value are its literals and holes. -/
theorem program?_value {r : Ref} {first : String} {rest : List String}
    (literals : ∀ literal ∈ first :: rest, Field.Literal literal) (i : Nat) :
    program? r (first ++ String.join (rest.map fun literal => r.text ++ literal))
        (List.range' i rest.length) =
      some (Field.literalPart first ++ Field.partsFrom i rest) := by
  have pieces : Text.pieces r.text
      (first ++ String.join (rest.map fun literal => r.text ++ literal)) = first :: rest := by
    have value : (first ++ String.join (rest.map fun literal => r.text ++ literal)).toList =
        first.toList ++ rest.flatMap fun literal => r.text.toList ++ literal.toList := by
      simp [List.flatMap_map]
    rw [Text.pieces, value, splitOn_literals literals]
    simp
  simp [program?, pieces, interleave_range]

/-! The programs of an element. -/

namespace Field

theorem keys_entries (r : Ref) (fields : List Field) :
    (fields.filterMap (pair? r)).map (·.1) = fields.filterMap name? := by
  rw [List.map_filterMap]
  exact congrArg (List.filterMap · fields) (funext fun field => (name?_eq_map r field).symm)

/-- The entries of an element's attributes. -/
theorem entries_attributes {tag : String} {r : Ref} {fields : List Field}
    (fits : ∀ field ∈ fields, field.Fits tag) (distinct : (fields.filterMap name?).Nodup) :
    (attributes r fields).entries =
      (if holesAll fields = 0 then [] else [(Config.standard.refAttribute, r.text)]) ++
        fields.filterMap (pair? r) := by
  refine Ordered.entries_ofList ?_
  rw [List.map_append, keys_entries]
  split
  · simpa using distinct
  · exact List.nodup_cons.2 ⟨not_marker fits, distinct⟩

theorem value?_attributes {tag : String} {r : Ref} {fields : List Field}
    (fits : ∀ field ∈ fields, field.Fits tag) (distinct : (fields.filterMap name?).Nodup)
    {field : Field} (mem : field ∈ fields) {name value : String}
    (entry : field.pair? r = some (name, value)) :
    (attributes r fields).value? name = some value := by
  have isName : IsName name := by
    have fit := fits field mem
    cases field with
    | quoted name' first rest =>
      cases entry
      exact fit.1
    | bare name' =>
      cases entry
      exact fit.1
    | directive kind name' =>
      cases entry
      exact fit
    | component => cases entry
  unfold Attributes.value?
  rw [lowercase_of_small isName.small]
  refine Ordered.get?_of_mem ?_
  rw [entries_attributes fits distinct]
  exact List.mem_append_right _ (List.mem_filterMap.2 ⟨field, mem, entry⟩)

/-- The programs of an element with one more. -/
def addProgram (r : Ref) (a : Attributes) (programs : Programs) (e : String × List Nat) :
    Except Fault Programs :=
  match (a.value? e.1).bind fun value => Template.program? r value e.2 with
  | some parts => .ok (programs.insert e.1 parts)
  | none => .error (.placeholderMismatch e.1)

theorem elementPrograms_eq (r : Ref) (a : Attributes) (entries : List (String × List Nat)) :
    elementPrograms r a entries = entries.foldlM (addProgram r a) Ordered.empty := by
  cases entries <;> rfl

/-- What a field records leads to its program. -/
theorem foldlM_records {r : Ref} {a : Attributes} {field : Field} {tag : String}
    (fits : field.Fits tag) (value : ∀ name value, field.pair? r = some (name, value) →
      a.value? name = some value) (i : Nat) {before : Programs}
    (new : ∀ name ∈ field.name?, name ∉ before.keys) :
    ∃ programs, (field.records i).foldlM (addProgram r a) before = .ok programs ∧
      programs.entries = before.entries ++ (field.program? i).toList ∧
      programs.keys = before.keys ++ (field.records i).map (·.1) := by
  have nothing : ∃ programs, ([] : List (String × List Nat)).foldlM (addProgram r a) before =
      .ok programs ∧ programs.entries = before.entries ++ [] ∧
      programs.keys = before.keys ++ [] :=
    ⟨before, rfl, (List.append_nil _).symm, (List.append_nil _).symm⟩
  cases field with
  | quoted name first rest =>
    cases rest with
    | nil => exact nothing
    | cons literal rest =>
      have literals := (fits.2 (List.cons_ne_nil _ _)).2
      have fresh := new name rfl
      refine ⟨before.insert name (literalPart first ++ partsFrom i (literal :: rest)), ?_,
        Ordered.entries_insert fresh _, Ordered.keys_insert fresh _⟩
      have parts := program?_value (r := r) literals i
      have added : addProgram r a before (name, List.range' i (literal :: rest).length) =
          .ok (before.insert name (literalPart first ++ partsFrom i (literal :: rest))) := by
        unfold addProgram
        rw [value name _ rfl, Option.bind_some, parts]
      simp only [records, List.cons_ne_nil, if_false, List.foldlM_cons, added]
      rfl
  | bare name => exact nothing
  | directive kind name => exact nothing
  | component => exact nothing

/-- What the fields of a start tag record leads to their programs. -/
theorem foldlM_recordsAll {r : Ref} {a : Attributes} {tag : String} (fields : List Field)
    (fits : ∀ field ∈ fields, field.Fits tag)
    (values : ∀ field ∈ fields, ∀ name value, field.pair? r = some (name, value) →
      a.value? name = some value) (i : Nat) (before : Programs)
    (distinct : (before.keys ++ fields.filterMap name?).Nodup) :
    ∃ programs, (recordsAll i fields).foldlM (addProgram r a) before = .ok programs ∧
      programs.entries = before.entries ++ Field.programs i fields := by
  induction fields generalizing i before with
  | nil => exact ⟨before, rfl, (List.append_nil _).symm⟩
  | cons field fields ih =>
    have new : ∀ name ∈ field.name?, name ∉ before.keys := by
      intro name hname mem
      refine (List.nodup_append.1 distinct).2.2 name mem name ?_ rfl
      exact List.mem_filterMap.2 ⟨field, List.mem_cons_self, hname⟩
    obtain ⟨middle, here, entries, keys⟩ := foldlM_records (fits field List.mem_cons_self)
      (values field List.mem_cons_self) i new
    have apart : (middle.keys ++ fields.filterMap name?).Nodup := by
      rw [filterMap_name?_cons] at distinct
      rw [keys, List.append_assoc]
      exact distinct.sublist ((List.Sublist.refl _).append ((keys_records _ field).append_right _))
    obtain ⟨after, later, all⟩ := ih (fun f hf => fits f (List.mem_cons_of_mem _ hf))
      (fun f hf => values f (List.mem_cons_of_mem _ hf)) (i + field.holes) middle apart
    refine ⟨after, ?_, ?_⟩
    · rw [recordsAll, List.foldlM_append, here]
      exact later
    · rw [all, entries, List.append_assoc]
      rfl

/-- The programs of an element with the attributes that its fields promise. -/
theorem elementPrograms_attributes {tag : String} {r : Ref} {fields : List Field}
    (fits : ∀ field ∈ fields, field.Fits tag) (distinct : (fields.filterMap name?).Nodup) (i : Nat) :
    ∃ programs, elementPrograms r (attributes r fields) (recordsAll i fields) = .ok programs ∧
      programs.entries = Field.programs i fields := by
  obtain ⟨programs, folded, entries⟩ := foldlM_recordsAll fields fits
    (fun field mem name value entry => value?_attributes fits distinct mem entry) i .empty
    (by simpa [Ordered.keys, Ordered.empty] using distinct)
  exact ⟨programs, (elementPrograms_eq _ _ _).trans folded, entries⟩

/-- An element with holes carries its marker, and no other does. -/
theorem marker_attributes {tag : String} {r : Ref} {fields : List Field}
    (fits : ∀ field ∈ fields, field.Fits tag) (distinct : (fields.filterMap name?).Nodup) :
    (attributes r fields).value? Config.standard.refAttribute =
      if holesAll fields = 0 then none else some r.text := by
  have small : Text.lowercase Config.standard.refAttribute = Config.standard.refAttribute :=
    lowercase_of_small (Text.forall_mem_of_all (by decide))
  have entries := entries_attributes (r := r) fits distinct
  unfold Attributes.value?
  rw [small]
  split
  case isTrue none =>
    refine Ordered.get?_of_not_mem ?_
    unfold Ordered.keys
    rw [entries, if_pos none, List.nil_append, keys_entries]
    exact not_marker fits
  case isFalse some =>
    refine Ordered.get?_of_mem ?_
    rw [entries, if_neg some]
    exact List.mem_cons_self

theorem not_marked {tag : String} {r r' : Ref} {fields : List Field}
    (fits : ∀ field ∈ fields, field.Fits tag) (distinct : (fields.filterMap name?).Nodup)
    (apart : r ≠ r') :
    ¬ (attributes r fields).value? Config.standard.refAttribute = some r'.text := by
  rw [marker_attributes fits distinct]
  split
  · exact nofun
  · exact fun same => apart (Ref.text_injective (Option.some.inj same))

end Field

namespace Written

/-! Elements by their markers. -/

mutual

/-- The numbered start tags. -/
def elements (n : Nat) : Written → List (Ref × List Field)
  | .text _ | .hole | .comment _ => []
  | .element _ fields children => (⟨n⟩, fields) :: elementsAll (n + 1) children

def elementsAll (n : Nat) : List Written → List (Ref × List Field)
  | [] => []
  | t :: rest => t.elements n ++ elementsAll (n + t.tags) rest

end

mutual

theorem bounds_of_elements {n : Nat} {t : Written} {e : Ref × List Field} (h : e ∈ t.elements n) :
    n ≤ e.1.number ∧ e.1.number < n + t.tags := by
  cases t with
  | text data => cases h
  | hole => cases h
  | comment data => cases h
  | element tag fields children =>
    simp only [tags]
    rcases List.mem_cons.1 h with rfl | h
    · exact ⟨Nat.le_refl n, Nat.lt_add_of_pos_right (by omega)⟩
    · have := bounds_of_elementsAll h
      omega

theorem bounds_of_elementsAll {n : Nat} {ts : List Written} {e : Ref × List Field}
    (h : e ∈ elementsAll n ts) : n ≤ e.1.number ∧ e.1.number < n + tagsAll ts := by
  cases ts with
  | nil => cases h
  | cons t ts =>
    simp only [tagsAll]
    rcases List.mem_append.1 h with h | h
    · have := bounds_of_elements h
      omega
    · have := bounds_of_elementsAll h
      omega

end

theorem value?_outlet (r : Ref) :
    Attributes.value? (.ofList [(Config.standard.refAttribute, r.text)])
      Config.standard.refAttribute = some r.text := by
  unfold Attributes.value?
  rw [lowercase_of_small (Text.forall_mem_of_all (by decide))]
  refine Ordered.get?_of_mem ?_
  rw [Ordered.entries_ofList (by simp)]
  exact List.mem_singleton_self _

mutual

/-- No element carries the marker of another part of the template. -/
theorem elementsWith_of_apart {n m : Nat} {t : Written} (fits : t.Fits) {r : Ref}
    (notTag : r.number < n ∨ n + t.tags ≤ r.number)
    (notOutlet : r.number < m ∨ m + t.outlets ≤ r.number) :
    (t.tree n m).elementsWith Config.standard.refAttribute r.text = [] := by
  cases t with
  | text data => rfl
  | hole =>
    have apart : Ref.text ⟨m⟩ ≠ r.text := by
      intro same
      rw [← Ref.text_injective same] at notOutlet
      simp only [outlets] at notOutlet
      omega
    simp only [tree, Tree.elementsWith, value?_outlet, Option.some.injEq, apart, if_false]
    rfl
  | comment data => rfl
  | element tag fields children =>
    obtain ⟨-, -, fit, distinct, -, childrenFit⟩ := fits
    simp only [tags] at notTag
    simp only [outlets] at notOutlet
    have apart : (⟨n⟩ : Ref) ≠ r := by
      rintro rfl
      simp only at notTag
      omega
    rw [tree, Tree.elementsWith, if_neg (Field.not_marked fit distinct apart), List.nil_append]
    exact elementsWithAll_of_apart childrenFit (by omega) (by omega)

theorem elementsWithAll_of_apart {n m : Nat} {ts : List Written} (fits : FitsAll ts) {r : Ref}
    (notTag : r.number < n ∨ n + tagsAll ts ≤ r.number)
    (notOutlet : r.number < m ∨ m + outletsAll ts ≤ r.number) :
    elementsWithAll Config.standard.refAttribute r.text (trees n m ts) = [] := by
  cases ts with
  | nil => rfl
  | cons t ts =>
    obtain ⟨fit, -, later⟩ := fits
    simp only [tagsAll] at notTag
    simp only [outletsAll] at notOutlet
    rw [trees, elementsWithAll, elementsWith_of_apart fit (by omega) (by omega),
      elementsWithAll_of_apart later (by omega) (by omega)]
    rfl

end

mutual

/-- The marker of an element with holes is found on that element. -/
theorem elementsWith_of_mem {total n m : Nat} {t : Written} (fits : t.Fits)
    (room : n + t.tags ≤ total) (outlets : total ≤ m) {r : Ref} {fields : List Field}
    (mem : (r, fields) ∈ t.elements n) (holes : Field.holesAll fields ≠ 0) :
    (t.tree n m).elementsWith Config.standard.refAttribute r.text =
      [Field.attributes r fields] := by
  cases t with
  | text data => cases mem
  | hole => cases mem
  | comment data => cases mem
  | element tag fields' children =>
    obtain ⟨-, -, fit, distinct, -, childrenFit⟩ := fits
    simp only [tags] at room
    rcases List.mem_cons.1 mem with same | mem
    · cases same
      have marked := Field.marker_attributes (r := ⟨n⟩) fit distinct
      rw [if_neg holes] at marked
      rw [tree, Tree.elementsWith, if_pos marked,
        elementsWithAll_of_apart childrenFit (.inl (Nat.lt_succ_self n)) (.inl (by simp; omega))]
      rfl
    · have bounds := bounds_of_elementsAll mem
      have apart : (⟨n⟩ : Ref) ≠ r := by
        rintro rfl
        simp only at bounds
        omega
      rw [tree, Tree.elementsWith, if_neg (Field.not_marked fit distinct apart), List.nil_append]
      exact elementsWithAll_of_mem childrenFit (by omega) outlets mem holes

theorem elementsWithAll_of_mem {total n m : Nat} {ts : List Written} (fits : FitsAll ts)
    (room : n + tagsAll ts ≤ total) (outlets : total ≤ m) {r : Ref} {fields : List Field}
    (mem : (r, fields) ∈ elementsAll n ts) (holes : Field.holesAll fields ≠ 0) :
    elementsWithAll Config.standard.refAttribute r.text (trees n m ts) =
      [Field.attributes r fields] := by
  cases ts with
  | nil => cases mem
  | cons t ts =>
    obtain ⟨fit, -, later⟩ := fits
    simp only [tagsAll] at room
    rw [trees, elementsWithAll]
    rcases List.mem_append.1 mem with mem | mem
    · have bounds := bounds_of_elements mem
      simp only at bounds
      rw [elementsWith_of_mem fit (by omega) outlets mem holes,
        elementsWithAll_of_apart later (.inl (by omega)) (.inl (by omega))]
      rfl
    · have bounds := bounds_of_elementsAll mem
      simp only at bounds
      rw [elementsWith_of_apart fit (.inr (by omega)) (.inl (by omega)),
        elementsWithAll_of_mem later (show n + t.tags + tagsAll ts ≤ total by omega) (by omega) mem
          holes]
      rfl

end

/-! The programs of all elements. -/

/-- The programs of a template with those of one more element. -/
def addPrograms (fragment : List Tree) (programs : Ordered Ref Programs) (e : Ref × SlotIndexes) :
    Except Fault (Ordered Ref Programs) :=
  if e.2.isEmpty then .ok programs
  else
    match (elementsWithAll Config.standard.refAttribute e.1.text fragment).head? with
    | none => .error (.missingReference e.1)
    | some attributes => (elementPrograms e.1 attributes e.2.entries).map (programs.insert e.1)

theorem allPrograms_eq (fragment : List Tree) (entries : List (Ref × SlotIndexes)) :
    allPrograms .standard fragment entries = entries.foldlM (addPrograms fragment) Ordered.empty :=
  rfl

/-- What an assembled map of programs holds. -/
def listed (programs : Ordered Ref Programs) : List (Ref × List (String × List Part)) :=
  programs.entries.map fun e => (e.1, e.2.entries)

theorem programs_eq_nil (i : Nat) (fields : List Field) :
    Field.programs i fields = [] ↔ Field.recordsAll i fields = [] := by
  induction fields generalizing i with
  | nil => simp [Field.programs, Field.recordsAll]
  | cons field fields ih =>
    have here : (field.program? i).toList = [] ↔ field.records i = [] := by
      cases field with
      | quoted name first rest => cases rest <;> simp [Field.program?, Field.records]
      | bare name => simp [Field.program?, Field.records]
      | directive kind name => simp [Field.program?, Field.records]
      | component => simp [Field.program?, Field.records]
    rw [Field.programs, Field.recordsAll, List.append_eq_nil_iff, List.append_eq_nil_iff, here, ih]

theorem programs_of_holesAll {fields : List Field} (none : Field.holesAll fields = 0) (i : Nat) :
    Field.programs i fields = [] := by
  induction fields generalizing i with
  | nil => rfl
  | cons field fields ih =>
    simp only [Field.holesAll, Nat.add_eq_zero_iff] at none
    have here : field.program? i = Option.none := by
      cases field with
      | quoted name first rest =>
        rw [List.length_eq_zero_iff.1 none.1]
        rfl
      | bare name => rfl
      | directive kind name => rfl
      | component => rfl
    rw [Field.programs, here, ih none.2]
    rfl

theorem foldlM_of_empty {fragment : List Tree} {r : Ref} {entries : List (Ref × SlotIndexes)}
    (h : entries.map (fun e => (e.1, e.2.entries)) = [(r, [])]) (before : Ordered Ref Programs) :
    entries.foldlM (addPrograms fragment) before = .ok before := by
  obtain ⟨e, rest, rfl, he, hrest⟩ := List.map_eq_cons_iff.1 h
  rw [List.map_eq_nil_iff.1 hrest]
  have empty : e.2.isEmpty = true := by
    rw [Ordered.isEmpty, (Prod.mk.inj he).2]
    rfl
  simp [addPrograms, empty]

/-- The programs that the records of an element lead to. -/
theorem foldlM_element {fragment : List Tree} {tag : String} {n i : Nat} {fields : List Field}
    (fits : ∀ field ∈ fields, field.Fits tag) (distinct : (fields.filterMap Field.name?).Nodup)
    (found : (elementsWithAll Config.standard.refAttribute (Ref.text ⟨n⟩) fragment).head? =
      some (Field.attributes ⟨n⟩ fields))
    {entries : List (Ref × SlotIndexes)}
    (h : entries.map (fun e => (e.1, e.2.entries)) = [(⟨n⟩, Field.recordsAll i fields)])
    {before : Ordered Ref Programs} (new : ⟨n⟩ ∉ before.keys) :
    ∃ after, entries.foldlM (addPrograms fragment) before = .ok after ∧
      listed after = listed before ++
        (match Field.programs i fields with
          | [] => []
          | programs => [(⟨n⟩, programs)]) ∧
      ∀ r ∈ after.keys, r ∈ before.keys ∨ r = ⟨n⟩ := by
  by_cases nothing : Field.programs i fields = []
  · rw [(programs_eq_nil i fields).1 nothing] at h
    refine ⟨before, foldlM_of_empty h before, ?_, fun r hr => .inl hr⟩
    rw [nothing, List.append_nil]
  · obtain ⟨e, rest, rfl, he, hrest⟩ := List.map_eq_cons_iff.1 h
    obtain ⟨he, hrecords⟩ := Prod.mk.inj he
    obtain ⟨programs, made, programsEntries⟩ :=
      Field.elementPrograms_attributes (r := ⟨n⟩) fits distinct i
    have recorded : e.2.isEmpty = false := by
      rw [Ordered.isEmpty, hrecords, List.isEmpty_eq_false_iff]
      exact mt (programs_eq_nil i fields).2 nothing
    have added : addPrograms fragment before e = .ok (before.insert ⟨n⟩ programs) := by
      rw [addPrograms, if_neg (by simp [recorded]), he, found, hrecords]
      simp only [made]
      rfl
    refine ⟨before.insert ⟨n⟩ programs, ?_, ?_, ?_⟩
    · rw [List.map_eq_nil_iff.1 hrest, List.foldlM_cons, added]
      rfl
    · have kept : (match Field.programs i fields with
          | [] => []
          | programs => [((⟨n⟩ : Ref), programs)]) = [(⟨n⟩, Field.programs i fields)] := by
        split
        case h_1 h => exact absurd h nothing
        case h_2 => rfl
      rw [kept]
      simp [listed, Ordered.entries_insert new, programsEntries]
    · intro r hr
      rw [Ordered.keys_insert new] at hr
      rcases List.mem_append.1 hr with hr | hr
      · exact .inl hr
      · exact .inr (List.mem_singleton.1 hr)

/-- The programs that the records of a start tag lead to; one without holes records nothing. -/
theorem foldlM_start {fragment : List Tree} {tag : String} {n i : Nat} {fields : List Field}
    (fits : ∀ field ∈ fields, field.Fits tag) (distinct : (fields.filterMap Field.name?).Nodup)
    (found : Field.holesAll fields ≠ 0 →
      (elementsWithAll Config.standard.refAttribute (Ref.text ⟨n⟩) fragment).head? =
        some (Field.attributes ⟨n⟩ fields))
    {entries : List (Ref × SlotIndexes)}
    (h : entries.map (fun e => (e.1, e.2.entries)) =
      if Field.holesAll fields = 0 then [] else [(⟨n⟩, Field.recordsAll i fields)])
    {before : Ordered Ref Programs} (old : ∀ r ∈ before.keys, r.number < n) :
    ∃ after, entries.foldlM (addPrograms fragment) before = .ok after ∧
      listed after = listed before ++
        (match Field.programs i fields with
          | [] => []
          | programs => [(⟨n⟩, programs)]) ∧
      ∀ r ∈ after.keys, r.number < n + 1 := by
  by_cases none : Field.holesAll fields = 0
  · rw [if_pos none] at h
    refine ⟨before, ?_, ?_, fun r hr => Nat.lt_succ_of_lt (old r hr)⟩
    · rw [List.map_eq_nil_iff.1 h]
      rfl
    · rw [programs_of_holesAll none, List.append_nil]
  · rw [if_neg none] at h
    have new : ⟨n⟩ ∉ before.keys := fun mem => Nat.lt_irrefl n (old ⟨n⟩ mem)
    obtain ⟨after, folded, entries, keys⟩ := foldlM_element fits distinct (found none) h new
    refine ⟨after, folded, entries, ?_⟩
    intro r hr
    rcases keys r hr with hr | rfl
    · exact Nat.lt_succ_of_lt (old r hr)
    · exact Nat.lt_succ_self n

mutual

/-- The programs that the records of a piece lead to. -/
theorem foldlM_records {fragment : List Tree} {n m i : Nat} {t : Written} (fits : t.Fits)
    (found : ∀ r fields, (r, fields) ∈ t.elements n → Field.holesAll fields ≠ 0 →
      (elementsWithAll Config.standard.refAttribute r.text fragment).head? =
        some (Field.attributes r fields))
    {entries : List (Ref × SlotIndexes)}
    (h : entries.map (fun e => (e.1, e.2.entries)) = t.records n m i)
    {before : Ordered Ref Programs} (old : ∀ r ∈ before.keys, r.number < n) :
    ∃ after, entries.foldlM (addPrograms fragment) before = .ok after ∧
      listed after = listed before ++ t.programs n i ∧
      ∀ r ∈ after.keys, r.number < n + t.tags := by
  cases t with
  | text data =>
    rw [List.map_eq_nil_iff.1 h]
    exact ⟨before, rfl, (List.append_nil _).symm, old⟩
  | hole => exact ⟨before, foldlM_of_empty h before, (List.append_nil _).symm, old⟩
  | comment data =>
    rw [List.map_eq_nil_iff.1 h]
    exact ⟨before, rfl, (List.append_nil _).symm, old⟩
  | element tag fields children =>
    obtain ⟨-, -, fit, distinct, -, childrenFit⟩ := fits
    obtain ⟨own, others, rfl, hown, hothers⟩ := List.map_eq_append_iff.1 h
    obtain ⟨middle, start, startListed, startOld⟩ := foldlM_start fit distinct
      (fun holes => found ⟨n⟩ fields List.mem_cons_self holes) hown old
    obtain ⟨after, inside, insideListed, insideOld⟩ := foldlM_recordsAll childrenFit
      (fun r fields mem => found r fields (List.mem_cons_of_mem _ mem)) hothers startOld
    refine ⟨after, ?_, ?_, ?_⟩
    · rw [List.foldlM_append, start]
      exact inside
    · rw [insideListed, startListed, List.append_assoc]
      rfl
    · simpa [tags, Nat.add_assoc] using insideOld

theorem foldlM_recordsAll {fragment : List Tree} {n m i : Nat} {ts : List Written}
    (fits : FitsAll ts)
    (found : ∀ r fields, (r, fields) ∈ elementsAll n ts → Field.holesAll fields ≠ 0 →
      (elementsWithAll Config.standard.refAttribute r.text fragment).head? =
        some (Field.attributes r fields))
    {entries : List (Ref × SlotIndexes)}
    (h : entries.map (fun e => (e.1, e.2.entries)) = recordsAll n m i ts)
    {before : Ordered Ref Programs} (old : ∀ r ∈ before.keys, r.number < n) :
    ∃ after, entries.foldlM (addPrograms fragment) before = .ok after ∧
      listed after = listed before ++ programsAll n i ts ∧
      ∀ r ∈ after.keys, r.number < n + tagsAll ts := by
  cases ts with
  | nil =>
    rw [List.map_eq_nil_iff.1 h]
    exact ⟨before, rfl, (List.append_nil _).symm, old⟩
  | cons t ts =>
    obtain ⟨fit, -, later⟩ := fits
    obtain ⟨own, others, rfl, hown, hothers⟩ := List.map_eq_append_iff.1 h
    obtain ⟨middle, here, hereListed, hereOld⟩ := foldlM_records fit
      (fun r fields mem => found r fields (List.mem_append_left _ mem)) hown old
    obtain ⟨after, rest, restListed, restOld⟩ := foldlM_recordsAll later
      (fun r fields mem => found r fields (List.mem_append_right _ mem)) hothers hereOld
    refine ⟨after, ?_, ?_, ?_⟩
    · rw [List.foldlM_append, here]
      exact rest
    · rw [restListed, hereListed, List.append_assoc]
      rfl
    · simpa [tagsAll, Nat.add_assoc] using restOld

end

/-- Compiling the chunks of a well-formed template gives what the template promises: the number of
references, the use of each hole, the fragment, and the programs of each element. -/
theorem compile_chunks {template : List Written} (fits : FitsAll template) (first : Nat) :
    ∃ d, Descriptor.compile .standard first (chunks template) =
        (.ok d, first + tagsAll template + outletsAll template) ∧
      d.slots = slotsAll first (first + tagsAll template) template ∧
      d.fragment = trees first (first + tagsAll template) template ∧
      d.programs.entries.map (fun e => (e.1, e.2.entries)) = programsAll first 0 template := by
  obtain ⟨shape, parsed, html, slots, records⟩ := parse_chunks fits first
  have read : Markup.parse shape.html = .ok (trees first (first + tagsAll template) template) := by
    rw [html]
    exact parse_markupAll fits first (first + tagsAll template)
  have found : ∀ r fields, (r, fields) ∈ elementsAll first template → Field.holesAll fields ≠ 0 →
      (elementsWithAll Config.standard.refAttribute r.text
        (trees first (first + tagsAll template) template)).head? =
          some (Field.attributes r fields) := by
    intro r fields mem holes
    rw [elementsWithAll_of_mem fits (Nat.le_refl _) (Nat.le_refl _) mem holes]
    rfl
  obtain ⟨programs, folded, entries, -⟩ := foldlM_recordsAll fits found records
    (show ∀ r ∈ (Ordered.empty : Ordered Ref Programs).keys, r.number < first from nofun)
  refine ⟨⟨trees first (first + tagsAll template) template, shape.html, shape.slots, programs,
    .standard⟩, ?_, slots, rfl, entries⟩
  have made : Descriptor.ofShape .standard shape =
      .ok ⟨trees first (first + tagsAll template) template, shape.html, shape.slots, programs,
        .standard⟩ := by
    simp only [Descriptor.ofShape, read, allPrograms_eq, folded]
  rw [Descriptor.compile, Descriptor.compileEdited, parsed]
  exact congrArg (·, first + tagsAll template + outletsAll template) made

/-- A form with a hole of every kind. -/
def form : List Written :=
  [.text "Tom & ", .hole, .comment " <b> ",
    .element "form" [.quoted "class" "a " [" b-", ""], .quoted "title" "\x22" [], .bare "id",
        .directive .on "submit"]
      [.element "input" [.directive .bind "value"] [], .text "x < y",
        .element "x" [.component] [.hole]]]

theorem compile_chunks_form :
    FitsAll form ∧
    chunks form = ["Tom &amp; ", "<!-- <b> --><form class=\x22a ", " b-",
      "\x22 title=\x22&quot;\x22 id=", " on:submit=", "><input bind:value=", ">x &lt; y<x ", ">", "</x></form>"] ∧
    ∃ d, Descriptor.compile .standard 7 (chunks form) = (.ok d, 12) ∧
      d.slots = [.node ⟨10⟩, .attr "class" .double ⟨7⟩, .attr "class" .double ⟨7⟩, .attr "id" .none ⟨7⟩,
        .directive .on "submit" ⟨7⟩, .directive .bind "value" ⟨8⟩, .component ⟨9⟩, .node ⟨11⟩] ∧
      d.fragment = trees 7 10 form ∧
      d.programs.entries.map (fun e => (e.1, e.2.entries)) =
        [(⟨7⟩, [("class", [.literal "a ", .slot 1, .literal " b-", .slot 2])])] :=
  ⟨by decide, by decide, compile_chunks (show FitsAll form by decide) 7⟩

end Written
end LiveMarkup.Template
