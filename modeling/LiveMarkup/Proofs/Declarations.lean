import LiveMarkup.Dom.Style
import LiveMarkup.Proofs.Entries
import LiveMarkup.Proofs.Roundtrip
import LiveMarkup.Proofs.SlotNames
import Mathlib.Data.List.DropRight

/-!
Declarations: a style is read from the text of an attribute, and written back as text with each
change. What was read can be written and read again, because the parts of a declaration are trimmed
and have no semicolon. Main statement: writing a property changes no other one and the property reads as what
was written, just if there is no semicolon in the value.
-/
namespace LiveMarkup

/-! Blanks at the ends of a text. -/

namespace Text
variable {s t : List Char} {c : Char}

theorem trim_append (blank : ∀ c ∈ s, isBlank c = true) (t : List Char) : trim (s ++ t) = trim t := by
  unfold trim trimStart
  rw [List.dropWhile_append_of_pos blank]

theorem trim_isPrefix_trimStart (s : List Char) : trim s <+: trimStart s :=
  List.rdropWhile_prefix _ _

theorem trim_trim (s : List Char) : trim (trim s) = trim s := by
  have start : trimStart (trim s) = trim s := by
    refine List.dropWhile_eq_self_iff.2 fun nonempty => ?_
    have long := Nat.lt_of_lt_of_le nonempty (trim_isPrefix_trimStart s).length_le
    have same : (trim s).get ⟨0, nonempty⟩ = (trimStart s).get ⟨0, long⟩ :=
      (trim_isPrefix_trimStart s).getElem _
    show ¬ isBlank ((trim s).get ⟨0, nonempty⟩) = true
    rw [same]
    exact List.dropWhile_get_zero_not _ _ _
  unfold trim at start ⊢
  rw [start]
  exact List.rdropWhile_idempotent _ _

theorem mem_trim (h : isBlank c = false) : c ∈ trim s ↔ c ∈ s := by
  have start : ∀ t : List Char, c ∈ t.dropWhile isBlank ↔ c ∈ t := by
    intro t
    refine ⟨fun mem => (List.dropWhile_suffix _).subset mem, fun mem => ?_⟩
    rw [← List.takeWhile_append_dropWhile (p := isBlank) (l := t)] at mem
    refine (List.mem_append.1 mem).resolve_left fun early => ?_
    have := List.mem_takeWhile_imp early
    simp [h] at this
  unfold trim trimEnd trimStart
  rw [List.mem_reverse, start, List.mem_reverse, start]

theorem toList_trimmed (s : String) : (trimmed s).toList = trim s.toList := by
  simp [trimmed]

theorem trimmed_trimmed (s : String) : trimmed (trimmed s) = trimmed s := by
  unfold trimmed
  rw [String.toList_ofList, trim_trim]

theorem notMem_of_cut?_some {d : Char} {before after : List Char}
    (h : cut? [d] s = some (before, after)) : d ∉ before := by
  intro mem
  obtain ⟨u, v, rfl⟩ := List.append_of_mem mem
  exact not_infix_of_cut? (List.cons_ne_nil _ _) h ⟨u, v, by simp⟩

/-- Pieces between single characters. -/
theorem splitOn_mark (d : Char) (s : List Char) : splitOn [d] s = s.splitOn d := by
  fun_induction splitOn [d] s with
  | case1 s none => exact (List.splitOn_eq_singleton (notMem_of_cut? none)).symm
  | case2 s before after cut empty => cases empty
  | case3 s before after cut nonempty shorter ih =>
    have new : d ∉ before := notMem_of_cut?_some cut
    have whole := eq_append_of_cut? cut
    rw [List.append_assoc, List.singleton_append] at whole
    rw [ih, whole, List.splitOn_append_cons_self_of_not_mem new]

theorem notMem_of_mem_splitOn {d : Char} {piece : List Char} (h : piece ∈ splitOn [d] s) :
    d ∉ piece := by
  fun_induction splitOn [d] s with
  | case1 s none => exact List.mem_singleton.1 h ▸ notMem_of_cut? none
  | case2 s before after cut empty => cases empty
  | case3 s before after cut nonempty shorter ih =>
    rcases List.mem_cons.1 h with rfl | later
    · exact notMem_of_cut?_some cut
    · exact ih later

end Text

/-! Maps. -/

namespace Ordered
variable {κ ν : Type} [BEq κ] [LawfulBEq κ]

theorem nodup_keys (m : Ordered κ ν) : (m.entries.map (·.1)).Nodup :=
  List.pairwise_map.2 (m.distinct.imp fun apart same => by simp [same] at apart)

theorem get?_erase_self (m : Ordered κ ν) (k : κ) : (m.erase k).get? k = none := by
  cases h : (m.erase k).get? k with
  | none => rfl
  | some v =>
    have kept := mem_of_get? h
    have := (List.mem_filter.1 kept).2
    simp at this

theorem mem_foldl_insert {l : List (κ × ν)} {m : Ordered κ ν} {e : κ × ν}
    (h : e ∈ (l.foldl (fun m e => m.insert e.1 e.2) m).entries) : e ∈ l ∨ e ∈ m.entries := by
  induction l generalizing m with
  | nil => exact .inr h
  | cons e' l ih =>
    rcases ih h with later | before
    · exact .inl (List.mem_cons_of_mem _ later)
    · rcases mem_insert before with rfl | before
      · exact .inl List.mem_cons_self
      · exact .inr before

/-- Every entry of the map that entries build is one of these. -/
theorem mem_of_mem_ofList {l : List (κ × ν)} {e : κ × ν} (h : e ∈ (ofList l).entries) : e ∈ l :=
  (mem_foldl_insert h).resolve_right List.not_mem_nil

end Ordered

namespace Markup.Attributes

/-! Declarations. -/

/-- A name that a style can give to a property. -/
structure IsProperty (name : String) : Prop where
  nonempty : name ≠ ""
  trimmed : Text.trimmed name = name
  colon : ':' ∉ name.toList
  semicolon : ';' ∉ name.toList

/-- A property with a value that ends where the declaration does. -/
structure IsDeclaration (e : String × String) : Prop where
  property : IsProperty e.1
  semicolon : ';' ∉ e.2.toList

/-- A declaration as it is written, without its semicolon. -/
def written (e : String × String) : List Char :=
  e.1.toList ++ ':' :: ' ' :: e.2.toList

theorem isDeclaration_of_declaration? {s : String} {e : String × String} (closed : ';' ∉ s.toList)
    (h : declaration? s = some e) : IsDeclaration e ∧ Text.trimmed e.2 = e.2 := by
  have colon : Text.isBlank ':' = false := by decide
  have semicolon : Text.isBlank ';' = false := by decide
  unfold declaration? Text.cutAt? at h
  split at h
  case h_1 property value cut =>
    obtain ⟨⟨before, after⟩, found, eq⟩ := Option.map_eq_some_iff.1 cut
    cases eq
    dsimp only at h
    split at h
    case isTrue => cases h
    case isFalse nonempty =>
      cases h
      have whole := Text.eq_append_of_cut? found
      rw [whole] at closed
      simp only [List.append_assoc, List.mem_append, not_or] at closed
      refine ⟨⟨⟨fun empty => nonempty (by simpa using empty), Text.trimmed_trimmed _, ?_, ?_⟩, ?_⟩,
        Text.trimmed_trimmed _⟩
      · rw [Text.toList_trimmed, String.toList_ofList, Text.mem_trim colon]
        exact Text.notMem_of_cut?_some found
      · rw [Text.toList_trimmed, String.toList_ofList, Text.mem_trim semicolon]
        exact closed.1
      · rw [Text.toList_trimmed, String.toList_ofList, Text.mem_trim semicolon]
        exact closed.2.2
  case h_2 => cases h

theorem declaration?_written {e : String × String} (property : IsProperty e.1) {blanks : List Char}
    (blank : ∀ c ∈ blanks, c = ' ') :
    declaration? (String.ofList (blanks ++ written e)) = some (e.1, Text.trimmed e.2) := by
  have isBlank : ∀ c ∈ blanks, Text.isBlank c = true := by
    intro c hc
    rw [blank c hc]
    decide
  have colon : ':' ∉ blanks ++ e.1.toList := by
    refine List.not_mem_append (fun hc => ?_) property.colon
    exact absurd (blank _ hc) (by decide)
  have cut : Text.cut? [':'] (blanks ++ written e) =
      some (blanks ++ e.1.toList, ' ' :: e.2.toList) := by
    rw [written, ← List.append_assoc, Text.cut?_mark colon]
  have name : Text.trimmed (String.ofList (blanks ++ e.1.toList)) = e.1 := by
    unfold Text.trimmed
    rw [String.toList_ofList, Text.trim_append isBlank]
    exact property.trimmed
  have value : Text.trimmed (String.ofList (' ' :: e.2.toList)) = Text.trimmed e.2 := by
    unfold Text.trimmed
    rw [String.toList_ofList]
    refine congrArg String.ofList (Text.trim_append (s := [' ']) (fun c hc => ?_) _)
    exact List.mem_singleton.1 hc ▸ isBlank_space
  unfold declaration? Text.cutAt?
  rw [String.toList_ofList, cut]
  simp only [Option.map_some, name, value]
  rw [if_neg (by simpa using property.nonempty)]

/-! Styles. -/

/-- A declaration with its semicolon. -/
def closedText (e : String × String) : List Char :=
  written e ++ [';']

theorem toList_styleText (m : Ordered String String) :
    (styleText m).toList = [' '].intercalate (m.entries.map closedText) := by
  unfold styleText
  rw [String.toList_intercalate, List.map_map]
  refine congrArg _ (List.map_congr_left fun e _ => ?_)
  simp [closedText, written]

/-- Before all declarations but the first one there is a blank. -/
theorem intercalate_closedText (e : String × String) (l : List (String × String)) :
    ∃ blanks : List Char, (∀ c ∈ blanks, c = ' ') ∧
      [' '].intercalate ((e :: l).map closedText) =
        written e ++ ';' :: (blanks ++ [' '].intercalate (l.map closedText)) := by
  cases l with
  | nil => exact ⟨[], nofun, by simp [closedText]⟩
  | cons e' l =>
    refine ⟨[' '], fun c hc => List.mem_singleton.1 hc, ?_⟩
    rw [List.map_cons, List.intercalate_cons_of_ne_nil (by simp)]
    simp [closedText]

/-- What was written as a style is read with the values trimmed. By recursion on the declarations. -/
theorem filterMap_declaration? {l : List (String × String)} (closed : ∀ e ∈ l, IsDeclaration e)
    (blanks : List Char) (blank : ∀ c ∈ blanks, c = ' ') :
    (((blanks ++ [' '].intercalate (l.map closedText)).splitOn ';').map
      String.ofList).filterMap declaration? = l.map fun e => (e.1, Text.trimmed e.2) := by
  induction l generalizing blanks with
  | nil =>
    have outside : ∀ d, d ≠ ' ' → d ∉ blanks := fun d ne mem => ne (blank d mem)
    have none : declaration? (String.ofList blanks) = none := by
      have : Text.cut? [':'] blanks = none :=
        Text.cut?_eq_none (a := []) fun inside =>
          outside ':' (by decide) (inside.subset (List.mem_singleton_self ':'))
      simp [declaration?, Text.cutAt?, this]
    simp [List.splitOn_eq_singleton (outside ';' (by decide)), none]
  | cons e l ih =>
    obtain ⟨head, tail⟩ := List.forall_mem_cons.1 closed
    obtain ⟨blanks', blank', eq⟩ := intercalate_closedText e l
    have semicolon : ';' ∉ blanks ++ written e := by
      simp only [written, List.mem_append, List.mem_cons, not_or]
      refine ⟨fun mem => absurd (blank _ mem) (by decide), head.property.semicolon, by decide,
        by decide, head.semicolon⟩
    rw [eq, ← List.append_assoc, List.splitOn_append_cons_self_of_not_mem semicolon, List.map_cons,
      List.filterMap_cons_some (declaration?_written head.property blank), ih tail blanks' blank']
    rfl

theorem pieces_semicolon (s : String) :
    Text.pieces ";" s = (s.toList.splitOn ';').map String.ofList :=
  congrArg (List.map String.ofList) (Text.splitOn_mark ';' s.toList)

theorem style?_set (a : Attributes) {m : Ordered String String}
    (closed : ∀ e ∈ m.entries, IsDeclaration e) (property : String) :
    (a.set "style" (styleText m)).style? property = (m.get? property).map Text.trimmed := by
  have value : (a.set "style" (styleText m)).value? "style" = some (styleText m) :=
    Ordered.get?_insert_self a _ _
  have read : (Text.pieces ";" (styleText m)).filterMap declaration? =
      m.entries.map fun e => (e.1, Text.trimmed e.2) := by
    rw [pieces_semicolon, toList_styleText]
    exact filterMap_declaration? closed [] nofun
  have distinct : ((m.entries.map fun e => (e.1, Text.trimmed e.2)).map (·.1)).Nodup := by
    rw [List.map_map]
    exact m.nodup_keys
  unfold style? styles
  rw [value]
  dsimp only
  rw [read, Ordered.get?, Ordered.entries_ofList distinct, Ordered.find?_map]
  rfl

theorem isDeclaration_of_mem_styles {a : Attributes} {e : String × String}
    (h : e ∈ a.styles.entries) : IsDeclaration e ∧ Text.trimmed e.2 = e.2 := by
  unfold styles at h
  split at h
  case h_1 s _ =>
    obtain ⟨piece, mem, read⟩ := List.mem_filterMap.1 (Ordered.mem_of_mem_ofList h)
    obtain ⟨chars, mem', rfl⟩ := List.mem_map.1 mem
    refine isDeclaration_of_declaration? ?_ read
    rw [String.toList_ofList]
    exact Text.notMem_of_mem_splitOn mem'
  case h_2 => cases h

/-- The style properties after a change of one, as they are written. -/
def restyled (a : Attributes) (property value : String) : Ordered String String :=
  if value.isEmpty then a.styles.erase property else a.styles.insert property value

theorem isDeclaration_of_mem_restyled {a : Attributes} {property value : String}
    (name : IsProperty property) (closed : ';' ∉ value.toList) {e : String × String}
    (h : e ∈ (a.restyled property value).entries) : IsDeclaration e := by
  unfold restyled at h
  split at h
  · exact (isDeclaration_of_mem_styles (List.mem_filter.1 h).1).1
  · rcases Ordered.mem_insert h with rfl | h
    · exact ⟨name, closed⟩
    · exact (isDeclaration_of_mem_styles h).1

/-- What was set is what is read, and the other properties stay, just if the value has no
semicolon. -/
theorem setStyle_sets_one_iff (a : Attributes) {property : String} (name : IsProperty property)
    (value : String) :
    ((a.setStyle property value).style? property =
        (if value.isEmpty then none else some (Text.trimmed value)) ∧
      ∀ other, other ≠ property → (a.setStyle property value).style? other = a.style? other) ↔
      ';' ∉ value.toList := by
  constructor
  · rintro ⟨set, -⟩ mem
    have nonempty : ¬value.isEmpty = true := by
      intro empty
      simp [String.isEmpty_iff.1 empty] at mem
    rw [if_neg nonempty] at set
    have closed := (isDeclaration_of_mem_styles (Ordered.mem_of_get? set)).1.semicolon
    rw [Text.toList_trimmed, Text.mem_trim (by decide)] at closed
    exact closed mem
  · intro closed
    have read (q : String) : (a.setStyle property value).style? q =
        ((a.restyled property value).get? q).map Text.trimmed :=
      style?_set a (fun e he => isDeclaration_of_mem_restyled name closed he) q
    unfold restyled at read
    constructor
    · rw [read]
      split
      · rw [Ordered.get?_erase_self]
        rfl
      · rw [Ordered.get?_insert_self]
        rfl
    · intro other ne
      have kept : (a.styles.get? other).map Text.trimmed = a.styles.get? other := by
        cases h : a.styles.get? other with
        | none => rfl
        | some old => exact congrArg some (isDeclaration_of_mem_styles (Ordered.mem_of_get? h)).2
      rw [read]
      split
      · rw [Ordered.get?_erase_of_ne _ ne, kept]
        rfl
      · rw [Ordered.get?_insert_of_ne _ ne, kept]
        rfl

theorem isProperty_width : IsProperty "width" :=
  ⟨by decide, by decide, by decide, by decide⟩

theorem setStyle_sets_one_width :
    let a : Attributes := .ofList [("style", "color: red")]
    (a.setStyle "width" "1px").style? "width" = some "1px" ∧
      (a.setStyle "width" "1px").style? "color" = a.style? "color" := by
  intro a
  obtain ⟨set, others⟩ := (setStyle_sets_one_iff a isProperty_width "1px").2 (by decide)
  exact ⟨set, others "color" (by decide)⟩

/-- The part of a value behind a semicolon is read as a declaration of its own. -/
theorem setStyle_splits_value :
    let a : Attributes := .ofList [("style", "color: red")]
    let b := a.setStyle "width" "1px; color: blue"
    ¬(b.style? "width" = some (Text.trimmed "1px; color: blue") ∧
      ∀ other, other ≠ "width" → b.style? other = a.style? other) := by
  intro a b
  have before : a.style? "color" = some "red" := by decide +kernel
  have after : b.style? "color" = some "blue" := by decide +kernel
  rintro ⟨-, others⟩
  have same := others "color" (by decide)
  rw [before, after] at same
  exact absurd same (by decide)

end Markup.Attributes

end LiveMarkup
