import LiveMarkup.Proofs.Recompiling

/-!
Retouching: classes and styles are changed alike in elements that are the same but for references.
Blanks, colons and semicolons are no characters of references, so the words and declarations of a
text can be told apart whatever the references in them.
-/
namespace LiveMarkup.Renaming

open Template (Ref)

variable {rn : Renaming} {a b a' b' : String}

/-! Texts. -/

/-- Two texts with a mark between them. -/
theorem Strings.append_mark (h : rn.Strings rn.Free a b) (h' : rn.Strings rn.Free a' b') {c : Char}
    (other : c.isAlphanum = false) (mark : c ≠ '_') :
    rn.Strings rn.Free (a ++ String.singleton c ++ a') (b ++ String.singleton c ++ b') := by
  have joined := Texts.append_cons h h' other mark
  simpa [Strings] using joined

theorem Strings.empty : rn.Strings rn.Free "" "" :=
  Texts.plain .nil

theorem Strings.trimmed {P : List Char → Prop} (h : rn.Strings P a b) :
    rn.Strings P (Text.trimmed a) (Text.trimmed b) :=
  (Texts.trim h).strings

/-- Texts with blanks between them. By induction on the texts. -/
theorem strings_intercalate {l l' : List String} (h : List.Forall₂ (rn.Strings rn.Free) l l') :
    rn.Strings rn.Free (" ".intercalate l) (" ".intercalate l') := by
  induction h with
  | nil => exact .empty
  | @cons a b l l' here rest ih =>
    cases rest with
    | nil =>
      rw [String.intercalate_singleton, String.intercalate_singleton]
      exact here
    | cons next rest =>
      rw [String.intercalate_cons_cons, String.intercalate_cons_cons]
      exact here.append_mark ih (c := ' ') (by decide) (by decide)

/-! Names without marks. -/

/-- Where there is no underscore, there is nothing of a reference. -/
theorem Free.of_plain {s : List Char} (plain : '_' ∉ s) : rn.Free s :=
  fun first k _ _ core => plain (core.subset (by simp [Ref.core]))

/-- Small letters and other characters that stand for themselves. -/
theorem Silent.of_plain {s : List Char}
    (plain : ∀ c ∈ s, c.toLower = c ∧ c ≠ '_' ∧ c ≠ '&') : rn.Silent s := by
  intro u inside
  have plain : ∀ c ∈ u, c.toLower = c ∧ c ≠ '_' ∧ c ≠ '&' := fun c mem =>
    plain c (inside.subset mem)
  have none : '_' ∉ u := fun mem => (plain _ mem).2.1 rfl
  have small : u.map Char.toLower = u :=
    (List.map_congr_left fun c mem => (plain c mem).1).trans (List.map_id u)
  have whole : Markup.decode u = u := by
    have decoded := Markup.decode_plain (fun mem => (plain '&' mem).2.2 rfl) ([] : List Char)
    rwa [List.append_nil, Markup.decode_nil, List.append_nil] at decoded
  rw [Raw, small, whole]
  exact ⟨.of_plain none, .of_plain none⟩

theorem silent_class : rn.Silent "class".toList :=
  .of_plain (Text.forall_mem_of_all (by decide))

theorem silent_style : rn.Silent "style".toList :=
  .of_plain (Text.forall_mem_of_all (by decide))

/-! Classes. -/

namespace Attributes
variable {x y : Markup.Attributes}

theorem classes (h : rn.Attributes (fun _ => rn.Free) x y) :
    List.Forall₂ (rn.Strings rn.Free) x.classes y.classes := by
  have both := h.value? silent_class.strings
  unfold Markup.Attributes.classes
  generalize x.value? "class" = o, y.value? "class" = o' at both
  cases both with
  | none => exact .nil
  | some same =>
    show List.Forall₂ _ (Text.words _) (Text.words _)
    unfold Text.words
    rw [List.forall₂_map_left_iff, List.forall₂_map_right_iff]
    exact (Texts.words same).imp fun _ _ word => word.strings

theorem contains_rel {l l' : List String} (h : List.Forall₂ (rn.Strings rn.Free) l l')
    (same : rn.Strings rn.Free a b) : l.contains a = l'.contains b := by
  induction h with
  | nil => rfl
  | cons here _ ih => rw [List.contains_cons, List.contains_cons, same.beq here, ih]

theorem toggleClass (h : rn.Attributes (fun _ => rn.Free) x y) {name : String}
    (named : rn.Strings rn.Free name name) (on : Bool) :
    rn.Attributes (fun _ => rn.Free) (x.toggleClass name on) (y.toggleClass name on) := by
  have classes := h.classes
  have same : x.hasClass name = y.hasClass name := contains_rel classes named
  unfold Markup.Attributes.toggleClass
  rw [← same]
  split
  · exact h
  · refine h.set silent_class.strings (strings_intercalate ?_)
    cases on with
    | true => exact List.rel_append classes (.cons named .nil)
    | false =>
      refine List.rel_filter (fun e e' both => ?_) classes
      simp only [bne, both.beq named]

end Attributes

/-! Styles. -/

/-- Two declarations. -/
def Declarations (rn : Renaming) (p q : String × String) : Prop :=
  rn.Strings rn.Free p.1 q.1 ∧ rn.Strings rn.Free p.2 q.2

theorem declaration?_rel (h : rn.Strings rn.Free a b) :
    Option.Rel rn.Declarations (Markup.Attributes.declaration? a)
      (Markup.Attributes.declaration? b) := by
  have cut : Option.Rel (rn.Pairs rn.Free) (Text.cut? [':'] a.toList) (Text.cut? [':'] b.toList) :=
    Texts.cut? h (by decide) (by decide)
  unfold Markup.Attributes.declaration? Text.cutAt?
  generalize Text.cut? [':'] a.toList = o, Text.cut? [':'] b.toList = o' at cut
  cases cut with
  | none => exact .none
  | some both =>
    have property := both.1.strings.trimmed
    dsimp only [Option.map]
    rw [← property.isEmpty]
    split
    · exact .none
    · exact .some ⟨property, both.2.strings.trimmed⟩

/-- The declarations of a style, in order. -/
def Styles (rn : Renaming) (m m' : Ordered String String) : Prop :=
  Entries (rn.Strings rn.Free) (fun _ => rn.Strings rn.Free) m.entries m'.entries

theorem styles_ofList {l l' : List (String × String)} (h : List.Forall₂ rn.Declarations l l') :
    rn.Styles (.ofList l) (.ofList l') := by
  have run : ∀ {m m'}, rn.Styles m m' →
      rn.Styles (l.foldl (fun m e => m.insert e.1 e.2) m)
        (l'.foldl (fun m e => m.insert e.1 e.2) m') := by
    induction h with
    | nil => exact fun built => built
    | cons here _ ih => exact fun built => ih (Entries.put built sharp_strings here.1 here.2)
  exact run List.Forall₂.nil

theorem Attributes.styles {x y : Markup.Attributes} (h : rn.Attributes (fun _ => rn.Free) x y) :
    rn.Styles x.styles y.styles := by
  have both := h.value? silent_style.strings
  unfold Markup.Attributes.styles
  generalize x.value? "style" = o, y.value? "style" = o' at both
  cases both with
  | none => exact List.Forall₂.nil
  | @some s s' same =>
    have pieces : List.Forall₂ (rn.Strings rn.Free) (Text.pieces ";" s) (Text.pieces ";" s') := by
      have cut : List.Forall₂ (rn.Texts rn.Free) (Text.splitOn [';'] s.toList)
          (Text.splitOn [';'] s'.toList) := Texts.pieces same (by decide) (by decide)
      unfold Text.pieces
      rw [List.forall₂_map_left_iff, List.forall₂_map_right_iff]
      exact cut.imp fun _ _ piece => piece.strings
    have declared : List.Forall₂ rn.Declarations
        ((Text.pieces ";" s).filterMap Markup.Attributes.declaration?)
        ((Text.pieces ";" s').filterMap Markup.Attributes.declaration?) :=
      List.rel_filterMap (fun _ _ piece => declaration?_rel piece) pieces
    exact styles_ofList declared

theorem styleText_rel {m m' : Ordered String String} (h : rn.Styles m m') :
    rn.Strings rn.Free (Markup.Attributes.styleText m) (Markup.Attributes.styleText m') := by
  have one : ∀ p q : String × String, rn.Declarations p q →
      rn.Strings rn.Free (p.1 ++ ": " ++ p.2 ++ ";") (q.1 ++ ": " ++ q.2 ++ ";") := by
    intro p q both
    have colon := both.1.append_mark .empty (c := ':') (by decide) (by decide)
    have blank := colon.append_mark both.2 (c := ' ') (by decide) (by decide)
    have whole := blank.append_mark .empty (c := ';') (by decide) (by decide)
    have text : ∀ p : String × String, p.1 ++ ": " ++ p.2 ++ ";" =
        p.1 ++ String.singleton ':' ++ "" ++ String.singleton ' ' ++ p.2 ++ String.singleton ';' ++
          "" := fun p => String.toList_inj.1 (by simp)
    rw [text, text]
    exact whole
  have declared : List.Forall₂ rn.Declarations m.entries m'.entries := h
  refine strings_intercalate ?_
  rw [List.forall₂_map_left_iff, List.forall₂_map_right_iff]
  exact declared.imp one

theorem Attributes.setStyle {x y : Markup.Attributes}
    (h : rn.Attributes (fun _ => rn.Free) x y) {property : String}
    (named : rn.Strings rn.Free property property) (values : rn.Strings rn.Free a b) :
    rn.Attributes (fun _ => rn.Free) (x.setStyle property a) (y.setStyle property b) := by
  have styles := h.styles
  unfold Markup.Attributes.setStyle
  refine h.set silent_style.strings (styleText_rel ?_)
  rw [← values.isEmpty]
  split
  · exact Entries.erase styles sharp_strings named
  · exact Entries.put styles sharp_strings named values

end LiveMarkup.Renaming
