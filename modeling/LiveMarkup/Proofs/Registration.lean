import LiveMarkup.Dom.Registry
import LiveMarkup.Dom.Forest
import LiveMarkup.Proofs.Entries
import LiveMarkup.Proofs.Roundtrip

/-!
Registered names and the markup of what they create. A name that was accepted keeps its definition
through all later calls. The rule for names is wider than what markup reads as a tag: it leaves out
a few characters, while a tag goes on only with letters, digits and four marks of ASCII. So an
element of the name can be told from its markup exactly if the name has no other character.

Main statement: `Dom.Registry.created_reads_iff`.
-/
namespace LiveMarkup.Dom

/-! Names that can be registered. -/

/-- Such a name starts as a tag does and has no capital. -/
theorem custom_shape {tag : String} (custom : isCustomName tag = true) :
    (∃ c rest, tag.toList = c :: rest ∧ Markup.isTagStart c = true) ∧
      ∀ c ∈ tag.toList, c.isUpper = false := by
  simp only [isCustomName, Bool.and_eq_true, List.all_eq_true, Bool.not_eq_true'] at custom
  obtain ⟨⟨start, -⟩, plain⟩ := custom
  refine ⟨?_, fun c hc => (plain c hc).1.1.1⟩
  obtain ⟨c, first, small⟩ := (Option.any_eq_true _ _).1 start
  obtain ⟨rest, split⟩ := List.head?_eq_some_iff.1 first
  refine ⟨c, rest, split, ?_⟩
  change (c.isUpper || c.isLower) = true
  rw [small, Bool.or_true]

/-- The markup of a new element of a definition. -/
def Definition.markup (d : Definition) (f : Forest) : String :=
  let (n, f) := f.create (.element d.create)
  f.html n

/-- A new element stands for itself alone, whatever nodes there were before. -/
theorem Definition.markup_eq (d : Definition) (f : Forest) :
    d.markup f = Markup.html [.element d.create.tag d.create.attributes []] := by
  simp [Definition.markup, Forest.create, Forest.html, Forest.trees, Forest.treesWith, Node.alone]

/-- The markup of a new element of such a name reads as that element if and only if the name is one
of tag characters. -/
theorem parse_markup_iff {tag : String} (custom : isCustomName tag = true) (f : Forest) :
    Markup.parse (Definition.markup ⟨tag, none⟩ f) = .ok [.element tag .empty []] ↔
      ∀ c ∈ tag.toList, Markup.isTagChar c = true := by
  obtain ⟨start, small⟩ := custom_shape custom
  have same : Text.lowercase tag = tag := Markup.lowercase_of_small small
  rw [Definition.markup_eq, Definition.create, Element.ofTag, same]
  constructor
  · intro read
    have legible : Markup.LegibleAll [.element tag .empty []] := Markup.legible_of_parse read
    exact legible.1.1.readable
  · intro readable
    have legible : Markup.LegibleAll [.element tag .empty []] := by
      refine ⟨⟨⟨start, readable, small⟩, ?_, fun _ => rfl, fun _ => ⟨?_, ?_⟩, trivial⟩, trivial⟩
      · simp [Ordered.keys, Ordered.empty]
      · exact List.forall_mem_nil _
      · simp [Markup.Ends, Markup.contentAll]
    exact Markup.parse_html legible

namespace Registry

/-! Calls of `define`. -/

/-- The registry after one call; a call that is refused leaves it as it is. -/
def afterCall (r : Registry) (call : String × Option String) : Registry :=
  match r.define call.1 call.2 with
  | .ok (table, _) => table
  | .error _ => r

/-- The registry after calls in order. -/
def afterCalls (r : Registry) (calls : List (String × Option String)) : Registry :=
  calls.foldl afterCall r

variable {r table : Registry} {tag : String} {base : Option String} {d : Definition}

/-- A call is accepted if its name can be registered and is new; it adds one entry. -/
theorem define_eq_ok_iff :
    r.define tag base = .ok (table, d) ↔
      isCustomName tag = true ∧ r.contains tag = false ∧ d = ⟨tag, base.map Text.lowercase⟩ ∧
        table = r.insert tag d := by
  unfold define
  constructor
  · intro accepted
    split at accepted
    case isTrue => cases accepted
    case isFalse custom =>
      split at accepted
      case isTrue => cases accepted
      case isFalse new =>
        cases accepted
        exact ⟨by simpa using custom, by simpa using new, rfl, rfl⟩
  · rintro ⟨custom, new, rfl, rfl⟩
    simp [custom, new]

/-- A call leaves the definitions of before as they are. -/
theorem get?_afterCall (h : r.get? tag = some d) (call : String × Option String) :
    (r.afterCall call).get? tag = some d := by
  unfold afterCall
  split
  case h_1 accepted =>
    obtain ⟨-, new, -, rfl⟩ := define_eq_ok_iff.1 accepted
    have other : tag ≠ call.1 := by
      rintro rfl
      simp [Ordered.contains, h] at new
    rw [Ordered.get?_insert_of_ne _ other, h]
  case h_2 => exact h

theorem get?_afterCalls (h : r.get? tag = some d) (calls : List (String × Option String)) :
    (r.afterCalls calls).get? tag = some d := by
  induction calls generalizing r with
  | nil => exact h
  | cons call calls ih => exact ih (get?_afterCall h call)

/-- Wherever a name without base is accepted in a sequence of calls, it stays registered to the end
as it was accepted, and a new element of it has markup that reads as that one element, with exactly
its tag, no attributes and no children, if and only if the name has nothing but tag characters. -/
theorem created_reads_iff (before after : List (String × Option String))
    (accepted : (afterCalls .empty before).define tag none = .ok (table, d)) (f : Forest) :
    (afterCalls .empty (before ++ (tag, none) :: after)).get? tag = some d ∧
      (Markup.parse (d.markup f) = .ok [.element tag .empty []] ↔
        ∀ c ∈ tag.toList, Markup.isTagChar c = true) := by
  obtain ⟨custom, -, own, written⟩ := define_eq_ok_iff.1 accepted
  constructor
  · have there : (afterCall (afterCalls .empty before) (tag, none)).get? tag = some d := by
      simp only [afterCall, accepted, written, Ordered.get?_insert_self]
    simpa [afterCalls] using get?_afterCalls there after
  · subst own
    exact parse_markup_iff custom f

theorem created_reads_iff_item :
    let calls : List (String × Option String) := [("nohyphen", none), ("fancy-button", some "BUTTON")]
    ∃ table d, (afterCalls .empty calls).define "todo-item" none = .ok (table, d) ∧
      Markup.parse (d.markup .empty) = .ok [.element "todo-item" .empty []] := by
  intro calls
  have accepted : (afterCalls .empty calls).define "todo-item" none =
      .ok (_, ⟨"todo-item", none⟩) :=
    define_eq_ok_iff.2 ⟨by decide, by decide, rfl, rfl⟩
  exact ⟨_, _, accepted, (created_reads_iff calls [] accepted .empty).2.2
    (List.all_eq_true.1 (by decide))⟩

/-- A name with a letter outside ASCII is accepted, and its element is not read back. -/
theorem accented_misread :
    ∃ table d, Registry.define .empty "my-é" none = .ok (table, d) ∧
      Markup.parse (d.markup .empty) ≠ .ok [.element "my-é" .empty []] := by
  have custom : isCustomName "my-é" = true := by decide
  refine ⟨_, ⟨"my-é", none⟩, define_eq_ok_iff.2 ⟨custom, by decide, rfl, rfl⟩, ?_⟩
  intro read
  have letter := (parse_markup_iff custom .empty).1 read 'é' (by decide)
  exact absurd letter (by decide)

end Registry
end LiveMarkup.Dom
