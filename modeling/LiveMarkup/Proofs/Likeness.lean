import LiveMarkup.Proofs.Matching
import LiveMarkup.Proofs.Entries

/-!
Likeness: two forests in which the same nodes stand in the same places. They hold the same, but for
the texts of some nodes and the values of some attributes of marked elements. Moving nodes keeps two
forests alike, and a search by the mark comes to the same element in both.
-/
namespace LiveMarkup

namespace Markup.Attributes

/-- The attributes have the same names in the same order, and the same values but under names that
may vary. -/
structure Alike (varies : String → Prop) (a b : Attributes) : Prop where
  keys : a.keys = b.keys
  values : ∀ name, ¬ varies name → a.get? name = b.get? name

variable {varies varies' : String → Prop} {a b : Attributes}

theorem Alike.mono (h : Alike varies a b) (imp : ∀ name, varies name → varies' name) :
    Alike varies' a b :=
  ⟨h.keys, fun name fixed => h.values name fun varies => fixed (imp name varies)⟩

theorem Alike.set (h : Alike varies a b) {name : String} (written : varies (Text.lowercase name))
    (s t : String) : Alike varies (a.set name s) (b.set name t) := by
  refine ⟨Ordered.keys_insert_congr h.keys _ s t, fun other fixed => ?_⟩
  have ne : other ≠ Text.lowercase name := by
    rintro rfl
    exact fixed written
  rw [Attributes.set, Attributes.set, Ordered.get?_insert_of_ne _ ne, Ordered.get?_insert_of_ne _ ne]
  exact h.values other fixed

theorem value?_of_hasClass {name : String} (h : a.hasClass name = true) :
    ∃ text, a.get? "class" = some text := by
  cases found : a.get? "class" with
  | some text => exact ⟨text, rfl⟩
  | none =>
    have lower : Text.lowercase "class" = "class" := by decide
    have empty : a.classes = [] := by
      rw [classes, value?, lower, found]
      rfl
    rw [hasClass, empty] at h
    cases h

/-- Which names there are after a class is toggled does not depend on what the classes were. -/
theorem keys_toggleClass (a : Attributes) (name : String) (on : Bool) :
    (a.toggleClass name on).keys = if on then (a.set "class" "").keys else a.keys := by
  have written : ∀ text, (a.set "class" text).keys = (a.set "class" "").keys :=
    fun text => Ordered.keys_insert_congr rfl _ text ""
  have kept : a.hasClass name = true → (a.set "class" "").keys = a.keys := by
    intro has
    obtain ⟨text, found⟩ := value?_of_hasClass has
    exact Ordered.keys_insert_of_get? found ""
  unfold toggleClass
  cases on with
  | true =>
    cases has : a.hasClass name with
    | true => simpa using (kept has).symm
    | false => simpa using written _
  | false =>
    cases has : a.hasClass name with
    | true => simpa using (written _).trans (kept has)
    | false => simp

theorem Alike.toggleClass (h : Alike varies a b) (written : varies "class") (name : String)
    (on : Bool) : Alike varies (a.toggleClass name on) (b.toggleClass name on) := by
  have lower : Text.lowercase "class" = "class" := by decide
  have fixed : ∀ (c : Attributes) other, ¬ varies other →
      (c.toggleClass name on).get? other = c.get? other := by
    intro c other fixed
    have ne : other ≠ Text.lowercase "class" := by
      rw [lower]
      rintro rfl
      exact fixed written
    unfold Attributes.toggleClass
    split
    · rfl
    · exact Ordered.get?_insert_of_ne _ ne _
  refine ⟨?_, fun other ho => ?_⟩
  · rw [keys_toggleClass, keys_toggleClass]
    split
    · exact Ordered.keys_insert_congr h.keys _ "" ""
    · exact h.keys
  · rw [fixed a other ho, fixed b other ho]
    exact h.values other ho

theorem Alike.setStyle (h : Alike varies a b) (written : varies "style") (property s t : String) :
    Alike varies (a.setStyle property s) (b.setStyle property t) :=
  have lower : Text.lowercase "style" = "style" := by decide
  h.set (lower ▸ written) _ _

end Markup.Attributes

namespace Dom

/-- What may differ where two forests are alike. -/
structure Leeway where
  /-- The attribute that marks elements. -/
  mark : String
  /-- Texts that a node may hold in one forest and in the other. -/
  text : NodeId → String → String → Prop
  /-- The names under which an element may have any value, given its mark. -/
  value : String → String → Prop

namespace Leeway
variable (lw : Leeway)

/-- The names under which an element may have any value. -/
def Varies (a : Markup.Attributes) (name : String) : Prop :=
  ∃ r, a.value? lw.mark = some r ∧ lw.value r name

/-- Elements that differ in their attributes at most, in those values that may vary. -/
structure Elements (e e' : Element) : Prop where
  tag : e.tag = e'.tag
  mark : e.attributes.value? lw.mark = e'.attributes.value? lw.mark
  attributes : Markup.Attributes.Alike (lw.Varies e.attributes) e.attributes e'.attributes
  value : e.value = e'.value
  checked : e.checked = e'.checked

/-- What a node may be in one forest and in the other. -/
inductive Contents (n : NodeId) : Content → Content → Prop where
  | fragment : Contents n .fragment .fragment
  | element {e e' : Element} (h : lw.Elements e e') : Contents n (.element e) (.element e')
  | text {s t : String} (h : s = t ∨ lw.text n s t) : Contents n (.text s) (.text t)
  | comment (data : String) : Contents n (.comment data) (.comment data)

/-- Nodes with the same links. -/
structure Nodes (n : NodeId) (a b : Node) : Prop where
  content : lw.Contents n a.content b.content
  parent : a.parent = b.parent
  children : a.children = b.children
  connected : a.connected = b.connected

/-- Forests with the same nodes. -/
structure Forests (f g : Forest) : Prop where
  size : f.size = g.size
  node : ∀ n, lw.Nodes n (f.get n) (g.get n)

variable {lw} {n p : NodeId} {f g : Forest}

theorem Elements.refl (e : Element) : lw.Elements e e :=
  ⟨rfl, rfl, ⟨rfl, fun _ _ => rfl⟩, rfl, rfl⟩

theorem Contents.refl (n : NodeId) (c : Content) : lw.Contents n c c := by
  cases c with
  | fragment => exact .fragment
  | element e => exact .element (.refl e)
  | text data => exact .text (.inl rfl)
  | comment data => exact .comment data

theorem Contents.carries {c c' : Content} (h : lw.Contents n c c') (value : String) :
    c.carries lw.mark value = c'.carries lw.mark value := by
  cases h with
  | element h => simp only [Content.carries, h.mark]
  | fragment | text _ | comment _ => rfl

theorem tellsFragments : Forest.TellsFragments lw.Contents := by
  intro n a b h
  cases h with
  | fragment | element _ | text _ | comment _ => rfl

theorem forests_iff : lw.Forests f g ↔ Forest.Matches lw.Contents f g := by
  constructor
  · exact fun h => ⟨h.size, fun n => ⟨(h.node n).content, (h.node n).parent, (h.node n).children,
      (h.node n).connected⟩⟩
  · exact fun h => ⟨h.size, fun n => ⟨(h.node n).content, (h.node n).parent, (h.node n).children,
      (h.node n).connected⟩⟩

namespace Forests

theorem refl (f : Forest) : lw.Forests f f :=
  ⟨rfl, fun n => ⟨.refl n _, rfl, rfl, rfl⟩⟩

theorem create (h : lw.Forests f g) {c c' : Content} (alike : lw.Contents f.next c c') :
    (f.create c).1 = (g.create c').1 ∧ lw.Forests (f.create c).2 (g.create c').2 := by
  obtain ⟨next, made⟩ := (forests_iff.1 h).create alike
  exact ⟨next, forests_iff.2 made⟩

theorem takeForInsertion (h : lw.Forests f g) (n : NodeId) :
    (f.takeForInsertion n).1 = (g.takeForInsertion n).1 ∧
      lw.Forests (f.takeForInsertion n).2 (g.takeForInsertion n).2 := by
  obtain ⟨same, taken⟩ := (forests_iff.1 h).takeForInsertion tellsFragments n
  exact ⟨same, forests_iff.2 taken⟩

theorem splice (h : lw.Forests f g) (n : NodeId) (l : List NodeId) :
    (f.splice n l).2 = (g.splice n l).2 ∧ lw.Forests (f.splice n l).1 (g.splice n l).1 := by
  obtain ⟨same, spliced⟩ := (forests_iff.1 h).splice tellsFragments n l
  exact ⟨same, forests_iff.2 spliced⟩

/-- Changing the attributes of an element that the mark gives `r`. -/
theorem mapAttributes (h : lw.Forests f g) {r : String} (carries : f.Carries lw.mark r n)
    {u v : Markup.Attributes → Markup.Attributes}
    (alike : ∀ a b, Markup.Attributes.Alike (lw.value r) a b →
      Markup.Attributes.Alike (lw.value r) (u a) (v b))
    (kept : ∀ a, (u a).value? lw.mark = a.value? lw.mark)
    (kept' : ∀ a, (v a).value? lw.mark = a.value? lw.mark) :
    lw.Forests (f.mapAttributes n u) (g.mapAttributes n v) := by
  refine forests_iff.2 ((forests_iff.1 h).modify n ?_)
  obtain ⟨content, parent, children, connected⟩ := h.node n
  unfold Forest.Carries at carries
  unfold Node.mapElement
  generalize hc : (f.get n).content = c, hc' : (g.get n).content = c' at content carries
  cases content with
  | fragment | text _ | comment _ => cases carries
  | element alikes =>
    have marked := beq_iff_eq.1 carries
    have before := alikes.attributes.mono fun name ⟨r', hr', varies⟩ => by
      rw [marked] at hr'
      exact Option.some.inj hr' ▸ varies
    have after : Markup.Attributes.Alike (lw.Varies (u _)) (u _) (v _) :=
      (alike _ _ before).mono fun name varies => ⟨r, (kept _).trans marked, varies⟩
    have mark := ((kept _).trans alikes.mark).trans (kept' _).symm
    exact ⟨.element ⟨alikes.tag, mark, after, alikes.value, alikes.checked⟩, parent, children,
      connected⟩

theorem find (h : lw.Forests f g) (n : NodeId) (r : String) :
    f.findByAttribute n lw.mark r = g.findByAttribute n lw.mark r := by
  unfold Forest.findByAttribute
  rw [(forests_iff.1 h).descendants]
  refine congrArg (List.find? · _) (funext fun c => ?_)
  rw [Bool.eq_iff_iff, Forest.carries_iff, Forest.carries_iff, Forest.Carries, Forest.Carries,
    (h.node c).content.carries]

end Forests
end Leeway
end Dom
end LiveMarkup
