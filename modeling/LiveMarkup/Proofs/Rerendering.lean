import LiveMarkup.Proofs.Copies
import LiveMarkup.Proofs.Retouching
import LiveMarkup.Proofs.Pairing
import LiveMarkup.Proofs.Wording
import LiveMarkup.Proofs.ReadBack

/-!
Rerendering: a template that was compiled twice is rendered with the same plain values. Both
renderings take the same course and make the same nodes, with the same in them but for references.
-/
namespace LiveMarkup

/-! Plain values. -/

namespace Value
variable {v : Value}

/-- A value that is neither a node nor an object. -/
def IsPlain : Value → Prop
  | .node _ | .object _ => False
  | .null | .bool _ | .number _ | .string _ | .date _ => True

/-- The text of a value where no node is looked at. -/
def plainText (v : Value) : String :=
  v.text fun _ => ""

/-- What a plain value contributes to a text; null contributes nothing. -/
def contribution (v : Value) : String :=
  if v.isNull then "" else v.plainText

end Value

namespace Template

/-- The text that parts of an attribute make together. -/
def putTogether (values : List Value) : List Part → String
  | [] => ""
  | .literal text :: rest => text ++ putTogether values rest
  | .slot index :: rest => (values[index]?.getD .null).contribution ++ putTogether values rest

end Template

namespace Renaming

open Template (Part)

variable {rn : Renaming} {P : String → List Char → Prop}

/-- A plain value whose text could not be taken for a reference that is given out. -/
structure Harmless (rn : Renaming) (v : Value) : Prop where
  plain : v.IsPlain
  free : ∀ s, v = .string s → rn.Free s.toList

theorem Free.of_numeric {s : List Char} (numeric : Numeric s) : rn.Free s :=
  .of_plain fun mem => absurd (numeric _ mem) (by decide)

theorem Harmless.text {v : Value} (h : rn.Harmless v) : rn.Free v.plainText.toList := by
  cases v with
  | null => exact .of_plain (by decide)
  | bool b =>
    cases b with
    | false => exact .of_plain (by decide)
    | true => exact .of_plain (by decide)
  | number n => exact .of_numeric n.numeric_text
  | string s => exact h.free s rfl
  | date d => exact .of_numeric d.numeric_text
  | node _ | object _ => exact h.plain.elim

end Renaming

namespace Live

open Template (Slot Descriptor Ref Part Programs)

/-! Effects. -/

/-- What a plain value that comes through an effect does to the attributes of its element. -/
def Effect.touch (v : Value) : Effect → Markup.Attributes → Markup.Attributes
  | .attr name, a => if v.isNull then a.remove name else a.set name v.plainText
  | .wholeAttr name, a => a.set name v.plainText
  | .classes name, a => a.toggleClass name v.isTruthy
  | .style property, a => a.setStyle property v.plainText
  | .form _, a | .text, a => a

/-- Two compilations of a template in worlds with the same nodes. -/
structure Twins where
  rn : Renaming
  here : World
  there : World
  nodes : here.nodes = there.nodes
  d : Descriptor
  d' : Descriptor
  same : rn.Descriptors d d'

namespace Twins
variable (t : Twins)

/-- The attribute that marks elements. -/
def mark : String :=
  t.d.config.refAttribute

/-- The copy of the first rendering. -/
def copy : Dom.Forest :=
  (Render.copied t.here t.d).nodes

theorem planted : Dom.Forest.Planted t.here.nodes t.d.fragment t.copy :=
  (Dom.Forest.planted t.here.nodes t.d.fragment).2

/-- Nothing is brought in. -/
def filling : Filling :=
  ⟨.planted t.planted (fun _ => False) (fun _ => False.elim), t.mark, True, False⟩

/-- The two forests are the same but for references, and nothing of the copies is mounted. -/
structure Level (P : String → List Char → Prop) (f g : Dom.Forest) : Prop where
  alike : f.Matches (t.rn.Copied P t.here.nodes.size) g
  good : t.filling.Good { t.here with nodes := f }

variable {t} {P P' : String → List Char → Prop} {f g : Dom.Forest} {n : NodeId}

theorem inside_iff : t.filling.scene.Inside n ↔ t.here.nodes.size ≤ n.index :=
  ⟨fun h => h.resolve_left id, .inr⟩

theorem Level.mono (h : t.Level P f g) (imp : ∀ name u, P name u → P' name u) : t.Level P' f g := by
  refine ⟨h.alike.mono fun n c c' same => ?_, h.good⟩
  unfold Renaming.Copied at same ⊢
  split at same
  · rwa [if_pos ‹_›]
  · rw [if_neg ‹_›]
    cases same with
    | fragment => exact .fragment
    | element tags attributes =>
      exact .element tags (attributes.mono fun name _ _ same => same.mono (imp name))
    | text data => exact .text data
    | comment data => exact .comment data

theorem Level.closed (h : t.Level P f g) : ∀ p : NodeId, t.here.nodes.size ≤ p.index →
    ∀ c ∈ (f.get p).children, t.here.nodes.size ≤ c.index :=
  fun p hp c hc => inside_iff.1 (h.good.tidy.closed p (inside_iff.2 hp) c hc)

/-- The two copies. -/
theorem level_copied : t.Level (fun _ => t.rn.Free) t.copy (Render.copied t.there t.d').nodes := by
  refine ⟨?_, ?_, fun _ => ?_⟩
  · have copies := Renaming.matches_plantFragment t.same.fragment t.here.nodes
    rw [Render.copied, ← t.nodes]
    exact copies
  · exact Dom.Scene.tidy_planted t.planted fun _ hp => hp.elim
  · exact Dom.Scene.unmounted_planted t.planted fun _ hp => hp.elim

/-! What the steps of a rendering do to both forests. -/

/-- An effect that keeps attributes the same but for references. -/
def Tame (t : Twins) (P : String → List Char → Prop) (v : Value) (e : Effect) : Prop :=
  e.written?.isSome ∧
    ∀ a b, t.rn.Attributes P a b → t.rn.Attributes P (e.touch v a) (e.touch v b)

/-- A slot and its value in both templates. -/
def Given (rn : Renaming) (p p' : Slot × TemplateValue) : Prop :=
  rn.Slots p.1 p'.1 ∧ ∃ v, rn.Harmless v ∧ p.2 = .value v ∧ p'.2 = .value v

/-- The attribute that marks elements has no references in it but its own. -/
def Kept (t : Twins) (name : String) (u : List Char) : Prop :=
  name = Text.lowercase t.mark → t.rn.Free u

/-- Sources that read as the text that parts make together. -/
structure Reads (values : List Value) (parts : List Part) (l : List Render.Source) : Prop where
  still : l.any Render.Source.isSignal = false
  text : ∀ soFar run w, ((Render.joined soFar l).run .passing : Op Value) run w =
    .ok (.string (soFar ++ Template.putTogether values parts), w)

/-- A source that adds to a text what a part does. -/
def Fits (values : List Value) (part : Part) (source : Render.Source) : Prop :=
  ∀ parts l, Reads values parts l → Reads values (part :: parts) (source :: l)

section
variable {values : List Value} {part part' : Part} {parts parts' : List Part}

theorem Reads.nil : Reads values [] [] :=
  ⟨rfl, fun soFar _ _ => by rw [Template.putTogether, String.append_empty]; rfl⟩

/-- What is put together keeps the attribute that marks elements. -/
def Spares (t : Twins) (values : List Value) (name : String) (parts : List Part) : Prop :=
  Text.lowercase name = Text.lowercase t.mark →
    t.rn.Free (Template.putTogether values parts).toList

end

end Twins

/-! Renderings. -/

section
variable {w : World} {d : Descriptor} {values : List TemplateValue} {run : Runner} {f : Dom.Forest}

end

namespace Twins
variable {t : Twins} {values : List Value}

end Twins
end Live
end LiveMarkup
