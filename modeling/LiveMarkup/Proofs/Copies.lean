import LiveMarkup.Proofs.Matching
import LiveMarkup.Proofs.Recompiling

/-!
Copies: what two compilations of a template make of it when their fragments are copied. Both copies
have the same nodes, which are the same but for references, so that a search by a reference comes to
the same element in both.
-/
namespace LiveMarkup.Renaming

open Template (Ref)
open Dom (Content Forest)

variable {rn : Renaming} {P : String → List Char → Prop} {limit : Nat} {f g : Forest} {n : NodeId}

variable (rn) in
/-- What a node of one copy and the same node of the other are. -/
inductive Contents (P : String → List Char → Prop) : Content → Content → Prop
  | fragment : Contents P .fragment .fragment
  | element {tag tag' : String} {a b : Markup.Attributes} {value : Option String}
    {checked : Option Bool} (tags : rn.Strings rn.Free tag tag') (attributes : rn.Attributes P a b) :
    Contents P (.element ⟨tag, a, value, checked⟩) (.element ⟨tag', b, value, checked⟩)
  | text {s t : String} (data : rn.Strings (fun _ => True) s t) : Contents P (.text s) (.text t)
  | comment {s t : String} (data : rn.Strings (fun _ => True) s t) :
    Contents P (.comment s) (.comment t)

variable (rn) in
/-- The nodes from `limit` on are those of the copies; the others are the same. -/
def Copied (P : String → List Char → Prop) (limit : Nat) (n : NodeId) (c c' : Content) : Prop :=
  if n.index < limit then c = c' else rn.Contents P c c'

theorem tellsFragments : Forest.TellsFragments (rn.Copied P limit) := by
  intro n c c' h
  unfold Copied at h
  split at h
  · rw [h]
  · cases h with
    | fragment | element _ _ | text _ | comment _ => rfl

theorem copied_of_new (new : limit ≤ n.index) {c c' : Content} (h : rn.Contents P c c') :
    rn.Copied P limit n c c' := by
  rw [Copied, if_neg (Nat.not_lt.2 new)]
  exact h

theorem matches_self (f : Forest) (size : f.size ≤ limit) : f.Matches (rn.Copied P limit) f := by
  refine ⟨rfl, fun n => ⟨?_, rfl, rfl, rfl⟩⟩
  rcases Nat.lt_or_ge n.index limit with old | new
  · rw [Copied, if_pos old]
  · rw [Forest.get_unknown (Nat.le_trans size new)]
    exact copied_of_new new .fragment

/-! Planting. -/

theorem matches_create (h : f.Matches (rn.Copied P limit) g) (size : limit ≤ f.size)
    {c c' : Content} (same : rn.Contents P c c') :
    (f.create c).1 = (g.create c').1 ∧ (f.create c).2.Matches (rn.Copied P limit) (g.create c').2 ∧
      limit ≤ (f.create c).2.size := by
  have holds : rn.Copied P limit f.next c c' := copied_of_new size same
  obtain ⟨next, made⟩ := h.create holds
  exact ⟨next, made, by rw [Forest.size_create]; exact Nat.le_succ_of_le size⟩

/-- By induction on the trees. -/
theorem matches_plantAll {l l' : List Markup.Tree} (trees : rn.Trees P l l')
    (h : f.Matches (rn.Copied P limit) g) (size : limit ≤ f.size) (p : NodeId) :
    (f.plantAll p l).Matches (rn.Copied P limit) (g.plantAll p l') ∧
      limit ≤ (f.plantAll p l).size := by
  induction trees generalizing f g p with
  | nil => exact ⟨h, size⟩
  | @element tag tag' a b _ _ _ _ tags attributes _ _ inside beside =>
    have element : rn.Contents P (.element ⟨tag, a, none, none⟩) (.element ⟨tag', b, none, none⟩) :=
      .element tags attributes
    obtain ⟨next, made, size⟩ := matches_create h size element
    obtain ⟨planted, size⟩ := inside made size (f.create (.element ⟨tag, a, none, none⟩)).1
    have attached := planted.attach p (f.create (.element ⟨tag, a, none, none⟩)).1
    have whole := beside attached (by rw [Forest.size_attach]; exact size) p
    rw [Forest.plantAll, Forest.plantAll, Forest.plant, Forest.plant]
    dsimp only
    rw [← next]
    exact whole
  | @text s t _ _ data _ beside =>
    obtain ⟨next, made, size⟩ := matches_create h size (.text data)
    have attached := made.attach p (f.create (.text s)).1
    have whole := beside attached (by rw [Forest.size_attach]; exact size) p
    rw [Forest.plantAll, Forest.plantAll, Forest.plant, Forest.plant]
    dsimp only
    rw [← next]
    exact whole
  | @comment s t _ _ data _ beside =>
    obtain ⟨next, made, size⟩ := matches_create h size (.comment data)
    have attached := made.attach p (f.create (.comment s)).1
    have whole := beside attached (by rw [Forest.size_attach]; exact size) p
    rw [Forest.plantAll, Forest.plantAll, Forest.plant, Forest.plant]
    dsimp only
    rw [← next]
    exact whole

/-- The copies of two fragments. -/
theorem matches_plantFragment {l l' : List Markup.Tree} (trees : rn.Trees P l l') (f : Forest) :
    (f.plantFragment l).2.Matches (rn.Copied P f.size) (f.plantFragment l').2 := by
  obtain ⟨-, made, size⟩ :=
    matches_create (matches_self f (Nat.le_refl _)) (Nat.le_refl _) .fragment
  exact (matches_plantAll trees made size _).1

/-! Searches. -/

variable (closed : ∀ p : NodeId, limit ≤ p.index → ∀ c ∈ (f.get p).children, limit ≤ c.index)
include closed

end LiveMarkup.Renaming
