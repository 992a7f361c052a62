import LiveMarkup.Proofs.Rescanning

/-!
Tidy templates: those whose scan tells tags, comments and attributes apart as a reader of markup does.
Where the two could part is decided character by character, by the place where the scan stands and by
what stands directly behind.
-/
namespace LiveMarkup.Template

/-- The chunks of a template with a hole between each two. -/
def gapped : List String → Gapped
  | [] => []
  | [last] => letters last.toList
  | chunk :: rest => letters chunk.toList ++ none :: gapped rest

theorem runs_letters (s : List Char) : runs (letters s) = [s] := by
  induction s with
  | nil => rfl
  | cons c s ih => simp [letters, runs, show runs (s.map some) = [s] from ih]

theorem runs_letters_hole (s : List Char) (g : Gapped) :
    runs (letters s ++ none :: g) = s :: runs g := by
  induction s with
  | nil => rfl
  | cons c s ih =>
    simp [letters, runs, show runs (s.map some ++ none :: g) = s :: runs g from ih]

/-- The runs of the characters are the chunks again. -/
theorem runs_gapped {chunks : List String} (some : chunks ≠ []) :
    (runs (gapped chunks)).map String.ofList = chunks := by
  induction chunks with
  | nil => exact absurd rfl some
  | cons chunk rest ih =>
    cases rest with
    | nil => simp [gapped, runs_letters]
    | cons next rest =>
      have later := ih (List.cons_ne_nil next rest)
      rw [gapped, runs_letters_hole, List.map_cons, later, String.ofList_toList]
      exact List.cons_ne_nil next rest

/-- The marks that values are quoted with. -/
def isQuote (c : Char) : Bool :=
  c == '\x22' || c == '\x27'

namespace Scan

/-- The scan behind a slot. -/
def pastSlot (s : Scan) : Scan :=
  (s.slotToken .standard "").2.nextChunk

/-- Whether a character leads a reader of markup to where it leads the scan; `rest` stands behind it. -/
def tidyAt (s : Scan) (c : Char) (rest : Gapped) : Bool :=
  match s.place with
  -- For a reader a second `<` may open a tag, and `</` opens one only in front of a letter.
  | .tagOpen => c != '<' && (c != '/' || rest.head?.any (Option.any Markup.isTagStart))
  -- A reader ends a name at any other character, and what follows is an attribute to it.
  | .tagName => Markup.isTagChar c || Text.isBlank c || c == '/' || c == '>'
  -- What cannot be part of a name is skipped by a reader, and the equals sign behind it too.
  | .tagInner | .selfClosing => c != '=' && !isQuote c
  | .attributeName =>
    !isQuote c && (Markup.isAttributeChar c || Text.lowercase s.attr != Config.standard.refAttribute)
  | .afterAttributeName => !isQuote c
  -- A slot is compiled to a value in quotes, which ends there for a reader.
  | .unquoted => s.read != 0 || Text.isBlank c || c == '>'
  -- A reader takes the first thing that looks like the end tag for it.
  | .rawText => !atEndTag s.tag s.raw || Text.isBlank c || c == '>'
  | _ => true

/-- Whether a comment opens with what could close it. -/
def opensClosed (data : Gapped) : Bool :=
  (letters ['>']).isPrefixOf data || (letters ['-', '>']).isPrefixOf data

/-- Whether each character that is left leads a reader of markup to where it leads the scan, up to an end
in text. -/
def tidy (s : Scan) (g : Gapped) : Bool :=
  match g with
  | [] => s.place == .outer
  | none :: rest => s.pastSlot.tidy rest
  | some c :: rest =>
    if s.place == .tagOpen && (letters ['!', '-', '-']).isPrefixOf (some c :: rest) then
      !opensClosed (rest.drop 2) && s.enterComment.tidy (rest.drop 2)
    else s.tidyAt c rest && (s.step c).tidy rest
termination_by g.length
decreasing_by all_goals simp only [List.length_cons, List.length_drop]; omega

theorem pastSlot_later (n : Nat) (s : Scan) : (s.later n).pastSlot = s.pastSlot.later n := by
  unfold pastSlot
  rw [later_slotToken]
  rfl

/-- The numbers of the references do not matter. -/
theorem tidy_later (n : Nat) (s : Scan) (g : Gapped) : (s.later n).tidy g = s.tidy g := by
  have place : (s.later n).place = s.place := rfl
  fun_induction tidy s g with
  | case1 s => rw [tidy, place]
  | case2 s rest ih => rw [tidy, pastSlot_later, ih rfl]
  | case3 s c rest opens ih =>
    rw [tidy, place, if_pos opens,
      show (s.later n).enterComment = s.enterComment.later n from rfl, ih rfl]
  | case4 s c rest other ih => rw [tidy, place, if_neg other, later_step, ih rfl]; rfl

end Scan

/-- Whether the scan of the chunks tells them apart as a reader of the compiled markup does. -/
def Tidy (chunks : List String) : Prop :=
  (Scan.start 0).tidy (gapped chunks) = true

instance : DecidablePred Tidy := fun _ => inferInstanceAs (Decidable (_ = _))

theorem Tidy.scan {chunks : List String} (h : Tidy chunks) (first : Nat) :
    (Scan.start first).tidy (gapped chunks) = true := by
  have same := Scan.tidy_later first (Scan.start 0) (gapped chunks)
  rw [show Tidy chunks = ((Scan.start 0).tidy (gapped chunks) = true) from rfl, ← same] at h
  exact h

example : Tidy
    ["<P class='a ", "' on:click=", " /><!-- <p \x22 --><script>a</b</script >1 < 2 ", "</p>"] := by
  decide +kernel

end LiveMarkup.Template
