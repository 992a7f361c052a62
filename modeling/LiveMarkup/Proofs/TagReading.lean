import LiveMarkup.Proofs.Excising

/-!
How a reader of markup takes a start tag that grows character by character. At every moment it has read
some attributes and holds the beginning of one; a tidy character leads it to where it leads the scan.
-/
namespace LiveMarkup

namespace Markup

/-- The attributes with one more. Of two with one name the first counts. -/
def Attributes.give (found : Attributes) (name value : String) : Attributes :=
  if found.has name then found else found.set name value

/-- Blanks in front do not matter. -/
theorem readAttributes_congr {s t : List Char} (found : Attributes)
    (h : Text.trimStart s = Text.trimStart t) :
    readAttributes found s = readAttributes found t := by
  rw [readAttributes.eq_def found t]
  split
  case h_1 e =>
    rw [readAttributes.eq_def]
    split
    case h_1 => rfl
    case h_2 e' => cases e'.symm.trans (h.trans e)
    case h_3 e' => cases e'.symm.trans (h.trans e)
    case h_4 e' => cases e'.symm.trans (h.trans e)
  case h_2 e => exact readAttributes_selfClosing found (h.trans e)
  case h_3 e => exact readAttributes_close found (h.trans e)
  case h_4 c rest other close e =>
    rw [readAttributes.eq_def found s]
    split
    case h_1 e' => cases e'.symm.trans (h.trans e)
    case h_2 e' =>
      obtain ⟨rfl, rfl⟩ := List.cons.inj (e'.symm.trans (h.trans e))
      exact absurd rfl (other _ rfl)
    case h_3 e' => exact absurd (List.cons.inj (e'.symm.trans (h.trans e))).1.symm close
    case h_4 e' =>
      obtain ⟨rfl, rfl⟩ := List.cons.inj (e'.symm.trans (h.trans e))
      rfl

theorem trimStart_append {u : List Char} (blank : ∀ c ∈ u, Text.isBlank c = true) (s : List Char) :
    Text.trimStart (u ++ s) = Text.trimStart s :=
  List.dropWhile_append_of_pos blank

theorem isAttributeChar_of_isBlank {c : Char} (h : Text.isBlank c = true) :
    isAttributeChar c = false := by
  simp [isAttributeChar, h]

section
variable {name k u s raw after : List Char} {c : Char}

/-- An attribute without a value ends where something else begins. -/
theorem readAttributes_flag (found : Attributes) (nonempty : name ≠ [])
    (readable : ∀ d ∈ name, isAttributeChar d = true) (blank : ∀ d ∈ u, Text.isBlank d = true)
    (ends : u = [] → isAttributeChar c = false) (shown : Text.isBlank c = false) (other : c ≠ '=') :
    readAttributes found (name ++ (u ++ c :: s)) =
      readAttributes (found.give (String.ofList name) "") (c :: s) := by
  have trimmed : Text.trimStart (u ++ c :: s) = c :: s :=
    (trimStart_append blank _).trans (trimStart_of_not_blank shown s)
  have assigned : readAssigned (u ++ c :: s) = .ok ("", c :: s) := by
    unfold readAssigned
    rw [trimmed]
    split
    case h_1 e => exact absurd (List.cons.inj e).1 other
    case h_2 => rfl
  obtain ⟨d, more, rfl⟩ := List.exists_cons_of_ne_nil nonempty
  refine readAttributes_named (u ++ c :: s) found
    (trimStart_of_not_blank (not_blank_of_isAttributeChar (readable d List.mem_cons_self)) _)
    nonempty readable ?_ assigned
  cases u with
  | nil => simpa using ends
  | cons b u => simpa using isAttributeChar_of_isBlank (blank b List.mem_cons_self)

/-- The name of an attribute and the equals sign behind it, with blanks around that. -/
structure Key (name k : List Char) : Prop where
  nonempty : name ≠ []
  readable : ∀ c ∈ name, isAttributeChar c = true
  form : ∃ u v, k = name ++ (u ++ '=' :: v) ∧ (∀ c ∈ u, Text.isBlank c = true) ∧
    ∀ c ∈ v, Text.isBlank c = true

namespace Key

theorem start (nonempty : name ≠ []) (readable : ∀ c ∈ name, isAttributeChar c = true)
    (blank : ∀ c ∈ u, Text.isBlank c = true) : Key name (name ++ (u ++ ['='])) :=
  ⟨nonempty, readable, u, [], rfl, blank, nofun⟩

theorem blank (h : Key name k) (blank : Text.isBlank c = true) : Key name (k ++ [c]) := by
  obtain ⟨u, v, rfl, front, behind⟩ := h.form
  refine ⟨h.nonempty, h.readable, u, v ++ [c], by simp, front, ?_⟩
  simpa [or_imp, forall_and, blank] using behind

/-- An attribute with a value. -/
theorem read (h : Key name k) (value : readValue (Text.trimStart s) = .ok (raw, after))
    (found : Attributes) :
    readAttributes found (k ++ s) =
      readAttributes (found.give (String.ofList name) (String.ofList (decode raw))) after := by
  obtain ⟨u, v, rfl, front, behind⟩ := h.form
  obtain ⟨d, more, split⟩ := List.exists_cons_of_ne_nil h.nonempty
  have shown := not_blank_of_isAttributeChar (h.readable d (by rw [split]; exact List.mem_cons_self))
  have sign : Text.trimStart (u ++ '=' :: (v ++ s)) = '=' :: (v ++ s) :=
    (trimStart_append front _).trans (trimStart_of_not_blank (by decide) _)
  have assigned : readAssigned (u ++ '=' :: (v ++ s)) = .ok (String.ofList (decode raw), after) := by
    simp only [readAssigned, sign, trimStart_append behind, value]
  refine readAttributes_named (u ++ '=' :: (v ++ s)) found ?_ h.nonempty h.readable ?_ assigned
  · rw [split]
    simpa using trimStart_of_not_blank shown _
  · cases u with
    | nil => simp [isAttributeChar]
    | cons b u => simpa using isAttributeChar_of_isBlank (front b List.mem_cons_self)

end Key

theorem readValue_quoted (raw : List Char) {q : Char} (quote : q = '\x22' ∨ q = '\x27') (closed : q ∉ raw)
    (s : List Char) : readValue (q :: (raw ++ q :: s)) = .ok (raw, s) := by
  rcases quote with rfl | rfl <;> simp only [readValue, readUntil, Text.cut?_mark closed]

/-- Whether a character goes on with a value that is not quoted. -/
def inValue (c : Char) : Bool :=
  !Text.isBlank c && c != '>'

theorem readValue_bare (raw : List Char) (plain : ∀ d ∈ raw, inValue d = true)
    (stop : ∀ d ∈ s.head?, inValue d = false) (unquoted : ∀ d ∈ (raw ++ s).head?, d ≠ '\x22' ∧ d ≠ '\x27') :
    readValue (raw ++ s) = .ok (raw, s) := by
  obtain ⟨taken, dropped⟩ := takeWhile_append_stop s plain stop
  unfold readValue
  split
  case h_1 e => exact absurd rfl (unquoted _ (by rw [e]; rfl)).1
  case h_2 e => exact absurd rfl (unquoted _ (by rw [e]; rfl)).2
  case h_3 =>
    exact congrArg Except.ok (Prod.ext taken dropped)

end

end Markup

namespace Template
open Markup

/-- An attribute as it stands in a start tag. -/
structure Assignment where
  name : String
  /-- The literals of the value that a slot stands behind, with the indexes of the slots. -/
  before : List (List Char × Nat)
  /-- The literal behind the last slot. -/
  last : List Char

namespace Assignment
variable (a : Assignment) (r : Ref)

/-- One more character of the value. -/
def push (c : Char) : Assignment :=
  { a with last := a.last ++ [c] }

/-- One more slot in the value. -/
def slot (i : Nat) : Assignment :=
  { a with before := a.before ++ [(a.last, i)], last := [] }

/-- The value as it is compiled. -/
def raw : List Char :=
  a.before.flatMap (fun p => p.1 ++ r.text.toList) ++ a.last

def value : String :=
  String.ofList (decode (a.raw r))

/-- What is recorded of the attribute. -/
def marks : List (String × Nat) :=
  a.before.map fun p => (a.name, p.2)

/-- Whether slots are part of the value. -/
def slotted : Bool :=
  !a.before.isEmpty

/-- Whether the attribute is not one that marks elements. -/
def Spares : Prop :=
  Text.lowercase a.name ≠ Config.standard.refAttribute

/-- Whether no literal of the value looks like a reference. -/
def Clean : Prop :=
  (∀ q ∈ a.before, Markup.Clean q.1) ∧ Markup.Clean a.last

/-- Whether the attribute leaves references alone; chunks are clean if `φ` holds. -/
def Proper (φ : Prop) : Prop :=
  a.Spares ∧ (φ → a.Clean)

@[simp] theorem raw_push (c : Char) : (a.push c).raw r = a.raw r ++ [c] := by
  simp [push, raw]

@[simp] theorem raw_slot (i : Nat) : (a.slot i).raw r = a.raw r ++ r.text.toList := by
  simp [slot, raw]

@[simp] theorem marks_push (c : Char) : (a.push c).marks = a.marks := rfl

@[simp] theorem marks_slot (i : Nat) : (a.slot i).marks = a.marks ++ [(a.name, i)] := by
  simp [slot, marks]

end Assignment

/-- The attributes after more of a start tag was read. -/
def giveAll (r : Ref) (found : Attributes) (done : List Assignment) : Attributes :=
  done.foldl (fun found a => found.give a.name (a.value r)) found

/-- The mark that ends a quoted value. -/
def Place.mark? : Place → Option Char
  | .doubleQuoted => some '\x22'
  | .singleQuoted => some '\x27'
  | _ => none

namespace Scan

/-- The quoted value being read after one more character. -/
def quote (s : Scan) (a : Option Assignment) (c : Char) : Option Assignment :=
  match a with
  | some a => if s.place.mark? = some c then none else some (a.push c)
  | none => if s.place = .beforeValue ∧ isQuote c then some ⟨s.attr, [], []⟩ else none

end Scan

/-- Whether a reader takes a string as the whole name of an attribute, which is not the marker's. -/
structure Naming (name : String) : Prop where
  nonempty : name.toList ≠ []
  readable : ∀ c ∈ name.toList, isAttributeChar c = true
  spares : Text.lowercase name ≠ Config.standard.refAttribute

/-- The beginning of an attribute that a reader holds where the scan stands in a start tag, and the
quoted value that is part of it. Of the chunk, `read` was read; if `φ` holds, chunks are clean. -/
inductive Held (φ : Prop) (r : Ref) (s : Scan) (read : List Char) :
    List Char → Option Assignment → Prop
  | nothing (place : s.place = .tagInner) : Held φ r s read [] none
  | slash (place : s.place = .selfClosing) : Held φ r s read ['/'] none
  | name (place : s.place = .attributeName) (nonempty : s.attr.toList ≠ [])
      (readable : ∀ c ∈ s.attr.toList, isAttributeChar c = true) :
      Held φ r s read s.attr.toList none
  | named {u : List Char} (place : s.place = .afterAttributeName) (naming : Naming s.attr)
      (some : u ≠ []) (blank : ∀ c ∈ u, Text.isBlank c = true) :
      Held φ r s read (s.attr.toList ++ u) none
  | key {k : List Char} (place : s.place = .beforeValue) (naming : Naming s.attr)
      (key : Key s.attr.toList k) (broken : Broken read) : Held φ r s read k none
  | quoted {k : List Char} {q : Char} {a : Assignment} (mark : s.place.mark? = some q)
      (naming : Naming s.attr) (key : Key s.attr.toList k) (same : a.name = s.attr)
      (closed : q ∉ a.raw r) (piece : Piece read a.last)
      (clean : φ → ∀ b ∈ a.before, Markup.Clean b.1) : Held φ r s read (k ++ q :: a.raw r) (some a)
  | bare {k raw : List Char} (place : s.place = .unquoted) (naming : Naming s.attr)
      (key : Key s.attr.toList k) (some : raw ≠ []) (plain : ∀ c ∈ raw, inValue c = true)
      (unquoted : ∀ c ∈ raw.head?, isQuote c = false) (patched : Patched φ read raw) :
      Held φ r s read (k ++ raw) none
  /-- A slot stood for the whole value, which is over for a reader. -/
  | filled (place : s.place = .unquoted) (directly : s.read = 0) : Held φ r s read [] none

/-- What a reader has taken of a start tag: attributes, and the beginning of one more that it holds. -/
def Takes (r : Ref) (body : List Char) (done : List Assignment) (cur : List Char) : Prop :=
  ∀ found tail, readAttributes found (body ++ tail) = readAttributes (giveAll r found done) (cur ++ tail)

/-- A reader has come to the end of a start tag. -/
def Closes (r : Ref) (body : List Char) (done : List Assignment) (selfClosing : Bool) : Prop :=
  ∀ found tail, readAttributes found (body ++ tail) = .ok (giveAll r found done, selfClosing, tail)

/-- What one more character of a start tag comes to. -/
inductive Steps (φ : Prop) (r : Ref) (s : Scan) (read cur : List Char) (a : Option Assignment)
    (c : Char) : Prop
  | on (done : List Assignment) {u : List Char} (proper : ∀ b ∈ done, b.Proper φ)
      (kept : done.filter Assignment.slotted =
        (if (s.quote a c).isNone then a.toList else []).filter Assignment.slotted)
      (alike : Stage.Alike s (s.step c)) (held : Held φ r (s.step c) (read ++ [c]) u (s.quote a c))
      (takes : Takes r (cur ++ [c]) done u)
  | closed (done : List Assignment) (selfClosing : Bool) (proper : ∀ b ∈ done, b.Proper φ)
      (kept : done.filter Assignment.slotted = a.toList.filter Assignment.slotted)
      (ended : s.quote a c = none) (ends : s.advance c = s.closeTag selfClosing)
      (closes : Closes r (cur ++ [c]) done selfClosing)

section
variable {φ : Prop} {r : Ref} {s : Scan} {c : Char} {read cur : List Char} {a : Option Assignment}
  {rest : Gapped}

theorem takes_refl (r : Ref) (body : List Char) : Takes r body [] body :=
  fun _ _ => rfl

theorem takes_blank (blank : Text.isBlank c = true) : Takes r [c] [] [] :=
  fun found tail => readAttributes_congr found (trimStart_append (u := [c]) (by simpa using blank) tail)

theorem closes_bracket (r : Ref) : Closes r ['>'] [] false :=
  fun found tail => readAttributes_close found (trimStart_of_not_blank (by decide) tail)

/-- A slash is skipped unless it closes the tag. -/
theorem readAttributes_slash (found : Attributes) (other : c ≠ '>') (tail : List Char) :
    readAttributes found ('/' :: c :: tail) = readAttributes found (c :: tail) :=
  readAttributes_skip found (trimStart_of_not_blank (by decide) _) (by decide)
    (fun _ more same => other (List.cons.inj same).1) (by decide)

theorem isAttributeChar_of_others (blank : Text.isBlank c = false) (sign : c ≠ '=') (slash : c ≠ '/')
    (close : c ≠ '>') (quote : isQuote c = false) : isAttributeChar c = true := by
  simp only [isQuote, Bool.or_eq_false_iff, beq_eq_false_iff_ne] at quote
  simp [isAttributeChar, blank, sign, slash, close, quote]

/-- A character between attributes. What stood before it is over: a reader takes `front` with it. -/
theorem steps_inner {t : Scan} {front : List Char} (done : List Assignment)
    (alike : Stage.Alike s t) (advance : s.advance c = t.inner c) (nothing : s.quote none c = none)
    (closing : t.closeTag false = s.closeTag false) (proper : ∀ b ∈ done, b.Proper φ)
    (kept : done.filter Assignment.slotted = []) (sign : c ≠ '=') (quote : isQuote c = false)
    (taken : ∀ found tail, readAttributes found (front ++ c :: tail) =
      readAttributes (giveAll r found done) (c :: tail)) : Steps φ r s read front none c := by
  have kept' : done.filter Assignment.slotted =
      (if (s.quote none c).isNone then Option.toList none else []).filter Assignment.slotted := by
    rw [kept, nothing]
    rfl
  have step : ∀ (alike' : Stage.Alike t (t.inner c)), Stage.Alike s (s.step c) := by
    intro alike'
    unfold Scan.step
    rw [advance]
    exact ⟨alike'.tag.trans alike.tag, alike'.ref.trans alike.ref, alike'.nextRef.trans alike.nextRef,
      alike'.marked.trans alike.marked, alike'.nameEnd.trans alike.nameEnd⟩
  have takes : ∀ {cur'}, Takes r [c] [] cur' → Takes r (front ++ [c]) done cur' := by
    intro cur' takes found tail
    rw [List.append_assoc]
    exact (taken found tail).trans (takes _ tail)
  by_cases slash : c = '/'
  · subst slash
    have inner : t.inner '/' = { t with place := .selfClosing } := by simp [Scan.inner]
    refine .on done proper kept' (step (by rw [inner]; exact ⟨rfl, rfl, rfl, rfl, rfl⟩)) ?_
      (takes (takes_refl r ['/']))
    rw [nothing]
    exact .slash (by rw [Scan.step, advance, inner])
  by_cases close : c = '>'
  · subst close
    refine .closed done false proper kept nothing ?_ ?_
    · rw [advance, ← closing]
      simp [Scan.inner]
    · intro found tail
      rw [List.append_assoc]
      exact (taken found tail).trans (closes_bracket r _ tail)
  by_cases blank : Text.isBlank c = true
  · have inner : t.inner c = { t with place := .tagInner } := by
      simp [Scan.inner, slash, close, blank]
    refine .on done proper kept' (step (by rw [inner]; exact ⟨rfl, rfl, rfl, rfl, rfl⟩)) ?_
      (takes (takes_blank blank))
    rw [nothing]
    exact .nothing (by rw [Scan.step, advance, inner])
  · have inner : t.inner c = { t with attr := String.singleton c, place := .attributeName } := by
      simp [Scan.inner, slash, close, blank]
    refine .on done proper kept' (step (by rw [inner]; exact ⟨rfl, rfl, rfl, rfl, rfl⟩)) ?_
      (takes (takes_refl r [c]))
    have attr : (s.step c).attr.toList = [c] := by
      rw [Scan.step, advance, inner]
      simp
    rw [nothing, ← attr]
    refine .name (by rw [Scan.step, advance, inner]) (by simp [attr]) ?_
    rw [attr]
    simpa using isAttributeChar_of_others (by simpa using blank) sign slash close quote

theorem steps_nothing (place : s.place = .tagInner) (tidy : s.tidyAt c rest = true) :
    Steps φ r s read [] none c := by
  simp only [Scan.tidyAt, place, Bool.and_eq_true, bne_iff_ne, ne_eq, Bool.not_eq_true'] at tidy
  exact steps_inner (t := s) [] ⟨rfl, rfl, rfl, rfl, rfl⟩ (by simp [Scan.advance, place])
    (by simp [Scan.quote, place]) rfl (List.forall_mem_nil _) rfl tidy.1 tidy.2 fun _ _ => rfl

theorem steps_slash (place : s.place = .selfClosing) (tidy : s.tidyAt c rest = true) :
    Steps φ r s read ['/'] none c := by
  simp only [Scan.tidyAt, place, Bool.and_eq_true, bne_iff_ne, ne_eq, Bool.not_eq_true'] at tidy
  have nothing : s.quote none c = none := by simp [Scan.quote, place]
  by_cases close : c = '>'
  · subst close
    refine .closed [] true (List.forall_mem_nil _) rfl nothing (by simp [Scan.advance, place]) fun found tail => ?_
    exact readAttributes_selfClosing found (trimStart_of_not_blank (by decide) _)
  · have advance : s.advance c = s.inner c := by
      simp only [Scan.advance, place, close, if_false]
      split
      case isTrue blank =>
        have slash : c ≠ '/' := by
          rintro rfl
          exact absurd blank (by decide)
        simp [Scan.inner, slash, close, blank]
      case isFalse => rfl
    exact steps_inner (t := s) [] ⟨rfl, rfl, rfl, rfl, rfl⟩ advance nothing rfl (List.forall_mem_nil _) rfl tidy.1 tidy.2
      fun found tail => readAttributes_slash found close tail

/-- An attribute with a value that no slot is part of. -/
theorem proper_flag (naming : Naming s.attr) {raw : List Char} (clean : φ → Clean raw) :
    ∀ b ∈ [(⟨s.attr, [], raw⟩ : Assignment)], b.Proper φ :=
  List.forall_mem_singleton.2 ⟨naming.spares, fun holds => ⟨List.forall_mem_nil _, clean holds⟩⟩

theorem closeTag_unnamed (s : Scan) (selfClosing : Bool) :
    Scan.closeTag { s with attr := "" } selfClosing = s.closeTag selfClosing := rfl

theorem readAttributes_unvalued (naming : Naming s.attr) {u : List Char}
    (blank : ∀ d ∈ u, Text.isBlank d = true) (ends : u = [] → isAttributeChar c = false)
    (shown : Text.isBlank c = false) (sign : c ≠ '=') (found : Attributes) (tail : List Char) :
    readAttributes found (s.attr.toList ++ u ++ c :: tail) =
      readAttributes (giveAll r found [⟨s.attr, [], []⟩]) (c :: tail) := by
  rw [List.append_assoc, readAttributes_flag found naming.nonempty naming.readable blank ends shown sign]
  simp [giveAll, Assignment.value, Assignment.raw]

theorem steps_name (place : s.place = .attributeName) (nonempty : s.attr.toList ≠ [])
    (readable : ∀ d ∈ s.attr.toList, isAttributeChar d = true) (tidy : s.tidyAt c rest = true) :
    Steps φ r s read s.attr.toList none c := by
  simp only [Scan.tidyAt, place, Bool.and_eq_true, Bool.not_eq_true', Bool.or_eq_true, bne_iff_ne,
    ne_eq] at tidy
  obtain ⟨quote, tidy⟩ := tidy
  have nothing : s.quote none c = none := by simp [Scan.quote, place]
  have naming : isAttributeChar c = false → Naming s.attr := fun other =>
    ⟨nonempty, readable, tidy.resolve_left (by simp [other])⟩
  by_cases sign : c = '='
  · subst sign
    have advance : s.advance '=' = { s with place := .beforeValue } := by simp [Scan.advance, place]
    have attr : (s.step '=').attr = s.attr := by rw [Scan.step, advance]
    refine .on [] (List.forall_mem_nil _) (by simp [nothing]) ?_ ?_ (takes_refl r _)
    · unfold Scan.step
      rw [advance]
      exact ⟨rfl, rfl, rfl, rfl, rfl⟩
    · rw [nothing]
      refine .key (by rw [Scan.step, advance]) ?_ ?_ (.mark ⟨by decide, by decide⟩ read)
      · rw [Scan.step, advance]
        exact naming (by decide)
      · rw [attr]
        exact Key.start (u := []) nonempty readable (List.forall_mem_nil _)
  by_cases blank : Text.isBlank c = true
  · have advance : s.advance c = { s with place := .afterAttributeName } := by
      simp [Scan.advance, place, sign, blank]
    have attr : (s.step c).attr = s.attr := by rw [Scan.step, advance]
    refine .on [] (List.forall_mem_nil _) (by simp [nothing]) ?_ ?_ (takes_refl r _)
    · unfold Scan.step
      rw [advance]
      exact ⟨rfl, rfl, rfl, rfl, rfl⟩
    · rw [nothing, ← attr]
      refine .named (by rw [Scan.step, advance]) ?_ (List.cons_ne_nil _ _) (by simpa using blank)
      rw [Scan.step, advance]
      exact naming (isAttributeChar_of_isBlank blank)
  by_cases ends : c = '/' ∨ c = '>'
  · have other : isAttributeChar c = false := by
      rcases ends with rfl | rfl <;> decide
    have advance : s.advance c = Scan.inner { s with attr := "" } c := by
      rcases ends with rfl | rfl
      · simp [Scan.advance, Scan.inner, place, show Text.isBlank '/' = false by decide]
      · have here : s.advance '>' = s.closeTag false := by
          simp [Scan.advance, place, show Text.isBlank '>' = false by decide]
        rw [here, ← closeTag_unnamed]
        simp [Scan.inner]
    have taken := readAttributes_unvalued (r := r) (naming other) (u := []) (List.forall_mem_nil _) (fun _ => other)
      (by simpa using blank) sign
    simp only [List.append_nil] at taken
    exact steps_inner (t := { s with attr := "" }) [⟨s.attr, [], []⟩] ⟨rfl, rfl, rfl, rfl, rfl⟩ advance
      nothing rfl (proper_flag (naming other) fun _ => clean_nil) rfl sign quote taken
  · obtain ⟨slash, close⟩ := not_or.1 ends
    have advance : s.advance c = { s with attr := s.attr.push c } := by
      simp [Scan.advance, place, sign, blank, slash, close]
    have attr : (s.step c).attr.toList = s.attr.toList ++ [c] := by
      rw [Scan.step, advance]
      simp
    refine .on [] (List.forall_mem_nil _) (by simp [nothing]) ?_ ?_ (takes_refl r _)
    · unfold Scan.step
      rw [advance]
      exact ⟨rfl, rfl, rfl, rfl, rfl⟩
    · rw [nothing, ← attr]
      refine .name (by rw [Scan.step, advance]; exact place) (by simp [attr]) ?_
      rw [attr]
      have this := isAttributeChar_of_others (by simpa using blank) sign slash close quote
      simpa [or_imp, forall_and, this] using readable

theorem steps_named {u : List Char} (place : s.place = .afterAttributeName) (naming : Naming s.attr)
    (some : u ≠ []) (blanks : ∀ d ∈ u, Text.isBlank d = true) (tidy : s.tidyAt c rest = true) :
    Steps φ r s read (s.attr.toList ++ u) none c := by
  simp only [Scan.tidyAt, place, Bool.not_eq_true'] at tidy
  have nothing : s.quote none c = none := by simp [Scan.quote, place]
  by_cases sign : c = '='
  · subst sign
    have advance : s.advance '=' = { s with place := .beforeValue } := by simp [Scan.advance, place]
    refine .on [] (List.forall_mem_nil _) (by simp [nothing]) ?_ ?_ (takes_refl r _)
    · unfold Scan.step
      rw [advance]
      exact ⟨rfl, rfl, rfl, rfl, rfl⟩
    · rw [nothing]
      refine .key (by rw [Scan.step, advance]) ?_ ?_ (.mark ⟨by decide, by decide⟩ read)
      · rw [Scan.step, advance]
        exact naming
      · rw [Scan.step, advance, List.append_assoc]
        exact Key.start naming.nonempty naming.readable blanks
  by_cases blank : Text.isBlank c = true
  · have advance : s.advance c = s := by simp [Scan.advance, place, sign, blank]
    have attr : (s.step c).attr = s.attr := by rw [Scan.step, advance]
    refine .on [] (List.forall_mem_nil _) (by simp [nothing]) ?_ ?_ (takes_refl r _)
    · unfold Scan.step
      rw [advance]
      exact ⟨rfl, rfl, rfl, rfl, rfl⟩
    · rw [nothing, ← attr, List.append_assoc]
      refine .named (by rw [Scan.step, advance]; exact place) ?_ (by simp) ?_
      · rw [Scan.step, advance]
        exact naming
      · simpa [or_imp, forall_and, blank] using blanks
  · exact steps_inner (t := { s with attr := "" }) [⟨s.attr, [], []⟩] ⟨rfl, rfl, rfl, rfl, rfl⟩
      (by simp [Scan.advance, place, sign, blank]) nothing rfl (proper_flag naming fun _ => clean_nil) rfl
      sign tidy (readAttributes_unvalued naming blanks (fun none => absurd none some) (by simpa using blank) sign)

/-- The end of an attribute with a value, where a reader has come to `rest`. -/
theorem takes_value {k tail rest : List Char} {raw : List Char} (key : Key s.attr.toList k)
    (value : readValue (Text.trimStart tail) = .ok (raw, rest)) (found : Attributes) :
    readAttributes found (k ++ tail) =
      readAttributes (giveAll r found [⟨s.attr, [], raw⟩]) rest := by
  rw [key.read value]
  simp [giveAll, Assignment.value, Assignment.raw]

theorem alike_place {t : Scan} (advance : s.advance c = t) (alike : Stage.Alike s t) :
    Stage.Alike s (s.step c) := by
  unfold Scan.step
  rw [advance]
  exact ⟨alike.tag, alike.ref, alike.nextRef, alike.marked, alike.nameEnd⟩

theorem isQuote_of_mark {p : Place} {q : Char} (mark : p.mark? = some q) :
    q = '\x22' ∨ q = '\x27' := by
  unfold Place.mark? at mark
  split at mark
  case h_1 => exact .inl (Option.some.inj mark).symm
  case h_2 => exact .inr (Option.some.inj mark).symm
  case h_3 => cases mark

theorem isBreak_of_mark {q : Place} {d : Char} (mark : q.mark? = some d) : IsBreak d := by
  refine (isBreak_of_isQuote ?_).1
  rcases isQuote_of_mark mark with rfl | rfl <;> decide

theorem mark_of_isQuote (place : s.place = .beforeValue) (quote : isQuote c = true) :
    ∃ p : Place, p.mark? = some c ∧ s.advance c = { s with place := p } := by
  simp only [isQuote, Bool.or_eq_true, beq_iff_eq] at quote
  rcases quote with rfl | rfl
  · exact ⟨.doubleQuoted, rfl, by simp [Scan.advance, place]⟩
  · exact ⟨.singleQuoted, rfl, by simp [Scan.advance, place]⟩

theorem advance_of_mark {q : Char} (mark : s.place.mark? = some q) :
    s.advance c = if c = q then s.endAttribute else s := by
  unfold Place.mark? at mark
  split at mark
  case h_1 place =>
    cases mark
    simp [Scan.advance, place]
  case h_2 place =>
    cases mark
    simp [Scan.advance, place]
  case h_3 => cases mark

theorem steps_key {k : List Char} (place : s.place = .beforeValue) (naming : Naming s.attr)
    (key : Key s.attr.toList k) (broken : Broken read) :
    Steps φ r s read k none c := by
  by_cases opens : isQuote c = true
  · obtain ⟨p, mark, advance⟩ := mark_of_isQuote place opens
    have quote : s.quote none c = some ⟨s.attr, [], []⟩ := by simp [Scan.quote, place, opens]
    refine .on [] (List.forall_mem_nil _) (by simp [quote]) (alike_place advance ⟨rfl, rfl, rfl, rfl, rfl⟩) ?_
      (takes_refl r _)
    have held := Held.quoted (φ := φ) (r := r) (s := s.step c) (k := k) (q := c) (a := ⟨s.attr, [], []⟩)
      (by rw [Scan.step, advance]; exact mark) (by rw [Scan.step, advance]; exact naming)
      (by rw [Scan.step, advance]; exact key) (by rw [Scan.step, advance]) (by simp [Assignment.raw])
      (.start (.mark (isBreak_of_isQuote opens).1 read)) fun _ => List.forall_mem_nil _
    rw [quote]
    exact held
  have nothing : s.quote none c = none := by simp [Scan.quote, opens]
  obtain ⟨double, single⟩ : c ≠ '\x22' ∧ c ≠ '\x27' := by simpa [isQuote] using opens
  by_cases close : c = '>'
  · subst close
    refine .closed [⟨s.attr, [], []⟩] false (proper_flag naming fun _ => clean_nil) rfl nothing
      (by simp [Scan.advance, place]) fun found tail => ?_
    have value : readValue (Text.trimStart ('>' :: tail)) = .ok ([], '>' :: tail) := by
      rw [trimStart_of_not_blank (by decide)]
      exact readValue_bare [] (List.forall_mem_nil _) (by simp [inValue]) (by simp)
    rw [List.append_assoc]
    exact (takes_value key value found).trans (closes_bracket r _ tail)
  by_cases blank : Text.isBlank c = true
  · have advance : s.advance c = s := by simp [Scan.advance, place, double, single, close, blank]
    refine .on [] (List.forall_mem_nil _) (by simp [nothing]) (alike_place advance ⟨rfl, rfl, rfl, rfl, rfl⟩) ?_
      (takes_refl r _)
    rw [nothing]
    refine .key (by rw [Scan.step, advance]; exact place) (by rw [Scan.step, advance]; exact naming) ?_
      (.mark (isBreak_of_isBlank blank).1 read)
    rw [Scan.step, advance]
    exact key.blank blank
  · have advance : s.advance c = { s with place := .unquoted } := by
      simp [Scan.advance, place, double, single, close, blank]
    refine .on [] (List.forall_mem_nil _) (by simp [nothing]) (alike_place advance ⟨rfl, rfl, rfl, rfl, rfl⟩) ?_
      (takes_refl r _)
    rw [nothing]
    refine .bare (by rw [Scan.step, advance]) (by rw [Scan.step, advance]; exact naming)
      (by rw [Scan.step, advance]; exact key) (List.cons_ne_nil c []) ?_ ?_
      ⟨[], [c], rfl, ⟨read, rfl, broken⟩, .inl rfl⟩
    · simpa [inValue, close] using blank
    · simpa using opens

theorem steps_quoted {k : List Char} {q : Char} {a : Assignment} (mark : s.place.mark? = some q)
    (naming : Naming s.attr) (key : Key s.attr.toList k) (same : a.name = s.attr)
    (closed : q ∉ a.raw r) (piece : Piece read a.last) (clean : φ → ∀ b ∈ a.before, Markup.Clean b.1)
    (chunk : φ → ∃ back, Markup.Clean (read ++ c :: back)) :
    Steps φ r s read (k ++ q :: a.raw r) (some a) c := by
  by_cases ends : c = q
  · subst ends
    have advance : s.advance c = s.endAttribute := by rw [advance_of_mark mark, if_pos rfl]
    have quote : s.quote (some a) c = none := by simp [Scan.quote, mark]
    have shown : Text.isBlank c = false := by
      rcases isQuote_of_mark mark with rfl | rfl <;> decide
    have proper : a.Proper φ := ⟨by rw [Assignment.Spares, same]; exact naming.spares, fun holds =>
      ⟨clean holds, piece.clean_before (isBreak_of_mark mark) (chunk holds)⟩⟩
    refine .on [a] (List.forall_mem_singleton.2 proper)
      (by rw [quote]; rfl) (alike_place advance ⟨rfl, rfl, rfl, rfl, rfl⟩) (u := []) ?_
      fun found tail => ?_
    · rw [quote]
      exact .nothing (by rw [Scan.step, advance]; rfl)
    · have value : readValue (Text.trimStart (c :: (a.raw r ++ c :: tail))) = .ok (a.raw r, tail) := by
        rw [trimStart_of_not_blank shown]
        exact readValue_quoted (a.raw r) (isQuote_of_mark mark) closed tail
      have taken := key.read value found
      simp only [List.append_assoc, List.cons_append, List.nil_append]
      rw [taken]
      simp [giveAll, Assignment.value, same]
  · have advance : s.advance c = s := by rw [advance_of_mark mark, if_neg ends]
    have quote : s.quote (some a) c = some (a.push c) := by simp [Scan.quote, mark, Ne.symm ends]
    refine .on [] (List.forall_mem_nil _) (by simp [quote]) (alike_place advance ⟨rfl, rfl, rfl, rfl, rfl⟩) ?_
      (takes_refl r _)
    have held := Held.quoted (φ := φ) (r := r) (s := s.step c) (k := k) (q := q) (a := a.push c)
      (by rw [Scan.step, advance]; exact mark) (by rw [Scan.step, advance]; exact naming)
      (by rw [Scan.step, advance]; exact key) (by rw [Scan.step, advance]; exact same)
      (by simpa [Ne.symm ends] using closed) (piece.grow c) clean
    rw [quote]
    simpa using held

theorem steps_bare {k raw : List Char} (place : s.place = .unquoted) (naming : Naming s.attr)
    (key : Key s.attr.toList k) (some : raw ≠ []) (plain : ∀ d ∈ raw, inValue d = true)
    (unquoted : ∀ d ∈ raw.head?, isQuote d = false) (patched : Patched φ read raw)
    (chunk : φ → ∃ back, Markup.Clean (read ++ c :: back)) : Steps φ r s read (k ++ raw) none c := by
  have nothing : s.quote none c = none := by simp [Scan.quote, place]
  have ended : inValue c = false → ∀ found tail, readAttributes found (k ++ raw ++ c :: tail) =
      readAttributes (giveAll r found [⟨s.attr, [], raw⟩]) (c :: tail) := by
    intro stop found tail
    have value : readValue (Text.trimStart (raw ++ c :: tail)) = .ok (raw, c :: tail) := by
      obtain ⟨d, more, rfl⟩ := List.exists_cons_of_ne_nil some
      have shown : Text.isBlank d = false := by
        have := plain d List.mem_cons_self
        simp only [inValue, Bool.and_eq_true, Bool.not_eq_true'] at this
        exact this.1
      rw [List.cons_append, trimStart_of_not_blank shown]
      refine readValue_bare (d :: more) plain (by simpa using stop) ?_
      have := unquoted d rfl
      simpa [isQuote] using this
    rw [List.append_assoc]
    exact takes_value key value found
  by_cases blank : Text.isBlank c = true
  · have clean := patched.clean_before (isBreak_of_isBlank blank).1 chunk
    have advance : s.advance c = s.endAttribute := by simp [Scan.advance, place, blank]
    refine .on [⟨s.attr, [], raw⟩] (proper_flag naming clean) (by rw [nothing]; rfl)
      (alike_place advance ⟨rfl, rfl, rfl, rfl, rfl⟩) (u := []) ?_ fun found tail => ?_
    · rw [nothing]
      exact .nothing (by rw [Scan.step, advance]; rfl)
    · rw [List.append_assoc]
      exact (ended (by simp [inValue, blank]) found tail).trans (takes_blank (r := r) blank _ tail)
  by_cases close : c = '>'
  · subst close
    have clean := patched.clean_before ⟨by decide, by decide⟩ chunk
    refine .closed [⟨s.attr, [], raw⟩] false (proper_flag naming clean) rfl nothing
      (by simp [Scan.advance, place, blank]) fun found tail => ?_
    rw [List.append_assoc]
    exact (ended (by decide) found tail).trans (closes_bracket r _ tail)
  · have advance : s.advance c = s := by simp [Scan.advance, place, blank, close]
    refine .on [] (List.forall_mem_nil _) (by simp [nothing]) (alike_place advance ⟨rfl, rfl, rfl, rfl, rfl⟩) ?_
      (takes_refl r _)
    rw [nothing, List.append_assoc]
    refine .bare (by rw [Scan.step, advance]; exact place) (by rw [Scan.step, advance]; exact naming)
      (by rw [Scan.step, advance]; exact key) (by simp) ?_ ?_ (patched.grow c)
    · simpa [or_imp, forall_and, inValue, blank, close] using plain
    · obtain ⟨d, more, rfl⟩ := List.exists_cons_of_ne_nil some
      simpa using unquoted

theorem steps_filled (place : s.place = .unquoted) (directly : s.read = 0)
    (tidy : s.tidyAt c rest = true) : Steps φ r s read [] none c := by
  have nothing : s.quote none c = none := by simp [Scan.quote, place]
  simp only [Scan.tidyAt, place, directly, bne_self_eq_false, Bool.false_or, Bool.or_eq_true,
    beq_iff_eq] at tidy
  by_cases blank : Text.isBlank c = true
  · have advance : s.advance c = s.endAttribute := by simp [Scan.advance, place, blank]
    refine .on [] (List.forall_mem_nil _) (by simp [nothing]) (alike_place advance ⟨rfl, rfl, rfl, rfl, rfl⟩)
      (u := []) ?_ (takes_blank blank)
    rw [nothing]
    exact .nothing (by rw [Scan.step, advance]; rfl)
  · obtain rfl := tidy.resolve_left blank
    exact .closed [] false (List.forall_mem_nil _) rfl nothing (by simp [Scan.advance, place, blank])
      (closes_bracket r)

/-- A tidy character leads a reader of a start tag to where it leads the scan. -/
theorem Held.steps (held : Held φ r s read cur a) (tidy : s.tidyAt c rest = true)
    (chunk : φ → ∃ back, Markup.Clean (read ++ c :: back)) : Steps φ r s read cur a c := by
  cases held with
  | nothing place => exact steps_nothing place tidy
  | slash place => exact steps_slash place tidy
  | name place nonempty readable => exact steps_name place nonempty readable tidy
  | named place naming some blank => exact steps_named place naming some blank tidy
  | key place naming key broken => exact steps_key place naming key broken
  | quoted mark naming key same closed piece clean =>
    exact steps_quoted mark naming key same closed piece clean chunk
  | bare place naming key some plain unquoted patched =>
    exact steps_bare place naming key some plain unquoted patched chunk
  | filled place directly => exact steps_filled place directly tidy

/-! Slots in a start tag. -/

theorem isTagChar_of_mem_ref (h : c ∈ r.text.toList) : isTagChar c = true := by
  have digit : c ∈ Nat.toDigits 10 r.number → c.isDigit = true :=
    Nat.isDigit_of_mem_toDigits (by decide) (by decide)
  have front : ∀ d ∈ "__ref_".toList, isTagChar d = true := Text.forall_mem_of_all (by decide)
  have behind : ∀ d ∈ "__".toList, isTagChar d = true := Text.forall_mem_of_all (by decide)
  rw [Ref.toList_text] at h
  rcases List.mem_append.1 h with h | h
  · rcases List.mem_append.1 h with h | h
    · exact front c h
    · simp [isTagChar, Char.isAlphanum, digit h]
  · exact behind c h

theorem placeValue_unquoted {t : Token} {p : Placement} (unquoted : Quote.ofPlace t.place = .none)
    (placed : placeValue t r = .ok p) :
    p.slot.ref = r ∧ p.insertion = "\"\"" ∧ p.recorded = none := by
  unfold placeValue at placed
  simp only [unquoted] at placed
  split at placed
  · split at placed
    · exact absurd rfl ‹_›
    · split at placed
      · cases placed
      · cases placed
        exact ⟨rfl, rfl, rfl⟩
  · cases placed
    exact ⟨rfl, rfl, rfl⟩

theorem placeValue_quoted {t : Token} {p : Placement} (quoted : Quote.ofPlace t.place ≠ .none)
    (placed : placeValue t r = .ok p) :
    p.slot.ref = r ∧ p.insertion = r.text ∧ p.recorded = some t.attr := by
  unfold placeValue at placed
  dsimp only at placed
  split at placed
  · rw [if_pos quoted] at placed
    cases placed
  · rw [if_neg quoted] at placed
    cases placed
    exact ⟨rfl, rfl, rfl⟩

/-- Inside a start tag, only a value or the place of a component takes a slot. -/
theorem place_inside {t : Token} {index : Nat} {fresh : Ref} {p : Placement} (ref : t.ref = some r)
    (inside : t.place ≠ .outer) (placed : place .standard index fresh t = .ok p) :
    t.place = .tagInner ∧ p = ⟨.component r, "", none⟩ ∨
      t.place.isValue = true ∧ placeValue t r = .ok p := by
  unfold place at placed
  rw [if_neg inside, ref] at placed
  dsimp only at placed
  split at placed
  · cases placed
  · split at placed
    case isTrue component =>
      cases placed
      exact .inl ⟨component.1, rfl⟩
    case isFalse =>
      split at placed
      · cases placed
      case isFalse value => exact .inr ⟨by simpa using value, placed⟩

/-- What a slot comes to. The scan goes on with `t`. -/
structure Slots (φ : Prop) (r : Ref) (t : Scan) (cur : List Char) (a : Option Assignment) (i : Nat)
    (p : Placement) : Prop where
  ref : p.slot.ref = r
  recorded : p.recorded = a.map Assignment.name
  takes : ∃ done cur', (∀ b ∈ done, b.Proper φ) ∧ done.filter Assignment.slotted = [] ∧
    Held φ r t [] cur' (a.map (·.slot i)) ∧ Takes r (cur ++ p.insertion.toList) done cur'

theorem slots_unquoted {t : Scan} {i : Nat} {p : Placement}
    (done : List Assignment) (place : t.place = .unquoted) (directly : t.read = 0)
    (placed : p.slot.ref = r ∧ p.insertion = "\"\"" ∧ p.recorded = none)
    (proper : ∀ b ∈ done, b.Proper φ) (plain : done.filter Assignment.slotted = [])
    (takes : Takes r (cur ++ ['\x22', '\x22']) done []) : Slots φ r t cur none i p where
  ref := placed.1
  recorded := placed.2.2
  takes := by
    rw [placed.2.1]
    exact ⟨done, [], proper, plain, .filled place directly, takes⟩

/-- A slot in a start tag leads a reader to where it leads the scan. -/
theorem Held.slots (held : Held φ r s read cur a) (chunk : φ → Markup.Clean read) {t : Scan}
    {index i : Nat} {fresh : Ref} {html : String}
    {p : Placement} (ref : s.ref = some r) (inside : s.atSlot.place ≠ .outer)
    (placed : place .standard index fresh (s.atSlot.token html) = .ok p)
    (place : t.place = s.atSlot.place) (attr : t.attr = s.attr) (directly : t.read = 0) :
    Slots φ r t cur a i p := by
  have alike := Stage.alike_atSlot s
  have sorted := place_inside (t := s.atSlot.token html) (r := r) (alike.ref.trans ref) inside placed
  have same : s.place ≠ .beforeValue → s.atSlot = s := fun other => if_neg other
  have component : s.place = .tagInner → p = ⟨.component r, "", none⟩ := by
    intro here
    rcases sorted with ⟨-, component⟩ | ⟨value, -⟩
    · exact component
    · rw [show (s.atSlot.token html).place = .tagInner by
        rw [same (by simp [here])]; exact here] at value
      exact absurd value (by decide)
  have value : s.atSlot.place ≠ .tagInner → s.atSlot.place.isValue = true ∧
      placeValue (s.atSlot.token html) r = .ok p := fun other =>
    sorted.resolve_left fun h => other h.1
  have bare : s.atSlot.place = .unquoted →
      p.slot.ref = r ∧ p.insertion = "\"\"" ∧ p.recorded = none := fun here =>
    placeValue_unquoted (by rw [Scan.token, here]; rfl) (value (by simp [here])).2
  cases held with
  | nothing here =>
    rw [same (by simp [here])] at place
    refine ⟨by rw [component here]; rfl, by rw [component here]; rfl, [], [], List.forall_mem_nil _, rfl,
      .nothing (place.trans here), ?_⟩
    rw [component here]
    exact takes_refl r _
  | slash here =>
    rw [same (by simp [here]), here] at value
    exact absurd (value (by simp)).1 (by decide)
  | name here =>
    rw [same (by simp [here]), here] at value
    exact absurd (value (by simp)).1 (by decide)
  | named here =>
    rw [same (by simp [here]), here] at value
    exact absurd (value (by simp)).1 (by decide)
  | key here naming key =>
    have after : s.atSlot.place = .unquoted := by simp [Scan.atSlot, here]
    refine slots_unquoted [⟨s.attr, [], []⟩] (place.trans after) directly (bare after)
      (proper_flag naming fun _ => clean_nil) rfl
      fun found tail => ?_
    have value : readValue (Text.trimStart ('\x22' :: '\x22' :: tail)) = .ok ([], tail) := by
      rw [trimStart_of_not_blank (by decide)]
      exact readValue_quoted [] (.inl rfl) List.not_mem_nil tail
    rw [List.append_assoc]
    exact takes_value key value found
  | @quoted k q a mark naming key name closed piece clean =>
    have other : s.place ≠ .beforeValue := by
      intro here
      rw [here] at mark
      cases mark
    rw [same other] at place placed
    have notInner : s.place ≠ .tagInner := by
      intro here
      rw [here] at mark
      cases mark
    have isQuoted : Quote.ofPlace (s.token html).place ≠ .none := by
      have here : (s.token html).place = s.place := rfl
      unfold Place.mark? at mark
      split at mark
      case h_1 double => rw [here, double]; decide
      case h_2 single => rw [here, single]; decide
      case h_3 => cases mark
    have placed := placeValue_quoted isQuoted (by
      have := (value (by rwa [same other])).2
      rwa [same other] at this)
    have held := Held.quoted (φ := φ) (r := r) (s := t) (k := k) (q := q) (a := a.slot i) (by rwa [place])
      (by rwa [attr]) (by rwa [attr]) (by rw [attr]; exact name) ?_ (.start (.inl rfl)) ?_
    · refine ⟨placed.1, ?_, [], _, List.forall_mem_nil _, rfl, held, ?_⟩
      · rw [placed.2.2]
        exact congrArg some name.symm
      · rw [placed.2.1]
        simpa using takes_refl r (k ++ q :: (a.raw r ++ r.text.toList))
    · have plain : q ∉ r.text.toList := by
        intro mem
        have shown := isTagChar_of_mem_ref mem
        rcases isQuote_of_mark mark with rfl | rfl <;> exact absurd shown (by decide)
      simpa [closed] using plain
    · intro holds
      exact List.forall_mem_append.2 ⟨clean holds, List.forall_mem_singleton.2 (piece.clean (chunk holds))⟩
  | @bare k raw here naming key some plain unquoted patched =>
    rw [same (by simp [here])] at place bare
    have placed := bare here
    refine ⟨placed.1, placed.2.2, [], k ++ (raw ++ ['\x22', '\x22']), List.forall_mem_nil _, rfl, ?_, ?_⟩
    · refine .bare (place.trans here) (by rwa [attr]) (by rwa [attr]) (by simp) ?_ ?_ (patched.patch chunk)
      · simpa [or_imp, forall_and, inValue, show Text.isBlank '\x22' = false by decide] using plain
      · obtain ⟨d, more, rfl⟩ := List.exists_cons_of_ne_nil some
        simpa using unquoted
    · rw [placed.2.1, List.append_assoc]
      exact takes_refl r _
  | filled here =>
    rw [same (by simp [here])] at place bare
    refine slots_unquoted [] (place.trans here) directly (bare here) (List.forall_mem_nil _) rfl fun found tail => ?_
    have skip : ∀ s, readAttributes found ('\x22' :: s) = readAttributes found s := fun s =>
      readAttributes_skip found (trimStart_of_not_blank (by decide) s) (by decide)
        (fun slash => absurd slash (by decide)) (by decide)
    exact (skip _).trans (skip _)

end

end Template
end LiveMarkup
