import LiveMarkup.Proofs.Scanning

/-!
How a start tag is scanned. Up to its first slot it lies in one chunk, so that the marker can be put
right behind its name; from there on it carries its marker and may go on over any number of chunks.
-/
namespace LiveMarkup.Template

open Markup

theorem not_blank_of_isTagChar {c : Char} (h : isTagChar c = true) : Text.isBlank c = false := by
  have low : 45 ≤ c.toNat ∧ c.toNat ≤ 122 := by
    simp only [isTagChar] at h
    delta Char.isAlphanum Char.isAlpha Char.isUpper Char.isLower Char.isDigit at h
    simp only [Bool.or_eq_true, decide_eq_true_eq, beq_iff_eq, UInt32.le_iff_toNat_le, Char.ext_iff,
      ← UInt32.toNat_inj, ge_iff_le, Bool.and_eq_true] at h
    simp at h
    have : c.toNat = c.val.toNat := rfl
    omega
  simp [Text.isBlank]
  omega

theorem isTagChar_of_isUpper {c : Char} (capital : c.isUpper = true) : isTagChar c = true := by
  refine isTagChar_of_isTagStart ?_
  change (c.isUpper || c.isLower) = true
  rw [capital, Bool.true_or]

theorem recordIn_last {own : List (String × List Nat)} {name : String}
    (new : name ∉ own.map (·.1)) (l : List Nat) (index : Nat) :
    recordIn (own ++ if l = [] then [] else [(name, l)]) (some name) index =
      own ++ [(name, l ++ [index])] := by
  unfold recordIn
  dsimp only
  rw [Ordered.find?_append_of_not_mem new, Ordered.put_append_of_not_mem new]
  cases l with
  | nil => simp [Ordered.find?, Ordered.put]
  | cons i l => simp [Ordered.find?, Ordered.put]

namespace Field

/-- What a field records, where `i` is the index of its first hole. -/
def records (i : Nat) : Field → List (String × List Nat)
  | .quoted name _ rest => if rest = [] then [] else [(name, List.range' i rest.length)]
  | _ => []

/-- What the fields of a start tag record, where `i` is the index of their first hole. -/
def recordsAll (i : Nat) : List Field → List (String × List Nat)
  | [] => []
  | field :: fields => field.records i ++ recordsAll (i + field.holes) fields

theorem keys_records (i : Nat) (field : Field) :
    ((field.records i).map (·.1)).Sublist field.name?.toList := by
  cases field with
  | quoted name first rest =>
    cases rest with
    | nil => exact List.nil_sublist _
    | cons literal rest => exact List.Sublist.refl _
  | bare name => exact List.nil_sublist _
  | directive kind name => exact List.nil_sublist _
  | component => exact List.nil_sublist _

theorem filterMap_name?_cons (field : Field) (fields : List Field) :
    (field :: fields).filterMap Field.name? =
      field.name?.toList ++ fields.filterMap Field.name? := by
  rw [List.filterMap_cons]
  cases field.name? <;> rfl

theorem length_slots (r : Ref) (field : Field) : (field.slots r).length = field.holes := by
  cases field <;> simp [Field.slots, Field.holes]

theorem length_flatMap_slots (r : Ref) (fields : List Field) :
    (fields.flatMap (slots r)).length = holesAll fields := by
  induction fields with
  | nil => rfl
  | cons field fields ih =>
    rw [List.flatMap_cons, List.length_append, length_slots, ih, holesAll]

end Field

theorem cutAt?_plain {name : String} (h : ':' ∉ name.toList) : Text.cutAt? ':' name = none := by
  have : Text.cut? [':'] name.toList = none :=
    Text.cut?_eq_none (a := []) fun inside => h (inside.subset (List.mem_singleton_self ':'))
  rw [Text.cutAt?, this]
  rfl

theorem cutAt?_directive (kind : DirectiveKind) (name : String) :
    Text.cutAt? ':' (kind.name ++ ":" ++ name) = some (kind.name, name) := by
  have plain : ':' ∉ kind.name.toList := by cases kind <;> decide
  unfold Text.cutAt?
  have := Text.cut?_mark plain name.toList
  simp [this]

/-- The use of a slot in a value that is not quoted. -/
theorem place_bare {s : Scan} {r : Ref} (place : s.place = .unquoted) (ref : s.ref = some r)
    (index : Nat) (fresh : Ref) (html : String) :
    Template.place .standard index fresh (s.token html) = placeValue (s.token html) r := by
  simp [Template.place, Scan.token, place, ref, Place.isInsideTag, show Place.isValue .unquoted by decide]

/-- The use of a slot in a value in double quotes. -/
theorem place_quoted {s : Scan} {r : Ref} (place : s.place = .doubleQuoted) (ref : s.ref = some r)
    (index : Nat) (fresh : Ref) (html : String) :
    Template.place .standard index fresh (s.token html) = placeValue (s.token html) r := by
  simp [Template.place, Scan.token, place, ref, Place.isInsideTag,
    show Place.isValue .doubleQuoted by decide]

namespace Stage

section
variable {html : List Char} {slots : List Slot} {records : Records} {n m : Nat} {st : Stage}

/-- A start tag that is being read. -/
structure Tag where
  ref : Ref
  name : String
  /-- What was compiled before and including the name. -/
  html : List Char
  /-- What was recorded before. -/
  records : Records
  new : ref ∉ records.map (·.1)

/-- A stage at the end of the name of a start tag. -/
structure Named (t : Tag) (slots : List Slot) (m : Nat) (st : Stage) : Prop where
  place : st.scan.place = .tagName
  attr : st.scan.attr = ""
  name : st.scan.tag = t.name
  ref : st.scan.ref = some t.ref
  next : st.scan.nextRef = t.ref.number + 1
  fresh : st.fresh = m
  read : st.scan.read = st.read.length
  unmarked : st.scan.marked = false
  html : st.shape.html.toList ++ st.read = t.html
  slots : st.shape.slots = slots
  records : st.shape.records = t.records

/-- The name of a start tag is read. -/
theorem Outside.leads_name (out : Outside html slots records n m st) {tag : String}
    (fits : IsTag tag) (new : ⟨n⟩ ∉ records.map (·.1)) :
    ∃ st', st.Leads (letters ('<' :: tag.toList)) st' ∧
      Named ⟨⟨n⟩, tag, html ++ '<' :: tag.toList, records, new⟩ slots m st' := by
  obtain ⟨c, name, split, letter⟩ := fits.start
  let begun (done : List Char) : Scan :=
    { st.scan.openTag c with tag := String.ofList (c :: done) }
  have small : ∀ d ∈ c :: name, d.toLower = d := by
    rw [← split]
    exact fun d hd => toLower_of_not_upper (fits.small d hd)
  have plain : ∀ d ∈ name, isTagChar d = true := by
    intro d hd
    exact fits.readable d (by rw [split]; exact List.mem_cons_of_mem _ hd)
  have notBang : c ≠ '!' := by
    rintro rfl
    exact absurd letter (by decide)
  have one : st.Leads [some '<'] (st.after '<') := leads_char _ (.inr (by decide))
  have two : (st.after '<').Leads [some c] ((st.after '<').after c) := leads_char _ (.inr notBang)
  have entered : ∃ r h, ((st.after '<').after c).scan = { begun [] with read := r, hyphens := h } := by
    refine ⟨st.scan.read + 2, if c = '-' then 1 else 0, ?_⟩
    simp [begun, after, Scan.step, Scan.advance, out.place, letter, Scan.openTag,
      small c List.mem_cons_self]
  obtain ⟨h, three⟩ := leads_letters ((st.after '<').after c) begun name entered
    (fun _ => by simp [begun, Scan.openTag]) fun done d more split r h => by
      have hd : d ∈ name := by rw [split]; simp
      have readable := plain d hd
      have apart : d ≠ '/' ∧ d ≠ '>' := by
        constructor <;> (rintro rfl; exact absurd readable (by decide))
      simp [Scan.advance, begun, Scan.openTag, not_blank_of_isTagChar readable, apart,
        small d (List.mem_cons_of_mem _ hd)]
      apply String.toList_inj.1
      simp
  have leads := (one.trans two).trans three
  have pieces : [some '<'] ++ [some c] ++ letters name = letters ('<' :: tag.toList) := by
    simp [letters, split]
  rw [pieces] at leads
  refine ⟨_, leads, ?_⟩
  exact {
    place := rfl
    attr := rfl
    name := by simp [onward, begun, ← split]
    ref := by simp [onward, begun, Scan.openTag, out.next]
    next := by simp [onward, begun, Scan.openTag, out.next]
    fresh := out.fresh
    read := by
      simp [onward, after, Scan.step, out.read]
      omega
    unmarked := rfl
    html := by simp [onward, after, ← out.html, split]
    slots := out.slots
    records := out.records }

/-- A stage in a start tag behind its name: `tail` was read since, and `own` was recorded of it. Until
it is marked, the tag lies in one chunk as a whole. -/
structure InTag (t : Tag) (done : Bool) (tail : List Char) (slots : List Slot)
    (own : List (String × List Nat)) (m : Nat) (st : Stage) : Prop where
  name : st.scan.tag = t.name
  ref : st.scan.ref = some t.ref
  next : st.scan.nextRef = t.ref.number + 1
  fresh : st.fresh = m
  read : st.scan.read = st.read.length
  marked : st.scan.marked = done
  unmarked : done = false → own = [] ∧ ∃ front, st.read = front ++ tail ∧
    st.shape.html.toList ++ front = t.html ∧ st.scan.nameEnd = some front.length
  html : done = true →
    st.shape.html.toList ++ st.read = t.html ++ (marker .standard t.ref).toList ++ tail
  slots : st.shape.slots = slots
  records : st.shape.records = t.records ++ if done then [(t.ref, own)] else []

/-- Scans that differ in nothing that a start tag as a whole is told by. -/
structure Alike (s s' : Scan) : Prop where
  tag : s'.tag = s.tag
  ref : s'.ref = s.ref
  nextRef : s'.nextRef = s.nextRef
  marked : s'.marked = s.marked
  nameEnd : s'.nameEnd = s.nameEnd

/-- One more character; how much was read of the chunk before does not matter. -/
theorem leads_one (st : Stage) {s : Scan} {c : Char} (place : st.scan.place ≠ .tagOpen)
    (advance : { st.scan.advance c with read := 0, hyphens := 0 } =
      { s with read := 0, hyphens := 0 }) : ∃ h, st.Leads (letters [c]) (st.onward s [c] h) := by
  let hyphens := if c = '-' then st.scan.hyphens + 1 else 0
  have same : { st.scan.advance c with read := st.scan.read + 1, hyphens } =
      { s with read := st.scan.read + 1, hyphens } :=
    congrArg (fun s : Scan => { s with read := st.scan.read + 1, hyphens }) advance
  have whole : st.after c = st.onward s [c] hyphens := by
    simp only [after, onward, Scan.step]
    rw [same]
    rfl
  exact ⟨hyphens, whole ▸ leads_char _ (.inl place)⟩

section
variable {t : Tag} {done : Bool} {tail : List Char} {own : List (String × List Nat)}

theorem InTag.onward (inTag : InTag t done tail slots own m st) {s : Scan}
    (alike : Alike st.scan s) (cs : List Char) (h : Nat) :
    InTag t done (tail ++ cs) slots own m (st.onward s cs h) where
  name := alike.tag.trans inTag.name
  ref := alike.ref.trans inTag.ref
  next := alike.nextRef.trans inTag.next
  fresh := inTag.fresh
  read := by simp [Stage.onward, inTag.read]
  marked := alike.marked.trans inTag.marked
  unmarked := by
    intro unmarked
    obtain ⟨nothing, front, read, html, nameEnd⟩ := inTag.unmarked unmarked
    exact ⟨nothing, front, by simp [Stage.onward, read], html, alike.nameEnd.trans nameEnd⟩
  html := by
    intro marked
    have := inTag.html marked
    simp only [Stage.onward, ← List.append_assoc, this]
  slots := inTag.slots
  records := inTag.records

/-- The name of an attribute with the equals sign behind it. -/
theorem InTag.leads_key (inTag : InTag t done tail slots own m st)
    (place : st.scan.place = .tagInner) {name : String} (fits : Field.IsName name) :
    ∃ st', st.Leads (letters (name.toList ++ ['='])) st' ∧
      InTag t done (tail ++ (name.toList ++ ['='])) slots own m st' ∧
      st'.scan.place = .beforeValue ∧ st'.scan.attr = name := by
  obtain ⟨c, more, split⟩ := List.exists_cons_of_ne_nil fits.nonempty
  have readable : ∀ d ∈ c :: more, Text.isBlank d = false ∧ d ≠ '=' ∧ d ≠ '/' ∧ d ≠ '>' := by
    rw [← split]
    intro d hd
    have readable := fits.readable d hd
    refine ⟨not_blank_of_isAttributeChar readable, ?_, ?_, ?_⟩ <;>
      (rintro rfl; exact absurd readable (by decide))
  let reading (done : List Char) : Scan :=
    { st.scan with place := .attributeName, attr := String.ofList (c :: done) }
  obtain ⟨blank, -, slash, close⟩ := readable c List.mem_cons_self
  obtain ⟨h₁, one⟩ := leads_one st (s := reading []) (c := c) (by rw [place]; decide)
    (by simp [Scan.advance, place, Scan.inner, blank, slash, close, reading])
  obtain ⟨h₂, two⟩ := leads_letters (st.onward (reading []) [c] h₁) reading more ⟨_, _, rfl⟩
    (fun _ => by simp [reading]) fun done d rest split r h => by
      obtain ⟨blank, equals, slash, close⟩ := readable d (by rw [split]; simp)
      simp [Scan.advance, reading, blank, equals, slash, close]
      apply String.toList_inj.1
      simp
  obtain ⟨h₃, three⟩ := leads_one
    ((st.onward (reading []) [c] h₁).onward (reading more) more h₂)
    (s := { reading more with place := .beforeValue }) (c := '=') (by simp [Stage.onward, reading])
    (by simp [Scan.advance, Stage.onward, reading])
  have leads := (one.trans two).trans three
  have pieces : letters [c] ++ letters more ++ letters ['='] = letters (name.toList ++ ['=']) := by
    simp [letters, split]
  rw [pieces] at leads
  refine ⟨_, leads, ?_, rfl, ?_⟩
  · have alike : ∀ done, Alike st.scan (reading done) := fun _ => ⟨rfl, rfl, rfl, rfl, rfl⟩
    have whole := ((inTag.onward (alike []) [c] h₁).onward (s := reading more)
      ⟨rfl, rfl, rfl, rfl, rfl⟩ more h₂).onward
      (s := { reading more with place := .beforeValue }) ⟨rfl, rfl, rfl, rfl, rfl⟩ ['='] h₃
    simpa [split] using whole
  · simp [Stage.onward, reading, ← split]

theorem alike_atSlot (s : Scan) : Alike s s.atSlot := by
  unfold Scan.atSlot
  split <;> exact ⟨rfl, rfl, rfl, rfl, rfl⟩

theorem attr_atSlot (s : Scan) : s.atSlot.attr = s.attr := by
  unfold Scan.atSlot
  split <;> rfl

/-- The token that a slot in a start tag ends, with the marker if the slot is the first one. -/
theorem InTag.slotToken (inTag : InTag t done tail slots own m st)
    (inside : st.scan.atSlot.place.isInsideTag = true) :
    ∃ html, st.shape.html.toList ++ html.toList = t.html ++ (marker .standard t.ref).toList ++ tail ∧
      st.scan.slotToken .standard (String.ofList st.read) =
        (st.scan.atSlot.token html, { st.scan.atSlot with marked := true }) := by
  have alike := alike_atSlot st.scan
  unfold Scan.slotToken Scan.markerAt?
  simp only [inside, alike.marked, inTag.marked, Bool.true_and]
  cases done with
  | true =>
    refine ⟨String.ofList st.read, by simpa using inTag.html rfl, ?_⟩
    have := alike.marked.trans inTag.marked
    simp [← this]
  | false =>
    obtain ⟨-, front, read, before, nameEnd⟩ := inTag.unmarked rfl
    refine ⟨String.ofList front ++ marker .standard t.ref ++ String.ofList tail, ?_, ?_⟩
    · simp [← before]
    · simp [alike.nameEnd, nameEnd, alike.ref, inTag.ref, read]

/-- Behind a slot in a start tag, the tag is marked right behind its name. -/
theorem InTag.behind (inTag : InTag t done tail slots own m st) {p : Placement}
    (inside : st.scan.atSlot.place.isInsideTag = true) (ref : p.slot.ref = t.ref) :
    InTag t true (tail ++ p.insertion.toList) (slots ++ [p.slot])
        (recordIn own p.recorded slots.length) m (st.behind p) ∧
      (st.behind p).scan.place = st.scan.atSlot.place ∧ (st.behind p).scan.attr = st.scan.attr := by
  have alike := alike_atSlot st.scan
  have notOuter : st.scan.atSlot.place ≠ .outer := by
    intro outer
    rw [outer] at inside
    exact absurd inside (by decide)
  obtain ⟨html, hhtml, htoken⟩ := inTag.slotToken inside
  have records := record_eq t.new done
    (fun unmarked => (inTag.unmarked unmarked).1) p.recorded slots.length
  have index : st.shape.slots.length = slots.length := by rw [inTag.slots]
  refine ⟨?_, ?_, ?_⟩
  · unfold Stage.behind
    rw [htoken]
    exact {
      name := alike.tag.trans inTag.name
      ref := alike.ref.trans inTag.ref
      next := alike.nextRef.trans inTag.next
      fresh := by simp [Scan.token, notOuter, inTag.fresh]
      read := rfl
      marked := rfl
      unmarked := nofun
      html := by
        intro _
        simp only [Shape.add, Scan.token, List.append_nil, String.toList_append, hhtml,
          List.append_assoc]
      slots := by simp [Shape.add, inTag.slots]
      records := by
        rw [Shape.records_add]
        simp only [if_true]
        rw [← records, ref, index, ← inTag.records]
        rfl }
  · simp [Stage.behind, htoken, Scan.nextChunk]
  · simp [Stage.behind, htoken, Scan.nextChunk, attr_atSlot]

/-- A slot in a start tag. -/
theorem InTag.leads_slot (inTag : InTag t done tail slots own m st) {p : Placement}
    (inside : st.scan.atSlot.place.isInsideTag = true) (ref : p.slot.ref = t.ref)
    (placed : ∀ html, Template.place .standard slots.length ⟨m⟩ (st.scan.atSlot.token html) = .ok p) :
    ∃ st', st.Leads [none] st' ∧
      InTag t true (tail ++ p.insertion.toList) (slots ++ [p.slot])
        (recordIn own p.recorded slots.length) m st' ∧
      st'.scan.place = st.scan.atSlot.place ∧ st'.scan.attr = st.scan.attr := by
  refine ⟨st.behind p, leads_hole st ?_, inTag.behind inside ref⟩
  obtain ⟨html, -, token⟩ := inTag.slotToken inside
  rw [token, inTag.slots, inTag.fresh]
  exact placed html

/-- A stage in a start tag where a field may come, or the end of the tag. -/
def AtField (t : Tag) (done : Bool) (tail : List Char) (slots : List Slot)
    (own : List (String × List Nat)) (m : Nat) (st : Stage) : Prop :=
  Named t slots m st ∧ done = false ∧ tail = [] ∧ own = [] ∨
    InTag t done tail slots own m st ∧
      (st.scan.place = .tagInner ∧ st.scan.attr = "" ∨ st.scan.place = .unquoted ∧ done = true)

theorem AtField.leads_space (at' : AtField t done tail slots own m st) :
    ∃ st', st.Leads (letters [' ']) st' ∧ InTag t done (tail ++ [' ']) slots own m st' ∧
      st'.scan.place = .tagInner ∧ st'.scan.attr = "" := by
  rcases at' with ⟨named, rfl, rfl, rfl⟩ | ⟨inTag, ⟨place, attr⟩ | ⟨place, -⟩⟩
  · obtain ⟨h, leads⟩ := leads_one st (s := { st.scan.endName with place := .tagInner })
      (c := ' ') (by rw [named.place]; decide)
      (by simp [Scan.advance, named.place, isBlank_space])
    refine ⟨_, leads, ?_, rfl, named.attr⟩
    exact {
      name := named.name
      ref := named.ref
      next := named.next
      fresh := named.fresh
      read := by simp [Stage.onward, named.read]
      marked := named.unmarked
      unmarked := fun _ => ⟨rfl, st.read, rfl, named.html, congrArg some named.read⟩
      html := fun h => absurd h Bool.false_ne_true
      slots := named.slots
      records := by simpa [Stage.onward] using named.records }
  · obtain ⟨h, leads⟩ := leads_one st (s := st.scan) (c := ' ') (by rw [place]; decide)
      (by simp [Scan.advance, Scan.inner, place, isBlank_space])
    exact ⟨_, leads, inTag.onward ⟨rfl, rfl, rfl, rfl, rfl⟩ _ _, place, attr⟩
  · obtain ⟨h, leads⟩ := leads_one st (s := st.scan.endAttribute) (c := ' ')
      (by rw [place]; decide) (by simp [Scan.advance, place, isBlank_space])
    exact ⟨_, leads, inTag.onward (s := st.scan.endAttribute) ⟨rfl, rfl, rfl, rfl, rfl⟩ [' '] h,
      rfl, rfl⟩

/-- The end of a start tag. -/
theorem AtField.leads_close (at' : AtField t done tail slots own m st) (raw : isRaw t.name = false) :
    ∃ st', st.Leads (letters ['>']) st' ∧
      Outside (t.html ++ (if done then (marker .standard t.ref).toList else []) ++ tail ++ ['>'])
        slots (t.records ++ if done then [(t.ref, own)] else []) (t.ref.number + 1) m st' := by
  have closing : ∀ {s : Scan}, s.tag = t.name →
      s.closeTag false = { s with attr := "", place := .outer } := by
    intro s name
    simp [Scan.closeTag, name, raw]
  rcases at' with ⟨named, rfl, rfl, rfl⟩ | ⟨inTag, place⟩
  · obtain ⟨h, leads⟩ := leads_one st
      (s := { st.scan.endName with attr := "", place := .outer }) (c := '>')
      (by rw [named.place]; decide)
      (by
        have := closing (s := st.scan.endName) named.name
        simp [Scan.advance, named.place, this, show Text.isBlank '>' = false by decide])
    refine ⟨_, leads, ?_⟩
    exact {
      place := rfl
      next := named.next
      fresh := named.fresh
      read := by simp [Stage.onward, named.read]
      html := by simp [Stage.onward, ← named.html]
      slots := named.slots
      records := by simpa [Stage.onward] using named.records }
  · obtain ⟨h, leads⟩ := leads_one st (s := { st.scan with attr := "", place := .outer })
      (c := '>') (by rcases place with ⟨place, -⟩ | ⟨place, -⟩ <;> (rw [place]; decide))
      (by
        have := closing inTag.name
        rcases place with ⟨place, -⟩ | ⟨place, -⟩ <;>
          simp [Scan.advance, Scan.inner, place, this, show Text.isBlank '>' = false by decide])
    refine ⟨_, leads, ?_⟩
    exact {
      place := rfl
      next := inTag.next
      fresh := inTag.fresh
      read := by simp [Stage.onward, inTag.read]
      html := by
        cases done with
        | true => simp [Stage.onward, ← List.append_assoc, inTag.html rfl]
        | false =>
          obtain ⟨-, front, read, before, -⟩ := inTag.unmarked rfl
          simp [Stage.onward, read, ← before]
      slots := inTag.slots
      records := inTag.records }

/-- Characters of a value in double quotes. -/
theorem InTag.leads_value (inTag : InTag t done tail slots own m st)
    (place : st.scan.place = .doubleQuoted) {cs : List Char} (open' : '\x22' ∉ cs) :
    ∃ st', st.Leads (letters cs) st' ∧ InTag t done (tail ++ cs) slots own m st' ∧
      st'.scan.place = .doubleQuoted ∧ st'.scan.attr = st.scan.attr := by
  obtain ⟨h, leads⟩ := leads_letters st (fun _ => st.scan) cs ⟨_, _, rfl⟩
    (fun _ => by rw [place]; decide) fun done c more split r h => by
      have apart : c ≠ '\x22' := fun e => open' (by rw [split, e]; simp)
      simp [Scan.advance, place, apart]
  exact ⟨_, leads, inTag.onward ⟨rfl, rfl, rfl, rfl, rfl⟩ cs h, place, rfl⟩

/-- The holes of a quoted value with the literals behind them, where `l` are the holes before. -/
theorem InTag.leads_holes {name : String} (plain : ':' ∉ name.toList) (new : name ∉ own.map (·.1))
    (rest : List String) (l : List Nat)
    (inTag : InTag t done tail slots (own ++ if l = [] then [] else [(name, l)]) m st)
    (place : st.scan.place = .doubleQuoted) (attr : st.scan.attr = name) :
    let all := l ++ List.range' slots.length rest.length
    ∃ st', st.Leads
        (rest.flatMap fun literal => none :: letters (literal.toList.flatMap escapeInValue)) st' ∧
      InTag t (done || decide (rest ≠ []))
        (tail ++ rest.flatMap fun literal =>
          t.ref.text.toList ++ literal.toList.flatMap escapeInValue)
        (slots ++ List.replicate rest.length (.attr name .double t.ref))
        (own ++ if all = [] then [] else [(name, all)]) m st' ∧
      st'.scan.place = .doubleQuoted ∧ st'.scan.attr = name := by
  dsimp only
  induction rest generalizing done tail slots l st with
  | nil =>
    refine ⟨st, Leads.refl st, ?_, place, attr⟩
    simpa using inTag
  | cons literal rest ih =>
    have same : st.scan.atSlot = st.scan := by simp [Scan.atSlot, place]
    obtain ⟨st₁, hole, inTag₁, place₁, attr₁⟩ := inTag.leads_slot
      (p := ⟨.attr name .double t.ref, t.ref.text, some name⟩)
      (by rw [same, place]; decide) rfl fun html => by
        rw [same, place_quoted place inTag.ref]
        simp [placeValue, Scan.token, place, attr, Quote.ofPlace, cutAt?_plain plain]
    rw [same] at place₁
    obtain ⟨st₂, value, inTag₂, place₂, attr₂⟩ := inTag₁.leads_value (place₁.trans place)
      (not_mem_escapeInValue literal.toList)
    have recorded := recordIn_last new l slots.length
    have last : l ++ [slots.length] ≠ [] := by simp
    rw [recorded] at inTag₂
    obtain ⟨st₃, later, inTag₃, place₃, attr₃⟩ := ih (l ++ [slots.length])
      (by rw [if_neg last]; exact inTag₂) place₂ (attr₂.trans (attr₁.trans attr))
    refine ⟨st₃, ?_, ?_, place₃, attr₃⟩
    · have leads := (hole.trans value).trans later
      simpa using leads
    · have indexes : l ++ [slots.length] ++
          List.range' (slots ++ [Slot.attr name .double t.ref]).length rest.length =
          l ++ List.range' slots.length (literal :: rest).length := by
        simp [List.range'_succ]
      rw [indexes] at inTag₃
      simpa [List.replicate_succ] using inTag₃

/-- A hole that takes the place of a value. -/
theorem InTag.leads_bare (inTag : InTag t done tail slots own m st)
    (place : st.scan.place = .beforeValue) (slot : Slot) (ref : slot.ref = t.ref)
    (placed : ∀ html, placeValue ({ st.scan with place := .unquoted }.token html) t.ref =
      .ok ⟨slot, "\"\"", none⟩) :
    ∃ st', st.Leads [none] st' ∧
      AtField t true (tail ++ ['\x22', '\x22']) (slots ++ [slot]) own m st' := by
  have atSlot : st.scan.atSlot = { st.scan with place := .unquoted } := by
    simp [Scan.atSlot, place]
  obtain ⟨st', leads, inTag', place', -⟩ := inTag.leads_slot (p := ⟨slot, "\"\"", none⟩)
    (by rw [atSlot]; exact (by decide : Place.isInsideTag .unquoted = true)) ref fun html => by
      rw [atSlot, place_bare (s := { st.scan with place := .unquoted }) rfl inTag.ref]
      exact placed html
  rw [atSlot] at place'
  refine ⟨st', leads, .inr ⟨?_, .inr ⟨place', rfl⟩⟩⟩
  simpa using inTag'

/-- A field of a start tag. -/
theorem AtField.leads_field {field : Field} (fits : field.Fits t.name)
    (new : ∀ name ∈ field.name?, name ∉ own.map (·.1))
    (at' : AtField t done tail slots own m st) :
    ∃ st', st.Leads field.print st' ∧
      AtField t (done || decide (field.holes ≠ 0)) (tail ++ field.markup t.ref)
        (slots ++ field.slots t.ref) (own ++ field.records slots.length) m st' := by
  obtain ⟨st₁, space, inTag₁, place₁, attr₁⟩ := at'.leads_space
  cases field with
  | quoted name first rest =>
    obtain ⟨isName, holes⟩ := fits
    obtain ⟨st₂, key, inTag₂, place₂, attr₂⟩ := inTag₁.leads_key place₁ isName
    obtain ⟨h₃, quote⟩ := leads_one st₂ (s := { st₂.scan with place := .doubleQuoted })
      (c := '\x22') (by rw [place₂]; decide) (by simp [Scan.advance, place₂])
    have inTag₃ := inTag₂.onward (s := { st₂.scan with place := .doubleQuoted })
      ⟨rfl, rfl, rfl, rfl, rfl⟩ ['\x22'] h₃
    obtain ⟨st₄, value, inTag₄, place₄, attr₄⟩ := inTag₃.leads_value rfl
      (not_mem_escapeInValue first.toList)
    obtain ⟨st₅, later, inTag₅, place₅, attr₅⟩ : ∃ st₅, st₄.Leads
        (rest.flatMap fun literal => none :: letters (literal.toList.flatMap escapeInValue)) st₅ ∧
        InTag t (done || decide (rest ≠ []))
          (tail ++ [' '] ++ (name.toList ++ ['=']) ++ ['\x22'] ++ first.toList.flatMap escapeInValue ++
            rest.flatMap fun literal =>
              t.ref.text.toList ++ literal.toList.flatMap escapeInValue)
          (slots ++ List.replicate rest.length (.attr name .double t.ref))
          (own ++ Field.records slots.length (.quoted name first rest)) m st₅ ∧
        st₅.scan.place = .doubleQuoted ∧ st₅.scan.attr = name := by
      cases rest with
      | nil => exact ⟨st₄, Leads.refl st₄, by simpa [Field.records] using inTag₄, place₄, attr₄.trans attr₂⟩
      | cons literal rest =>
        obtain ⟨st₅, later, inTag₅, place₅, attr₅⟩ := InTag.leads_holes
          (holes (List.cons_ne_nil _ _)).1 (new name rfl) (literal :: rest) []
          (by simpa using inTag₄) place₄ (attr₄.trans attr₂)
        exact ⟨st₅, later, by simpa [Field.records] using inTag₅, place₅, attr₅⟩
    obtain ⟨h₆, unquote⟩ := leads_one st₅ (s := st₅.scan.endAttribute) (c := '\x22')
      (by rw [place₅]; decide) (by simp [Scan.advance, place₅])
    have inTag₆ := inTag₅.onward (s := st₅.scan.endAttribute) ⟨rfl, rfl, rfl, rfl, rfl⟩ ['\x22'] h₆
    refine ⟨st₅.onward st₅.scan.endAttribute ['\x22'] h₆, ?_, .inr ⟨?_, .inl ⟨rfl, rfl⟩⟩⟩
    · have leads := ((((space.trans key).trans quote).trans value).trans later).trans unquote
      simpa [Field.print, letters] using leads
    · simpa [Field.holes, Field.markup, Field.slots] using inTag₆
  | bare name =>
    obtain ⟨isName, plain⟩ := fits
    obtain ⟨st₂, key, inTag₂, place₂, attr₂⟩ := inTag₁.leads_key place₁ isName
    obtain ⟨st₃, hole, at₃⟩ := inTag₂.leads_bare place₂ (.attr name .none t.ref) rfl
      fun html => by
        simp [placeValue, Scan.token, attr₂, Quote.ofPlace, cutAt?_plain plain]
    refine ⟨st₃, ?_, ?_⟩
    · have leads := (space.trans key).trans hole
      simpa [Field.print, letters] using leads
    · simpa [Field.holes, Field.markup, Field.slots, Field.records] using at₃
  | directive kind name =>
    obtain ⟨st₂, key, inTag₂, place₂, attr₂⟩ := inTag₁.leads_key place₁ fits
    have known : DirectiveKind.ofName? kind.name = some kind := by cases kind <;> decide
    obtain ⟨st₃, hole, at₃⟩ := inTag₂.leads_bare place₂ (.directive kind name t.ref) rfl
      fun html => by
        simp only [placeValue, Scan.token, attr₂, cutAt?_directive kind name, known]
        rfl
    refine ⟨st₃, ?_, ?_⟩
    · have leads := (space.trans key).trans hole
      simpa [Field.print, letters] using leads
    · simpa [Field.holes, Field.markup, Field.slots, Field.records] using at₃
  | component =>
    have same : st₁.scan.atSlot = st₁.scan := by simp [Scan.atSlot, place₁]
    have tag : st₁.scan.tag = Config.standard.outletTag := inTag₁.name.trans fits
    obtain ⟨st₂, hole, inTag₂, place₂, attr₂⟩ := inTag₁.leads_slot
      (p := ⟨.component t.ref, "", none⟩) (by rw [same, place₁]; decide) rfl fun html => by
        rw [same]
        simp [Template.place, Scan.token, place₁, inTag₁.ref, attr₁, tag, Place.isInsideTag]
    rw [same] at place₂
    refine ⟨st₂, ?_, .inr ⟨?_, .inl ⟨place₂.trans place₁, attr₂.trans attr₁⟩⟩⟩
    · exact space.trans hole
    · simpa [Field.holes, Field.markup, Field.slots, Field.records] using inTag₂

/-- The fields of a start tag. -/
theorem AtField.leads_fields {fields : List Field} (fits : ∀ field ∈ fields, field.Fits t.name)
    (distinct : (own.map (·.1) ++ fields.filterMap Field.name?).Nodup)
    (at' : AtField t done tail slots own m st) :
    ∃ st', st.Leads (fields.flatMap Field.print) st' ∧
      AtField t (done || decide (Field.holesAll fields ≠ 0))
        (tail ++ fields.flatMap (Field.markup t.ref)) (slots ++ fields.flatMap (Field.slots t.ref))
        (own ++ Field.recordsAll slots.length fields) m st' := by
  induction fields generalizing done tail slots own st with
  | nil =>
    refine ⟨st, Leads.refl st, ?_⟩
    simpa [Field.holesAll, Field.recordsAll] using at'
  | cons field fields ih =>
    have new : ∀ name ∈ field.name?, name ∉ own.map (·.1) := by
      intro name hname mem
      refine (List.nodup_append.1 distinct).2.2 name mem name ?_ rfl
      exact List.mem_filterMap.2 ⟨field, List.mem_cons_self, hname⟩
    obtain ⟨st₁, here, at₁⟩ := at'.leads_field (fits field List.mem_cons_self) new
    have apart : ((own ++ field.records slots.length).map (·.1) ++
        fields.filterMap Field.name?).Nodup := by
      rw [Field.filterMap_name?_cons] at distinct
      rw [List.map_append, List.append_assoc]
      exact distinct.sublist ((List.Sublist.refl _).append ((Field.keys_records _ field).append_right _))
    obtain ⟨st₂, later, at₂⟩ := ih (fun f hf => fits f (List.mem_cons_of_mem _ hf)) apart at₁
    refine ⟨st₂, by simpa using here.trans later, ?_⟩
    have length : (slots ++ field.slots t.ref).length = slots.length + field.holes := by
      simp [Field.length_slots]
    have marks : (done || decide (field.holes ≠ 0) || decide (Field.holesAll fields ≠ 0)) =
        (done || decide (Field.holesAll (field :: fields) ≠ 0)) := by
      rw [Field.holesAll]
      by_cases here : field.holes = 0 <;> by_cases later : Field.holesAll fields = 0 <;>
        simp [here, later]
    rw [length, marks] at at₂
    simpa [Field.recordsAll] using at₂

end

/-- A start tag as a whole. -/
theorem Outside.leads_start (out : Outside html slots records n m st) {tag : String}
    {fields : List Field} (isTag : IsTag tag) (raw : isRaw tag = false)
    (fits : ∀ field ∈ fields, field.Fits tag) (distinct : (fields.filterMap Field.name?).Nodup)
    (new : ⟨n⟩ ∉ records.map (·.1)) :
    ∃ st', st.Leads (letters ('<' :: tag.toList) ++ fields.flatMap Field.print ++ letters ['>']) st' ∧
      Outside (html ++ ('<' :: tag.toList ++ (Field.markupAll ⟨n⟩ fields ++ ['>'])))
        (slots ++ fields.flatMap (Field.slots ⟨n⟩))
        (records ++ if Field.holesAll fields = 0 then []
          else [(⟨n⟩, Field.recordsAll slots.length fields)]) (n + 1) m st' := by
  obtain ⟨st₁, name, named⟩ := out.leads_name isTag new
  obtain ⟨st₂, inside, at₂⟩ := AtField.leads_fields fits
    (show (([] : List (String × List Nat)).map (·.1) ++ _).Nodup by simpa using distinct)
    (.inl ⟨named, rfl, rfl, rfl⟩)
  obtain ⟨st₃, close, out₃⟩ := at₂.leads_close raw
  refine ⟨st₃, (name.trans inside).trans close, ?_⟩
  by_cases none : Field.holesAll fields = 0
  · simpa [none, Field.markupAll] using out₃
  · simpa [none, Field.markupAll] using out₃

end

end Stage
end LiveMarkup.Template
