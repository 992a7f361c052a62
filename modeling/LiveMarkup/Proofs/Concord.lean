import LiveMarkup.Proofs.Census
import LiveMarkup.Proofs.Roundtrip
import LiveMarkup.Proofs.Allotment

/-!
The scan of a tidy template and a reader of the markup that is compiled from it go together: after every
character and every slot they stand at the same place, and the elements with slots are the same.
-/
namespace LiveMarkup.Template
open Markup

namespace Scan

/-- The quoted value with slots that a character ends, with its element. -/
def quoted (s : Scan) (a : Option Assignment) (c : Char) : List (Ref × Assignment) :=
  ((if (s.quote a c).isNone then a.toList else []).filter Assignment.slotted).flatMap fun a =>
    s.ref.toList.map (·, a)

/-- The quoted attributes with slots that are left, with their elements. `a` is the quoted value being
read, and `i` the index of the next slot. -/
def quotations (s : Scan) (a : Option Assignment) (i : Nat) (g : Gapped) : List (Ref × Assignment) :=
  match g with
  | [] => []
  | none :: rest => s.pastSlot.quotations (a.map (·.slot i)) (i + 1) rest
  | some c :: rest =>
    if s.place == .tagOpen && (letters ['!', '-', '-']).isPrefixOf (some c :: rest) then
      s.enterComment.quotations none i (rest.drop 2)
    else s.quoted a c ++ (s.step c).quotations (s.quote a c) i rest
termination_by g.length
decreasing_by all_goals simp only [List.length_cons, List.length_drop]; omega

end Scan

/-- Markup up to a moment, as a reader has taken it: what was made of it, and a text that is held. -/
structure Front where
  html : List Char
  text : List Char
  builder : Builder
  held : List Holder

section
variable {k : Setting} {f : Front} {slots : List Slot} {records : Records} {n m : Nat}
  {spoken : List (Ref × Assignment)} {u : List Char} {item : Item} {b : Builder}

namespace Front

/-- A reader has found what was compiled. -/
structure Agrees (f : Front) (k : Setting) (slots : List Slot) (records : Records) (n m : Nat)
    (spoken : List (Ref × Assignment)) : Prop where
  mild : Mild f.text
  reads : ∀ tail, readInto .start (f.html ++ tail) = readInto f.builder (f.text ++ tail)
  census : Census k f.held f.builder slots records n m
  spoken : spoken = f.held.flatMap Holder.quoted

/-- The fragment under construction with the text that is held. -/
def flushed (f : Front) : Builder :=
  f.builder.flush f.text

/-- More text. -/
def grow (f : Front) (u : List Char) : Front :=
  { f with html := f.html ++ u, text := f.text ++ u }

theorem Agrees.grow (h : f.Agrees k slots records n m spoken) (mild : Mild u) :
    (f.grow u).Agrees k slots records n m spoken :=
  { h with
    mild := h.mild.append mild
    reads := fun tail => by simpa [Front.grow] using h.reads (u ++ tail) }

theorem Agrees.flushed (h : f.Agrees k slots records n m spoken) :
    Census k f.held f.flushed slots records n m :=
  h.census.flush f.text

/-- The text that is held is over where markup opens. -/
theorem Agrees.reads_behind (h : f.Agrees k slots records n m spoken) (opens : opensMarkup u = true) :
    readInto .start (f.html ++ u) = readInto f.flushed u :=
  (h.reads u).trans (readInto_mild h.mild (.inr opens))

/-- Behind an item. -/
def past (f : Front) (u : List Char) (item : Item) : Front :=
  ⟨f.html ++ u, [], f.flushed.step item, f.held⟩

theorem Agrees.past (h : f.Agrees k slots records n m spoken) (item : Item) (aside : item.IsAside)
    (opens : ∀ tail, opensMarkup (u ++ tail) = true)
    (reads : ∀ b tail, readInto b (u ++ tail) = readInto (b.step item) tail) :
    (f.past u item).Agrees k slots records n m spoken where
  mild := trivial
  reads tail := by
    rw [Front.past, List.append_assoc, h.reads_behind (opens tail), reads]
    rfl
  census := h.flushed.aside item aside
  spoken := h.spoken

end Front

end

theorem Stage.place_after (st : Stage) (c : Char) :
    (st.after c).scan.place = (st.scan.advance c).place := rfl

/-! In text, end tags, declarations and comments. -/

/-- A stage at which a reader has found what was compiled, up to what stands directly `behind`. -/
structure Front.Stands (f : Front) (k : Setting) (st : Stage) (spoken : List (Ref × Assignment))
    (behind : List Char) : Prop where
  read : st.scan.read = st.read.length
  html : st.shape.html.toList ++ st.read = f.html ++ behind
  agrees : f.Agrees k st.shape.slots st.shape.records st.scan.nextRef st.fresh spoken

namespace Front.Stands
variable {k : Setting} {f : Front} {st : Stage} {spoken : List (Ref × Assignment)}
  {behind : List Char} {c : Char} {item : Item}

theorem after (h : f.Stands k st spoken behind) (next : (st.scan.advance c).nextRef = st.scan.nextRef) :
    f.Stands k (st.after c) spoken (behind ++ [c]) where
  read := by simp [Stage.after, Scan.step, h.read]
  html := by
    rw [← List.append_assoc, ← h.html]
    exact (List.append_assoc _ _ _).symm
  agrees := by
    have same : (st.after c).scan.nextRef = st.scan.nextRef := next
    rw [same]
    exact h.agrees

theorem grow (h : f.Stands k st spoken behind) (mild : Mild behind) :
    (f.grow behind).Stands k st spoken [] where
  read := h.read
  html := by rw [List.append_nil]; exact h.html
  agrees := h.agrees.grow mild

theorem past (h : f.Stands k st spoken behind) (item : Item) (aside : item.IsAside)
    (opens : ∀ tail, opensMarkup (behind ++ tail) = true)
    (reads : ∀ b tail, readInto b (behind ++ tail) = readInto (b.step item) tail) :
    (f.past behind item).Stands k st spoken [] where
  read := h.read
  html := by rw [List.append_nil]; exact h.html
  agrees := h.agrees.past item aside opens reads

end Front.Stands

/-! In start tags. -/

/-- A start tag that a reader comes to: what was compiled before it was found. -/
structure Opening (k : Setting) (f : Front) (t : Stage.Tag) (slots : List Slot) (m : Nat)
    (spoken : List (Ref × Assignment)) : Prop where
  agrees : f.Agrees k slots t.records t.ref.number m spoken
  named : ∃ name, t.html = f.html ++ '<' :: name ∧ (∃ c rest, name = c :: rest ∧ isTagStart c = true) ∧
    (∀ d ∈ name, isTagChar d = true) ∧ t.name = Text.lowercase (String.ofList name)

/-- A stage in a start tag behind its name, where a reader has taken `fields` of it and holds `cur`. -/
structure Within (k : Setting) (st : Stage) (spoken : List (Ref × Assignment)) (f : Front)
    (t : Stage.Tag) (done : Bool) (body : List Char) (fields : List Assignment) (cur : List Char)
    (a : Option Assignment) (slots mine : List Slot) (before : List (Ref × Assignment)) : Prop where
  opening : Opening k f t slots st.fresh before
  inTag : Stage.InTag t done body (slots ++ mine) (recorded (fields ++ a.toList)) st.fresh st
  held : Held k.clean t.ref st.scan st.read cur a
  takes : Takes t.ref body fields cur
  proper : ∀ b ∈ fields, b.Proper k.clean
  own : ∀ s ∈ mine, s.ref = t.ref ∧ s.isOutlet = false
  unmarked : done = false → mine = [] ∧ (fields ++ a.toList).flatMap Assignment.marks = []
  spoken : spoken = before ++ Holder.quoted ⟨t.ref, fields⟩

/-- A stage in raw text, behind the start tag of its element. -/
structure Pending (k : Setting) (st : Stage) (spoken : List (Ref × Assignment)) (html s : List Char)
    (b : Builder) (attributes : Attributes) (held : List Holder) : Prop where
  read : st.scan.read = st.read.length
  whole : st.shape.html.toList ++ st.read = html ++ s
  tagged : ∀ d ∈ st.scan.tag.toList, isTagChar d = true
  behind : st.scan.raw = s.reverse
  raw : Raw st.scan.tag s
  reads : ∀ s text tail, readRaw st.scan.tag s = .ok (text, tail) → readInto .start (html ++ s) =
    readInto (b.step (.closed st.scan.tag attributes (String.ofList text))) tail
  census : ∀ content, Census k held (b.step (.closed st.scan.tag attributes content))
    st.shape.slots st.shape.records st.scan.nextRef st.fresh
  spoken : spoken = held.flatMap Holder.quoted

/-- The stages at which the scan and a reader stand at the same place, in front of `g`. `a` is the quoted
value being read. -/
inductive Concord (k : Setting) (st : Stage) (g : Gapped) (spoken : List (Ref × Assignment)) :
    Option Assignment → Prop
  | text {f : Front} (place : st.scan.place = .outer) (stands : f.Stands k st spoken []) :
      Concord k st g spoken none
  | bracket {f : Front} (place : st.scan.place = .tagOpen) (stands : f.Stands k st spoken ['<']) :
      Concord k st g spoken none
  | ending {f : Front} (more : List Char) (place : st.scan.place = .endTag)
      (stands : f.Stands k st spoken ('<' :: '/' :: more)) (going : '>' ∉ more)
      (letter : (letters more ++ g).head?.any (Option.any isTagStart) = true) :
      Concord k st g spoken none
  | declaration {f : Front} (more : List Char) (place : st.scan.place = .endTag)
      (stands : f.Stands k st spoken ('<' :: '!' :: more)) (going : '>' ∉ more)
      (other : ¬ letters ['-', '-'] <+: letters more ++ g) : Concord k st g spoken none
  | comment {f : Front} (data : List Char) (place : st.scan.place = .comment)
      (stands : f.Stands k st spoken ('<' :: '!' :: '-' :: '-' :: data))
      (going : ¬ "-->".toList <:+: data) (opened : Scan.opensClosed (letters data ++ g) = false)
      (hyphens : st.scan.hyphens = trailing ('-' :: '-' :: data)) : Concord k st g spoken none
  | name {f : Front} {t : Stage.Tag} (named : Stage.Named t st.shape.slots st.fresh st)
      (opening : Opening k f t st.shape.slots st.fresh spoken) : Concord k st g spoken none
  | inside {f : Front} {t : Stage.Tag} {done : Bool} {body : List Char} {fields : List Assignment}
      {cur : List Char} {a : Option Assignment} {slots mine : List Slot}
      {before : List (Ref × Assignment)}
      (within : Within k st spoken f t done body fields cur a slots mine before)
      (begun : ∃ d more, body = d :: more ∧ isTagChar d = false) : Concord k st g spoken a
  | raw (html s : List Char) (b : Builder) (attributes : Attributes) (held : List Holder)
      (place : st.scan.place = .rawText) (pending : Pending k st spoken html s b attributes held) :
      Concord k st g spoken none

/-! The end of a start tag. -/

namespace Stage.Tag
variable (t : Stage.Tag) (done : Bool) (all : List Assignment)

/-- The marker behind the name. -/
def mark : List Char :=
  if done then (marker .standard t.ref).toList else []

/-- The attributes that a reader finds. -/
def attributes : Attributes :=
  giveAll t.ref (if done then Attributes.set .empty markerName t.ref.text else .empty) all

/-- The element, if it has slots. -/
def holders : List Holder :=
  if done then [⟨t.ref, all⟩] else []

theorem readAttributes_mark {body : List Char} {selfClosing : Bool}
    (closes : Closes t.ref body all selfClosing) (tail : List Char) :
    readAttributes .empty (t.mark done ++ (body ++ tail)) =
      .ok (t.attributes done all, selfClosing, tail) := by
  cases done with
  | false => exact closes .empty tail
  | true =>
    have marked := @Field.readAttributes_mark .standard (by decide)
      (Text.forall_mem_of_all (by decide)) t.ref (body ++ tail)
    exact marked.trans (closes _ tail)

theorem head_mark {body : List Char} (begun : ∀ d ∈ body.head?, isTagChar d = false) (some : body ≠ [])
    (tail : List Char) : ∀ d ∈ (t.mark done ++ (body ++ tail)).head?, isTagChar d = false := by
  cases done with
  | false =>
    obtain ⟨d, more, rfl⟩ := List.exists_cons_of_ne_nil some
    exact begun
  | true =>
    have blank : t.mark true = ' ' :: (t.mark true).tail := by
      simp [mark, Field.toList_marker]
    rw [blank]
    rintro d ⟨⟩
    decide

end Stage.Tag

namespace Within
variable {k : Setting} {st : Stage} {spoken before : List (Ref × Assignment)} {f : Front} {t : Stage.Tag}
  {done : Bool} {body cur : List Char} {fields all : List Assignment} {a : Option Assignment}
  {slots mine : List Slot} {c : Char} {item : Item} {content : String}

theorem whole (h : Within k st spoken f t done body fields cur a slots mine before) :
    st.shape.html.toList ++ st.read = t.html ++ (t.mark done ++ body) := by
  cases done with
  | true => simpa [Stage.Tag.mark] using h.inTag.html rfl
  | false =>
    obtain ⟨-, front, read, html, -⟩ := h.inTag.unmarked rfl
    rw [read, ← List.append_assoc, html]
    rfl

theorem census (h : Within k st spoken f t done body fields cur a slots mine before)
    (low : t.ref.number < k.first) (proper : ∀ a ∈ all, a.Proper k.clean)
    (marks : all.flatMap Assignment.marks = (fields ++ a.toList).flatMap Assignment.marks)
    (starts : item = .opening t.name (t.attributes done all) ∨
      item = .closed t.name (t.attributes done all) content) :
    Census k (f.held ++ t.holders done all) (f.flushed.step item) st.shape.slots
      st.shape.records (t.ref.number + 1) st.fresh := by
  have flushed := h.opening.agrees.flushed
  have slots := h.inTag.slots
  have records := h.inTag.records
  cases done with
  | true =>
    have own : recorded (fields ++ a.toList) = recorded all := by rw [recorded, recorded, marks]
    rw [slots, records, own]
    exact flushed.marked low starts proper h.own
  | false =>
    obtain ⟨none, -⟩ := h.unmarked rfl
    subst none
    have bare : (t.attributes false all).value? markerName = none := marker_giveAll t.ref .empty
      fun a ha => (proper a ha).1
    rw [slots, records]
    simpa [Stage.Tag.holders] using flushed.unmarked starts bare

theorem quoted (h : Within k st spoken f t done body fields cur a slots mine before)
    (marks : all.flatMap Assignment.marks = (fields ++ a.toList).flatMap Assignment.marks) :
    before ++ Holder.quoted ⟨t.ref, all⟩ = (f.held ++ t.holders done all).flatMap Holder.quoted := by
  rw [List.flatMap_append, ← h.opening.agrees.spoken]
  cases done with
  | true => simp [Stage.Tag.holders]
  | false =>
    have none := filter_slotted_eq_nil.2 (marks.trans (h.unmarked rfl).2)
    simp [Stage.Tag.holders, Holder.quoted, none]

end Within

namespace Concord

section
variable {k : Setting} {st : Stage} {g : Gapped} {spoken : List (Ref × Assignment)} {c : Char} {f : Front}

/-! One more character, outside start tags. -/

theorem step_text (place : st.scan.place = .outer) (stands : f.Stands k st spoken []) :
    Concord k (st.after c) g spoken none := by
  by_cases bracket : c = '<'
  · subst bracket
    have advance : st.scan.advance '<' = { st.scan with place := .tagOpen } := by
      simp [Scan.advance, place]
    exact .bracket (by rw [Stage.place_after, advance]) (stands.after (by rw [advance]))
  · have advance : st.scan.advance c = st.scan := by simp [Scan.advance, place, bracket]
    refine .text (by rw [Stage.place_after, advance, place])
      ((stands.after (by rw [advance])).grow ?_)
    exact bracket

theorem step_ending {more : List Char} (place : st.scan.place = .endTag)
    (stands : f.Stands k st spoken ('<' :: '/' :: more)) (going : '>' ∉ more)
    (letter : (letters more ++ some c :: g).head?.any (Option.any isTagStart) = true) :
    Concord k (st.after c) g spoken none := by
  by_cases close : c = '>'
  · subst close
    have advance : st.scan.advance '>' = { st.scan with place := .outer } := by
      simp [Scan.advance, place]
    obtain ⟨d, more, rfl⟩ := List.exists_cons_of_ne_nil (l := more) fun none => by
      rw [none] at letter
      exact absurd letter (show ¬ isTagStart '>' = true by decide)
    obtain ⟨tag, reads⟩ := readInto_skippedEnding (d := d) letter going
    refine .text (by rw [Stage.place_after, advance]) ((stands.after (by rw [advance])).past (.ending tag)
      trivial (fun tail => rfl) fun b tail => ?_)
    simpa using reads b tail
  · have advance : st.scan.advance c = st.scan := by simp [Scan.advance, place, close]
    refine .ending (more ++ [c]) (by rw [Stage.place_after, advance, place])
      (stands.after (by rw [advance])) (by simp [going, Ne.symm close]) ?_
    simpa [letters] using letter

theorem step_declaration {more : List Char} (place : st.scan.place = .endTag)
    (stands : f.Stands k st spoken ('<' :: '!' :: more)) (going : '>' ∉ more)
    (other : ¬ letters ['-', '-'] <+: letters more ++ some c :: g) :
    Concord k (st.after c) g spoken none := by
  by_cases close : c = '>'
  · subst close
    have advance : st.scan.advance '>' = { st.scan with place := .outer } := by
      simp [Scan.advance, place]
    have notComment : ¬ ['-', '-'] <+: more := fun start =>
      other ((start.map some).trans (List.prefix_append _ _))
    refine .text (by rw [Stage.place_after, advance]) ((stands.after (by rw [advance])).past .declaration
      trivial (fun tail => rfl) fun b tail => ?_)
    simpa [Builder.step] using readInto_skippedDeclaration notComment going tail
  · have advance : st.scan.advance c = st.scan := by simp [Scan.advance, place, close]
    refine .declaration (more ++ [c]) (by rw [Stage.place_after, advance, place])
      (stands.after (by rw [advance])) (by simp [going, Ne.symm close]) ?_
    simpa [letters] using other

theorem step_comment {data : List Char} (place : st.scan.place = .comment)
    (stands : f.Stands k st spoken ('<' :: '!' :: '-' :: '-' :: data))
    (going : ¬ "-->".toList <:+: data)
    (opened : Scan.opensClosed (letters data ++ some c :: g) = false)
    (hyphens : st.scan.hyphens = trailing ('-' :: '-' :: data)) :
    Concord k (st.after c) g spoken none := by
  by_cases close : c = '>' ∧ 2 ≤ st.scan.hyphens
  · obtain ⟨rfl, long⟩ := close
    have advance : st.scan.advance '>' = { st.scan with place := .outer } := by
      simp [Scan.advance, place, long]
    have some : data ≠ [] := by
      rintro rfl
      exact absurd opened (by simp [Scan.opensClosed, letters])
    have other : data ≠ ['-'] := by
      rintro rfl
      exact absurd opened (by simp [Scan.opensClosed, letters])
    obtain ⟨body, reads⟩ := readInto_closedComment going some other (hyphens ▸ long)
    refine .text (by rw [Stage.place_after, advance]) ((stands.after (by rw [advance])).past (.comment body)
      trivial (fun tail => rfl) fun b tail => ?_)
    simpa using reads b tail
  · have advance : st.scan.advance c = st.scan := by simp [Scan.advance, place, close]
    refine .comment (data ++ [c]) (by rw [Stage.place_after, advance, place])
      (stands.after (by rw [advance])) (going_concat going (hyphens ▸ close)) ?_ ?_
    · simpa [letters] using opened
    · rw [show '-' :: '-' :: (data ++ [c]) = '-' :: '-' :: data ++ [c] from rfl, trailing_concat, ← hyphens]
      rfl

theorem step_raw {html s : List Char} {b : Builder} {attributes : Attributes} {held : List Holder}
    (place : st.scan.place = .rawText) (pending : Pending k st spoken html s b attributes held)
    (tidy : st.scan.tidyAt c g = true) : Concord k (st.after c) g spoken none := by
  have tidy : Scan.atEndTag st.scan.tag s.reverse = true → Text.isBlank c = true ∨ c = '>' := by
    intro ends
    rw [← pending.behind] at ends
    simpa [Scan.tidyAt, place, ends] using tidy
  have grown : (st.after c).shape.html.toList ++ (st.after c).read = html ++ (s ++ [c]) := by
    rw [← List.append_assoc, ← pending.whole]
    exact (List.append_assoc _ _ _).symm
  rcases pending.raw.step pending.tagged tidy with ⟨rfl, ends, text, reads⟩ | ⟨going, raw⟩
  · have advance : st.scan.advance '>' = { st.scan with raw := [], place := .outer } := by
      simp [Scan.advance, place, pending.behind, ends]
    have whole : ∀ tail, readInto .start (html ++ (s ++ ['>']) ++ tail) = readInto
        (b.step (.closed st.scan.tag attributes (String.ofList text))) tail := by
      intro tail
      rw [List.append_assoc, List.append_assoc]
      exact pending.reads _ text tail (reads tail)
    refine .text (f := ⟨html ++ (s ++ ['>']), [],
      b.step (.closed st.scan.tag attributes (String.ofList text)), held⟩)
      (by rw [Stage.place_after, advance]) ⟨by simp [Stage.after, Scan.step, pending.read], ?_, ?_⟩
    · rw [List.append_nil]
      exact grown
    · have next : (st.after '>').scan.nextRef = st.scan.nextRef := by
        simp [Stage.after, Scan.step, advance]
      rw [next]
      exact ⟨trivial, whole, pending.census _, pending.spoken⟩
  · have going : ¬ (c = '>' ∧ Scan.atEndTag st.scan.tag st.scan.raw = true) := by
      rw [pending.behind]
      exact going
    have advance : st.scan.advance c = { st.scan with raw := c :: st.scan.raw } := by
      simp [Scan.advance, place, going]
    have tag : (st.after c).scan.tag = st.scan.tag := by simp [Stage.after, Scan.step, advance]
    have next : (st.after c).scan.nextRef = st.scan.nextRef := by
      simp [Stage.after, Scan.step, advance]
    refine .raw html (s ++ [c]) b attributes held
      (by rw [Stage.place_after, advance, place]) ?_
    exact {
      read := by simp [Stage.after, Scan.step, pending.read]
      whole := grown
      tagged := by rw [tag]; exact pending.tagged
      behind := by simp [Stage.after, Scan.step, advance, pending.behind]
      raw := by rw [tag]; exact raw
      reads := by rw [tag]; exact pending.reads
      census := by rw [tag, next]; exact pending.census
      spoken := pending.spoken }

/-! One more character in a start tag. -/

section
variable {t : Stage.Tag} {done : Bool} {body cur : List Char} {fields all : List Assignment}
  {a : Option Assignment} {slots mine : List Slot} {before : List (Ref × Assignment)}

/-- The end of a start tag. Raw text, other content or nothing follows. -/
theorem step_close (within : Within k st spoken f t done body fields cur a slots mine before)
    (low : t.ref.number < k.first) (begun : ∀ d ∈ (body ++ [c]).head?, isTagChar d = false)
    (proper : ∀ a ∈ all, a.Proper k.clean)
    (marks : all.flatMap Assignment.marks = (fields ++ a.toList).flatMap Assignment.marks)
    {selfClosing : Bool} (ends : st.scan.advance c = st.scan.closeTag selfClosing)
    (closes : Closes t.ref (body ++ [c]) all selfClosing) :
    Concord k (st.after c) g (before ++ Holder.quoted ⟨t.ref, all⟩) none := by
  obtain ⟨name, split, start, readable, lower⟩ := within.opening.named
  have read := t.readAttributes_mark done all closes
  have stop := t.head_mark done begun (List.append_ne_nil_of_right_ne_nil body (List.cons_ne_nil c []))
  let html := f.html ++ '<' :: (name ++ (t.mark done ++ (body ++ [c])))
  have whole : (st.after c).shape.html.toList ++ (st.after c).read = html := by
    have grown : (st.after c).shape.html.toList ++ (st.after c).read =
        st.shape.html.toList ++ st.read ++ [c] := (List.append_assoc _ _ _).symm
    rw [grown, within.whole, split]
    simp [html]
  have opens : ∀ s, opensMarkup ('<' :: (name ++ s)) = true := by
    obtain ⟨d, rest, rfl, letter⟩ := start
    intro s
    simp [opensMarkup, letter]
  have comes : ∀ tail, readInto .start (html ++ tail) =
      readInto f.flushed ('<' :: (name ++ (t.mark done ++ (body ++ [c] ++ tail)))) := by
    intro tail
    rw [← within.opening.agrees.reads_behind (opens _)]
    simp [html]
  have count : (st.after c).scan.read = (st.after c).read.length := by
    simp [Stage.after, Scan.step, within.inTag.read]
  have next : (st.after c).scan.nextRef = t.ref.number + 1 := by
    have same : (st.after c).scan.nextRef = (st.scan.advance c).nextRef := rfl
    rw [same, ends, (Scan.closeTag_same st.scan selfClosing).2, within.inTag.next]
  have tag := within.inTag.name
  by_cases raw : selfClosing = false ∧ isRaw t.name = true
  · obtain ⟨rfl, raw⟩ := raw
    have advance : st.scan.advance c = { st.scan with attr := "", raw := [], place := .rawText } :=
      ends.trans (if_pos (by rw [tag, raw]; rfl))
    have tag' : (st.after c).scan.tag = Text.lowercase (String.ofList name) := by
      have same : (st.after c).scan.tag = (st.scan.advance c).tag := rfl
      rw [same, advance, ← lower, ← tag]
    rw [lower] at raw
    refine .raw html [] f.flushed (t.attributes done all)
      (f.held ++ t.holders done all) (by rw [Stage.place_after, advance]) ?_
    exact {
      read := count
      whole := by rw [List.append_nil]; exact whole
      tagged := by
        rw [tag', Text.lowercase, String.toList_ofList]
        intro d hd
        obtain ⟨e, he, rfl⟩ := List.mem_map.1 hd
        exact isTagChar_toLower (readable e (by simpa using he))
      behind := by
        have same : (st.after c).scan.raw = (st.scan.advance c).raw := rfl
        rw [same, advance]
        rfl
      raw := .going (by simp [endOf])
      reads := by
        intro s text tail content
        rw [tag'] at content ⊢
        rw [comes]
        exact readInto_rawTag start readable (stop s) (read s) rfl raw content
      census := by
        intro content
        rw [tag', next, ← lower]
        exact within.census low proper marks (.inr rfl)
      spoken := within.quoted marks }
  · have plain : selfClosing = true ∨ isRaw t.name = false := by
      cases selfClosing with
      | true => exact .inl rfl
      | false => exact .inr (by simpa using raw)
    have advance : st.scan.advance c = { st.scan with attr := "", place := .outer } := by
      refine ends.trans (if_neg ?_)
      rcases plain with rfl | other
      · exact Bool.false_ne_true
      · rw [tag, other, Bool.and_false]
        exact Bool.false_ne_true
    rw [lower] at plain
    let item : Item := if selfClosing || isVoid (Text.lowercase (String.ofList name)) then
        .closed (Text.lowercase (String.ofList name)) (t.attributes done all) ""
      else .opening (Text.lowercase (String.ofList name)) (t.attributes done all)
    refine .text (f := ⟨html, [], f.flushed.step item, f.held ++ t.holders done all⟩)
      (by rw [Stage.place_after, advance]) ⟨count, by rw [List.append_nil]; exact whole, ?_⟩
    have reads : ∀ tail, readInto .start (html ++ tail) = readInto (f.flushed.step item) tail := by
      intro tail
      rw [comes]
      exact readInto_startTag start readable (stop tail) (read tail) plain
    have starts : item = .opening t.name (t.attributes done all) ∨
        item = .closed t.name (t.attributes done all) "" := by
      rw [lower]
      by_cases closing : (selfClosing || isVoid (Text.lowercase (String.ofList name))) = true
      · exact .inr (if_pos closing)
      · exact .inl (if_neg closing)
    rw [next]
    exact ⟨trivial, reads, within.census low proper marks starts, within.quoted marks⟩

theorem marks_quote (s : Scan) (a : Option Assignment) (c : Char) :
    (s.quote a c).toList.flatMap Assignment.marks =
      if (s.quote a c).isNone then [] else a.toList.flatMap Assignment.marks := by
  cases a with
  | none =>
    unfold Scan.quote
    dsimp only
    split <;> rfl
  | some a =>
    unfold Scan.quote
    dsimp only
    split <;> simp

/-- What a character adds to the attributes that were taken, and to the one being read. -/
theorem marks_kept {s : Scan} (kept : all.filter Assignment.slotted =
      (if (s.quote a c).isNone then a.toList else []).filter Assignment.slotted) :
    (all ++ (s.quote a c).toList).flatMap Assignment.marks = a.toList.flatMap Assignment.marks := by
  have marks := congrArg (List.flatMap Assignment.marks) kept
  rw [flatMap_marks_filter, flatMap_marks_filter] at marks
  rw [List.flatMap_append, marks_quote, marks]
  cases s.quote a c <;> simp

theorem quoted_kept {s : Scan} {r : Ref} (ref : s.ref = some r) (kept : all.filter Assignment.slotted =
      (if (s.quote a c).isNone then a.toList else []).filter Assignment.slotted) :
    Holder.quoted ⟨r, fields ++ all⟩ = Holder.quoted ⟨r, fields⟩ ++ s.quoted a c := by
  rw [Holder.quoted, List.filter_append, List.map_append, kept, Scan.quoted, ref]
  congr 1
  exact List.map_eq_flatMap

theorem step_within (within : Within k st spoken f t done body fields cur a slots mine before)
    (tidy : st.scan.tidyAt c g = true) (chunk : k.clean → ∃ back, Clean (st.read ++ c :: back))
    (low : t.ref.number < k.first) (begun : ∀ d ∈ (body ++ [c]).head?, isTagChar d = false) :
    Concord k (st.after c) g (spoken ++ st.scan.quoted a c) (st.scan.quote a c) := by
  have ref := within.inTag.ref
  cases within.held.steps tidy chunk with
  | @on more u proper kept alike held takes =>
    have marks : (fields ++ more ++ (st.scan.quote a c).toList).flatMap Assignment.marks =
        (fields ++ a.toList).flatMap Assignment.marks := by
      rw [List.append_assoc, List.flatMap_append, marks_kept kept, List.flatMap_append]
    have inTag := within.inTag.onward alike [c] (st.scan.step c).hyphens
    have next : Within k (st.after c) (spoken ++ st.scan.quoted a c) f t done (body ++ [c]) (fields ++ more) u
        (st.scan.quote a c) slots mine before := by
      refine ⟨within.opening, ?_, held, ?_, ?_, within.own, ?_, ?_⟩
      · have same : recorded (fields ++ more ++ (st.scan.quote a c).toList) =
            recorded (fields ++ a.toList) := by rw [recorded, recorded, marks]
        rw [same]
        exact inTag
      · intro found tail
        rw [List.append_assoc, within.takes, giveAll_append, ← takes, List.append_assoc]
      · exact List.forall_mem_append.2 ⟨within.proper, proper⟩
      · rw [marks]
        exact within.unmarked
      · rw [within.spoken, quoted_kept ref kept, List.append_assoc]
    obtain ⟨d, rest, split⟩ := List.exists_cons_of_ne_nil
      (List.append_ne_nil_of_right_ne_nil body (List.cons_ne_nil c []))
    exact .inside next ⟨d, rest, split, begun d (by rw [split]; rfl)⟩
  | closed more _ proper kept ended ends closes =>
    have kept' : more.filter Assignment.slotted =
        (if (st.scan.quote a c).isNone then a.toList else []).filter Assignment.slotted := by
      rw [kept, ended]
      rfl
    have marks : (fields ++ more).flatMap Assignment.marks =
        (fields ++ a.toList).flatMap Assignment.marks := by
      have here := marks_kept kept'
      rw [ended, Option.toList_none, List.append_nil] at here
      rw [List.flatMap_append, here, List.flatMap_append]
    have closing := step_close (g := g) within low begun
      (List.forall_mem_append.2 ⟨within.proper, proper⟩) marks ends fun found tail => by
        rw [List.append_assoc, within.takes, giveAll_append, ← closes, List.append_assoc]
    rw [ended, within.spoken, List.append_assoc, ← quoted_kept ref kept']
    exact closing

end

/-- One more character of a name, or what ends it: then the scan goes on as if it had stood behind the
name already. -/
theorem step_name {t : Stage.Tag} (named : Stage.Named t st.shape.slots st.fresh st)
    (opening : Opening k f t st.shape.slots st.fresh spoken) (tidy : st.scan.tidyAt c g = true)
    (chunk : k.clean → ∃ back, Clean (st.read ++ c :: back)) (low : t.ref.number < k.first) :
    Concord k (st.after c) g spoken none := by
  have place := named.place
  have sorts : isTagChar c = true ∨ Text.isBlank c = true ∨ c = '/' ∨ c = '>' := by
    simpa [Scan.tidyAt, place, or_assoc] using tidy
  by_cases readable : isTagChar c = true
  · have slash : c ≠ '/' := by
      rintro rfl
      exact absurd readable (by decide)
    have close : c ≠ '>' := by
      rintro rfl
      exact absurd readable (by decide)
    have advance : st.scan.advance c = { st.scan with tag := st.scan.tag.push c.toLower } := by
      simp [Scan.advance, place, not_blank_of_isTagChar readable, slash, close]
    obtain ⟨name, split, ⟨d, rest, rfl, letter⟩, plain, lower⟩ := opening.named
    refine .name (f := f) (t := { t with name := t.name.push c.toLower, html := t.html ++ [c] }) ?_
      ⟨opening.agrees, d :: rest ++ [c], ?_, ⟨d, rest ++ [c], rfl, letter⟩, ?_, ?_⟩
    · have scan : (st.after c).scan = { { st.scan with tag := st.scan.tag.push c.toLower } with
          read := st.scan.read + 1, hyphens := if c = '-' then st.scan.hyphens + 1 else 0 } := by
        rw [← advance]
        rfl
      exact {
        place := by rw [scan]; exact place
        attr := by rw [scan]; exact named.attr
        name := by rw [scan, ← named.name]
        ref := by rw [scan]; exact named.ref
        next := by rw [scan]; exact named.next
        fresh := rfl
        read := by simp [Stage.after, Scan.step, named.read]
        unmarked := by rw [scan]; exact named.unmarked
        html := by rw [← named.html]; exact (List.append_assoc _ _ _).symm
        slots := rfl
        records := named.records }
    · simp [split]
    · simpa [or_imp, forall_and, readable] using plain
    · apply String.toList_inj.1
      simp [lower, Text.lowercase]
  · have ends : Text.isBlank c = true ∨ c = '/' ∨ c = '>' := sorts.resolve_left readable
    let behind : Stage := { st with scan := { st.scan.endName with place := .tagInner } }
    have advance : st.scan.advance c = behind.scan.advance c := by
      have inner : behind.scan.advance c = behind.scan.inner c := rfl
      rw [inner]
      rcases ends with blank | rfl | rfl
      · have slash : c ≠ '/' := by
          rintro rfl
          exact absurd blank (by decide)
        have close : c ≠ '>' := by
          rintro rfl
          exact absurd blank (by decide)
        simp [Scan.advance, Scan.inner, place, blank, slash, close, behind]
      · simp [Scan.advance, Scan.inner, place, show Text.isBlank '/' = false by decide, behind]
      · simp [Scan.advance, Scan.inner, place, show Text.isBlank '>' = false by decide, behind,
          Scan.closeTag, Scan.endName]
    have same : st.after c = behind.after c := by
      unfold Stage.after Scan.step
      rw [advance]
      rfl
    have within : Within k behind spoken f t false [] [] [] none st.shape.slots [] spoken :=
      ⟨opening, {
          name := named.name
          ref := named.ref
          next := named.next
          fresh := rfl
          read := named.read
          marked := named.unmarked
          unmarked := fun _ => ⟨rfl, st.read, (List.append_nil _).symm, named.html, congrArg some named.read⟩
          html := fun marked => absurd marked Bool.false_ne_true
          slots := (List.append_nil _).symm
          records := by simpa using named.records },
        .nothing rfl, takes_refl t.ref [], List.forall_mem_nil _, List.forall_mem_nil _, fun _ => ⟨rfl, rfl⟩, (List.append_nil _).symm⟩
    have tidy' : behind.scan.tidyAt c g = true := by
      have sign : c ≠ '=' := by
        rintro rfl
        exact absurd ends (by decide)
      have quote : isQuote c = false := by
        refine Bool.eq_false_iff.2 fun quote => ?_
        simp only [isQuote, Bool.or_eq_true, beq_iff_eq] at quote
        rcases quote with rfl | rfl <;> exact absurd ends (by decide)
      simp [behind, Scan.tidyAt, sign, quote]
    have step := step_within within tidy' (c := c) chunk low (by simpa using readable)
    rw [← same] at step
    simpa [Scan.quoted, Scan.quote, behind] using step

/-- Behind a `<`. -/
theorem step_bracket (place : st.scan.place = .tagOpen) (stands : f.Stands k st spoken ['<'])
    (tidy : st.scan.tidyAt c g = true) (other : ¬ letters ['!', '-', '-'] <+: some c :: g)
    (low : isTagStart c = true → st.scan.nextRef < k.first) : Concord k (st.after c) g spoken none := by
  obtain ⟨single, slashed⟩ : c ≠ '<' ∧ (c = '/' → g.head?.any (Option.any isTagStart) = true) := by
    simp only [Scan.tidyAt, place, Bool.and_eq_true, Bool.or_eq_true, bne_iff_ne, ne_eq] at tidy
    exact ⟨tidy.1, fun slash => tidy.2.resolve_left (not_not.2 slash)⟩
  by_cases letter : isTagStart c = true
  · have advance : st.scan.advance c = st.scan.openTag c := by simp [Scan.advance, place, letter]
    have new : ⟨st.scan.nextRef⟩ ∉ st.shape.records.map (·.1) := by
      intro old
      rcases stands.agrees.census.given _ old with below | ⟨above, -⟩
      · exact absurd below (Nat.lt_irrefl _)
      · exact absurd above (Nat.not_le_of_lt (low letter))
    have scan : (st.after c).scan = { st.scan.openTag c with
        read := st.scan.read + 1, hyphens := if c = '-' then st.scan.hyphens + 1 else 0 } := by
      rw [← advance]
      rfl
    refine .name (f := f) (t := ⟨⟨st.scan.nextRef⟩, String.singleton c.toLower, f.html ++ ['<', c],
      st.shape.records, new⟩) ?_ ⟨stands.agrees, [c], rfl, ⟨c, [], rfl, letter⟩, ?_, ?_⟩
    · exact {
        place := by rw [scan]; rfl
        attr := by rw [scan]; rfl
        name := by rw [scan]; rfl
        ref := by rw [scan]; rfl
        next := by rw [scan]; rfl
        fresh := rfl
        read := by simp [Stage.after, Scan.step, stands.read]
        unmarked := by rw [scan]; rfl
        html := by
          have grown : (st.after c).shape.html.toList ++ (st.after c).read =
              st.shape.html.toList ++ st.read ++ [c] := (List.append_assoc _ _ _).symm
          rw [grown, stands.html, List.append_assoc]
          rfl
        slots := rfl
        records := rfl }
    · exact List.forall_mem_singleton.2 (isTagChar_of_isTagStart letter)
    · apply String.toList_inj.1
      simp [Text.lowercase]
  have letter : isTagStart c = false := by simpa using letter
  by_cases slash : c = '/'
  · subst slash
    have advance : st.scan.advance '/' = { st.scan with place := .endTag } := by
      simp [Scan.advance, place, letter]
    exact .ending [] (by rw [Stage.place_after, advance]) (stands.after (by rw [advance]))
      List.not_mem_nil (slashed rfl)
  by_cases bang : c = '!'
  · subst bang
    have advance : st.scan.advance '!' = { st.scan with place := .endTag } := by
      simp [Scan.advance, place, letter]
    refine .declaration [] (by rw [Stage.place_after, advance])
      (stands.after (by rw [advance])) List.not_mem_nil fun start => other ?_
    exact (List.cons_prefix_cons).2 ⟨rfl, start⟩
  · have advance : st.scan.advance c = { st.scan with place := .outer } := by
      simp [Scan.advance, place, letter, slash, bang]
    refine .text (by rw [Stage.place_after, advance])
      ((stands.after (by rw [advance])).grow ⟨fun _ => ?_, single⟩)
    simp [isOpener, letter, slash, bang]

end

end Concord

theorem Scan.nextRef_le_step (s : Scan) (c : Char) : s.nextRef ≤ (s.step c).nextRef := by
  change s.nextRef ≤ (s.advance c).nextRef
  rcases s.advance_same c with same | opened
  · exact Nat.le_of_eq same.2.symm
  · rw [opened]
    exact Nat.le_succ _

/-- A tidy character leads the scan and a reader to the same place. -/
theorem Concord.step {k : Setting} {st : Stage} {g : Gapped} {spoken : List (Ref × Assignment)}
    {a : Option Assignment} {c : Char} (h : Concord k st (some c :: g) spoken a)
    (tidy : st.scan.tidyAt c g = true)
    (other : st.scan.place = .tagOpen → ¬ letters ['!', '-', '-'] <+: some c :: g)
    (chunk : k.clean → ∃ back, Clean (st.read ++ c :: back))
    (low : (st.scan.step c).nextRef ≤ k.first) :
    Concord k (st.after c) g (spoken ++ st.scan.quoted a c) (st.scan.quote a c) := by
  have before := Nat.le_trans (Scan.nextRef_le_step st.scan c) low
  have aside : a = none → st.scan.place ≠ .beforeValue → Concord k (st.after c) g spoken none →
      Concord k (st.after c) g (spoken ++ st.scan.quoted a c) (st.scan.quote a c) := by
    rintro rfl place later
    simpa [Scan.quoted, Scan.quote, place] using later
  cases h with
  | text place stands => exact aside rfl (by rw [place]; decide) (step_text place stands)
  | ending _ place stands going letter =>
    exact aside rfl (by rw [place]; decide) (step_ending place stands going letter)
  | declaration _ place stands going other =>
    exact aside rfl (by rw [place]; decide) (step_declaration place stands going other)
  | comment _ place stands going opened hyphens =>
    exact aside rfl (by rw [place]; decide) (step_comment place stands going opened hyphens)
  | raw _ _ _ _ _ place pending => exact aside rfl (by rw [place]; decide) (step_raw place pending tidy)
  | bracket place stands =>
    refine aside rfl (by rw [place]; decide) (step_bracket place stands tidy (other place) fun letter => ?_)
    have opened : (st.scan.step c).nextRef = st.scan.nextRef + 1 := by
      simp [Scan.step, Scan.advance, place, letter, Scan.openTag]
    rwa [opened] at low
  | name named opening =>
    refine aside rfl (by rw [named.place]; decide) (step_name named opening tidy chunk ?_)
    rwa [named.next] at before
  | inside within begun =>
    obtain ⟨d, more, rfl, stop⟩ := begun
    refine step_within within tidy chunk ?_ (by simpa using stop)
    rwa [within.inTag.next] at before

end LiveMarkup.Template
