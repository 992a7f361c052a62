import LiveMarkup.Proofs.Rescanning

/-!
Marking: tokens are the chunks of a template with nothing added but markers. The start tags of the
chunks are read once more, without references and markers: where the name of each one ends, and which
slots lie in it. A marker stands behind the names of just those tags with a slot after the name.
-/
namespace LiveMarkup.Template

/-! The start tags of chunks. -/

/-- A start tag as chunks with slots between them have it. -/
structure StartTag where
  /-- The chunk in which the name ends, and how much of that chunk stands before the end. -/
  named : Option (Nat × Nat)
  /-- The slots that lie in the tag; a slot has the number of the chunk before it. -/
  slots : List Nat
deriving DecidableEq, Repr

namespace StartTag

/-- A start tag of which the first letter was read. -/
def opened : StartTag := ⟨none, []⟩

def endName (t : StartTag) (chunk offset : Nat) : StartTag :=
  { t with named := some (chunk, offset) }

def addSlot (t : StartTag) (i : Nat) : StartTag :=
  { t with slots := t.slots ++ [i] }

/-- Where the tag takes a marker: behind its name, if a slot lies in the tag after the name. -/
def marker? (t : StartTag) : Option (Nat × Nat) :=
  t.named.filter fun (chunk, _) => t.slots.any fun j => chunk ≤ j

theorem marker?_eq_some {t : StartTag} {chunk offset : Nat} :
    t.marker? = some (chunk, offset) ↔
      t.named = some (chunk, offset) ∧ ∃ j ∈ t.slots, chunk ≤ j := by
  simp [marker?, Option.filter_eq_some_iff]

theorem marker?_addSlot {t : StartTag} {chunk offset i : Nat} :
    (t.addSlot i).marker? = some (chunk, offset) ↔
      t.marker? = some (chunk, offset) ∨ t.named = some (chunk, offset) ∧ chunk ≤ i := by
  simp only [marker?_eq_some, addSlot, List.mem_append, List.mem_singleton]
  grind

end StartTag

/-- Whether a slot at a place lies in a start tag, be it in its name or behind that. -/
def Place.isInStartTag (p : Place) : Bool :=
  p == .tagName || p.isInsideTag

/-- Whether a character is the first one behind the name of a start tag. -/
def endsName (c : Char) : Bool :=
  Text.isBlank c || c == '/' || c == '>'

/-- The start tags of what was read, the latest first. -/
abbrev Outline := List StartTag

namespace Outline

/-- A character at an offset of a chunk: a letter behind `<` opens a tag, and its name goes on until
it is ended. -/
def char (o : Outline) (place : Place) (chunk offset : Nat) (c : Char) : Outline :=
  match place with
  | .tagOpen => if Markup.isTagStart c then StartTag.opened :: o else o
  | .tagName => if endsName c then o.modifyHead (·.endName chunk offset) else o
  | _ => o

/-- The characters of a chunk from an offset on; `s` stands where they begin. -/
def chars (o : Outline) (s : Scan) (chunk offset : Nat) (l : List Char) : Outline :=
  match l with
  | [] => o
  | c :: rest =>
    if s.opensComment (c :: rest) then o.chars s.enterComment chunk (offset + 3) (rest.drop 2)
    else (o.char s.place chunk offset c).chars (s.step c) chunk (offset + 1) rest
termination_by l.length
decreasing_by all_goals simp only [List.length_cons, List.length_drop]; omega

/-- A slot at a place. -/
def slot (o : Outline) (place : Place) (i : Nat) : Outline :=
  if place.isInStartTag then o.modifyHead (·.addSlot i) else o

/-- Chunks from number `i` on, with a slot between each two. -/
def chunks (o : Outline) (s : Scan) (i : Nat) : List String → Outline
  | [] => o
  | [last] => o.chars s.nextChunk i 0 last.toList
  | chunk :: rest =>
    let s' := (s.nextChunk.feed chunk.toList).atSlot
    ((o.chars s.nextChunk i 0 chunk.toList).slot s'.place i).chunks s' (i + 1) rest

end Outline

/-- The start tags of a template, in their order. -/
def startTags (chunks : List String) : List StartTag :=
  (Outline.chunks [] (Scan.start 0) 0 chunks).reverse

/-! Where names end. -/

namespace Outline
variable {all : List String} {o : Outline} {i offset : Nat}

/-- Names end where a chunk has a character that ends names. -/
def Ends (all : List String) (o : Outline) : Prop :=
  ∀ tag ∈ o, ∀ i offset, tag.named = some (i, offset) →
    ∃ chunk c, all[i]? = some chunk ∧ chunk.toList[offset]? = some c ∧ endsName c = true

theorem Ends.modifyHead (h : o.Ends all) {f : StartTag → StartTag}
    (named : ∀ tag i offset, (f tag).named = some (i, offset) → tag.named = some (i, offset) ∨
      ∃ chunk c, all[i]? = some chunk ∧ chunk.toList[offset]? = some c ∧ endsName c = true) :
    Outline.Ends all (o.modifyHead f) := by
  cases o with
  | nil => exact h
  | cons tag rest =>
    intro tag' htag i offset hn
    rcases List.mem_cons.1 htag with rfl | htag
    · exact (named tag i offset hn).elim (h tag List.mem_cons_self i offset) id
    · exact h tag' (List.mem_cons_of_mem _ htag) i offset hn

theorem Ends.char (h : o.Ends all) {chunk : String} {c : Char} (place : Place)
    (at_i : all[i]? = some chunk) (here : chunk.toList[offset]? = some c) :
    (o.char place i offset c).Ends all := by
  unfold Outline.char
  split
  · split
    · exact List.forall_mem_cons.2 ⟨nofun, h⟩
    · exact h
  · split
    case isTrue ends =>
      refine h.modifyHead fun tag i' offset' hn => .inr ⟨chunk, c, ?_⟩
      cases hn
      exact ⟨at_i, here, ends⟩
    case isFalse => exact h
  · exact h

/-- By recursion on the characters. -/
theorem Ends.chars (h : o.Ends all) (s : Scan) {chunk : String} (at_i : all[i]? = some chunk)
    (l : List Char) (suffix : chunk.toList.drop offset = l) :
    (o.chars s i offset l).Ends all := by
  fun_induction Outline.chars o s i offset l with
  | case1 o s offset => exact h
  | case2 o s offset c rest comment ih =>
    refine ih h ?_
    rw [← List.drop_drop, suffix]
    rfl
  | case3 o s offset c rest other ih =>
    have here : chunk.toList[offset]? = some c := by
      rw [← List.head?_drop, suffix]
      rfl
    refine ih (h.char s.place at_i here) ?_
    rw [← List.drop_drop, suffix]
    rfl

theorem Ends.slot (h : o.Ends all) (place : Place) (j : Nat) : (o.slot place j).Ends all := by
  unfold Outline.slot
  split
  · exact h.modifyHead fun _ _ _ named => .inl named
  · exact h

/-- By recursion on the chunks. -/
theorem Ends.chunks (h : o.Ends all) (s : Scan) (l : List String) (suffix : all.drop i = l) :
    (o.chunks s i l).Ends all := by
  have at_i {chunk : String} {rest : List String} {i : Nat} (suffix : all.drop i = chunk :: rest) :
      all[i]? = some chunk := by
    rw [← List.head?_drop, suffix]
    rfl
  fun_induction Outline.chunks o s i l with
  | case1 => exact h
  | case2 o s i last => exact h.chars _ (at_i suffix) _ rfl
  | case3 o s i chunk rest more s' ih =>
    refine ih ((h.chars _ (at_i suffix) _ rfl).slot _ i) ?_
    rw [← List.drop_drop, suffix]
    rfl

end Outline

theorem startTags_ends (chunks : List String) : Outline.Ends chunks (startTags chunks) := by
  have none : Outline.Ends chunks [] := nofun
  intro tag htag
  exact none.chunks (Scan.start 0) chunks rfl tag (List.mem_reverse.1 htag)

/-! What a scan does beside counting and marking. -/

namespace Scan
variable {s t : Scan}

/-- The scan without its references and its marker. -/
def bare (s : Scan) : Scan :=
  { s with ref := none, nextRef := 0, marked := false }

theorem bare_closeTag (s : Scan) (selfClosing : Bool) :
    s.bare.closeTag selfClosing = (s.closeTag selfClosing).bare := by
  unfold closeTag
  rw [apply_ite bare]
  rfl

theorem bare_inner (s : Scan) (c : Char) : s.bare.inner c = (s.inner c).bare := by
  unfold inner
  simp only [apply_ite bare, bare_closeTag]
  rfl

/-- By cases on the place. -/
theorem bare_advance (s : Scan) (c : Char) : (s.bare.advance c).bare = (s.advance c).bare := by
  have place : s.bare.place = s.place := rfl
  unfold advance
  rw [place]
  cases s.place with
  | tagName =>
    simp only [apply_ite bare, ← bare_closeTag]
    rfl
  | valueStart | valueEnd => rfl
  | _ =>
    simp only [apply_ite bare, ← bare_closeTag, ← bare_inner]
    rfl

theorem place_of_bare (h : s.bare = t.bare) : s.place = t.place :=
  (congrArg Scan.place h :)

theorem step_of_bare (h : s.bare = t.bare) (c : Char) : (s.step c).bare = (t.step c).bare := by
  have read : s.read = t.read := (congrArg Scan.read h :)
  have hyphens : s.hyphens = t.hyphens := (congrArg Scan.hyphens h :)
  have advanced : (s.advance c).bare = (t.advance c).bare := by
    rw [← bare_advance s, ← bare_advance t, h]
  unfold step
  rw [read, hyphens]
  exact (congrArg (fun u : Scan =>
    { u with read := t.read + 1, hyphens := if c = '-' then t.hyphens + 1 else 0 }) advanced :)

theorem opensComment_of_bare (h : s.bare = t.bare) (chars : List Char) :
    t.opensComment chars = s.opensComment chars := by
  unfold opensComment
  rw [place_of_bare h]

theorem enterComment_of_bare (h : s.bare = t.bare) : s.enterComment.bare = t.enterComment.bare := by
  have read : s.read = t.read := (congrArg Scan.read h :)
  unfold enterComment
  rw [read]
  exact (congrArg (fun u : Scan =>
    { u with place := .comment, read := t.read + 3, hyphens := 2 }) h :)

/-- By recursion on the characters. -/
theorem feed_of_bare (h : s.bare = t.bare) (chars : List Char) :
    (s.feed chars).bare = (t.feed chars).bare := by
  fun_induction feed s chars generalizing t with
  | case1 s =>
    rw [feed]
    exact h
  | case2 s c rest comment ih =>
    rw [feed, opensComment_of_bare h, if_pos comment]
    exact ih (enterComment_of_bare h)
  | case3 s c rest other ih =>
    rw [feed, opensComment_of_bare h, if_neg other]
    exact ih (step_of_bare h c)

theorem atSlot_of_bare (h : s.bare = t.bare) : s.atSlot.bare = t.atSlot.bare := by
  unfold atSlot
  rw [place_of_bare h]
  split
  · exact (congrArg (fun u : Scan => { u with place := .unquoted }) h :)
  · exact h

theorem nextChunk_of_bare (h : s.bare = t.bare) : s.nextChunk.bare = t.nextChunk.bare :=
  (congrArg Scan.nextChunk h :)

theorem bare_slotToken (s : Scan) (config : Config) (chunk : String) :
    (s.slotToken config chunk).2.bare = s.atSlot.bare := by
  unfold slotToken
  dsimp only
  split
  · rfl
  · rfl

/-- What a character does outside `<` and names: the current start tag stays, with its name and its
marker, and there is no way into the tag. -/
structure Passes (s t : Scan) : Prop where
  ref : t.ref = s.ref
  nextRef : t.nextRef = s.nextRef
  marked : t.marked = s.marked
  nameEnd : t.nameEnd = s.nameEnd
  name : t.place ≠ .tagName
  inside : t.place.isInsideTag = true → s.place.isInsideTag = true

theorem passes_closeTag (s : Scan) (selfClosing : Bool) : s.Passes (s.closeTag selfClosing) := by
  unfold closeTag
  split
  · exact ⟨rfl, rfl, rfl, rfl, nofun, nofun⟩
  · exact ⟨rfl, rfl, rfl, rfl, nofun, nofun⟩

theorem passes_inner (inside : s.place.isInsideTag = true) (c : Char) : s.Passes (s.inner c) := by
  have closing := s.passes_closeTag false
  unfold inner
  split
  · exact ⟨rfl, rfl, rfl, rfl, nofun, fun _ => inside⟩
  split
  · exact closing
  split
  · exact ⟨rfl, rfl, rfl, rfl, nofun, fun _ => inside⟩
  · exact ⟨rfl, rfl, rfl, rfl, nofun, fun _ => inside⟩

/-- By cases on the place. -/
theorem passes_advance (c : Char) (notOpen : s.place ≠ .tagOpen) (notName : s.place ≠ .tagName) :
    s.Passes (s.advance c) := by
  have closing := s.passes_closeTag
  have same : s.Passes s := ⟨rfl, rfl, rfl, rfl, notName, id⟩
  unfold advance
  cases place : s.place with
  | tagOpen => exact absurd place notOpen
  | tagName => exact absurd place notName
  | outer | endTag | comment =>
    simp only
    split
    · exact ⟨rfl, rfl, rfl, rfl, nofun, nofun⟩
    · exact same
  | rawText =>
    simp only
    split
    · exact ⟨rfl, rfl, rfl, rfl, nofun, nofun⟩
    · exact ⟨rfl, rfl, rfl, rfl, nofun, nofun⟩
  | valueStart | valueEnd => exact same
  | tagInner => exact passes_inner (by rw [place]; rfl) c
  | afterAttributeName =>
    have inside : s.place.isInsideTag = true := by rw [place]; rfl
    simp only
    split
    · exact ⟨rfl, rfl, rfl, rfl, nofun, fun _ => inside⟩
    split
    · exact same
    · obtain ⟨ref, nextRef, marked, nameEnd, name, -⟩ :=
        passes_inner (s := { s with attr := "" }) inside c
      rw [← place]
      exact ⟨ref, nextRef, marked, nameEnd, name, fun _ => inside⟩
  | _ =>
    have inside : s.place.isInsideTag = true := by rw [place]; rfl
    simp only
    repeat' split
    all_goals first
      | exact same
      | exact closing _
      | exact passes_inner inside c
      | exact ⟨rfl, rfl, rfl, rfl, nofun, fun _ => inside⟩

theorem passes_step (c : Char) (notOpen : s.place ≠ .tagOpen) (notName : s.place ≠ .tagName) :
    s.Passes (s.step c) := by
  obtain ⟨ref, nextRef, marked, nameEnd, name, inside⟩ := passes_advance c notOpen notName
  exact ⟨ref, nextRef, marked, nameEnd, name, inside⟩

theorem passes_enterComment (s : Scan) : s.Passes s.enterComment :=
  ⟨rfl, rfl, rfl, rfl, nofun, nofun⟩

theorem passes_atSlot (notName : s.place ≠ .tagName) : s.Passes s.atSlot := by
  unfold atSlot
  split
  case isTrue place => exact ⟨rfl, rfl, rfl, rfl, nofun, fun _ => by rw [place]; rfl⟩
  case isFalse => exact ⟨rfl, rfl, rfl, rfl, notName, id⟩

/-- The character behind a name ends it where the scan stands. -/
theorem passes_endName (place : s.place = .tagName) {c : Char} (ends : endsName c = true) :
    { s.endName with place := .tagInner }.Passes (s.step c) := by
  obtain ⟨ref, nextRef, marked, nameEnd, name, -⟩ := s.endName.passes_closeTag false
  unfold step advance
  rw [place]
  simp only
  split
  · exact ⟨rfl, rfl, rfl, rfl, nofun, fun _ => rfl⟩
  split
  · exact ⟨rfl, rfl, rfl, rfl, nofun, fun _ => rfl⟩
  split
  · exact ⟨ref, nextRef, marked, nameEnd, name, fun _ => rfl⟩
  case isFalse blank slash close => exact absurd ends (by simp [endsName, blank, slash, close])

end Scan

/-! The outline of what was read. -/

namespace Outline
variable {o o' o'' : Outline} {t : StartTag} {b chunk offset j k : Nat}

/-- The tag with number `k` takes its marker in a chunk at an offset. -/
def Marks (o : Outline) (chunk offset k : Nat) : Prop :=
  ∃ t, o.reverse[k]? = some t ∧ t.marker? = some (chunk, offset)

/-- The slot with number `j` lies in the tag with number `k`. -/
def Holds (o : Outline) (j k : Nat) : Prop :=
  ∃ t, o.reverse[k]? = some t ∧ j ∈ t.slots

theorem getElem?_reverse_cons (t t' : StartTag) (o : Outline) (k : Nat) :
    (t :: o).reverse[k]? = some t' ↔ o.reverse[k]? = some t' ∨ k = o.length ∧ t = t' := by
  rw [List.reverse_cons, List.getElem?_append, List.length_reverse]
  by_cases lt : k < o.length
  · simp [lt, Nat.ne_of_lt lt]
  · have none : o.reverse[k]? = none := by simpa using Nat.le_of_not_lt lt
    rw [if_neg lt, none, List.getElem?_singleton]
    have : k - o.length = 0 ↔ k = o.length := by omega
    simp [this]

theorem marks_cons : Marks (t :: o) chunk offset k ↔
    o.Marks chunk offset k ∨ k = o.length ∧ t.marker? = some (chunk, offset) := by
  simp only [Marks, getElem?_reverse_cons]
  grind

theorem holds_cons : Holds (t :: o) j k ↔ o.Holds j k ∨ k = o.length ∧ j ∈ t.slots := by
  simp only [Holds, getElem?_reverse_cons]
  grind

/-- What is said of the chunks and slots before number `b` is the same in two outlines. -/
structure Settled (b : Nat) (o o' : Outline) : Prop where
  marks : ∀ chunk < b, ∀ offset k, o.Marks chunk offset k ↔ o'.Marks chunk offset k
  holds : ∀ j < b, ∀ k, o.Holds j k ↔ o'.Holds j k

theorem Settled.refl (b : Nat) (o : Outline) : Settled b o o :=
  ⟨fun _ _ _ _ => Iff.rfl, fun _ _ _ => Iff.rfl⟩

theorem Settled.trans (h : Settled b o o') (h' : Settled b o' o'') : Settled b o o'' :=
  ⟨fun c hc offset k => (h.marks c hc offset k).trans (h'.marks c hc offset k),
    fun j hj k => (h.holds j hj k).trans (h'.holds j hj k)⟩

theorem Settled.mono {b' : Nat} (h : Settled b o o') (le : b' ≤ b) : Settled b' o o' :=
  ⟨fun c hc => h.marks c (Nat.lt_of_lt_of_le hc le),
    fun j hj => h.holds j (Nat.lt_of_lt_of_le hj le)⟩

theorem settled_opened (b : Nat) (o : Outline) : Settled b o (StartTag.opened :: o) := by
  refine ⟨fun chunk _ offset k => ?_, fun j _ k => ?_⟩
  · simp [marks_cons, StartTag.opened, StartTag.marker?]
  · simp [holds_cons, StartTag.opened]

/-- The latest tag may be changed in what it says of later chunks and slots. -/
theorem settled_cons {t' : StartTag}
    (marker : ∀ chunk < b, ∀ offset,
      t.marker? = some (chunk, offset) ↔ t'.marker? = some (chunk, offset))
    (slots : ∀ j < b, j ∈ t.slots ↔ j ∈ t'.slots) : Settled b (t :: o) (t' :: o) := by
  refine ⟨fun chunk lt offset k => ?_, fun j lt k => ?_⟩
  · rw [marks_cons, marks_cons, marker chunk lt offset]
  · rw [holds_cons, holds_cons, slots j lt]

theorem settled_addSlot
    (named : ∀ c < b, ∀ offset, t.named = some (c, offset) → t.marker? = some (c, offset)) :
    Settled b (t :: o) (t.addSlot b :: o) := by
  refine settled_cons (fun c lt offset => ?_) fun j lt => ?_
  · rw [StartTag.marker?_addSlot]
    exact ⟨.inl, fun either => either.elim id fun late => named c lt offset late.1⟩
  · simp [StartTag.addSlot, Nat.ne_of_lt lt]

end Outline

/-! A scan and the outline of what it has read. -/

/-- What is known of a scan in a chunk, with the outline of what was read. The current start tag is
the latest one. Behind its name it carries its marker, or else the name has ended in this chunk. -/
structure Scan.Tells (first chunk : Nat) (s : Scan) (o : Outline) : Prop where
  nextRef : s.nextRef = first + o.length
  slots : ∀ t ∈ o, ∀ j ∈ t.slots, j < chunk
  naming : s.place = .tagName → ∃ t rest, o = t :: rest ∧ s.ref = some ⟨first + rest.length⟩ ∧
    t.named = none ∧ s.marked = false
  inside : s.place.isInsideTag = true → ∃ t rest, o = t :: rest ∧
    s.ref = some ⟨first + rest.length⟩ ∧
      ((∃ at?, t.marker? = some at? ∧ s.marked = true) ∨
        ∃ offset, t.named = some (chunk, offset) ∧ s.marked = false ∧ s.nameEnd = some offset)

namespace Scan.Tells
variable {first chunk : Nat} {s s' t : Scan} {o : Outline}

theorem unmarked (h : s.Tells first chunk o) (offset k : Nat) : ¬o.Marks chunk offset k := by
  rintro ⟨t, at_k, marker⟩
  obtain ⟨-, j, hj, le⟩ := StartTag.marker?_eq_some.1 marker
  have := h.slots t (List.mem_reverse.1 (List.mem_of_getElem? at_k)) j hj
  omega

theorem unheld (h : s.Tells first chunk o) (k : Nat) : ¬o.Holds chunk k := by
  rintro ⟨t, at_k, hj⟩
  exact absurd (h.slots t (List.mem_reverse.1 (List.mem_of_getElem? at_k)) chunk hj) (Nat.lt_irrefl _)

theorem passes (h : s.Tells first chunk o) (p : s.Passes s') : s'.Tells first chunk o where
  nextRef := p.nextRef.trans h.nextRef
  slots := h.slots
  naming name := absurd name p.name
  inside inside := by
    rw [p.ref, p.marked, p.nameEnd]
    exact h.inside (p.inside inside)

theorem char (h : s.Tells first chunk o) (c : Char) :
    (s.step c).Tells first chunk (o.char s.place chunk s.read c) ∧
      Outline.Settled chunk o (o.char s.place chunk s.read c) := by
  cases place : s.place with
  | tagOpen =>
    unfold Outline.char
    simp only
    split
    case isTrue letter =>
      have opened : s.step c = { s.openTag c with
          read := s.read + 1, hyphens := if c = '-' then s.hyphens + 1 else 0 } := by
        unfold step advance
        rw [place]
        simp only [if_pos letter]
      rw [opened]
      refine ⟨⟨congrArg (· + 1) h.nextRef, ?_, fun _ => ?_, nofun⟩, Outline.settled_opened _ o⟩
      · intro t ht j hj
        rcases List.mem_cons.1 ht with rfl | ht
        · cases hj
        · exact h.slots t ht j hj
      · exact ⟨_, o, rfl, congrArg (fun n => some (Ref.mk n)) h.nextRef, rfl, rfl⟩
    case isFalse other =>
      refine ⟨h.passes ?_, .refl _ _⟩
      unfold step advance
      rw [place]
      simp only [if_neg other]
      split
      · exact ⟨rfl, rfl, rfl, rfl, nofun, nofun⟩
      · exact ⟨rfl, rfl, rfl, rfl, nofun, nofun⟩
  | tagName =>
    obtain ⟨t, rest, rfl, ref, unnamed, unmarked⟩ := h.naming place
    unfold Outline.char
    simp only
    split
    case isTrue ends =>
      have named : { s.endName with place := .tagInner }.Tells first chunk
          (t.endName chunk s.read :: rest) := by
        refine ⟨h.nextRef, fun u hu => ?_, nofun, fun _ =>
          ⟨_, rest, rfl, ref, .inr ⟨s.read, rfl, unmarked, rfl⟩⟩⟩
        rcases List.mem_cons.1 hu with rfl | hu
        · exact h.slots t List.mem_cons_self
        · exact h.slots u (List.mem_cons_of_mem _ hu)
      refine ⟨named.passes (passes_endName place ends), Outline.settled_cons ?_ fun _ _ => Iff.rfl⟩
      intro c lt offset
      simp only [StartTag.marker?_eq_some, unnamed, StartTag.endName, Option.some.injEq,
        Prod.mk.injEq, reduceCtorEq, false_and, false_iff, not_and]
      omega
    case isFalse more =>
      have go : s.step c = { s with
          tag := s.tag.push c.toLower, read := s.read + 1,
          hyphens := if c = '-' then s.hyphens + 1 else 0 } := by
        unfold step advance
        rw [place]
        obtain ⟨⟨blank, slash⟩, close⟩ :
            (¬Text.isBlank c = true ∧ ¬c = '/') ∧ ¬c = '>' := by simpa [endsName] using more
        simp only [if_neg blank, if_neg slash, if_neg close]
      rw [go]
      exact ⟨⟨h.nextRef, h.slots, h.naming, h.inside⟩, .refl _ _⟩
  | _ =>
    have p : s.Passes (s.step c) := passes_step c (by rw [place]; nofun) (by rw [place]; nofun)
    exact ⟨h.passes p, .refl _ _⟩

/-- By recursion on the characters. -/
theorem chars (h : s.Tells first chunk o) (even : s.bare = t.bare) (offset : Nat)
    (read : s.read = offset) (l : List Char) :
    (s.feed l).Tells first chunk (o.chars t chunk offset l) ∧
      Outline.Settled chunk o (o.chars t chunk offset l) := by
  fun_induction Outline.chars o t chunk offset l generalizing s with
  | case1 o t offset =>
    rw [feed]
    exact ⟨h, .refl _ _⟩
  | case2 o t offset c rest comment ih =>
    have comment' : s.opensComment (c :: rest) = true := by rwa [← opensComment_of_bare even]
    have entered : s.enterComment.bare = t.enterComment.bare := enterComment_of_bare even
    rw [feed, if_pos comment']
    exact ih (h.passes s.passes_enterComment) entered (congrArg (· + 3) read)
  | case3 o t offset c rest other ih =>
    have other' : ¬s.opensComment (c :: rest) = true := by rwa [← opensComment_of_bare even]
    obtain ⟨told, settled⟩ := h.char c
    rw [place_of_bare even, read] at told settled
    rw [feed, if_neg other']
    obtain ⟨told', settled'⟩ := ih told (step_of_bare even c) (congrArg (· + 1) read)
    exact ⟨told', settled.trans settled'⟩

end Scan.Tells

/-- A chunk with what was inserted, where that is anything: a marker at an offset. -/
def withMarker (config : Config) (chunk : String) : Option (Nat × Ref) → String
  | none => chunk
  | some (offset, r) =>
    String.ofList (chunk.toList.take offset) ++ marker config r ++
      String.ofList (chunk.toList.drop offset)

/-- What the token of chunk `i` has to do with the start tags. -/
structure Token.Fits (config : Config) (first : Nat) (o : Outline) (i : Nat) (chunk : String)
    (token : Token) : Prop where
  html : ∃ inserted, token.html = withMarker config chunk inserted ∧
    ∀ offset r, inserted = some (offset, r) ↔ ∃ k, o.Marks i offset k ∧ r = ⟨first + k⟩
  ref : ∀ k, o.Holds i k → token.ref = some ⟨first + k⟩

theorem Token.Fits.settled {config : Config} {first i b : Nat} {o o' : Outline} {chunk : String}
    {token : Token} (h : token.Fits config first o i chunk) (settled : Outline.Settled b o o')
    (lt : i < b) : token.Fits config first o' i chunk := by
  obtain ⟨inserted, html, iff⟩ := h.html
  refine ⟨⟨inserted, html, fun offset r => ?_⟩, fun k held => ?_⟩
  · simp only [iff, settled.marks i lt]
  · exact h.ref k ((settled.holds i lt k).2 held)

namespace Scan
variable {first chunk i : Nat} {s t : Scan} {o : Outline}

theorem slotToken_eq (config : Config) (s : Scan) (chunk : String) :
    s.slotToken config chunk = (s.atSlot.token (withMarker config chunk s.atSlot.markerAt?),
      { s.atSlot with marked := s.atSlot.marked || s.atSlot.markerAt?.isSome }) := by
  unfold slotToken
  dsimp only
  cases s.atSlot.markerAt? with
  | none => simp [withMarker]
  | some p => simp [withMarker]

theorem markerAt?_of_inside (inside : s.place.isInsideTag = true) {r : Ref} (ref : s.ref = some r) :
    s.markerAt? = if s.marked then none else s.nameEnd.map fun offset => (offset, r) := by
  unfold markerAt?
  rw [inside, ref]
  cases s.marked with
  | true => rfl
  | false => cases s.nameEnd <;> rfl

theorem markerAt?_of_not_inside (outside : ¬s.place.isInsideTag = true) : s.markerAt? = none := by
  simp [markerAt?, outside]

section
variable {tag : StartTag} {rest : Outline} (h : s.Tells first chunk (tag :: rest))
include h

theorem Tells.slots_addSlot : ∀ t ∈ tag.addSlot chunk :: rest, ∀ j ∈ t.slots, j < chunk + 1 := by
  intro t ht j hj
  rcases List.mem_cons.1 ht with rfl | ht
  · rcases List.mem_append.1 hj with hj | hj
    · exact Nat.lt_succ_of_lt (h.slots tag List.mem_cons_self j hj)
    · exact List.mem_singleton.1 hj ▸ Nat.lt_succ_self _
  · exact Nat.lt_succ_of_lt (h.slots t (List.mem_cons_of_mem _ ht) j hj)

theorem Tells.holds_addSlot (k : Nat) :
    Outline.Holds (tag.addSlot chunk :: rest) chunk k ↔ k = rest.length := by
  have before := h.unheld k
  rw [Outline.holds_cons, not_or] at before
  simp [Outline.holds_cons, before.1, StartTag.addSlot]

theorem Tells.marks_addSlot (offset k : Nat) :
    Outline.Marks (tag.addSlot chunk :: rest) chunk offset k ↔
      k = rest.length ∧ tag.named = some (chunk, offset) := by
  have before := h.unmarked offset k
  rw [Outline.marks_cons, not_or, not_and] at before
  rw [Outline.marks_cons, StartTag.marker?_addSlot]
  grind

end

/-- A scan at a slot, and the same behind it. By cases: the slot lies in no start tag, in the name of
one, behind the name of one with a marker, and behind the name of one without. -/
theorem Tells.slot (h : s.Tells first chunk o) (config : Config) (atSlot : s.atSlot = s)
    (text : String) :
    (s.slotToken config text).2.nextChunk.Tells first (chunk + 1) (o.slot s.place chunk) ∧
      Outline.Settled chunk o (o.slot s.place chunk) ∧
        (s.slotToken config text).1.Fits config first (o.slot s.place chunk) chunk text ∧
          ((∃ k, (o.slot s.place chunk).Holds chunk k) ↔
            (s.slotToken config text).1.place.isInStartTag = true) := by
  rw [slotToken_eq, atSlot]
  show Tells _ _ _ _ ∧ _ ∧ _ ∧ (_ ↔ s.place.isInStartTag = true)
  unfold Outline.slot
  split
  case isFalse out =>
    obtain ⟨notName, outside⟩ : s.place ≠ .tagName ∧ ¬s.place.isInsideTag = true := by
      simpa [Place.isInStartTag] using out
    rw [markerAt?_of_not_inside outside]
    refine ⟨⟨h.nextRef, fun t ht j hj => ?_, fun name => absurd name notName,
      fun inside => absurd inside outside⟩, .refl _ _, ⟨⟨none, rfl, ?_⟩, ?_⟩, ?_⟩
    · exact Nat.lt_succ_of_lt (h.slots t ht j hj)
    · intro offset r
      simp [h.unmarked]
    · exact fun k held => absurd held (h.unheld k)
    · simp [h.unheld, out]
  case isTrue lies =>
    by_cases name : s.place = .tagName
    case pos =>
      obtain ⟨tag, rest, rfl, ref, unnamed, unmarked⟩ := h.naming name
      have outside : ¬s.place.isInsideTag = true := by
        rw [name]
        decide
      rw [markerAt?_of_not_inside outside]
      refine ⟨⟨h.nextRef, h.slots_addSlot, fun _ => ⟨_, rest, rfl, ref, unnamed, ?_⟩,
        fun inside => absurd inside outside⟩, Outline.settled_addSlot ?_, ⟨⟨none, rfl, ?_⟩, ?_⟩, ?_⟩
      · simp [nextChunk, unmarked]
      · simp [unnamed]
      · simp [h.marks_addSlot, unnamed]
      · exact fun k held => (h.holds_addSlot k).1 held ▸ ref
      · simp [h.holds_addSlot, lies]
    case neg =>
      have inside : s.place.isInsideTag = true := by simpa [Place.isInStartTag, name] using lies
      obtain ⟨tag, rest, rfl, ref, standing⟩ := h.inside inside
      obtain ⟨⟨c, at_c⟩, marker, marked⟩ | ⟨offset, named, unmarked, nameEnd⟩ := standing
      · obtain ⟨named, j, hj, le⟩ := StartTag.marker?_eq_some.1 marker
        have earlier : c < chunk := Nat.lt_of_le_of_lt le (h.slots tag List.mem_cons_self j hj)
        rw [markerAt?_of_inside inside ref, if_pos marked]
        refine ⟨⟨h.nextRef, h.slots_addSlot, fun name' => absurd name' name, fun _ =>
          ⟨_, rest, rfl, ref, .inl ⟨(c, at_c), StartTag.marker?_addSlot.2 (.inl marker), ?_⟩⟩⟩,
          Outline.settled_addSlot ?_, ⟨⟨none, rfl, ?_⟩, ?_⟩, ?_⟩
        · simp [nextChunk, marked]
        · intro c' _ offset' named'
          rw [marker, ← named, named']
        · simp [h.marks_addSlot, named, Nat.ne_of_lt earlier]
        · exact fun k held => (h.holds_addSlot k).1 held ▸ ref
        · simp [h.holds_addSlot, lies]
      · have here : s.markerAt? = some (offset, ⟨first + rest.length⟩) := by
          rw [markerAt?_of_inside inside ref, unmarked, nameEnd]
          rfl
        rw [here]
        refine ⟨⟨h.nextRef, h.slots_addSlot, fun name' => absurd name' name, fun _ =>
          ⟨_, rest, rfl, ref, .inl ⟨(chunk, offset),
            StartTag.marker?_addSlot.2 (.inr ⟨named, Nat.le_refl _⟩), ?_⟩⟩⟩,
          Outline.settled_addSlot ?_,
          ⟨⟨some (offset, ⟨first + rest.length⟩), rfl, ?_⟩, ?_⟩, ?_⟩
        · simp [nextChunk]
        · intro c' lt offset' named'
          rw [named] at named'
          cases named'
          exact absurd lt (Nat.lt_irrefl _)
        · simp [h.marks_addSlot, named]
          grind
        · exact fun k held => (h.holds_addSlot k).1 held ▸ ref
        · simp [h.holds_addSlot, lies]

theorem atSlot_atSlot (s : Scan) : s.atSlot.atSlot = s.atSlot := by
  unfold atSlot
  split
  · rfl
  · rfl

theorem slotToken_atSlot (config : Config) (s : Scan) (chunk : String) :
    s.atSlot.slotToken config chunk = s.slotToken config chunk := by
  rw [slotToken_eq, slotToken_eq, atSlot_atSlot]

theorem Tells.atSlot (h : s.Tells first chunk o) : s.atSlot.Tells first chunk o := by
  by_cases name : s.place = .tagName
  · have same : s.atSlot = s := by
      unfold Scan.atSlot
      rw [name]
      rfl
    rwa [same]
  · exact h.passes (passes_atSlot name)

/-- By recursion on the chunks. -/
theorem Tells.run (h : s.nextChunk.Tells first i o) (even : s.bare = t.bare) (config : Config)
    (chunks : List String) :
    Outline.Settled i o (o.chunks t i chunks) ∧
      (s.tokens config chunks).1.length = chunks.length ∧
        ∀ d text token, chunks[d]? = some text → (s.tokens config chunks).1[d]? = some token →
          token.Fits config first (o.chunks t i chunks) (i + d) text ∧
            ((∃ k, (o.chunks t i chunks).Holds (i + d) k) ↔
              d + 1 < chunks.length ∧ token.place.isInStartTag = true) := by
  induction chunks generalizing s t i o with
  | nil => exact ⟨.refl _ _, rfl, fun d text token ht => nomatch ht⟩
  | cons chunk rest ih =>
    obtain ⟨fed, settled⟩ := h.chars (nextChunk_of_bare even) 0 rfl chunk.toList
    cases rest with
    | nil =>
      refine ⟨settled, rfl, fun d text token ht htoken => ?_⟩
      obtain ⟨rfl, rfl⟩ : d = 0 ∧ chunk = text := by simpa [List.getElem?_singleton] using ht
      cases htoken
      refine ⟨⟨⟨none, rfl, fun offset r => ?_⟩, fun k held => absurd held (fed.unheld k)⟩, ?_⟩
      · simp [Outline.chunks, fed.unmarked]
      · simp [Outline.chunks, fed.unheld]
    | cons chunk' rest =>
      obtain ⟨told, settled', fits, lies⟩ := fed.atSlot.slot config (atSlot_atSlot _) chunk
      have even' := atSlot_of_bare (feed_of_bare (nextChunk_of_bare even) chunk.toList)
      rw [slotToken_atSlot] at told fits lies
      rw [place_of_bare even'] at told settled' fits lies
      obtain ⟨settled'', length, each⟩ := ih told ((bare_slotToken _ config chunk).trans even')
      refine ⟨(settled.trans settled').trans (settled''.mono (Nat.le_succ i)),
        congrArg (· + 1) length, fun d text token ht htoken => ?_⟩
      cases d with
      | zero =>
        cases ht
        rw [fst_tokens_cons] at htoken
        obtain rfl := Option.some.inj htoken
        refine ⟨fits.settled settled'' (Nat.lt_succ_self i), ?_⟩
        have count : 0 + 1 < (chunk :: chunk' :: rest).length := by simp
        rw [and_iff_right count, ← lies]
        exact exists_congr fun k => (settled''.holds i (Nat.lt_succ_self i) k).symm
      | succ d =>
        obtain ⟨fits', lies'⟩ := each d text token ht htoken
        rw [Nat.add_right_comm] at fits' lies'
        refine ⟨fits', lies'.trans (and_congr_left' ?_)⟩
        exact (Nat.add_lt_add_iff_right (k := 1)).symm

end Scan

theorem start_tells (first : Nat) : (Scan.start first).nextChunk.Tells first 0 [] :=
  ⟨rfl, nofun, nofun, nofun⟩

/-- What tokens are, given the chunks and their start tags: the start tag with number `k` has the
reference `first + k`, and a slot has the number of the chunk before it. -/
structure Marking (config : Config) (first : Nat) (chunks : List String) (tags : List StartTag)
    (tokens : List Token) : Prop where
  /-- There is a token for each chunk. -/
  length : tokens.length = chunks.length
  /-- A token is its chunk with at most one marker, that of a start tag that takes it there. -/
  html : ∀ i chunk token, chunks[i]? = some chunk → tokens[i]? = some token →
    ∃ inserted, token.html = withMarker config chunk inserted ∧
      ∀ offset r, inserted = some (offset, r) ↔
        ∃ k tag, tags[k]? = some tag ∧ tag.marker? = some (i, offset) ∧ r = ⟨first + k⟩
  /-- The name of a start tag ends where a chunk has a character that ends names. -/
  behind : ∀ tag ∈ tags, ∀ i offset, tag.named = some (i, offset) →
    ∃ chunk c, chunks[i]? = some chunk ∧ chunk.toList[offset]? = some c ∧ endsName c = true
  /-- A slot lies in a start tag if its token says so. -/
  inside : ∀ i token, tokens[i]? = some token →
    ((∃ tag ∈ tags, i ∈ tag.slots) ↔ i + 1 < chunks.length ∧ token.place.isInStartTag = true)
  /-- Slots in start tags have the same reference if these are the same one. -/
  refs : ∀ i j (a b : Token), tokens[i]? = some a → tokens[j]? = some b →
    ∀ k l (s t : StartTag), tags[k]? = some s → i ∈ s.slots → tags[l]? = some t → j ∈ t.slots →
      a.ref = some ⟨first + k⟩ ∧ (a.ref = b.ref ↔ k = l)

/-- The tokenizer only adds markers. -/
theorem tokenize_marking (config : Config) (first : Nat) (chunks : List String) :
    Marking config first chunks (startTags chunks) (tokenize config first chunks).1 := by
  have even : (Scan.start first).bare = (Scan.start 0).bare := rfl
  obtain ⟨-, length, each⟩ := (start_tells first).run even config chunks
  have at_i : ∀ (i : Nat) (token : Token), (tokenize config first chunks).1[i]? = some token →
      ∃ chunk, chunks[i]? = some chunk := by
    intro i token ht
    obtain ⟨lt, -⟩ := List.getElem?_eq_some_iff.1 ht
    exact ⟨_, List.getElem?_eq_getElem (length ▸ lt)⟩
  have ref : ∀ (i : Nat) (token : Token), (tokenize config first chunks).1[i]? = some token →
      ∀ k (tag : StartTag), (startTags chunks)[k]? = some tag → i ∈ tag.slots →
        token.ref = some ⟨first + k⟩ := by
    intro i token ht k tag at_k lies
    obtain ⟨chunk, hc⟩ := at_i i token ht
    obtain ⟨fits, -⟩ := each i chunk token hc ht
    refine fits.ref k ⟨tag, at_k, ?_⟩
    rwa [Nat.zero_add]
  refine ⟨length, fun i chunk token hc ht => ?_, startTags_ends chunks, fun i token ht => ?_, ?_⟩
  · obtain ⟨⟨⟨inserted, html, iff⟩, -⟩, -⟩ := each i chunk token hc ht
    rw [Nat.zero_add] at iff
    refine ⟨inserted, html, fun offset r => (iff offset r).trans (exists_congr fun k => ?_)⟩
    exact ⟨fun ⟨⟨tag, at_k, marker⟩, hr⟩ => ⟨tag, at_k, marker, hr⟩,
      fun ⟨tag, at_k, marker, hr⟩ => ⟨⟨tag, at_k, marker⟩, hr⟩⟩
  · obtain ⟨chunk, hc⟩ := at_i i token ht
    obtain ⟨-, lies⟩ := each i chunk token hc ht
    rw [Nat.zero_add] at lies
    rw [← lies]
    constructor
    · rintro ⟨tag, htag, hi⟩
      obtain ⟨k, at_k⟩ := List.getElem?_of_mem htag
      exact ⟨k, tag, at_k, hi⟩
    · rintro ⟨k, tag, at_k, hi⟩
      exact ⟨tag, List.mem_of_getElem? at_k, hi⟩
  · intro i j a b ha hb k l s t at_k hi at_l hj
    have refA := ref i a ha k s at_k hi
    have refB := ref j b hb l t at_l hj
    refine ⟨refA, ?_⟩
    rw [refA, refB]
    simp

example : startTags ["<p a=", " b='", "'><br ", "/>"] =
    [⟨some (0, 2), [0, 1]⟩, ⟨some (2, 5), [2]⟩] := by decide +kernel

end LiveMarkup.Template
