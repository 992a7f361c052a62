import LiveMarkup.Proofs.CompiledMarkup

/-!
How the scan of a template and the shape that is built from its tokens go together. A stage is a moment
in both: part of a chunk was read, and the shape of the chunks before is there. Text, comments, end tags
and holes in text lead from one stage in text to another.
-/
namespace LiveMarkup.Template

open Markup

/-- The slots of quoted attributes that a shape records, by element. -/
abbrev Records := List (Ref × List (String × List Nat))

/-- The records of an element after one more slot with the given index. -/
def recordIn (own : List (String × List Nat)) (recorded : Option String) (index : Nat) :
    List (String × List Nat) :=
  match recorded with
  | none => own
  | some name => Ordered.put name ((Ordered.find? name own).getD [] ++ [index]) own

@[simp] theorem recordIn_none (own : List (String × List Nat)) (index : Nat) :
    recordIn own none index = own := rfl

/-- The records after one more slot of an element. -/
def record (records : Records) (r : Ref) (recorded : Option String) (index : Nat) : Records :=
  Ordered.put r (recordIn ((Ordered.find? r records).getD []) recorded index) records

theorem record_eq {records : Records} {r : Ref} (new : r ∉ records.map (·.1)) (marked : Bool)
    {own : List (String × List Nat)} (unmarked : marked = false → own = [])
    (recorded : Option String) (index : Nat) :
    record (records ++ if marked then [(r, own)] else []) r recorded index =
      records ++ [(r, recordIn own recorded index)] := by
  unfold record
  rw [Ordered.find?_append_of_not_mem new, Ordered.put_append_of_not_mem new]
  cases marked with
  | true => simp [Ordered.find?, Ordered.put]
  | false => simp [unmarked rfl, Ordered.find?, Ordered.put]

def Shape.records (s : Shape) : Records :=
  s.elements.entries.map fun e => (e.1, e.2.entries)

theorem Shape.records_add (s : Shape) (index : Nat) (p : Placement) :
    (s.add index p).records = record s.records p.slot.ref p.recorded index := by
  have own : (Ordered.find? p.slot.ref s.records).getD [] =
      ((s.elements.get? p.slot.ref).getD .empty).entries := by
    unfold records
    rw [Ordered.find?_map]
    change _ = ((Ordered.find? p.slot.ref s.elements.entries).getD .empty).entries
    cases Ordered.find? p.slot.ref s.elements.entries <;> rfl
  unfold record
  rw [own]
  unfold records add Ordered.insert recordIn
  dsimp only
  rw [Ordered.put_map]
  cases p.recorded <;> rfl

/-! Runs of characters. -/

theorem runs_ne_nil (g : Gapped) : runs g ≠ [] := by
  match g with
  | [] => exact List.cons_ne_nil _ _
  | none :: rest => exact List.cons_ne_nil _ _
  | some c :: rest =>
    simp only [runs]
    split <;> exact List.cons_ne_nil _ _

theorem runs_some (c : Char) (g : Gapped) :
    ∃ run more, runs g = run :: more ∧ runs (some c :: g) = (c :: run) :: more := by
  obtain ⟨run, more, h⟩ := List.exists_cons_of_ne_nil (runs_ne_nil g)
  exact ⟨run, more, h, by simp [runs, h]⟩

namespace Scan

/-- The tokens of the runs that are left, and the number of the next reference, when `read` was read of
the first one's chunk before. -/
def tokensFrom (s : Scan) (read : List Char) : List (List Char) → List Token × Nat
  | [] => ([], s.nextRef)
  | [last] => ([(s.feed last).token (String.ofList (read ++ last))], (s.feed last).nextRef)
  | run :: rest =>
    let (token, s) := (s.feed run).slotToken .standard (String.ofList (read ++ run))
    let (more, nextRef) := s.tokens .standard (rest.map String.ofList)
    (token :: more, nextRef)

theorem tokens_eq (s : Scan) {runs : List (List Char)} (h : runs ≠ []) :
    s.tokens .standard (runs.map String.ofList) = s.nextChunk.tokensFrom [] runs := by
  match runs, h with
  | [last], _ => simp [tokens, tokensFrom]
  | run :: next :: rest, _ => simp [tokens, tokensFrom]

theorem tokensFrom_cons (s : Scan) (read run : List Char) (more : List (List Char)) :
    ∃ token rest, (s.tokensFrom read (run :: more)).1 = token :: rest := by
  cases more <;> exact ⟨_, _, rfl⟩

theorem feed_cons {s : Scan} {c : Char} (h : s.place ≠ .tagOpen ∨ c ≠ '!') (rest : List Char) :
    s.feed (c :: rest) = (s.step c).feed rest := by
  have closed : s.opensComment (c :: rest) = false := by
    unfold opensComment
    split
    case h_1 e =>
      rcases h with h | h
      · exact beq_eq_false_iff_ne.2 h
      · exact absurd (List.cons.inj e).1 h
    case h_2 => rfl
  rw [feed, if_neg (by simp [closed])]

theorem feed_comment {s : Scan} (h : s.place = .tagOpen) (rest : List Char) :
    s.feed ('!' :: '-' :: '-' :: rest) = s.enterComment.feed rest := by
  rw [feed, if_pos (by simp [opensComment, h])]
  rfl

end Scan

/-- The slot behind a chunk that was read to its end. -/
theorem Scan.tokensFrom_hole (s : Scan) (read run : List Char) (more : List (List Char)) :
    let p := s.slotToken .standard (String.ofList read)
    let q := p.2.nextChunk.tokensFrom [] (run :: more)
    s.tokensFrom read ([] :: run :: more) = (p.1 :: q.1, q.2) := by
  dsimp only
  rw [← tokens_eq _ (List.cons_ne_nil run more), tokensFrom.eq_3 _ _ _ _ (by simp)]
  simp only [feed, List.append_nil]

/-- A moment in the compilation of a template. -/
structure Stage where
  /-- The number of the next outlet. -/
  fresh : Nat
  scan : Scan
  /-- What was read of the chunk at hand. -/
  read : List Char
  /-- The shape of the chunks before. -/
  shape : Shape

namespace Stage

/-- What becomes of a stage: the shape, the number of the next reference, and the number of the first
outlet. -/
def outcome (st : Stage) (g : Gapped) : (Except CompileError Shape × Nat) × Nat :=
  let (tokens, nextRef) := st.scan.tokensFrom st.read (runs g)
  (Shape.build .standard st.fresh st.shape tokens, nextRef)

/-- What is written leads from one stage to another. -/
def Leads (st : Stage) (written : Gapped) (st' : Stage) : Prop :=
  ∀ g, st.outcome (written ++ g) = st'.outcome g

theorem Leads.refl (st : Stage) : st.Leads [] st :=
  fun _ => rfl

theorem Leads.trans {st₁ st₂ st₃ : Stage} {a b : Gapped} (h₁ : st₁.Leads a st₂)
    (h₂ : st₂.Leads b st₃) : st₁.Leads (a ++ b) st₃ := by
  intro g
  rw [List.append_assoc, h₁, h₂]

theorem outcome_end (st : Stage) :
    st.outcome [] = ((.ok { st.shape with html := st.shape.html ++ String.ofList st.read },
      st.fresh), st.scan.nextRef) := by
  simp [outcome, runs, Scan.tokensFrom, Shape.build, Scan.feed, Scan.token]

/-- The stage after one more character. -/
def after (st : Stage) (c : Char) : Stage :=
  { st with scan := st.scan.step c, read := st.read ++ [c] }

theorem leads_char (st : Stage) {c : Char} (h : st.scan.place ≠ .tagOpen ∨ c ≠ '!') :
    st.Leads [some c] (st.after c) := by
  intro g
  obtain ⟨run, more, hg, hc⟩ := runs_some c g
  unfold outcome
  rw [List.singleton_append, hc, hg]
  cases more with
  | nil => simp [after, Scan.tokensFrom, Scan.feed_cons h]
  | cons next more => simp [after, Scan.tokensFrom, Scan.feed_cons h]

/-- The stage after a comment was opened. -/
def inComment (st : Stage) : Stage :=
  { st with scan := st.scan.enterComment, read := st.read ++ ['!', '-', '-'] }

theorem leads_openComment {st : Stage} (h : st.scan.place = .tagOpen) :
    st.Leads (letters ['!', '-', '-']) st.inComment := by
  intro g
  obtain ⟨run, more, hg, h₁⟩ := runs_some '-' g
  obtain ⟨_, _, h₁', h₂⟩ := runs_some '-' (some '-' :: g)
  rw [h₁] at h₁'
  obtain ⟨rfl, rfl⟩ := List.cons.inj h₁'
  obtain ⟨_, _, h₂', h₃⟩ := runs_some '!' (some '-' :: some '-' :: g)
  rw [h₂] at h₂'
  obtain ⟨rfl, rfl⟩ := List.cons.inj h₂'
  unfold outcome
  simp only [letters, List.map_cons, List.map_nil, List.cons_append, List.nil_append]
  rw [h₃, hg]
  cases more with
  | nil => simp [inComment, Scan.tokensFrom, Scan.feed_comment h]
  | cons next more => simp [inComment, Scan.tokensFrom, Scan.feed_comment h]

/-- The stage behind a slot of the given use. -/
def behind (st : Stage) (p : Placement) : Stage :=
  let (token, s) := st.scan.slotToken .standard (String.ofList st.read)
  { fresh := if token.place = .outer then st.fresh + 1 else st.fresh
    scan := s.nextChunk
    read := []
    shape := { st.shape with html := st.shape.html ++ token.html }.add st.shape.slots.length p }

theorem leads_hole (st : Stage) {p : Placement}
    (h : place .standard st.shape.slots.length ⟨st.fresh⟩
      (st.scan.slotToken .standard (String.ofList st.read)).1 = .ok p) :
    st.Leads [none] (st.behind p) := by
  intro g
  obtain ⟨run, more, hg⟩ := List.exists_cons_of_ne_nil (runs_ne_nil g)
  have split : runs (none :: g) = [] :: run :: more := by rw [runs, hg]
  obtain ⟨token, rest, tokens⟩ := Scan.tokensFrom_cons
    (st.scan.slotToken .standard (String.ofList st.read)).2.nextChunk [] run more
  unfold outcome
  rw [List.singleton_append, split, hg, Scan.tokensFrom_hole]
  simp only [tokens, Shape.build, h, behind]

/-- The stage after more characters of a run, which changed the scan as given. -/
def onward (st : Stage) (s : Scan) (cs : List Char) (hyphens : Nat) : Stage :=
  { st with
    scan := { s with read := st.scan.read + cs.length, hyphens }, read := st.read ++ cs }

/-- Characters that change the scan in one way, at a place other than that of an opening tag. The
change is told by what the characters before have come to. -/
theorem leads_letters (st : Stage) (scan : List Char → Scan) (cs : List Char)
    (start : ∃ r h, st.scan = { scan [] with read := r, hyphens := h })
    (place : ∀ done, (scan done).place ≠ .tagOpen)
    (step : ∀ done c more, cs = done ++ c :: more → ∀ r h,
      Scan.advance { scan done with read := r, hyphens := h } c =
        { scan (done ++ [c]) with read := r, hyphens := h }) :
    ∃ h, st.Leads (letters cs) (st.onward (scan cs) cs h) := by
  induction cs generalizing st scan with
  | nil =>
    obtain ⟨r, h, e⟩ := start
    refine ⟨h, ?_⟩
    have same : st.onward (scan []) [] h = st := by
      cases st
      subst e
      simp [onward]
    rw [same]
    exact Leads.refl st
  | cons c cs ih =>
    obtain ⟨r, h, e⟩ := start
    have first := step [] c cs rfl r h
    rw [List.nil_append] at first
    have here : st.Leads [some c] (st.after c) := leads_char _ (.inl (by rw [e]; exact place []))
    obtain ⟨h', later⟩ := ih (st.after c) (fun done => scan (c :: done))
      ⟨r + 1, if c = '-' then h + 1 else 0, by
        simp only [after, Scan.step]
        rw [e, first]⟩
      (fun done => place (c :: done)) fun done d more split r h =>
        step (c :: done) d more (by rw [split]; rfl) r h
    refine ⟨h', ?_⟩
    have same : (st.after c).onward (scan (c :: cs)) cs h' = st.onward (scan (c :: cs)) (c :: cs) h' := by
      simp only [onward, after, Scan.step, e, first, List.append_assoc, List.length_cons,
        List.singleton_append]
      congr 2
      omega
    rw [← same]
    exact here.trans later

/-- A stage in text: what was compiled, and the numbers of the next start tag and the next outlet. -/
structure Outside (html : List Char) (slots : List Slot) (records : Records) (n m : Nat)
    (st : Stage) : Prop where
  place : st.scan.place = .outer
  next : st.scan.nextRef = n
  fresh : st.fresh = m
  read : st.scan.read = st.read.length
  html : st.shape.html.toList ++ st.read = html
  slots : st.shape.slots = slots
  records : st.shape.records = records

section
variable {html : List Char} {slots : List Slot} {records : Records} {n m : Nat} {st : Stage}

/-- Text without an opening bracket is passed over. -/
theorem Outside.leads_text (out : Outside html slots records n m st) {cs : List Char}
    (plain : '<' ∉ cs) :
    ∃ st', st.Leads (letters cs) st' ∧ Outside (html ++ cs) slots records n m st' := by
  obtain ⟨h, leads⟩ := leads_letters st (fun _ => st.scan) cs ⟨_, _, rfl⟩
    (fun _ => by rw [out.place]; decide) fun done c more split r h => by
      have apart : c ≠ '<' := fun e => plain (by rw [split, e]; simp)
      simp [Scan.advance, out.place, apart]
  refine ⟨_, leads, ?_⟩
  exact {
    place := out.place
    next := out.next
    fresh := out.fresh
    read := by simp [onward, out.read]
    html := by simp [onward, ← out.html]
    slots := out.slots
    records := out.records }

/-- The token that a slot in text ends. -/
theorem Outside.slotToken (out : Outside html slots records n m st) :
    st.scan.slotToken .standard (String.ofList st.read) =
      (st.scan.token (String.ofList st.read), st.scan) := by
  have same : st.scan.atSlot = st.scan := by simp [Scan.atSlot, out.place]
  simp [Scan.slotToken, same, Scan.markerAt?, out.place, show Place.isInsideTag .outer = false by decide]

/-- A slot in text is a place for a node. -/
theorem Outside.placed (out : Outside html slots records n m st) :
    Template.place .standard st.shape.slots.length ⟨st.fresh⟩
      (st.scan.slotToken .standard (String.ofList st.read)).1 =
      .ok ⟨.node ⟨m⟩, outlet .standard ⟨m⟩, none⟩ := by
  rw [out.slotToken, ← out.fresh]
  simp [Template.place, Scan.token, out.place]

/-- Behind a slot in text stands its outlet. -/
theorem Outside.behind (out : Outside html slots records n m st) (new : ⟨m⟩ ∉ records.map (·.1)) :
    Outside (html ++ (outlet .standard ⟨m⟩).toList) (slots ++ [.node ⟨m⟩]) (records ++ [(⟨m⟩, [])])
      n (m + 1) (st.behind ⟨.node ⟨m⟩, outlet .standard ⟨m⟩, none⟩) := by
  unfold Stage.behind
  rw [out.slotToken]
  exact {
    place := out.place
    next := out.next
    fresh := by simp [Scan.token, out.place, out.fresh]
    read := rfl
    html := by simp [Shape.add, Scan.token, ← out.html]
    slots := by simp [Shape.add, out.slots]
    records := by
      rw [Shape.records_add]
      have old := out.records
      have := record_eq new false (fun _ => rfl) none st.shape.slots.length
      simp only [Bool.false_eq_true, if_false, List.append_nil, recordIn] at this
      rw [← this, ← old]
      rfl }

/-- A hole in text becomes an outlet. -/
theorem Outside.leads_outlet (out : Outside html slots records n m st)
    (new : ⟨m⟩ ∉ records.map (·.1)) :
    ∃ st', st.Leads [none] st' ∧
      Outside (html ++ (outlet .standard ⟨m⟩).toList) (slots ++ [.node ⟨m⟩]) (records ++ [(⟨m⟩, [])])
        n (m + 1) st' :=
  ⟨_, leads_hole st out.placed, out.behind new⟩

/-- A comment goes on as long as no `>` comes after two hyphens; `before` are the characters read of
it, with the hyphens that opened it. -/
theorem leads_inComment (st : Stage) (place : st.scan.place = .comment) (before cs : List Char)
    (hyphens : List.replicate st.scan.hyphens '-' <:+ before)
    (closed : ¬ "-->".toList <:+: before ++ cs) :
    ∃ h, st.Leads (letters cs) (st.onward st.scan cs h) := by
  induction cs generalizing st before with
  | nil =>
    refine ⟨st.scan.hyphens, ?_⟩
    have same : st.onward st.scan [] st.scan.hyphens = st := by simp [onward]
    rw [same]
    exact Leads.refl st
  | cons c cs ih =>
    have goesOn : ¬ (c = '>' ∧ 2 ≤ st.scan.hyphens) := by
      rintro ⟨rfl, long⟩
      have two : ['-', '-'] <:+ before := by
        refine List.IsSuffix.trans ⟨List.replicate (st.scan.hyphens - 2) '-', ?_⟩ hyphens
        rw [show ['-', '-'] = List.replicate 2 '-' from rfl, List.replicate_append_replicate]
        congr 1
        omega
      obtain ⟨front, rfl⟩ := two
      exact closed ⟨front, cs, by simp⟩
    have same : st.scan.advance c = st.scan := by simp [Scan.advance, place, goesOn]
    have here : st.Leads [some c] (st.after c) := leads_char _ (.inl (by rw [place]; decide))
    have run : List.replicate (st.after c).scan.hyphens '-' <:+ before ++ [c] := by
      simp only [after, Scan.step]
      split
      case isTrue h =>
        obtain ⟨front, rfl⟩ := hyphens
        refine ⟨front, ?_⟩
        rw [h, List.replicate_succ', List.append_assoc]
      case isFalse => exact ⟨before ++ [c], by simp⟩
    obtain ⟨h, later⟩ := ih (st.after c) (by simp [after, Scan.step, same, place])
      (before ++ [c]) run (by simpa using closed)
    refine ⟨h, ?_⟩
    have whole : (st.after c).onward (st.after c).scan cs h = st.onward st.scan (c :: cs) h := by
      simp only [onward, after, Scan.step, same, List.append_assoc, List.length_cons,
        List.singleton_append]
      congr 2
      omega
    rw [← whole]
    exact here.trans later

theorem not_infix_opened {data : List Char} (h : Written.IsComment data) :
    ¬ "-->".toList <:+: '-' :: '-' :: data := by
  intro inside
  rcases List.infix_cons_iff.1 inside with start | inside
  · exact h.opened (by simpa using start)
  · rcases List.infix_cons_iff.1 inside with start | inside
    · exact h.openedLate (by simpa using start)
    · exact h.closed inside

theorem leads_closeComment (st : Stage) (place : st.scan.place = .comment) :
    ∃ h, st.Leads (letters "-->".toList)
      (st.onward { st.scan with place := .outer } "-->".toList h) := by
  have first : (st.after '-').scan =
      { st.scan with read := st.scan.read + 1, hyphens := st.scan.hyphens + 1 } := by
    simp [after, Scan.step, Scan.advance, place]
  have second : ((st.after '-').after '-').scan =
      { st.scan with read := st.scan.read + 2, hyphens := st.scan.hyphens + 2 } := by
    simp [after, Scan.step, Scan.advance, place]
  have third : (((st.after '-').after '-').after '>').scan =
      { st.scan with place := .outer, read := st.scan.read + 3, hyphens := 0 } := by
    unfold after at second ⊢
    dsimp only at second ⊢
    rw [Scan.step, second]
    simp [Scan.advance, place]
  have whole : ((st.after '-').after '-').after '>' =
      st.onward { st.scan with place := .outer } "-->".toList 0 := by
    unfold onward
    rw [show (((st.after '-').after '-').after '>') =
      ⟨st.fresh, (((st.after '-').after '-').after '>').scan, st.read ++ ['-'] ++ ['-'] ++ ['>'],
        st.shape⟩ from rfl, third]
    simp
  refine ⟨0, whole ▸ ?_⟩
  have one : st.Leads [some '-'] (st.after '-') := leads_char _ (.inr (by decide))
  have two : (st.after '-').Leads [some '-'] ((st.after '-').after '-') := leads_char _ (.inr (by decide))
  have three : ((st.after '-').after '-').Leads [some '>'] (((st.after '-').after '-').after '>') :=
    leads_char _ (.inr (by decide))
  exact (one.trans two).trans three

/-- A comment is passed over. -/
theorem Outside.leads_comment (out : Outside html slots records n m st) {data : List Char}
    (fits : Written.IsComment data) :
    ∃ st', st.Leads (letters ("<!--".toList ++ data ++ "-->".toList)) st' ∧
      Outside (html ++ ("<!--".toList ++ data ++ "-->".toList)) slots records n m st' := by
  have first : st.Leads [some '<'] (st.after '<') := leads_char _ (.inr (by decide))
  have opens : (st.after '<').scan.place = .tagOpen := by
    simp [after, Scan.step, Scan.advance, out.place]
  obtain ⟨h, third⟩ := leads_inComment (st.after '<').inComment rfl ['-', '-'] data
    List.suffix_rfl (not_infix_opened fits)
  obtain ⟨h', fourth⟩ := leads_closeComment
    ((st.after '<').inComment.onward (st.after '<').inComment.scan data h) rfl
  have leads := ((first.trans (leads_openComment opens)).trans third).trans fourth
  have pieces : [some '<'] ++ letters ['!', '-', '-'] ++ letters data ++ letters "-->".toList =
      letters ("<!--".toList ++ data ++ "-->".toList) := by
    simp [letters]
  rw [pieces] at leads
  refine ⟨_, leads, ?_⟩
  exact {
    place := rfl
    next := by
      simp [onward, inComment, after, Scan.step, Scan.advance, Scan.enterComment, out.place,
        out.next]
    fresh := out.fresh
    read := by
      simp [onward, inComment, after, Scan.step, Scan.enterComment, out.read]
      omega
    html := by simp [onward, inComment, after, ← out.html]
    slots := out.slots
    records := out.records }

/-- An end tag is passed over. -/
theorem Outside.leads_ending (out : Outside html slots records n m st) {tag : String}
    (fits : IsTag tag) :
    ∃ st', st.Leads (letters (printEnd tag)) st' ∧
      Outside (html ++ printEnd tag) slots records n m st' := by
  let inside := { st.scan with place := .endTag }
  have one : st.Leads [some '<'] (st.after '<') := leads_char _ (.inr (by decide))
  have two : (st.after '<').Leads [some '/'] ((st.after '<').after '/') :=
    leads_char _ (.inr (by decide))
  have entered : ((st.after '<').after '/').scan =
      { inside with read := st.scan.read + 2, hyphens := 0 } := by
    simp [inside, after, Scan.step, Scan.advance, out.place, isTagStart]
  obtain ⟨h, three⟩ := leads_letters ((st.after '<').after '/') (fun _ => inside) tag.toList
    ⟨_, _, entered⟩ (fun _ => by simp [inside]) fun done c more split r h => by
      have apart : c ≠ '>' := by
        rintro rfl
        exact absurd (fits.readable '>' (by rw [split]; simp)) (by decide)
      simp [Scan.advance, inside, apart]
  have four := leads_char (((st.after '<').after '/').onward inside tag.toList h) (c := '>')
    (.inr (by decide))
  have leads := ((one.trans two).trans three).trans four
  have pieces : [some '<'] ++ [some '/'] ++ letters tag.toList ++ [some '>'] =
      letters (printEnd tag) := by
    simp [letters, printEnd]
  rw [pieces] at leads
  refine ⟨_, leads, ?_⟩
  exact {
    place := by simp [after, onward, inside, Scan.step, Scan.advance]
    next := by simp [after, onward, inside, Scan.step, Scan.advance, out.next]
    fresh := out.fresh
    read := by
      simp [after, onward, Scan.step, out.read]
      omega
    html := by simp [after, onward, printEnd, ← out.html]
    slots := out.slots
    records := out.records }

end

end Stage
end LiveMarkup.Template
