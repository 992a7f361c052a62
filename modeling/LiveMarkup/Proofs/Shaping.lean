import LiveMarkup.Proofs.StartTags

/-!
The shape of a well-formed template: every piece leads from text to text, so the scan and the build of
the shape get to the end of the template, and have done there what it promises.
-/
namespace LiveMarkup.Template

open Markup

namespace Written

mutual

/-- What a piece records: every element with holes and every outlet. -/
def records (n m i : Nat) : Written → Records
  | .text _ | .comment _ => []
  | .hole => [(⟨m⟩, [])]
  | .element _ fields children =>
    (if Field.holesAll fields = 0 then [] else [(⟨n⟩, Field.recordsAll i fields)]) ++
      recordsAll (n + 1) m (i + Field.holesAll fields) children

def recordsAll (n m i : Nat) : List Written → Records
  | [] => []
  | t :: rest =>
    t.records n m i ++ recordsAll (n + t.tags) (m + t.outlets) (i + t.holes) rest

end

end Written

namespace Stage

/-- Which references have been given out: those of start tags below `n`, and those of outlets between
`total` and `m`. -/
def Given (total n m : Nat) (records : Records) : Prop :=
  ∀ r ∈ records.map (·.1), r.number < n ∨ total ≤ r.number ∧ r.number < m

theorem Given.mono {total n n' m m' : Nat} {records : Records} (given : Given total n m records)
    (hn : n ≤ n') (hm : m ≤ m') : Given total n' m' records := by
  intro r hr
  rcases given r hr with h | ⟨h, h'⟩
  · exact .inl (by omega)
  · exact .inr ⟨h, by omega⟩

theorem Given.append {total n m : Nat} {records more : Records} (given : Given total n m records)
    (later : Given total n m more) : Given total n m (records ++ more) := by
  intro r hr
  rw [List.map_append] at hr
  rcases List.mem_append.1 hr with h | h
  · exact given r h
  · exact later r h

mutual

theorem length_slots_written (n m : Nat) (t : Written) : (t.slots n m).length = t.holes := by
  cases t with
  | text data => rfl
  | hole => rfl
  | comment data => rfl
  | element tag fields children =>
    rw [Written.slots, Written.holes, List.length_append, Field.length_flatMap_slots,
      length_slots_writtenAll]

theorem length_slots_writtenAll (n m : Nat) (ts : List Written) :
    (Written.slotsAll n m ts).length = Written.holesAll ts := by
  cases ts with
  | nil => rfl
  | cons t ts =>
    simp [Written.slotsAll, Written.holesAll, length_slots_written, length_slots_writtenAll]

end

mutual

/-- A well-formed piece leads from text to text. -/
theorem leads_written (total n m : Nat) (t : Written) (fits : t.Fits) {html : List Char}
    {slots : List Slot} {records : Records} {st : Stage}
    (out : Outside html slots records n m st) (given : Given total n m records)
    (room : n + t.tags ≤ total) (outlets : total ≤ m) :
    ∃ st', st.Leads t.print st' ∧
      Outside (html ++ t.markup n m) (slots ++ t.slots n m) (records ++ t.records n m slots.length)
        (n + t.tags) (m + t.outlets) st' ∧
      Given total (n + t.tags) (m + t.outlets) (records ++ t.records n m slots.length) := by
  cases t with
  | text data =>
    obtain ⟨st', leads, out'⟩ := out.leads_text (not_mem_escapeInText data.toList)
    refine ⟨st', leads, ?_, ?_⟩
    · simpa [Written.markup, Written.slots, Written.records, Written.tags, Written.outlets] using out'
    · simpa [Written.records, Written.tags, Written.outlets] using given
  | hole =>
    have new : ⟨m⟩ ∉ records.map (·.1) := by
      intro mem
      rcases given _ mem with h | ⟨-, h⟩
      · simp at h
        omega
      · exact absurd h (Nat.lt_irrefl m)
    obtain ⟨st', leads, out'⟩ := out.leads_outlet new
    refine ⟨st', leads, out', ?_⟩
    refine (given.mono (Nat.le_refl _) (Nat.le_succ m)).append ?_
    intro r hr
    rw [List.mem_singleton.1 hr]
    exact .inr ⟨outlets, Nat.lt_succ_self m⟩
  | comment data =>
    obtain ⟨st', leads, out'⟩ := out.leads_comment fits
    refine ⟨st', leads, ?_, ?_⟩
    · simpa [Written.markup, Written.slots, Written.records, Written.tags, Written.outlets] using out'
    · simpa [Written.records, Written.tags, Written.outlets] using given
  | element tag fields children =>
    obtain ⟨isTag, raw, fit, distinct, void, childrenFit⟩ := fits
    simp only [Written.tags] at room ⊢
    have new : ⟨n⟩ ∉ records.map (·.1) := by
      intro mem
      rcases given _ mem with h | ⟨h, -⟩
      · exact absurd h (Nat.lt_irrefl n)
      · simp at h
        omega
    obtain ⟨st₁, start, out₁⟩ := out.leads_start isTag raw fit distinct new
    have given₁ : Given total (n + 1) m (records ++ if Field.holesAll fields = 0 then []
        else [(⟨n⟩, Field.recordsAll slots.length fields)]) := by
      refine (given.mono (Nat.le_succ n) (Nat.le_refl m)).append ?_
      split
      · exact nofun
      · intro r hr
        rw [List.mem_singleton.1 hr]
        exact .inl (Nat.lt_succ_self n)
    have index : (slots ++ fields.flatMap (Field.slots ⟨n⟩)).length =
        slots.length + Field.holesAll fields := by
      rw [List.length_append, Field.length_flatMap_slots]
    obtain ⟨st₂, inside, out₂, given₂⟩ := leads_writtenAll total (n + 1) m children childrenFit out₁
      given₁ (by omega) outlets
    rw [index] at out₂ given₂
    by_cases isVoid : isVoid tag = true
    · have none := void isVoid
      subst none
      refine ⟨st₁, by simpa [Written.print, isVoid] using start, ?_, ?_⟩
      · simpa [Written.markup, Written.slots, Written.slotsAll, Written.records, Written.recordsAll,
          Written.tagsAll, Written.outlets, Written.outletsAll, isVoid] using out₁
      · simpa [Written.records, Written.recordsAll, Written.tagsAll, Written.outlets,
          Written.outletsAll] using given₁
    · obtain ⟨st₃, ending, out₃⟩ := out₂.leads_ending isTag
      refine ⟨st₃, ?_, ?_, ?_⟩
      · have leads := (start.trans inside).trans ending
        simpa [Written.print, isVoid] using leads
      · have whole : n + 1 + Written.tagsAll children = n + (1 + Written.tagsAll children) := by omega
        rw [whole] at out₃
        simpa [Written.markup, Written.slots, Written.records, Written.outlets, isVoid] using out₃
      · have whole : n + 1 + Written.tagsAll children = n + (1 + Written.tagsAll children) := by omega
        rw [whole] at given₂
        simpa [Written.records, Written.outlets] using given₂

theorem leads_writtenAll (total n m : Nat) (ts : List Written) (fits : Written.FitsAll ts)
    {html : List Char} {slots : List Slot} {records : Records} {st : Stage}
    (out : Outside html slots records n m st) (given : Given total n m records)
    (room : n + Written.tagsAll ts ≤ total) (outlets : total ≤ m) :
    ∃ st', st.Leads (Written.printAll ts) st' ∧
      Outside (html ++ Written.markupAll n m ts) (slots ++ Written.slotsAll n m ts)
        (records ++ Written.recordsAll n m slots.length ts)
        (n + Written.tagsAll ts) (m + Written.outletsAll ts) st' ∧
      Given total (n + Written.tagsAll ts) (m + Written.outletsAll ts)
        (records ++ Written.recordsAll n m slots.length ts) := by
  cases ts with
  | nil =>
    refine ⟨st, Leads.refl st, ?_, ?_⟩
    · simpa [Written.markupAll, Written.slotsAll, Written.recordsAll, Written.tagsAll,
        Written.outletsAll] using out
    · simpa [Written.recordsAll, Written.tagsAll, Written.outletsAll] using given
  | cons t ts =>
    obtain ⟨fit, -, later⟩ := fits
    simp only [Written.tagsAll] at room
    obtain ⟨st₁, here, out₁, given₁⟩ := leads_written total n m t fit out given (by omega) outlets
    obtain ⟨st₂, rest, out₂, given₂⟩ := leads_writtenAll total (n + t.tags) (m + t.outlets) ts later
      out₁ given₁ (by omega) (by omega)
    have index : (slots ++ t.slots n m).length = slots.length + t.holes := by
      simp [length_slots_written]
    rw [index] at out₂ given₂
    refine ⟨st₂, here.trans rest, ?_, ?_⟩
    · simpa [Written.markupAll, Written.slotsAll, Written.recordsAll, Written.tagsAll,
        Written.outletsAll, Nat.add_assoc] using out₂
    · simpa [Written.recordsAll, Written.tagsAll, Written.outletsAll, Nat.add_assoc] using given₂

end

end Stage

namespace Written

/-- A well-formed template is scanned, and its shape is built, without a fault. -/
theorem parse_chunks {template : List Written} (fits : FitsAll template) (first : Nat) :
    ∃ shape, Shape.parse .standard first (chunks template) =
        (.ok shape, first + tagsAll template + outletsAll template) ∧
      shape.html = String.ofList (markupAll first (first + tagsAll template) template) ∧
      shape.slots = slotsAll first (first + tagsAll template) template ∧
      shape.records = recordsAll first (first + tagsAll template) 0 template := by
  let start : Stage := ⟨first + tagsAll template, (Scan.start first).nextChunk, [], .empty⟩
  have out : Stage.Outside [] [] [] first (first + tagsAll template) start :=
    ⟨rfl, rfl, rfl, rfl, rfl, rfl, rfl⟩
  obtain ⟨st, leads, out', -⟩ := Stage.leads_writtenAll (first + tagsAll template) first
    (first + tagsAll template) template fits out nofun (Nat.le_refl _) (Nat.le_refl _)
  have outcome := leads []
  rw [List.append_nil, Stage.outcome_end, out'.next, out'.fresh] at outcome
  have tokens : tokenize .standard first (chunks template) =
      start.scan.tokensFrom [] (runs (printAll template)) :=
    Scan.tokens_eq (Scan.start first) (runs_ne_nil _)
  have next : (tokenize .standard first (chunks template)).2 = first + tagsAll template := by
    rw [tokens]
    exact congrArg Prod.snd outcome
  have built := congrArg Prod.fst outcome
  change Shape.build .standard (first + tagsAll template) .empty
    (start.scan.tokensFrom [] (runs (printAll template))).1 = _ at built
  rw [← tokens] at built
  refine ⟨{ st.shape with html := st.shape.html ++ String.ofList st.read }, ?_, ?_, ?_, ?_⟩
  · unfold Shape.parse Shape.ofTokens
    dsimp only
    rw [next, built]
  · apply String.toList_inj.1
    simpa using out'.html
  · simpa using out'.slots
  · exact out'.records

end Written
end LiveMarkup.Template
