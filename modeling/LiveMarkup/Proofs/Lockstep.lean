import LiveMarkup.Proofs.Concord

/-!
From stage to stage through a whole tidy template: what opens a comment and what a slot comes to, and by
induction everything that is left. In the end a reader has found the elements with slots.
-/
namespace LiveMarkup.Template
open Markup

/-! The opening of a comment. -/

theorem Held.elsewhere {φ : Prop} {r : Ref} {s : Scan} {read cur : List Char} {a : Option Assignment}
    (held : Held φ r s read cur a) : s.place ≠ .outer ∧ s.place ≠ .tagOpen := by
  cases held with
  | quoted mark =>
    constructor <;>
      (intro place
       rw [place] at mark
       cases mark)
  | nothing place | slash place | name place | named place | key place | bare place | filled place =>
    rw [place]
    decide

theorem Concord.openComment {k : Setting} {st : Stage} {g : Gapped} {spoken : List (Ref × Assignment)}
    {a : Option Assignment} (h : Concord k st (letters ['!', '-', '-'] ++ g) spoken a)
    (place : st.scan.place = .tagOpen) (opened : Scan.opensClosed g = false) :
    Concord k st.inComment g spoken none := by
  cases h with
  | bracket _ stands =>
    refine .comment [] rfl ⟨?_, ?_, stands.agrees⟩ (by decide) opened rfl
    · simp [Stage.inComment, Scan.enterComment, stands.read]
    · have grown : st.inComment.shape.html.toList ++ st.inComment.read =
          st.shape.html.toList ++ st.read ++ ['!', '-', '-'] := (List.append_assoc _ _ _).symm
      rw [grown, stands.html, List.append_assoc]
      rfl
  | inside within => exact absurd place within.held.elsewhere.2
  | name named => exact absurd (named.place.symm.trans place) (by decide)
  | text here | ending _ here | declaration _ here | comment _ here | raw _ _ _ _ _ here =>
    exact absurd (here.symm.trans place) (by decide)

/-! A slot. -/

theorem isInsideTag_of_place {config : Config} {index : Nat} {fresh : Ref} {t : Token} {p : Placement}
    (placed : place config index fresh t = .ok p) (other : t.place ≠ .outer) :
    t.place.isInsideTag = true := by
  unfold place at placed
  rw [if_neg other] at placed
  cases ref : t.ref with
  | none =>
    rw [ref] at placed
    cases placed
  | some r =>
    rw [ref] at placed
    dsimp only at placed
    split at placed
    · cases placed
    case isFalse inside => simpa using inside

theorem Scan.place_slotToken (config : Config) (s : Scan) (chunk : String) :
    (s.slotToken config chunk).1.place = s.atSlot.place := by
  unfold slotToken
  dsimp only
  split <;> rfl

theorem Scan.pastSlot_eq (s : Scan) (chunk : String) :
    s.pastSlot = (s.slotToken .standard chunk).2.nextChunk := by
  unfold pastSlot slotToken
  dsimp only
  split <;> rfl

/-- A slot leads the scan and a reader to the same place. -/
theorem Concord.hole {k : Setting} {st : Stage} {g : Gapped} {spoken : List (Ref × Assignment)}
    {a : Option Assignment} {p : Placement} (h : Concord k st (none :: g) spoken a)
    (placed : place .standard st.shape.slots.length ⟨st.fresh⟩
      (st.scan.slotToken .standard (String.ofList st.read)).1 = .ok p)
    (chunk : k.clean → Clean st.read) (low : st.scan.nextRef ≤ k.first) :
    Concord k (st.behind p) g spoken (a.map (·.slot st.shape.slots.length)) := by
  have refused : ∀ q : Place, q ≠ .outer → q ≠ .beforeValue → q.isInsideTag = false →
      st.scan.place ≠ q := by
    intro q outer before outside here
    have same : st.scan.atSlot = st.scan := if_neg (by rw [here]; exact before)
    have inside := isInsideTag_of_place placed
    rw [Scan.place_slotToken, same, here, outside] at inside
    cases inside outer
  cases h with
  | @text f place stands =>
    have out : Stage.Outside f.html st.shape.slots st.shape.records st.scan.nextRef st.fresh st :=
      ⟨place, rfl, rfl, stands.read, by rw [stands.html, List.append_nil], rfl, rfl⟩
    have agrees := stands.agrees
    have new : ⟨st.fresh⟩ ∉ st.shape.records.map (·.1) := by
      intro old
      rcases agrees.census.given _ old with below | ⟨-, above⟩
      · have room := agrees.census.room
        simp only at below
        omega
      · exact absurd above (Nat.lt_irrefl _)
    obtain rfl : _ = p := Except.ok.inj (out.placed.symm.trans placed)
    have behind := out.behind new
    refine .text (f := ⟨f.html ++ (outlet .standard ⟨st.fresh⟩).toList, [],
      f.flushed.add (Written.tree 0 st.fresh .hole), f.held ++ [⟨⟨st.fresh⟩, []⟩]⟩) behind.place
      ⟨behind.read, by rw [List.append_nil]; exact behind.html, trivial, ?_, ?_, ?_⟩
    · intro tail
      have opens : opensMarkup ((outlet .standard ⟨st.fresh⟩).toList ++ tail) = true := by
        rw [Written.toList_outlet]
        rfl
      rw [List.append_assoc, agrees.reads_behind opens]
      exact Written.readInto_markup 0 st.fresh .hole trivial _ tail fun text => text.elim
    · rw [behind.slots, behind.records, behind.next, behind.fresh]
      exact agrees.flushed.outlet low
    · simp [agrees.spoken, Holder.quoted]
  | @inside f t done body fields cur a slots mine before within begun =>
    obtain ⟨outer, -⟩ := within.held.elsewhere
    have notOuter : st.scan.atSlot.place ≠ .outer := by
      unfold Scan.atSlot
      split
      · exact Place.noConfusion
      · exact outer
    have inside := isInsideTag_of_place placed
    obtain ⟨-, sorts⟩ := place_cases placed
    rw [Scan.place_slotToken] at inside sorts
    have inside := inside notOuter
    obtain ⟨-, other, -⟩ := sorts.resolve_left fun outer => notOuter outer.1
    obtain ⟨html, -, token⟩ := within.inTag.slotToken inside
    rw [token] at placed
    have slot : ∀ t' : Scan, t'.place = st.scan.atSlot.place → t'.attr = st.scan.attr → t'.read = 0 →
        Slots k.clean t.ref t' cur a st.shape.slots.length p := fun _ place attr directly =>
      within.held.slots chunk within.inTag.ref notOuter placed place attr directly
    have ref : p.slot.ref = t.ref := (slot { st.scan.atSlot with read := 0 } rfl
      (Stage.attr_atSlot st.scan) rfl).ref
    obtain ⟨inTag, place, attr⟩ := within.inTag.behind inside ref
    have slot := slot (st.behind p).scan place attr inTag.read
    obtain ⟨more, cur', proper, plain, held, takes⟩ := slot.takes
    have nothing : more.flatMap Assignment.marks = [] := filter_slotted_eq_nil.1 plain
    have own : recorded (fields ++ more ++ (a.map (·.slot st.shape.slots.length)).toList) =
        recordIn (recorded (fields ++ a.toList)) p.recorded st.shape.slots.length := by
      rw [slot.recorded]
      cases a with
      | none => simp [recorded, nothing]
      | some a =>
        refine Eq.trans ?_ (recorded_slot fields a st.shape.slots.length)
        simp [recorded, nothing]
    have index : (slots ++ mine).length = st.shape.slots.length := by rw [within.inTag.slots]
    rw [index, ← own, List.append_assoc] at inTag
    have fresh : st.fresh = (st.behind p).fresh := inTag.fresh.symm
    have next : Within k (st.behind p) spoken f t true (body ++ p.insertion.toList) (fields ++ more) cur'
        (a.map (·.slot st.shape.slots.length)) slots (mine ++ [p.slot]) before := by
      refine ⟨fresh ▸ within.opening, fresh ▸ inTag, held, ?_, ?_, ?_, fun unmarked => absurd unmarked.symm Bool.false_ne_true, ?_⟩
      · intro found tail
        rw [List.append_assoc, within.takes, giveAll_append, ← takes, List.append_assoc]
      · exact List.forall_mem_append.2 ⟨within.proper, proper⟩
      · exact List.forall_mem_append.2 ⟨within.own, List.forall_mem_singleton.2 ⟨ref, other⟩⟩
      · rw [within.spoken]
        simp [Holder.quoted, plain]
    obtain ⟨d, rest, rfl, stop⟩ := begun
    exact .inside next ⟨d, rest ++ p.insertion.toList, rfl, stop⟩
  | name named => exact absurd named.place (refused .tagName (by decide) (by decide) (by decide))
  | bracket place => exact absurd place (refused .tagOpen (by decide) (by decide) (by decide))
  | ending _ place => exact absurd place (refused .endTag (by decide) (by decide) (by decide))
  | declaration _ place => exact absurd place (refused .endTag (by decide) (by decide) (by decide))
  | comment _ place => exact absurd place (refused .comment (by decide) (by decide) (by decide))
  | raw _ _ _ _ _ place => exact absurd place (refused .rawText (by decide) (by decide) (by decide))

/-! The whole template. -/

theorem Scan.nextRef_le_tokensFrom {s : Scan} (counts : s.Counts) (read : List Char)
    (runs : List (List Char)) : s.nextRef ≤ (s.tokensFrom read runs).2 := by
  cases runs with
  | nil => exact Nat.le_refl _
  | cons run rest =>
    obtain ⟨fed, le⟩ := feed_counts counts run
    cases rest with
    | nil => exact le
    | cons next rest =>
      obtain ⟨-, counts', same⟩ := slotToken_counts fed .standard (String.ofList (read ++ run))
      have later := (tokens_counts counts' .standard ((next :: rest).map String.ofList)).1
      rw [same] at later
      exact Nat.le_trans le later

namespace Stage
variable {st : Stage} {g : Gapped}

theorem nextRef_le_outcome (counts : st.scan.Counts) (g : Gapped) :
    st.scan.nextRef ≤ (st.outcome g).2 :=
  Scan.nextRef_le_tokensFrom counts st.read (runs g)

theorem counts_after (counts : st.scan.Counts) (c : Char) : (st.after c).scan.Counts :=
  (Scan.advance_counts counts c).1

theorem counts_behind (counts : st.scan.Counts) (p : Placement) : (st.behind p).scan.Counts :=
  (Scan.slotToken_counts counts .standard (String.ofList st.read)).2.1

theorem letters_leads {run : List Char} {more : List (List Char)} (h : runs g = run :: more) :
    letters run <+: g := by
  induction g generalizing run more with
  | nil =>
    obtain ⟨rfl, -⟩ := List.cons.inj h
    exact List.nil_prefix
  | cons e g ih =>
    cases e with
    | none =>
      obtain ⟨rfl, -⟩ := List.cons.inj h
      exact List.nil_prefix
    | some c =>
      obtain ⟨run', more', later, split⟩ := runs_some c g
      obtain ⟨rfl, -⟩ := List.cons.inj (h.symm.trans split)
      exact List.cons_prefix_cons.2 ⟨rfl, ih later⟩

/-- A character that opens no comment. -/
theorem outcome_char {c : Char}
    (other : st.scan.place = .tagOpen → ¬ letters ['!', '-', '-'] <+: some c :: g) :
    st.outcome (some c :: g) = (st.after c).outcome g := by
  obtain ⟨run, more, hg, split⟩ := runs_some c g
  have closed : st.scan.opensComment (c :: run) = false := by
    refine Bool.eq_false_iff.2 fun opens => ?_
    obtain ⟨place, rest, same⟩ := Scan.opensComment_cases opens
    refine other place (List.IsPrefix.trans ?_ (letters_leads split))
    rw [same]
    exact ⟨letters rest, rfl⟩
  have fed : st.scan.feed (c :: run) = (st.scan.step c).feed run := by
    rw [Scan.feed, if_neg (by rw [closed]; exact Bool.false_ne_true)]
  unfold outcome
  rw [split, hg]
  cases more with
  | nil => simp [after, Scan.tokensFrom, fed]
  | cons next more => simp [after, Scan.tokensFrom, fed]

/-- A slot that was accepted has a use. -/
theorem placed_of_outcome {shape : Shape} (built : (st.outcome (none :: g)).1.1 = .ok shape) :
    ∃ p, place .standard st.shape.slots.length ⟨st.fresh⟩
      (st.scan.slotToken .standard (String.ofList st.read)).1 = .ok p := by
  cases placed : place .standard st.shape.slots.length ⟨st.fresh⟩
      (st.scan.slotToken .standard (String.ofList st.read)).1 with
  | ok p => exact ⟨p, rfl⟩
  | error fault =>
    obtain ⟨run, more, hg⟩ := List.exists_cons_of_ne_nil (runs_ne_nil g)
    obtain ⟨token, rest, tokens⟩ := Scan.tokensFrom_cons
      (st.scan.slotToken .standard (String.ofList st.read)).2.nextChunk [] run more
    have split : runs (none :: g) = [] :: run :: more := by rw [runs, hg]
    unfold outcome at built
    rw [split, Scan.tokensFrom_hole] at built
    simp only [tokens, Shape.build, placed] at built
    cases built

end Stage

/-- Whether the chunks are clean, where `read` is read of the first one. -/
def CleanFrom (read : List Char) : Gapped → Prop
  | [] => Clean read
  | none :: g => Clean read ∧ CleanFrom [] g
  | some c :: g => CleanFrom (read ++ [c]) g

theorem CleanFrom.here {read : List Char} {g : Gapped} (h : CleanFrom read g) :
    ∃ back, Clean (read ++ back) := by
  induction g generalizing read with
  | nil => exact ⟨[], by rw [List.append_nil]; exact h⟩
  | cons e g ih =>
    cases e with
    | none => exact ⟨[], by rw [List.append_nil]; exact h.1⟩
    | some c =>
      obtain ⟨back, clean⟩ : ∃ back, Clean (read ++ [c] ++ back) := ih h
      rw [List.append_assoc] at clean
      exact ⟨_, clean⟩

theorem cleanFrom_letters (read s : List Char) (g : Gapped) :
    CleanFrom read (letters s ++ g) ↔ CleanFrom (read ++ s) g := by
  induction s generalizing read with
  | nil => rw [List.append_nil]; rfl
  | cons c s ih =>
    have step : CleanFrom read (letters (c :: s) ++ g) = CleanFrom (read ++ [c]) (letters s ++ g) := rfl
    rw [step, ih, List.append_assoc, List.singleton_append]

theorem cleanFrom_gapped {chunks : List String} (clean : ∀ chunk ∈ chunks, Clean chunk.toList) :
    CleanFrom [] (gapped chunks) := by
  induction chunks with
  | nil => exact clean_nil
  | cons chunk rest ih =>
    obtain ⟨here, later⟩ := List.forall_mem_cons.1 clean
    cases rest with
    | nil =>
      have last := (cleanFrom_letters [] chunk.toList []).2 here
      rwa [List.append_nil] at last
    | cons next rest => exact (cleanFrom_letters [] chunk.toList _).2 ⟨here, ih later⟩

/-- In the end a reader has the elements with slots that the shape has, and their quoted attributes are
those that the scan went through. By induction on how much is left: each character and each slot leads
the two to the same place. -/
theorem Concord.run {k : Setting} {st : Stage} {g : Gapped} {spoken : List (Ref × Assignment)}
    {a : Option Assignment} {shape : Shape} (h : Concord k st g spoken a)
    (tidy : st.scan.tidy g = true) (clean : k.clean → CleanFrom st.read g) (counts : st.scan.Counts)
    (built : (st.outcome g).1.1 = .ok shape) (last : (st.outcome g).2 = k.first) :
    ∃ b held n m, readInto .start shape.html.toList = .ok b ∧
      Census k held b shape.slots shape.records n m ∧
      held.flatMap Holder.quoted = spoken ++ st.scan.quotations a st.shape.slots.length g := by
  induction length : g.length using Nat.strongRecOn generalizing st g spoken a with
  | ind len ih =>
    subst length
    rw [Scan.tidy.eq_def] at tidy
    cases g with
    | nil =>
      have place : st.scan.place = .outer := by simpa using tidy
      rw [Stage.outcome_end] at built
      obtain rfl := Except.ok.inj built
      cases h with
      | @text f _ stands =>
        have agrees := stands.agrees
        have read : readInto .start f.html = .ok f.flushed := by
          have whole := agrees.reads []
          rw [List.append_nil] at whole
          rw [whole, readInto_mild agrees.mild (.inl rfl), readInto_nil]
          rfl
        have html : (st.shape.html ++ String.ofList st.read).toList = f.html := by
          rw [String.toList_append, String.toList_ofList, stands.html, List.append_nil]
        refine ⟨f.flushed, f.held, st.scan.nextRef, st.fresh, ?_, agrees.flushed, ?_⟩
        · rw [html]
          exact read
        · rw [Scan.quotations, List.append_nil]
          exact agrees.spoken.symm
      | inside within => exact absurd place within.held.elsewhere.1
      | name named => exact absurd (named.place.symm.trans place) (by decide)
      | bracket here | ending _ here | declaration _ here | comment _ here | raw _ _ _ _ _ here =>
        exact absurd (here.symm.trans place) (by decide)
    | cons e g =>
      cases e with
      | none =>
        dsimp only at tidy
        obtain ⟨p, placed⟩ := Stage.placed_of_outcome built
        have leads := Stage.leads_hole st placed g
        rw [List.singleton_append] at leads
        have low := le_of_le_of_eq (Stage.nextRef_le_outcome counts (none :: g)) last
        have same : st.scan.pastSlot = (st.behind p).scan := st.scan.pastSlot_eq (String.ofList st.read)
        rw [leads] at built last
        rw [same] at tidy
        obtain ⟨b, held, n, m, read, census, quoted⟩ :=
          ih _ (Nat.lt_succ_self _) (h.hole placed (fun holds => (clean holds).1) low) tidy
            (fun holds => (clean holds).2) (Stage.counts_behind counts p) built last rfl
        refine ⟨b, held, n, m, read, census, quoted.trans ?_⟩
        have index : (st.behind p).shape.slots.length = st.shape.slots.length + 1 := by
          simp [Stage.behind, Shape.add]
        rw [index, Scan.quotations, same]
      | some c =>
        dsimp only at tidy
        by_cases comment : (st.scan.place == .tagOpen &&
            (letters ['!', '-', '-']).isPrefixOf (some c :: g)) = true
        · rw [if_pos comment, Bool.and_eq_true, Bool.not_eq_true'] at tidy
          obtain ⟨opened, tidy⟩ := tidy
          have opens := comment
          rw [Bool.and_eq_true, beq_iff_eq, List.isPrefixOf_iff_prefix] at opens
          obtain ⟨place, more, split⟩ := opens
          have rest : g.drop 2 = more := by
            rw [← (List.cons.inj split).2]
            rfl
          have leads := Stage.leads_openComment place more
          rw [split] at leads
          rw [leads] at built last
          rw [rest] at opened tidy
          have shorter : more.length < (some c :: g).length := by
            rw [← split, List.length_append]
            exact Nat.lt_add_of_pos_left (by decide)
          rw [← split] at h clean
          have clean : k.clean → CleanFrom st.inComment.read more := fun holds =>
            (cleanFrom_letters st.read ['!', '-', '-'] more).1 (clean holds)
          obtain ⟨b, held, n, m, read, census, quoted⟩ :=
            ih _ shorter (h.openComment place opened) tidy clean counts built last rfl
          refine ⟨b, held, n, m, read, census, quoted.trans ?_⟩
          rw [Scan.quotations, if_pos comment, rest]
          rfl
        · rw [if_neg comment, Bool.and_eq_true] at tidy
          have other : st.scan.place = .tagOpen → ¬ letters ['!', '-', '-'] <+: some c :: g := by
            intro place start
            exact comment (by rw [place, List.isPrefixOf_iff_prefix.2 start]; rfl)
          rw [Stage.outcome_char other] at built last
          have low := le_of_le_of_eq (Stage.nextRef_le_outcome (Stage.counts_after counts c) g) last
          have chunk : k.clean → ∃ back, Clean (st.read ++ c :: back) := by
            intro holds
            have rest : CleanFrom (st.read ++ [c]) g := clean holds
            obtain ⟨back, whole⟩ := rest.here
            rw [List.append_assoc] at whole
            exact ⟨back, whole⟩
          obtain ⟨b, held, n, m, read, census, quoted⟩ :=
            ih _ (Nat.lt_succ_self _) (h.step tidy.1 other chunk low) tidy.2 clean
              (Stage.counts_after counts c) built last rfl
          refine ⟨b, held, n, m, read, census, quoted.trans ?_⟩
          rw [Scan.quotations, if_neg comment, List.append_assoc]
          rfl

/-- The quoted attributes with slots of a template, with the references of their elements. -/
def quotations (first : Nat) (chunks : List String) : List (Ref × Assignment) :=
  (Scan.start first).quotations none 0 (gapped chunks)

/-- What a reader makes of the markup of a tidy template. -/
theorem Tidy.census {chunks : List String} (tidy : Tidy chunks) {first : Nat} {shape : Shape}
    (parsed : (Shape.parse .standard first chunks).1 = .ok shape) (k : Setting)
    (last : k.first = (tokenize .standard first chunks).2)
    (clean : k.clean → ∀ chunk ∈ chunks, Clean chunk.toList) :
    ∃ b held n m, readInto .start shape.html.toList = .ok b ∧
      Census k held b shape.slots shape.records n m ∧
      held.flatMap Holder.quoted = quotations first chunks := by
  by_cases some : chunks = []
  · subst some
    obtain rfl : Shape.empty = shape := Except.ok.inj parsed
    refine ⟨.start, [], 0, k.first, readInto_nil _, Census.start k _, ?_⟩
    rw [quotations, gapped, Scan.quotations]
    rfl
  let start : Stage := ⟨k.first, Scan.start first, [], .empty⟩
  have tokens : tokenize .standard first chunks =
      start.scan.tokensFrom [] (runs (gapped chunks)) := by
    have split := Scan.tokens_eq (Scan.start first) (runs_ne_nil (gapped chunks))
    rw [runs_gapped some] at split
    exact split
  have next : (start.outcome (gapped chunks)).2 = k.first := by
    rw [last, tokens]
    rfl
  have built : (start.outcome (gapped chunks)).1.1 = .ok shape := by
    have same : start.outcome (gapped chunks) = (Shape.build .standard k.first .empty
        (start.scan.tokensFrom [] (runs (gapped chunks))).1,
        (start.scan.tokensFrom [] (runs (gapped chunks))).2) := rfl
    rw [same, ← tokens, last]
    exact parsed
  have concord : Concord k start (gapped chunks) [] none :=
    .text (f := ⟨[], [], .start, []⟩) rfl
      ⟨rfl, rfl, trivial, fun _ => rfl, Census.start k _, rfl⟩
  have counts : start.scan.Counts := fun r hr => absurd hr (Option.some_ne_none r).symm
  exact concord.run (tidy.scan first) (fun holds => cleanFrom_gapped (clean holds)) counts built next

end LiveMarkup.Template
