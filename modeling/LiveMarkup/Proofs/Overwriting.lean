import LiveMarkup.Proofs.Marking
import LiveMarkup.Proofs.Outlining
import LiveMarkup.Proofs.Premiere

/-!
Overwriting: attribute values without quotes that slots are part of. Every slot of such a value is bound
to the whole attribute, so that a rendering writes them all there, one over the other. The value of the
last slot stays; other slots, and the text between them, are not to be seen.
-/
namespace LiveMarkup

namespace Template

open Markup

/-! The scan. -/

/-- Whether a character ends a value without quotes. -/
def endsBare (c : Char) : Bool :=
  Text.isBlank c || c == '>'

theorem of_endsBare {c : Char} (plain : endsBare c = false) : Text.isBlank c = false ∧ c ≠ '>' := by
  obtain ⟨blank, mark⟩ := Bool.or_eq_false_iff.1 plain
  refine ⟨blank, ?_⟩
  rintro rfl
  cases mark

namespace Scan

variable {s : Scan} {config : Config} {name : String} {r : Option Ref} {cs : List Char}

/-- The scan after a chunk and the slot behind it. -/
def behind (config : Config) (s : Scan) (chunk : String) : Scan :=
  ((s.nextChunk.feed chunk.toList).slotToken config chunk).2

theorem tokens_cons (s : Scan) (chunk : String) {rest : List String} (more : rest ≠ []) :
    (s.tokens config (chunk :: rest)).1 =
      ((s.nextChunk.feed chunk.toList).slotToken config chunk).1 ::
        ((s.behind config chunk).tokens config rest).1 := by
  obtain ⟨next, rest, rfl⟩ := List.exists_cons_of_ne_nil more
  rfl

/-- The tokens of chunks that others follow, which are scanned from where the former end. -/
theorem tokens_append (config : Config) (s : Scan) (chunks : List String) {rest : List String}
    (more : rest ≠ []) : ∃ earlier, earlier.length = chunks.length ∧
      (s.tokens config (chunks ++ rest)).1 =
        earlier ++ ((chunks.foldl (behind config) s).tokens config rest).1 := by
  induction chunks generalizing s with
  | nil => exact ⟨[], rfl, rfl⟩
  | cons chunk chunks ih =>
    obtain ⟨earlier, count, tokens⟩ := ih (s.behind config chunk)
    refine ⟨((s.nextChunk.feed chunk.toList).slotToken config chunk).1 :: earlier,
      congrArg (· + 1) count, ?_⟩
    rw [List.cons_append, tokens_cons s chunk (List.append_ne_nil_of_right_ne_nil _ more)]
    exact congrArg _ tokens

theorem opened {cs : List Char} (opens : s.opensComment cs = true) :
    s.place = .tagOpen ∧ ∃ after, cs = '!' :: '-' :: '-' :: after := by
  unfold opensComment at opens
  split at opens
  case h_1 after => exact ⟨eq_of_beq opens, after, rfl⟩
  case h_2 => cases opens

/-- A scan goes on from where it is. It looks ahead for the hyphens of a comment only, which it takes
for the inside of an end tag if they are cut off. -/
theorem feed_append (s : Scan) (a b : List Char) (whole : (s.feed a).place ≠ .endTag) :
    s.feed (a ++ b) = (s.feed a).feed b := by
  induction s, a using feed.induct with
  | case1 s => rw [List.nil_append, feed.eq_1]
  | case2 s c rest opens ih =>
    obtain ⟨place, after, split⟩ := opened opens
    cases split
    rw [feed_comment place] at whole ⊢
    exact (feed_comment place (after ++ b)).trans (ih whole)
  | case3 s c rest closed ih =>
    have tail : ¬ s.opensComment (c :: (rest ++ b)) = true := by
      intro opens
      obtain ⟨place, after, split⟩ := opened opens
      obtain ⟨rfl, ahead⟩ := List.cons.inj split
      have enters : (s.step '!').place = .endTag := by
        change (s.advance '!').place = .endTag
        simp only [advance, place, if_neg (show ¬ isTagStart '!' = true by decide)]
        rfl
      have stays : ((s.step '!').step '-').place = .endTag := by
        change ((s.step '!').advance '-').place = .endTag
        simp only [advance, enters, if_neg (show ¬ '-' = '>' by decide)]
      rcases rest with _ | ⟨c₁, _ | ⟨c₂, rest⟩⟩
      · rw [feed, if_neg closed, feed] at whole
        exact whole enters
      · obtain ⟨rfl, -⟩ := List.cons.inj ahead
        rw [feed, if_neg closed, feed_cons (.inl (by rw [enters]; decide)), feed] at whole
        exact whole stays
      · obtain ⟨rfl, further⟩ := List.cons.inj ahead
        obtain ⟨rfl, -⟩ := List.cons.inj further
        exact closed opens
    rw [List.cons_append, feed, if_neg tail]
    rw [feed, if_neg closed] at whole ⊢
    exact ih whole

/-- The scan is in a value without quotes. -/
structure InBare (name : String) (r : Option Ref) (s : Scan) : Prop where
  place : s.place = .unquoted
  attr : s.attr = name
  ref : s.ref = r

namespace InBare

theorem feed (h : InBare name r s) (plain : ∀ c ∈ cs, endsBare c = false) :
    InBare name r (s.feed cs) := by
  induction cs generalizing s with
  | nil => rwa [Scan.feed]
  | cons c cs ih =>
    obtain ⟨here, later⟩ := List.forall_mem_cons.1 plain
    have open' : s.place ≠ .tagOpen := by
      rw [h.place]
      decide
    rw [feed_cons (.inl open')]
    refine ih ?_ later
    obtain ⟨blank, mark⟩ := of_endsBare here
    have stays : s.advance c = s := by
      simp only [advance, h.place, blank, if_neg mark]
      rfl
    unfold step
    dsimp only
    rw [stays]
    exact ⟨h.place, h.attr, h.ref⟩

/-- In a value that begins without a quotation mark, and at a slot in place of one. -/
theorem start (place : s.place = .beforeValue) (plain : ∀ c ∈ cs, endsBare c = false)
    (unquoted : ∀ c ∈ cs.head?, c ≠ '\x22' ∧ c ≠ '\x27') :
    InBare s.attr s.ref (s.feed cs).atSlot := by
  cases cs with
  | nil =>
    rw [Scan.feed, atSlot, if_pos place]
    exact ⟨rfl, rfl, rfl⟩
  | cons c cs =>
    obtain ⟨here, later⟩ := List.forall_mem_cons.1 plain
    obtain ⟨double, single⟩ := unquoted c rfl
    have open' : s.place ≠ .tagOpen := by
      rw [place]
      decide
    obtain ⟨blank, mark⟩ := of_endsBare here
    have enters : s.advance c = { s with place := .unquoted } := by
      simp only [advance, place, if_neg double, if_neg single, if_neg mark, blank]
      rfl
    have entered : InBare s.attr s.ref (s.step c) := by
      unfold step
      dsimp only
      rw [enters]
      exact ⟨rfl, rfl, rfl⟩
    have fed := entered.feed later
    rw [feed_cons (.inl open'), atSlot, if_neg (by rw [fed.place]; decide)]
    exact fed

/-- The token of a slot in a value. -/
theorem slot (h : InBare name r s.atSlot) (config : Config) (chunk : String) :
    let p := s.slotToken config chunk
    (p.1.place = .unquoted ∧ p.1.attr = name ∧ p.1.ref = r) ∧ InBare name r p.2 := by
  rw [slotToken_eq]
  exact ⟨⟨h.place, h.attr, h.ref⟩, h.place, h.attr, h.ref⟩

/-- The tokens of more slots in a value, with texts between them. By induction on the texts. -/
theorem slots (h : InBare name r s) (config : Config) (texts : List String)
    (plain : ∀ text ∈ texts, ∀ c ∈ text.toList, endsBare c = false) {rest : List String}
    (more : rest ≠ []) : ∃ own later, own.length = texts.length ∧ later ≠ [] ∧
      (s.tokens config (texts ++ rest)).1 = own ++ later ∧
        ∀ t ∈ own, t.place = .unquoted ∧ t.attr = name ∧ t.ref = r := by
  induction texts generalizing s with
  | nil =>
    refine ⟨[], _, rfl, ?_, rfl, List.forall_mem_nil _⟩
    obtain ⟨chunk, rest, rfl⟩ := List.exists_cons_of_ne_nil more
    cases rest with
    | nil => exact List.cons_ne_nil _ _
    | cons next rest => exact List.cons_ne_nil _ _
  | cons text texts ih =>
    obtain ⟨here, later⟩ := List.forall_mem_cons.1 plain
    have start : InBare name r s.nextChunk := ⟨h.place, h.attr, h.ref⟩
    have fed := start.feed here
    have atSlot : InBare name r (s.nextChunk.feed text.toList).atSlot := by
      rw [Scan.atSlot, if_neg (by rw [fed.place]; decide)]
      exact fed
    obtain ⟨token, next⟩ := atSlot.slot config text
    obtain ⟨own, after, count, some, tokens, all⟩ := ih next later
    refine ⟨_ :: own, after, congrArg (· + 1) count, some, ?_, List.forall_mem_cons.2 ⟨token, all⟩⟩
    rw [List.cons_append, tokens_cons s text (List.append_ne_nil_of_right_ne_nil _ more)]
    exact congrArg _ tokens

end InBare
end Scan

/-! The slots. -/

section
variable {config : Config} {t : Token} {p : Placement} {d : Descriptor} {s s' : Shape} {name : String}

/-- A slot in a value without quotes is bound to the attribute. -/
theorem slot_of_unquoted {index : Nat} {fresh : Ref} (unquoted : t.place = .unquoted)
    (plain : ':' ∉ t.attr.toList) (placed : place config index fresh t = .ok p) :
    ∃ r, t.ref = some r ∧ p.slot = .attr t.attr .none r := by
  obtain ⟨r, ref⟩ : ∃ r, t.ref = some r := by
    obtain ⟨-, ⟨outer, -⟩ | ⟨-, -, ref⟩⟩ := place_cases placed
    · rw [unquoted] at outer
      cases outer
    · exact ⟨_, ref⟩
  unfold place at placed
  simp only [ref, unquoted, Place.isInsideTag, show Place.isValue .unquoted by decide, Bool.or_true,
    Bool.not_true, Bool.false_eq_true, if_false, reduceCtorEq, false_and] at placed
  unfold placeValue at placed
  simp only [unquoted, Quote.ofPlace, cutAt?_plain plain, if_true] at placed
  cases placed
  exact ⟨r, ref, rfl⟩

/-- Every token but the last one adds the slot behind it. By recursion on the tokens. -/
theorem Shape.slots_of_build {nextRef : Nat} {tokens : List Token}
    (built : (build config nextRef s tokens).1 = .ok s') : ∃ slots, s'.slots = s.slots ++ slots ∧
      ∀ i t, tokens[i]? = some t → i + 1 < tokens.length →
        ∃ index fresh p, place config index fresh t = .ok p ∧ slots[i]? = some p.slot := by
  induction tokens generalizing nextRef s with
  | nil =>
    cases built
    exact ⟨[], (List.append_nil _).symm, nofun⟩
  | cons t rest ih =>
    cases rest with
    | nil =>
      cases built
      refine ⟨[], (List.append_nil _).symm, fun i _ _ below => ?_⟩
      exact absurd below (by simp)
    | cons t' rest =>
      unfold build at built
      dsimp only at built
      split at built
      case h_2 => cases built
      case h_1 p placed =>
        obtain ⟨slots, more, behind⟩ := ih built
        refine ⟨p.slot :: slots, ?_, fun i u at_i below => ?_⟩
        · rw [more]
          exact List.append_assoc ..
        · cases i with
          | zero =>
            cases at_i
            exact ⟨_, _, p, placed, rfl⟩
          | succ i => exact behind i u at_i (Nat.lt_of_succ_lt_succ below)

/-- An attribute value without quotes in the source of a template: what there is before its first slot,
which ends with the text that the value begins with; the texts between its slots; and what there is
behind its last slot, which begins with the text that the value ends with. -/
structure BareValue where
  before : List String
  head : String
  first : String
  middle : List String
  last : String
  rest : String
  after : List String

namespace BareValue

/-- The source. -/
def chunks (b : BareValue) : List String :=
  b.before ++ ((b.head ++ b.first) :: b.middle ++ (b.last ++ b.rest) :: b.after)

/-- The scan where the value begins. -/
def scan (config : Config) (n : Nat) (b : BareValue) : Scan :=
  ((b.before.foldl (Scan.behind config) (.start n)).nextChunk).feed b.head.toList

/-- The value belongs to an attribute, whose name is not that of a directive, and is all that there is
up to the next blank or `>`. It does not begin with a quotation mark. -/
structure Sits (config : Config) (n : Nat) (name : String) (b : BareValue) : Prop where
  place : (b.scan config n).place = .beforeValue
  attr : (b.scan config n).attr = name
  plain : ':' ∉ name.toList
  texts : ∀ text ∈ b.first :: b.middle ++ [b.last], ∀ c ∈ text.toList, endsBare c = false
  unquoted : ∀ c ∈ b.first.toList.head?, c ≠ '\x22' ∧ c ≠ '\x27'
  ends : ∃ c ∈ b.rest.toList.head?, endsBare c = true

/-- What the value comes to when strings are put into its slots. -/
def text (b : BareValue) (strings : List String) : String :=
  b.first ++ String.join (List.zipWith (· ++ ·) strings (b.middle ++ [b.last]))

variable {b : BareValue} {n : Nat}

/-- Texts that are put behind strings one by one come to nothing if and only if all are empty. -/
theorem join_zipWith_eq_empty_iff {strings texts : List String} (count : strings.length = texts.length) :
    String.join (List.zipWith (· ++ ·) strings texts) = "" ↔
      (∀ text ∈ texts, text = "") ∧ ∀ string ∈ strings, string = "" := by
  induction strings generalizing texts with
  | nil =>
    obtain rfl := List.length_eq_zero_iff.1 count.symm
    simp
  | cons string strings ih =>
    obtain ⟨text, texts, rfl⟩ :=
      List.exists_cons_of_length_eq_add_one (count.symm.trans (List.length_cons ..))
    have count : strings.length = texts.length := Nat.succ.inj count
    rw [List.zipWith_cons_cons, String.join_cons, String.append_eq_empty_iff, ih count,
      String.append_eq_empty_iff, List.forall_mem_cons, List.forall_mem_cons]
    tauto

/-- A value comes to the string of its last slot if and only if there is nothing else to it. -/
theorem text_eq_last_iff {strings : List String} {shown : String}
    (count : strings.length = b.middle.length) : b.text (strings ++ [shown]) = shown ↔
      (b.first = "" ∧ b.last = "") ∧ (∀ text ∈ b.middle, text = "") ∧
        ∀ string ∈ strings, string = "" := by
  have split : b.text (strings ++ [shown]) =
      b.first ++ (String.join (List.zipWith (· ++ ·) strings b.middle) ++ (shown ++ b.last)) := by
    unfold text
    rw [List.zipWith_append count, String.join_append]
    simp
  rw [split, ← join_zipWith_eq_empty_iff count]
  constructor
  · intro same
    have lengths := congrArg String.length same
    simp only [String.length_append] at lengths
    simp only [← String.length_eq_zero_iff]
    omega
  · rintro ⟨⟨first, last⟩, between⟩
    rw [first, last, between]
    simp

/-- The tokens of the slots. -/
theorem Sits.tokens (sits : b.Sits config n name) : ∃ earlier own later,
    earlier.length = b.before.length ∧ own.length = b.middle.length + 1 ∧ later ≠ [] ∧
      (tokenize config n b.chunks).1 = earlier ++ (own ++ later) ∧
        ∀ t ∈ own, t.place = .unquoted ∧ t.attr = name ∧ t.ref = (b.scan config n).ref := by
  obtain ⟨firstText, others⟩ := List.forall_mem_cons.1 sits.texts
  obtain ⟨between, -⟩ := List.forall_mem_append.1 others
  let s := b.before.foldl (Scan.behind config) (.start n)
  have begins : (s.nextChunk.feed b.head.toList).place = .beforeValue := sits.place
  -- The scan is in the value at the end of the chunk in which the value begins.
  have entered : Scan.InBare name (b.scan config n).ref
      (s.nextChunk.feed (b.head ++ b.first).toList).atSlot := by
    rw [String.toList_append, Scan.feed_append _ _ _ (by rw [begins]; decide), ← sits.attr]
    exact .start begins firstText sits.unquoted
  obtain ⟨token, next⟩ := entered.slot config (b.head ++ b.first)
  obtain ⟨own, later, count, more, rest, all⟩ :=
    next.slots config b.middle between (List.cons_ne_nil (b.last ++ b.rest) b.after)
  obtain ⟨earlier, countBefore, tokens⟩ := Scan.tokens_append config (.start n) b.before
    (List.cons_ne_nil (b.head ++ b.first) (b.middle ++ (b.last ++ b.rest) :: b.after))
  refine ⟨earlier, _ :: own, later, countBefore, congrArg (· + 1) count, more, ?_,
    List.forall_mem_cons.2 ⟨token, all⟩⟩
  refine tokens.trans (congrArg (earlier ++ ·) ?_)
  refine (Scan.tokens_cons s (b.head ++ b.first) ?_).trans (congrArg _ rest)
  exact List.append_ne_nil_of_right_ne_nil _ (List.cons_ne_nil _ _)

/-- The slots of a value without quotes are all bound to the whole attribute of one element. -/
theorem Sits.slots (sits : b.Sits config n name)
    (compiled : (Descriptor.compile config n b.chunks).1 = .ok d) :
    ∃ r, ∀ i ≤ b.middle.length, d.slots[b.before.length + i]? = some (.attr name .none r) := by
  obtain ⟨earlier, own, later, countBefore, count, more, tokens, all⟩ := sits.tokens
  obtain ⟨s, parsed, -, -, eq⟩ := shape_of_compile compiled
  have built : (Shape.build config (tokenize config n b.chunks).2 .empty
      (tokenize config n b.chunks).1).1 = .ok s := parsed
  obtain ⟨slots, same, behind⟩ := Shape.slots_of_build built
  have same : d.slots = slots := by
    rw [eq]
    exact same
  have here : ∀ i ≤ b.middle.length, ∃ r, (b.scan config n).ref = some r ∧
      d.slots[b.before.length + i]? = some (.attr name .none r) := by
    intro i hi
    have inOwn : i < own.length := by omega
    have at_i : (tokenize config n b.chunks).1[b.before.length + i]? = some own[i] := by
      rw [tokens, ← countBefore, List.getElem?_append_right (Nat.le_add_right _ _),
        Nat.add_sub_cancel_left, List.getElem?_append_left inOwn, List.getElem?_eq_getElem inOwn]
    have below : b.before.length + i + 1 < (tokenize config n b.chunks).1.length := by
      have some := List.length_pos_of_ne_nil more
      rw [tokens, List.length_append, List.length_append]
      omega
    obtain ⟨unquoted, attr, ref⟩ := all own[i] (List.getElem_mem inOwn)
    obtain ⟨index, fresh, p, placed, slot⟩ := behind _ _ at_i below
    obtain ⟨r, own, bound⟩ := slot_of_unquoted unquoted (attr ▸ sits.plain) placed
    refine ⟨r, ref ▸ own, ?_⟩
    rw [same, slot, bound, attr]
  obtain ⟨r, ref, -⟩ := here 0 (Nat.zero_le _)
  refine ⟨r, fun i hi => ?_⟩
  obtain ⟨r', ref', slot⟩ := here i hi
  cases ref.symm.trans ref'
  exact slot

end BareValue
end
end Template

namespace Live.Render

open Template (Slot Descriptor Config BareValue Part)
open Comparison (worded)

variable {d : Descriptor} {values : List TemplateValue} {job : Job} {element : NodeId} {mark : String}
  {w w' : World} {y : Inscription} {i : Nat} {p : Performance} {nodes : List NodeId} {v v' : Visit}

/-! The rendering. -/

theorem getElem?_slotJobs (index : Nat) (l : List (Slot × TemplateValue)) :
    (slotJobs index l)[i]? = l[i]?.map fun p => .slot (index + i) p.1 p.2 := by
  induction l generalizing index i with
  | nil => rfl
  | cons p l ih =>
    cases i with
    | zero => rfl
    | succ i =>
      refine (ih (index + 1)).trans ?_
      rw [Nat.add_right_comm]
      rfl

/-- The job of a slot comes at the index of the slot. -/
theorem getElem?_jobs {slot : Slot} {value : TemplateValue} (here : d.slots[i]? = some slot)
    (given : values[i]? = some value) : (jobs d values)[i]? = some (.slot i slot value) := by
  have both : (d.slots.zip values)[i]? = some (slot, value) :=
    List.getElem?_zip_eq_some.2 ⟨here, given⟩
  have job : (slotJobs 0 (d.slots.zip values))[i]? = some (.slot i slot value) := by
    rw [getElem?_slotJobs, both, Nat.zero_add]
    rfl
  exact List.getElem?_append_left (List.getElem?_eq_some_iff.1 job).1 |>.trans job

section
variable {xs : List String}

/-- Strings depend on nothing, and nothing is asked for behind them. -/
theorem proper_worded : ∀ value ∈ xs.map worded, value.Proper w := by
  intro value mem
  obtain ⟨x, -, rfl⟩ := List.mem_map.1 mem
  exact ⟨rfl, nofun⟩

theorem asks_worded : ∀ job ∈ jobs d (xs.map worded), job.asks = [] := by
  intro job mem
  rcases mem_jobs.1 mem with ⟨i, slot, value, -, given, rfl⟩ | ⟨e, -, rfl⟩
  · obtain ⟨x, -, rfl⟩ := List.mem_map.1 (List.mem_of_getElem? given)
    cases slot with
    | directive kind name r => cases kind <;> rfl
    | _ => rfl
  · rfl

end

/-- A job writes at its element, and no attribute that it spares. -/
theorem Job.of_mem_inscriptions (mem : y ∈ job.inscriptions element) :
    y.element = element ∧ (job.Spares mark → Text.lowercase y.name ≠ Text.lowercase mark) := by
  cases job with
  | programs r ps =>
    obtain ⟨p, entry, rfl⟩ := List.mem_map.1 mem
    exact ⟨rfl, fun spares => Ne.symm (spares p entry)⟩
  | slot i slot value =>
    cases slot with
    | attr name quote r =>
      have mem : y ∈ if quote = .none then [⟨element, name, some [.slot i]⟩] else [] := mem
      split at mem
      · obtain rfl := List.mem_singleton.1 mem
        exact ⟨rfl, Ne.symm⟩
      · cases mem
    | directive kind name r =>
      cases kind with
      | classes =>
        obtain rfl := List.mem_singleton.1 mem
        exact ⟨rfl, Ne.symm⟩
      | style =>
        obtain rfl := List.mem_singleton.1 mem
        exact ⟨rfl, Ne.symm⟩
      | _ => cases mem
    | _ => cases mem

/-- Nothing is written to markers, so that the element of a visit carries its marker when all is over. -/
theorem Visit.Lies.marked {fragment : NodeId} {l : List Inscription}
    (lies : v.Lies w d fragment l w')
    (unmarked : ∀ y ∈ l, Text.lowercase y.name ≠ Text.lowercase d.config.refAttribute) :
    (w'.nodes.attributes v.element).value? d.config.refAttribute = some v.job.ref.text := by
  obtain ⟨-, carries⟩ := Dom.Forest.carries_of_findByAttribute lies.found
  have known := Dom.Forest.known_of_carries carries
  have before := (Bool.and_eq_true_iff.1 ((Dom.Forest.carries_iff ..).2 carries)).2
  rw [lies.leaves.value _ _ known fun ⟨y, mem, _, same⟩ => unmarked y mem same]
  exact eq_of_beq before

namespace Performance

/-- A rendering writes no markers. -/
theorem unmarked (supplied : p.descriptor.Supplied)
    (jobs : p.visits.map Visit.job = jobs p.descriptor p.values) : ∀ y ∈ p.inscriptions,
      Text.lowercase y.name ≠ Text.lowercase p.descriptor.config.refAttribute := by
  intro y mem
  obtain ⟨v, hv, written⟩ := List.mem_flatMap.1 mem
  refine (Job.of_mem_inscriptions written).2 ?_
  have job : v.job ∈ Render.jobs p.descriptor p.values := jobs ▸ List.mem_map_of_mem hv
  rcases mem_jobs.1 job with ⟨j, slot, _, slots, -, same⟩ | ⟨e, entry, same⟩
  · rw [same]
    exact supplied.slots slot (List.mem_of_getElem? slots)
  · rw [same]
    intro q hq
    obtain ⟨quote, slot⟩ := supplied.programs e entry q hq
    exact supplied.slots _ slot

/-- What the job of a slot writes is written last, if later jobs of the element spare the attribute. -/
theorem lasts {name : String} {r : Template.Ref} {value : TemplateValue}
    (supplied : p.descriptor.Supplied)
    (jobs : p.visits.map Visit.job = jobs p.descriptor p.values)
    (lies : ∀ v ∈ p.visits, v.Lies p.start p.descriptor p.start.nodes.next p.inscriptions w')
    (here : p.visits[i]? = some v) (own : v.job = .slot i (.attr name .none r) value)
    (spared : ∀ job ∈ (Render.jobs p.descriptor p.values).drop (i + 1), job.ref = r →
      job.Spares name) :
    (⟨v.element, name, some [.slot i]⟩ : Inscription).Lasts p.inscriptions := by
  have split : p.visits = p.visits.take i ++ v :: p.visits.drop (i + 1) := by
    obtain ⟨below, rfl⟩ := List.getElem?_eq_some_iff.1 here
    rw [List.cons_getElem_drop_succ, List.take_append_drop]
  have written : v.inscriptions = [⟨v.element, name, some [.slot i]⟩] := by
    unfold Visit.inscriptions
    rw [own]
    rfl
  refine ⟨(p.visits.take i).flatMap Visit.inscriptions,
    (p.visits.drop (i + 1)).flatMap Visit.inscriptions, ?_, fun y mem meets => ?_⟩
  · unfold inscriptions
    conv_lhs => rw [split]
    rw [List.flatMap_append, List.flatMap_cons, written]
    rfl
  · obtain ⟨v', later, written'⟩ := List.mem_flatMap.1 mem
    obtain ⟨place, spares⟩ := Job.of_mem_inscriptions written'
    -- Elements that carry the same marker when all is over are of the same reference.
    have unmarked := p.unmarked supplied jobs
    have mark := (lies v (List.mem_of_getElem? here)).marked unmarked
    have mark' := (lies v' (List.mem_of_mem_drop later)).marked unmarked
    have same : v'.element = v.element := place.symm.trans meets.1
    rw [same, mark] at mark'
    have ref : v'.job.ref = r := by
      rw [Template.Ref.text_injective (Option.some.inj mark').symm, own]
      rfl
    refine spares (spared v'.job ?_ ref) meets.2
    rw [← jobs, ← List.map_drop]
    exact List.mem_map_of_mem later

end Performance

/-- Of an attribute value without quotes, a rendering with strings shows the string of the last slot, if
nothing else writes the attribute later. So it comes to what the source says just if there is nothing
else to the value. -/
theorem bare_value_shows_last {config : Config} (colon : ':' ∈ config.refAttribute.toList) {n : Nat}
    {b : BareValue} {name : String} (sits : b.Sits config n name)
    (compiled : (Descriptor.compile config n b.chunks).1 = .ok d) {xs : List String} {fuel : Nat}
    (spared : ∀ job ∈ (jobs d (xs.map worded)).drop (b.before.length + b.middle.length + 1),
      d.slots[b.before.length]?.map Slot.ref = some job.ref → job.Spares name)
    (sane : Sane w)
    (rendered : runFrom fuel w (render d (xs.map worded)) = .ok (.ok nodes, w')) :
    ∃ r element strings shown,
      (∀ i ≤ b.middle.length, d.slots[b.before.length + i]? = some (.attr name .none r)) ∧
      (xs.drop b.before.length).take (b.middle.length + 1) = strings ++ [shown] ∧
      w.nodes.size ≤ element.index ∧
      (w'.nodes.attributes element).value? config.refAttribute = some r.text ∧
      (w'.nodes.attributes element).value? name = some shown ∧
      ((w'.nodes.attributes element).value? name = some (b.text (strings ++ [shown])) ↔
        (b.first = "" ∧ b.last = "") ∧ (∀ text ∈ b.middle, text = "") ∧
          ∀ string ∈ strings, string = "") := by
  obtain ⟨same, supplied⟩ := Template.supplied_of_compile colon compiled
  obtain ⟨r, slots⟩ := sits.slots compiled
  let k := b.before.length + b.middle.length
  let p : Performance := ⟨d, xs.map worded, fuel, w⟩
  obtain ⟨all, jobs, lies⟩ := p.inscribes sane proper_worded asks_worded rendered
  -- There are as many strings as slots.
  have filling : renderBy (fun n => fillAll d n p.values) d p.values (exec fuel) w =
      .ok (.ok nodes, w') := rendered
  obtain ⟨asked, w₁, filled⟩ := filled_of_renderBy filling
  have count : xs.length = d.slots.length := List.length_map worded ▸ count_of_fillAll filled
  have below : k < xs.length := count ▸ (List.getElem?_eq_some_iff.1 (slots _ (Nat.le_refl _))).1
  have given : p.values[k]? = some (worded xs[k]) := by
    rw [List.getElem?_map, List.getElem?_eq_getElem below]
    rfl
  have job : (p.visits.map Visit.job)[k]? = some (.slot k (.attr name .none r) (worded xs[k])) := by
    rw [jobs]
    exact getElem?_jobs (slots _ (Nat.le_refl _)) given
  rw [List.getElem?_map] at job
  obtain ⟨v, here, own⟩ := Option.map_eq_some_iff.1 job
  have lasts := p.lasts supplied jobs lies here own fun job mem ref => spared job mem <| by
    rw [show d.slots[b.before.length]? = _ from slots 0 (Nat.zero_le _), ref]
    rfl
  have shows : (w'.nodes.attributes v.element).value? name = some xs[k] :=
    (all.stands _ lasts _ rfl).trans (inscribedText_slot given)
  have lies := lies v (List.mem_of_getElem? here)
  have mark := lies.marked (p.unmarked supplied jobs)
  rw [own, same] at mark
  let strings := (xs.drop b.before.length).take b.middle.length
  have taken : (xs.drop b.before.length).take (b.middle.length + 1) = strings ++ [xs[k]] := by
    rw [List.take_add_one, List.getElem?_drop, List.getElem?_eq_getElem below]
    rfl
  have length : strings.length = b.middle.length := by
    rw [List.length_take, List.length_drop]
    omega
  refine ⟨r, v.element, strings, xs[k], slots, taken, lies.new, mark, shows, ?_⟩
  rw [← BareValue.text_eq_last_iff length, shows, Option.some_inj, eq_comm]

/-- A title with two slots, and texts before, between and behind them. -/
def patchwork : BareValue :=
  ⟨[], "<p title=", "a", ["b"], "c", "></p>", []⟩

theorem patchwork_sits : patchwork.Sits .standard Template.Ref.first "title" := by
  have plain : (["a", "b", "c"].all fun text =>
      text.toList.all fun c => !Template.endsBare c) = true := by decide +kernel
  refine ⟨by decide +kernel, by decide +kernel, by decide, fun text mem c hc => ?_, fun c hc => ?_,
    '>', by decide +kernel, by decide⟩
  · have here := List.all_eq_true.1 (List.all_eq_true.1 plain text mem) c hc
    simpa using here
  · have first : patchwork.first.toList.head? = some 'a' := by decide +kernel
    cases first.symm.trans hc
    decide

theorem bare_value_shows_last_patchwork : ∃ (nodes : List NodeId) (w' : World) (element : NodeId),
    runFrom 10 .empty (render (fromChunks patchwork.chunks) (["X", "Y"].map worded)) =
      .ok (.ok nodes, w') ∧
    patchwork.text ["X", "Y"] = "aXbYc" ∧
    (w'.nodes.attributes element).value? "title" = some "Y" := by
  have success : succeeds (fromChunks patchwork.chunks) (["X", "Y"].map worded) (exec 10) .empty =
      true := by decide +kernel
  obtain ⟨nodes, w', rendered⟩ := rendered_of_succeeds success
  have compiled : (Descriptor.compile .standard Template.Ref.first patchwork.chunks).1 =
      .ok (fromChunks patchwork.chunks) := compile_fromChunks (by decide +kernel)
  have all : (jobs (fromChunks patchwork.chunks) (["X", "Y"].map worded)).length ≤ 2 := by
    decide +kernel
  obtain ⟨r, element, strings, shown, -, taken, -, -, shows, -⟩ :=
    bare_value_shows_last (by decide) patchwork_sits compiled
      (fun job mem => absurd (List.drop_eq_nil_of_le all ▸ mem) List.not_mem_nil) Stage.empty.sane
      rendered
  refine ⟨nodes, w', element, rendered, by decide +kernel, ?_⟩
  have last : strings ++ [shown] = ["X"] ++ ["Y"] := taken.symm
  obtain ⟨-, same⟩ := List.append_inj' last rfl
  cases same
  exact shows

/-- The text before a slot is dropped. -/
theorem bare_text_dropped :
    shown [.compile "t" (.ok .standard) [] ["<p title=ab", "></p>"],
      .render "r" "t" [.literal (.plain (.string "X"))]] =
        [["<p :ref=\"__ref_1000000__\" title=\"X\"></p>"]] := by
  decide +kernel

end Live.Render
end LiveMarkup
