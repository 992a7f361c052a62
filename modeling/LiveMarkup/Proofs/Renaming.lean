import LiveMarkup.Proofs.CompiledMarkup
import LiveMarkup.Proofs.SlotNames

/-!
Renaming: what two compilations of one template have in common. They give out different references,
so that the texts they make are spelled after one pattern, in which references are numbered from
zero. Where nothing else in a text could be taken for a reference, a pattern can be told from its
spelling, and whatever compares, cuts or changes texts does the same to both spellings.
-/
namespace LiveMarkup

open Template (Ref)

/-- A symbol of a pattern: a character, or a reference counted from the first that a compilation
gives out. -/
inductive Glyph where
  | char (c : Char)
  | ref (k : Nat)

abbrev Pattern := List Glyph

namespace Pattern

/-- The text of a pattern where `first` is the number of the first reference. -/
def spell (first : Nat) : Pattern → List Char
  | [] => []
  | .char c :: g => c :: spell first g
  | .ref k :: g => (Ref.mk (first + k)).text.toList ++ spell first g

/-- The pattern of a text without references. -/
def letters (s : List Char) : Pattern :=
  s.map .char

variable {first : Nat} {g h : Pattern}

@[simp] theorem spell_append : spell first (g ++ h) = spell first g ++ spell first h := by
  induction g with
  | nil => rfl
  | cons a g ih =>
    cases a with
    | char c => exact congrArg (c :: ·) ih
    | ref k => simp only [List.cons_append, spell, ih, List.append_assoc]

@[simp] theorem spell_letters (s : List Char) : spell first (letters s) = s := by
  induction s with
  | nil => rfl
  | cons c s ih => exact congrArg (c :: ·) ih

@[simp] theorem letters_append (s t : List Char) : letters (s ++ t) = letters s ++ letters t :=
  List.map_append

theorem letters_injective {s t : List Char} (h : letters s = letters t) : s = t := by
  have := congrArg (spell 0) h
  simpa using this

/-- A pattern is a text, or a text with a reference behind it and more. -/
theorem letters_or_ref (g : Pattern) :
    (∃ s, g = letters s) ∨ ∃ s k h, g = letters s ++ .ref k :: h := by
  induction g with
  | nil => exact .inl ⟨[], rfl⟩
  | cons a g ih =>
    cases a with
    | ref k => exact .inr ⟨[], k, g, rfl⟩
    | char c =>
      rcases ih with ⟨s, rfl⟩ | ⟨s, k, h, rfl⟩
      · exact .inl ⟨c :: s, rfl⟩
      · exact .inr ⟨c :: s, k, h, rfl⟩

end Pattern

/-! The characters of references. -/

namespace Template.Ref

/-- The part of a reference's text that tells it from others, with the letters before. -/
def core (n : Nat) : List Char :=
  "ref_".toList ++ Nat.toDigits 10 n

theorem toList_text_append (r : Ref) (s : List Char) :
    r.text.toList ++ s = '_' :: '_' :: (core r.number ++ '_' :: '_' :: s) := by
  rw [toList_text]
  simp [core]

/-- What holds of the underscore, three letters and the digits holds of the characters of
references. -/
theorem of_mem {P : Char → Prop} (letters : ∀ c ∈ "_ref".toList, P c)
    (digits : ∀ c, c.isDigit = true → P c) {r : Ref} {c : Char} (h : c ∈ r.text.toList) : P c := by
  have digit : c ∈ Nat.toDigits 10 r.number → c.isDigit = true :=
    Nat.isDigit_of_mem_toDigits (by decide) (by decide)
  have head : ∀ c ∈ "__ref_".toList, c ∈ "_ref".toList := Text.forall_mem_of_all (by decide)
  have tail : ∀ c ∈ "__".toList, c ∈ "_ref".toList := Text.forall_mem_of_all (by decide)
  rw [toList_text] at h
  rcases List.mem_append.1 h with h | h
  · rcases List.mem_append.1 h with h | h
    · exact letters c (head c h)
    · exact digits c (digit h)
  · exact letters c (tail c h)

theorem isAlphanum_of_mem {r : Ref} {c : Char} (h : c ∈ r.text.toList) :
    c.isAlphanum = true ∨ c = '_' := by
  refine of_mem (P := fun c => c.isAlphanum = true ∨ c = '_') ?_ (fun c digit => ?_) h
  · exact Text.forall_mem_of_all (by decide)
  · exact .inl (by simp only [Char.isAlphanum, digit, Bool.or_true])

/-- The number ends where its digits do. -/
theorem core_append_injective {n m : Nat} {s t : List Char}
    (h : core n ++ '_' :: s = core m ++ '_' :: t) : n = m ∧ s = t := by
  have digits (n : Nat) (s : List Char) :
      (Nat.toDigits 10 n ++ '_' :: s).takeWhile Char.isDigit = Nat.toDigits 10 n ∧
        (Nat.toDigits 10 n ++ '_' :: s).dropWhile Char.isDigit = '_' :: s := by
    refine Markup.takeWhile_append_stop _
      (fun c => Nat.isDigit_of_mem_toDigits (by decide) (by decide)) ?_
    rintro c ⟨⟩
    rfl
  rw [core, core, List.append_assoc, List.append_assoc] at h
  have same := List.append_cancel_left h
  have numbers := congrArg (fun u => Nat.ofDigitChars 10 (u.takeWhile Char.isDigit) 0) same
  have rests := congrArg (List.dropWhile Char.isDigit) same
  simp only [(digits _ _).1, Nat.ofDigitChars_ten_toDigits] at numbers
  rw [(digits _ _).2, (digits _ _).2] at rests
  exact ⟨numbers, (List.cons.inj rests).2⟩

end Template.Ref

namespace Pattern
variable {first : Nat} {g : Pattern}

/-- Characters that no reference begins with are characters of the pattern. -/
theorem letters_of_spell {s rest : List Char} (none : '_' ∉ s) (h : spell first g = s ++ rest) :
    ∃ g', g = letters s ++ g' ∧ spell first g' = rest := by
  induction s generalizing g with
  | nil => exact ⟨g, rfl, h⟩
  | cons c s ih =>
    have ne : '_' ≠ c := fun same => none (same ▸ List.mem_cons_self)
    have later : '_' ∉ s := fun mem => none (List.mem_cons_of_mem c mem)
    cases g with
    | nil => cases h
    | cons a g =>
      cases a with
      | char d =>
        obtain ⟨rfl, more⟩ := List.cons.inj h
        obtain ⟨g', rfl, rest⟩ := ih later more
        exact ⟨g', rfl, rest⟩
      | ref k =>
        rw [spell, Ref.toList_text_append] at h
        exact absurd (List.cons.inj h).1 ne

/-- An underscore is the first of a reference or stands alone. -/
theorem underscore_of_spell {rest : List Char} (h : spell first g = '_' :: rest) :
    (∃ g', g = .char '_' :: g' ∧ spell first g' = rest) ∨
      ∃ k g', g = .ref k :: g' ∧
        '_' :: (Ref.core (first + k) ++ '_' :: '_' :: spell first g') = rest := by
  cases g with
  | nil => cases h
  | cons a g =>
    cases a with
    | char c =>
      obtain ⟨rfl, rest⟩ := List.cons.inj h
      exact .inl ⟨g, rfl, rest⟩
    | ref k =>
      rw [spell, Ref.toList_text_append] at h
      exact .inr ⟨k, g, rfl, (List.cons.inj h).2⟩

theorem core_of_spell {n : Nat} {rest : List Char} (h : spell first g = Ref.core n ++ rest) :
    letters (Ref.core n) <+: g := by
  have digit : ∀ c ∈ Nat.toDigits 10 n, c.isDigit = true := fun c =>
    Nat.isDigit_of_mem_toDigits (by decide) (by decide)
  have plain : '_' ∉ Nat.toDigits 10 n := fun mem => absurd (digit _ mem) (by decide)
  obtain ⟨d, digits, hd⟩ := List.exists_cons_of_ne_nil (Nat.toDigits_ne_nil (n := n) (b := 10))
  have parts : Ref.core n = ['r', 'e', 'f'] ++ '_' :: Nat.toDigits 10 n := rfl
  rw [parts, List.append_assoc] at h
  obtain ⟨g₁, rfl, h₁⟩ := letters_of_spell (by decide) h
  rcases underscore_of_spell h₁ with ⟨g₂, rfl, h₂⟩ | ⟨k, g₂, rfl, h₂⟩
  · obtain ⟨g₃, rfl, -⟩ := letters_of_spell plain h₂
    rw [parts]
    exact ⟨g₃, by simp [letters]⟩
  · -- A second underscore would be a digit.
    rw [hd] at h₂
    obtain ⟨rfl, -⟩ := List.cons.inj h₂
    exact absurd (digit '_' (by simp [hd])) (by decide)

end Pattern

/-- Two compilations: the numbers of the first references that they give out, and how many they
give out. -/
structure Renaming where
  old : Nat
  new : Nat
  count : Nat

namespace Renaming
variable (rn : Renaming)

/-- The numbers of the first references. -/
def Starts (first : Nat) : Prop :=
  first = rn.old ∨ first = rn.new

/-- Nothing in the text could be taken for a reference that is given out. -/
def Free (s : List Char) : Prop :=
  ∀ first k, rn.Starts first → k < rn.count → ¬ Ref.core (first + k) <:+: s

/-- A pattern with references that are given out, and with texts of one kind between them. -/
structure Over (P : List Char → Prop) (g : Pattern) : Prop where
  refs : ∀ k, .ref k ∈ g → k < rn.count
  runs : ∀ s, Pattern.letters s <:+: g → P s

/-- Two texts that are the same but for the references. -/
def Texts (P : List Char → Prop) (s t : List Char) : Prop :=
  ∃ g, rn.Over P g ∧ g.spell rn.old = s ∧ g.spell rn.new = t

/-- The same for strings. -/
def Strings (P : List Char → Prop) (s t : String) : Prop :=
  rn.Texts P s.toList t.toList

variable {rn} {P Q : List Char → Prop} {g h : Pattern} {s t s' t' : List Char}

theorem Over.of_part (valid : rn.Over P h) (inside : g <:+: h) : rn.Over P g :=
  ⟨fun k mem => valid.refs k (inside.subset mem), fun s run => valid.runs s (run.trans inside)⟩

theorem Over.mono (valid : rn.Over P g) (imp : ∀ s, P s → Q s) : rn.Over Q g :=
  ⟨valid.refs, fun s run => imp s (valid.runs s run)⟩

theorem Over.tail {a : Glyph} (valid : rn.Over P (a :: g)) : rn.Over P g :=
  valid.of_part (List.suffix_cons a g).isInfix

theorem Free.of_part {s t : List Char} (free : rn.Free t) (inside : s <:+: t) : rn.Free s :=
  fun first k starts given core => free first k starts given (core.trans inside)

/-- The part that tells a reference from others is nowhere but in references. -/
theorem Over.core_ne (valid : rn.Over rn.Free h) (inside : g <:+: h) {first k : Nat}
    (starts : rn.Starts first) (given : k < rn.count) (rest : List Char) :
    Pattern.spell first g ≠ Ref.core (first + k) ++ rest :=
  fun spelled => valid.runs _ ((Pattern.core_of_spell spelled).isInfix.trans inside) first k
    starts given List.infix_rfl

theorem Over.underscore_core_ne (valid : rn.Over rn.Free h) (inside : g <:+: h) {first k : Nat}
    (starts : rn.Starts first) (given : k < rn.count) (rest : List Char) :
    Pattern.spell first g ≠ '_' :: (Ref.core (first + k) ++ rest) := by
  intro spelled
  rcases Pattern.underscore_of_spell spelled with ⟨g', rfl, h'⟩ | ⟨j, g', rfl, h'⟩
  · exact valid.core_ne ((List.suffix_cons _ g').isInfix.trans inside) starts given rest h'
  · cases h'

/-- What is spelled as a reference is one. -/
theorem Over.ref_of_spell (valid : rn.Over rn.Free g) {first k : Nat} (starts : rn.Starts first)
    (given : k < rn.count) {rest : List Char}
    (h : Pattern.spell first g = (Ref.mk (first + k)).text.toList ++ rest) :
    ∃ g', g = .ref k :: g' ∧ Pattern.spell first g' = rest := by
  rw [Ref.toList_text_append] at h
  rcases Pattern.underscore_of_spell h with ⟨g', rfl, h'⟩ | ⟨j, g', rfl, h'⟩
  · exact absurd h' (valid.underscore_core_ne (List.suffix_cons _ g').isInfix starts given _)
  · obtain ⟨number, same⟩ := Ref.core_append_injective (List.cons.inj h').2
    obtain rfl : j = k := Nat.add_left_cancel number
    exact ⟨g', rfl, (List.cons.inj same).2⟩

/-- A pattern can be told from its spelling. By induction on the pattern. -/
theorem Over.spell_injective (valid : rn.Over rn.Free g) (valid' : rn.Over rn.Free h) {first : Nat}
    (starts : rn.Starts first) (same : Pattern.spell first g = Pattern.spell first h) : g = h := by
  induction g generalizing h with
  | nil =>
    cases h with
    | nil => rfl
    | cons a h =>
      cases a with
      | char c => cases same
      | ref k => simp [Pattern.spell, Ref.toList_text_append] at same
  | cons a g ih =>
    cases a with
    | ref k =>
      obtain ⟨h', rfl, rest⟩ :=
        valid'.ref_of_spell starts (valid.refs k List.mem_cons_self) same.symm
      rw [ih valid.tail valid'.tail rest.symm]
    | char c =>
      cases h with
      | nil => cases same
      | cons b h =>
        cases b with
        | char d =>
          obtain ⟨rfl, rest⟩ := List.cons.inj same
          rw [ih valid.tail valid'.tail rest]
        | ref k =>
          obtain ⟨g', found, -⟩ :=
            valid.ref_of_spell starts (valid'.refs k List.mem_cons_self) same
          cases found

theorem Texts.mono (h : rn.Texts P s t) (imp : ∀ u, P u → Q u) : rn.Texts Q s t := by
  obtain ⟨g, valid, rfl, rfl⟩ := h
  exact ⟨g, valid.mono imp, rfl, rfl⟩

/-- A part of the pattern. -/
theorem Over.texts (valid : rn.Over P h) (inside : g <:+: h) :
    rn.Texts P (Pattern.spell rn.old g) (Pattern.spell rn.new g) :=
  ⟨g, valid.of_part inside, rfl, rfl⟩

theorem Texts.eq_iff (h : rn.Texts rn.Free s t) (h' : rn.Texts rn.Free s' t') : s = s' ↔ t = t' := by
  obtain ⟨g, valid, rfl, rfl⟩ := h
  obtain ⟨g', valid', rfl, rfl⟩ := h'
  exact ⟨fun same => by rw [valid.spell_injective valid' (.inl rfl) same],
    fun same => by rw [valid.spell_injective valid' (.inr rfl) same]⟩

/-- Whether a text is a given one without underscores. -/
theorem Texts.eq_const (h : rn.Texts P s t) {u : List Char} (none : '_' ∉ u) : s = u ↔ t = u := by
  obtain ⟨g, valid, rfl, rfl⟩ := h
  have whole : ∀ first, Pattern.spell first g = u → g = Pattern.letters u := by
    intro first spelled
    obtain ⟨g', rfl, rest⟩ := Pattern.letters_of_spell none (spelled.trans (List.append_nil u).symm)
    cases g' with
    | nil => exact List.append_nil _
    | cons a g' =>
      cases a with
      | char c => cases rest
      | ref k => simp [Pattern.spell, Ref.toList_text_append] at rest
  refine ⟨fun same => ?_, fun same => ?_⟩
  · rw [whole _ same, Pattern.spell_letters]
  · rw [whole _ same, Pattern.spell_letters]

theorem Texts.head? (h : rn.Texts P s t) : s.head? = t.head? := by
  obtain ⟨g, valid, rfl, rfl⟩ := h
  cases g with
  | nil => rfl
  | cons a g =>
    cases a with
    | char c => rfl
    | ref k => simp [Pattern.spell, Ref.toList_text_append]

/-- A first character that no reference begins with. -/
theorem Texts.tail {c : Char} (h : rn.Texts P (c :: s) t) (ne : c ≠ '_') :
    ∃ t', t = c :: t' ∧ rn.Texts P s t' := by
  obtain ⟨g, valid, spelled, rfl⟩ := h
  cases g with
  | nil => cases spelled
  | cons a g =>
    cases a with
    | char d =>
      obtain ⟨rfl, rfl⟩ := List.cons.inj spelled
      exact ⟨_, rfl, valid.texts (List.suffix_cons _ g).isInfix⟩
    | ref k =>
      rw [Pattern.spell, Ref.toList_text_append] at spelled
      exact absurd (List.cons.inj spelled).1.symm ne

end Renaming

/-! Cuts. -/

/-- A test that comes out the same for all characters of references. -/
def Even (p : Char → Bool) : Prop :=
  ∀ c, Markup.isTagChar c = true → p c = p '_'

theorem Template.Ref.isTagChar_of_mem {r : Ref} {c : Char} (h : c ∈ r.text.toList) :
    Markup.isTagChar c = true := by
  refine of_mem (P := fun c => Markup.isTagChar c = true) ?_ (fun c digit => ?_) h
  · exact Text.forall_mem_of_all (by decide)
  · simp only [Markup.isTagChar, Char.isAlphanum, digit, Bool.or_true, Bool.true_or]

namespace Pattern
variable {first : Nat} {g : Pattern}

/-- Where a test fails first. By induction on the pattern. -/
theorem spell_span {p : Char → Bool} (even : Even p) (g : Pattern) :
    ∃ g₁ g₂, g = g₁ ++ g₂ ∧ ∀ first, (spell first g).takeWhile p = spell first g₁ ∧
      (spell first g).dropWhile p = spell first g₂ := by
  induction g with
  | nil => exact ⟨[], [], rfl, fun _ => ⟨rfl, rfl⟩⟩
  | cons a g ih =>
    obtain ⟨g₁, g₂, rfl, cut⟩ := ih
    cases a with
    | char c =>
      cases pass : p c with
      | false => exact ⟨[], _, rfl, fun first => by simp [spell, pass]⟩
      | true =>
        exact ⟨.char c :: g₁, g₂, rfl, fun first => by
          simp only [spell, List.takeWhile_cons_of_pos pass, List.dropWhile_cons_of_pos pass, cut,
            and_self]⟩
    | ref k =>
      have all : ∀ first, ∀ c ∈ (Ref.mk (first + k)).text.toList, p c = p '_' :=
        fun first c mem => even c (Ref.isTagChar_of_mem mem)
      cases pass : p '_' with
      | false =>
        exact ⟨[], _, rfl, fun first => by simp [spell, Ref.toList_text_append, pass]⟩
      | true =>
        refine ⟨.ref k :: g₁, g₂, rfl, fun first => ?_⟩
        have all : ∀ c ∈ (Ref.mk (first + k)).text.toList, p c = true :=
          fun c mem => (all first c mem).trans pass
        simp only [spell, List.takeWhile_append_of_pos all, List.dropWhile_append_of_pos all, cut,
          and_self]

/-- A text that no reference shares a character with begins both spellings or none. -/
theorem isPrefixOf_spell {u : List Char} (none : '_' ∉ u) :
    u.isPrefixOf (spell first g) = true ↔ ∃ g', g = letters u ++ g' := by
  rw [List.isPrefixOf_iff_prefix]
  constructor
  · rintro ⟨rest, spelled⟩
    obtain ⟨g', rfl, -⟩ := letters_of_spell none spelled.symm
    exact ⟨g', rfl⟩
  · rintro ⟨g', rfl⟩
    simp

end Pattern

/-- No match begins among characters that the text sought does not begin with. -/
theorem Text.cut?_skip {d : Char} {ds s : List Char} (new : d ∉ s) (t : List Char) :
    cut? (d :: ds) (s ++ t) = (cut? (d :: ds) t).map fun p => (s ++ p.1, p.2) := by
  induction s with
  | nil => simp
  | cons c s ih =>
    have ne : d ≠ c := fun same => new (same ▸ List.mem_cons_self)
    have later : d ∉ s := fun mem => new (List.mem_cons_of_mem c mem)
    rw [List.cons_append, cut?, ih later]
    cases cut? (d :: ds) t with
    | none => simp [ne]
    | some p => simp [ne]

namespace Pattern

/-- The first place of a text that has nothing of a reference. By induction on the pattern. -/
theorem spell_cut? {d : Char} {ds : List Char} (other : d.isAlphanum = false)
    (plain : '_' ∉ d :: ds) (g : Pattern) :
    (∀ first, Text.cut? (d :: ds) (spell first g) = none) ∨
      ∃ g₁ g₂, g = g₁ ++ letters (d :: ds) ++ g₂ ∧
        ∀ first, Text.cut? (d :: ds) (spell first g) = some (spell first g₁, spell first g₂) := by
  induction g with
  | nil => exact .inl fun _ => rfl
  | cons a g ih =>
    cases a with
    | char c =>
      by_cases here : ∃ g', .char c :: g = letters (d :: ds) ++ g'
      · obtain ⟨g', found⟩ := here
        refine .inr ⟨[], g', found, fun first => ?_⟩
        have starts : (d :: ds).isPrefixOf (spell first (.char c :: g)) = true :=
          (isPrefixOf_spell plain).2 ⟨g', found⟩
        have spelled := congrArg (spell first) found
        rw [spell_append, spell_letters] at spelled
        rw [spell] at starts spelled ⊢
        rw [Text.cut?, if_pos starts, spelled, List.drop_left]
        rfl
      · have apart : ∀ first, ¬ (d :: ds).isPrefixOf (c :: spell first g) = true :=
          fun first starts => here ((isPrefixOf_spell plain).1 starts)
        rcases ih with gone | ⟨g₁, g₂, rfl, cut⟩
        · exact .inl fun first => by rw [spell, Text.cut?, if_neg (apart first), gone]; rfl
        · exact .inr ⟨.char c :: g₁, g₂, rfl, fun first => by
            rw [spell, Text.cut?, if_neg (apart first), cut]; rfl⟩
    | ref k =>
      have new : ∀ first, d ∉ (Ref.mk (first + k)).text.toList := fun first mem => by
        rcases Ref.isAlphanum_of_mem mem with letter | rfl
        · rw [letter] at other
          cases other
        · exact plain List.mem_cons_self
      rcases ih with gone | ⟨g₁, g₂, rfl, cut⟩
      · exact .inl fun first => by rw [spell, Text.cut?_skip (new first), gone]; rfl
      · exact .inr ⟨.ref k :: g₁, g₂, rfl, fun first => by
          rw [spell, Text.cut?_skip (new first), cut]; rfl⟩

end Pattern

namespace Renaming
variable {rn : Renaming} {P Q : List Char → Prop} {s t : List Char}

theorem Texts.takeWhile (h : rn.Texts P s t) {p : Char → Bool} (even : Even p) :
    rn.Texts P (s.takeWhile p) (t.takeWhile p) := by
  obtain ⟨g, valid, rfl, rfl⟩ := h
  obtain ⟨g₁, g₂, rfl, cut⟩ := Pattern.spell_span even g
  rw [(cut _).1, (cut _).1]
  exact valid.texts (List.prefix_append g₁ g₂).isInfix

theorem Texts.dropWhile (h : rn.Texts P s t) {p : Char → Bool} (even : Even p) :
    rn.Texts P (s.dropWhile p) (t.dropWhile p) := by
  obtain ⟨g, valid, rfl, rfl⟩ := h
  obtain ⟨g₁, g₂, rfl, cut⟩ := Pattern.spell_span even g
  rw [(cut _).2, (cut _).2]
  exact valid.texts (List.suffix_append g₁ g₂).isInfix

/-- Two pairs of texts. -/
def Pairs (P : List Char → Prop) (p q : List Char × List Char) : Prop :=
  rn.Texts P p.1 q.1 ∧ rn.Texts P p.2 q.2

theorem Texts.cut? (h : rn.Texts P s t) {d : Char} {ds : List Char}
    (other : d.isAlphanum = false) (plain : '_' ∉ d :: ds) :
    Option.Rel (rn.Pairs P) (Text.cut? (d :: ds) s) (Text.cut? (d :: ds) t) := by
  obtain ⟨g, valid, rfl, rfl⟩ := h
  rcases Pattern.spell_cut? other plain g with gone | ⟨g₁, g₂, rfl, cut⟩
  · rw [gone, gone]
    exact .none
  · rw [cut, cut]
    refine .some ⟨valid.texts ?_, valid.texts (List.suffix_append _ g₂).isInfix⟩
    exact ⟨[], _, by rw [List.nil_append, List.append_assoc]⟩

end Renaming
end LiveMarkup
