import LiveMarkup.Proofs.Renaming
import LiveMarkup.Proofs.StartTags
import Mathlib.Data.List.Forall2
import Mathlib.Data.List.Induction

/-!
Respelling: the operations on texts do the same to both spellings of a pattern. Blanks, marks and
ampersands are no characters of references, so that references come through whole.
-/
namespace LiveMarkup

open Template (Ref)

/-- A part of a list lies on one side of an entry, or the entry belongs to it. -/
theorem infix_append_cons {α : Type} {l a b : List α} {e : α} (h : l <:+: a ++ e :: b) :
    l <:+: a ∨ l <:+: b ∨ ∃ l₁ l₂, l = l₁ ++ e :: l₂ ∧ l₁ <:+ a ∧ l₂ <+: b := by
  rcases List.infix_append_iff.1 h with left | right | ⟨l₁, l₂, rfl, left, right⟩
  · exact .inl left
  · rcases List.infix_cons_iff.1 right with here | later
    · cases l with
      | nil => exact .inl List.nil_infix
      | cons c l =>
        obtain ⟨rfl, rest⟩ := List.cons_prefix_cons.1 here
        exact .inr (.inr ⟨[], l, rfl, List.nil_suffix, rest⟩)
    · exact .inr (.inl later)
  · cases l₂ with
    | nil => exact .inl (by rw [List.append_nil]; exact left.isInfix)
    | cons c l₂ =>
      obtain ⟨rfl, rest⟩ := List.cons_prefix_cons.1 right
      exact .inr (.inr ⟨l₁, l₂, rfl, left, rest⟩)

theorem even_isBlank : Even Text.isBlank := by
  intro c tagChar
  rw [Template.not_blank_of_isTagChar tagChar]
  decide

namespace Template.Ref

theorem toLower_of_mem {r : Ref} {c : Char} (h : c ∈ r.text.toList) : c.toLower = c := by
  refine of_mem (P := fun c => c.toLower = c) ?_ (fun c digit => ?_) h
  · exact Text.forall_mem_of_all (by decide)
  · refine Markup.toLower_of_not_upper (Bool.eq_false_iff.2 fun (upper : c.isUpper = true) => ?_)
    delta Char.isUpper at upper
    simp only [Char.isDigit, Bool.and_eq_true, decide_eq_true_eq] at digit upper
    exact absurd (UInt32.le_trans upper.1 digit.2) (by decide)

theorem toList_text_ne_nil (r : Ref) : r.text.toList ≠ [] := by
  intro none
  have text := toList_text_append r []
  rw [none] at text
  cases text

theorem core_inside (n : Nat) : core n <:+: (Ref.mk n).text.toList := by
  rw [← List.append_nil (Ref.mk n).text.toList, toList_text_append]
  exact ⟨['_', '_'], ['_', '_'], by simp⟩

end Template.Ref

namespace Pattern
variable {first : Nat} {g : Pattern}

theorem spell_eq_nil : spell first g = [] ↔ g = [] := by
  cases g with
  | nil => exact ⟨fun _ => rfl, fun _ => rfl⟩
  | cons a g =>
    cases a with
    | char c => simp [spell]
    | ref k => simp [spell, Ref.toList_text_append]

/-! Blanks at the ends. -/

/-- By induction from the end of the pattern. -/
theorem spell_trimEnd (g : Pattern) :
    ∃ g₁ g₂, g = g₁ ++ g₂ ∧ ∀ first, Text.trimEnd (spell first g) = spell first g₁ := by
  induction g using List.reverseRecOn with
  | nil => exact ⟨[], [], rfl, fun _ => rfl⟩
  | append_singleton g a ih =>
    cases a with
    | char c =>
      cases blank : Text.isBlank c with
      | true =>
        obtain ⟨g₁, g₂, rfl, trimmed⟩ := ih
        refine ⟨g₁, g₂ ++ [.char c], List.append_assoc _ _ _, fun first => ?_⟩
        rw [← trimmed]
        simp [Text.trimEnd, spell, blank]
      | false => exact ⟨_, [], (List.append_nil _).symm, fun first => by
          simp [Text.trimEnd, spell, blank]⟩
    | ref k =>
      have last : Text.isBlank '_' = false := by decide
      have text : ∀ first, (Ref.mk (first + k)).text.toList =
          '_' :: '_' :: (Ref.core (first + k) ++ ['_', '_']) := fun first => by
        rw [← List.append_nil (Ref.mk (first + k)).text.toList, Ref.toList_text_append]
      exact ⟨_, [], (List.append_nil _).symm, fun first => by
        simp [Text.trimEnd, spell, text, last]⟩

/-! Words. -/

theorem wordsFrom_append {s : List Char} (solid : ∀ c ∈ s, Text.isBlank c = false)
    (word rest : List Char) :
    Text.wordsFrom word (s ++ rest) = Text.wordsFrom (s.reverse ++ word) rest := by
  induction s generalizing word with
  | nil => rfl
  | cons c s ih =>
    obtain ⟨here, solid⟩ := List.forall_mem_cons.1 solid
    rw [List.cons_append, Text.wordsFrom, here]
    simp [ih solid]

/-- By induction on the pattern; `w` is the word being read. -/
theorem spell_wordsFrom (w g : Pattern) :
    ∃ ws : List Pattern, (∀ v ∈ ws, v <:+: w ++ g) ∧
      ∀ first, Text.wordsFrom (spell first w).reverse (spell first g) = ws.map (spell first) := by
  induction g generalizing w with
  | nil =>
    by_cases none : w = []
    · exact ⟨[], fun v mem => absurd mem List.not_mem_nil,
        fun first => by simp [none, spell, Text.wordsFrom]⟩
    · refine ⟨[w], by simp, fun first => ?_⟩
      simp [spell, Text.wordsFrom, spell_eq_nil, none]
  | cons a g ih =>
    cases a with
    | char c =>
      cases blank : Text.isBlank c with
      | true =>
        obtain ⟨ws, inside, read⟩ := ih []
        have later : ∀ v ∈ ws, v <:+: w ++ .char c :: g := fun v mem =>
          (inside v mem).trans ⟨w ++ [.char c], [], by simp⟩
        by_cases none : w = []
        · exact ⟨ws, later, fun first => by
            simpa [none, spell, Text.wordsFrom, blank] using read first⟩
        · refine ⟨w :: ws, List.forall_mem_cons.2 ⟨(List.prefix_append _ _).isInfix, later⟩,
            fun first => ?_⟩
          have next := read first
          rw [spell, List.reverse_nil] at next
          simp [spell, Text.wordsFrom, blank, spell_eq_nil, none, next]
      | false =>
        obtain ⟨ws, inside, read⟩ := ih (w ++ [.char c])
        refine ⟨ws, fun v mem => by simpa using inside v mem, fun first => ?_⟩
        have next := read first
        simp only [spell_append, spell, List.reverse_append] at next
        simpa [spell, Text.wordsFrom, blank] using next
    | ref k =>
      obtain ⟨ws, inside, read⟩ := ih (w ++ [.ref k])
      refine ⟨ws, fun v mem => by simpa using inside v mem, fun first => ?_⟩
      have solid : ∀ c ∈ (Ref.mk (first + k)).text.toList, Text.isBlank c = false :=
        fun c mem => Template.not_blank_of_isTagChar (Ref.isTagChar_of_mem mem)
      have next := read first
      simp only [spell_append, spell, List.append_nil, List.reverse_append] at next
      rw [spell, wordsFrom_append solid]
      exact next

/-! Small letters. -/

/-- The symbol with a capital made small. -/
def lower : Glyph → Glyph
  | .char c => .char c.toLower
  | .ref k => .ref k

theorem letters_of_map_lower {s : List Char} (h : letters s = g.map lower) :
    ∃ u, g = letters u ∧ s = u.map Char.toLower := by
  induction g generalizing s with
  | nil => exact ⟨[], rfl, List.map_eq_nil_iff.1 h⟩
  | cons a g ih =>
    cases s with
    | nil => cases h
    | cons c s =>
      obtain ⟨here, rest⟩ := List.cons.inj h
      obtain ⟨u, rfl, rfl⟩ := ih rest
      cases a with
      | char d => cases here; exact ⟨d :: u, rfl, rfl⟩
      | ref k => cases here

theorem spell_lower (first : Nat) (g : Pattern) :
    (spell first g).map Char.toLower = spell first (g.map lower) := by
  have small : ∀ k, (Ref.mk k).text.toList.map Char.toLower = (Ref.mk k).text.toList := fun k =>
    (List.map_congr_left fun c => Ref.toLower_of_mem).trans (List.map_id _)
  induction g with
  | nil => rfl
  | cons a g ih =>
    cases a with
    | char c => exact congrArg (c.toLower :: ·) ih
    | ref k => rw [spell, List.map_append, small, ih]; rfl

/-- A text in a pattern lies on one side of a symbol, or the symbol is one of its characters. -/
theorem letters_inside {s : List Char} {a b : Pattern} {e : Glyph} (h : letters s <:+: a ++ e :: b) :
    letters s <:+: a ∨ letters s <:+: b ∨ ∃ c s₁ s₂, e = .char c ∧ s = s₁ ++ c :: s₂ ∧
      letters s₁ <:+ a ∧ letters s₂ <+: b := by
  rcases infix_append_cons h with left | right | ⟨l₁, l₂, parts, left, right⟩
  · exact .inl left
  · exact .inr (.inl right)
  · obtain ⟨s₁, t, rfl, rfl, rest⟩ := List.map_eq_append_iff.1 parts
    obtain ⟨c, s₂, rfl, rfl, rfl⟩ := List.map_eq_cons_iff.1 rest
    exact .inr (.inr ⟨c, s₁, s₂, rfl, rfl, left, right⟩)

end Pattern

/-! Character references. -/

/-- What follows a mark does not move its first place. -/
theorem Text.cut?_append_of_some {d : Char} {s before after : List Char}
    (h : cut? [d] s = some (before, after)) (t : List Char) :
    cut? [d] (s ++ t) = some (before, after ++ t) := by
  induction s generalizing before with
  | nil => cases h
  | cons c s ih =>
    rw [List.cons_append, cut?]
    rw [cut?] at h
    by_cases here : d = c
    · simp [here] at h ⊢
      simp [h]
    · simp only [List.isPrefixOf, beq_eq_false_iff_ne.2 here, Bool.false_and, Bool.false_eq_true,
        if_false, Option.map_eq_some_iff] at h ⊢
      obtain ⟨p, found, same⟩ := h
      cases same
      exact ⟨_, ih found, rfl⟩

namespace Markup

/-- A character that no character reference goes over. -/
def IsBreak (c : Char) : Prop :=
  c.isAlphanum = false ∧ c ∉ ['&', ';', '#', '+']

theorem hexDigit?_of_break {c : Char} (h : c.isAlphanum = false) : hexDigit? c = none := by
  delta Char.isAlphanum Char.isAlpha Char.isUpper Char.isLower Char.isDigit at h
  simp only [Bool.or_eq_false_iff, Bool.and_eq_false_iff, decide_eq_false_iff_not, ge_iff_le,
    UInt32.le_iff_toNat_le] at h
  have number : c.toNat = c.val.toNat := rfl
  simp only [hexDigit?, number]
  simp at h
  rw [if_neg, if_neg, if_neg]
  all_goals
    simp
    omega

theorem hexValue?_of_break {c : Char} (h : c.isAlphanum = false) {digits : List Char}
    (mem : c ∈ digits) (start : Nat) : hexValue? start digits = none := by
  induction digits generalizing start with
  | nil => cases mem
  | cons d digits ih =>
    rw [hexValue?]
    rcases List.mem_cons.1 mem with rfl | mem
    · rw [hexDigit?_of_break h]
      rfl
    · cases hexDigit? d with
      | none => rfl
      | some v => exact ih mem _

theorem named?_of_break {c : Char} (h : IsBreak c) {name : List Char} (mem : c ∈ name) :
    named? name = none := by
  obtain ⟨other, marks⟩ := h
  simp only [List.mem_cons, List.not_mem_nil, or_false, not_or] at marks
  have unsigned : ∀ {digits}, c ∈ digits → c ∈ withoutPlus digits := by
    intro digits mem
    unfold withoutPlus
    split
    · exact (List.mem_cons.1 mem).resolve_left marks.2.2.2
    · exact mem
  have hex : ∀ {digits}, c ∈ digits → hexCode? digits = none := by
    intro digits mem
    unfold hexCode?
    dsimp only
    split
    · rfl
    · exact hexValue?_of_break other (unsigned mem) 0
  have decimal : ∀ {digits}, c ∈ digits → decimalCode? digits = none := by
    intro digits mem
    have failed : (withoutPlus digits).all Char.isDigit = false := by
      refine List.all_eq_false.2 ⟨c, unsigned mem, fun digit => ?_⟩
      simp [Char.isAlphanum, digit] at other
    simp [decimalCode?, failed]
  have word : ∀ w : List Char, (∀ d ∈ w, d.isAlphanum = true) → name ≠ w := by
    rintro w letters rfl
    rw [letters c mem] at other
    cases other
  unfold named?
  split
  case h_1 digits =>
    have mem : c ∈ digits := by
      rcases List.mem_cons.1 mem with rfl | mem
      · exact absurd rfl marks.2.2.1
      · rcases List.mem_cons.1 mem with rfl | mem
        · cases other
        · exact mem
    rw [hex mem]
    rfl
  case h_2 digits =>
    have mem : c ∈ digits := by
      rcases List.mem_cons.1 mem with rfl | mem
      · exact absurd rfl marks.2.2.1
      · rcases List.mem_cons.1 mem with rfl | mem
        · cases other
        · exact mem
    rw [hex mem]
    rfl
  case h_3 digits _ _ =>
    rw [decimal ((List.mem_cons.1 mem).resolve_left marks.2.2.1)]
    rfl
  case h_4 =>
    rw [if_neg, if_neg, if_neg, if_neg, if_neg, if_neg]
    all_goals exact word _ (Text.forall_mem_of_all (by decide))

theorem decode_amp_none {s : List Char} (h : reference? s = none) :
    decode ('&' :: s) = '&' :: decode s := by
  rw [decode, if_pos rfl]
  split
  case h_1 h' =>
    rw [h] at h'
    cases h'
  case h_2 => rfl

theorem decode_amp_some {s after : List Char} {c : Char} (h : reference? s = some (c, after)) :
    decode ('&' :: s) = c :: decode after := by
  rw [decode, if_pos rfl]
  split
  case h_1 h' =>
    rw [h] at h'
    cases h'
    rfl
  case h_2 h' =>
    rw [h] at h'
    cases h'

/-- A reference that ends before a break does not see it, and none goes over one. -/
theorem reference?_append_break {c : Char} (h : IsBreak c) (s t : List Char) :
    reference? (s ++ c :: t) = (reference? s).map fun p => (p.1, p.2 ++ c :: t) := by
  cases cut : Text.cut? [';'] s with
  | some p =>
    obtain ⟨name, after⟩ := p
    rw [reference?, reference?, cut, Text.cut?_append_of_some cut (c :: t)]
    dsimp only
    split
    · rw [Option.map_map]
      rfl
    · rfl
  | none =>
    have new : ';' ∉ s ++ [c] := by
      rw [List.mem_append, List.mem_singleton]
      rintro (mem | rfl)
      · exact Text.notMem_of_cut? cut mem
      · exact h.2 (by decide)
    have valid : s ++ c :: t = (s ++ [c]) ++ t := by simp
    rw [reference?, reference?, cut, valid, Text.cut?_skip new]
    cases Text.cut? [';'] t with
    | none => rfl
    | some p =>
      have unnamed : named? (s ++ [c] ++ p.1) = none := named?_of_break h (by simp)
      simp only [Option.map_some, unnamed, Option.map_none, ite_self]

/-- What stands before a break is decoded by itself. By induction on its length. -/
theorem decode_append_break {c : Char} (h : IsBreak c) (s t : List Char) :
    decode (s ++ c :: t) = decode s ++ c :: decode t := by
  induction n : s.length using Nat.strongRecOn generalizing s with
  | ind n ih =>
    subst n
    cases s with
    | nil =>
      rw [List.nil_append, decode_cons_of_ne fun same => h.2 (same ▸ List.mem_cons_self)]
      rw [decode, List.nil_append]
    | cons d s =>
      by_cases amp : d = '&'
      · subst amp
        have found := reference?_append_break h s t
        cases ref : reference? s with
        | none =>
          rw [ref] at found
          rw [List.cons_append, decode_amp_none found, decode_amp_none ref,
            ih _ (Nat.lt_succ_self _) s rfl]
          rfl
        | some p =>
          obtain ⟨e, after⟩ := p
          rw [ref] at found
          rw [List.cons_append, decode_amp_some found, decode_amp_some ref,
            ih _ (Nat.lt_succ_of_lt (length_of_reference? ref)) after rfl]
          rfl
      · rw [List.cons_append, decode_cons_of_ne amp, decode_cons_of_ne amp,
          ih _ (Nat.lt_succ_self _) s rfl]
        rfl

theorem isBreak_underscore : IsBreak '_' := by
  constructor
  · decide
  · decide

end Markup

/-- A pattern is decoded text by text: what is decoded around references are the texts between
them. By induction on the length of the pattern. -/
theorem Pattern.spell_decode (g : Pattern) :
    ∃ h : Pattern, (∀ first, Markup.decode (spell first g) = spell first h) ∧
      (∀ k, .ref k ∈ h → .ref k ∈ g) ∧
      ∀ s, letters s <:+: h → ∃ u, letters u <:+: g ∧ s <:+: Markup.decode u := by
  induction n : g.length using Nat.strongRecOn generalizing g with
  | ind n ih =>
    subst n
    rcases letters_or_ref g with ⟨u, rfl⟩ | ⟨u, k, g, rfl⟩
    · refine ⟨letters (Markup.decode u), fun first => by rw [spell_letters, spell_letters],
        fun k mem => ?_, fun s inside => ⟨u, List.infix_rfl, ?_⟩⟩
      · obtain ⟨c, -, same⟩ := List.mem_map.1 mem
        cases same
      · obtain ⟨l, inside, same⟩ := List.infix_map_iff.1 inside
        exact letters_injective same ▸ inside
    · have shorter : g.length < (letters u ++ .ref k :: g).length := by simp; omega
      obtain ⟨h, decoded, refs, runs⟩ := ih _ shorter g rfl
      have later : ∀ {l : Pattern}, l <:+: g → l <:+: letters u ++ .ref k :: g := fun inside =>
        inside.trans ⟨letters u ++ [.ref k], [], by simp⟩
      refine ⟨letters (Markup.decode u) ++ .ref k :: h, fun first => ?_, fun j mem => ?_,
        fun s inside => ?_⟩
      · have plain : '&' ∉ (Ref.mk (first + k)).text.toList := fun mem => (Ref.plain mem).1 rfl
        obtain ⟨rest, text⟩ : ∃ rest, (Ref.mk (first + k)).text.toList = '_' :: rest :=
          ⟨_, (List.append_nil _).symm.trans (Ref.toList_text_append _ _)⟩
        have tail : '&' ∉ rest := fun mem => plain (text ▸ List.mem_cons_of_mem '_' mem)
        rw [spell_append, spell_letters, spell, text, List.cons_append,
          Markup.decode_append_break Markup.isBreak_underscore, Markup.decode_plain tail, decoded,
          spell_append, spell_letters, spell, text, List.cons_append]
      · rcases List.mem_append.1 mem with mem | mem
        · obtain ⟨c, -, same⟩ := List.mem_map.1 mem
          cases same
        · rcases List.mem_cons.1 mem with same | mem
          · exact List.mem_append_right _ (same ▸ List.mem_cons_self)
          · exact List.mem_append_right _ (List.mem_cons_of_mem _ (refs j mem))
      · rcases letters_inside inside with left | right | ⟨c, s₁, s₂, same, -⟩
        · obtain ⟨l, inside, same⟩ := List.infix_map_iff.1 left
          exact ⟨u, (List.prefix_append _ _).isInfix, letters_injective same ▸ inside⟩
        · obtain ⟨v, inside, part⟩ := runs s right
          exact ⟨v, later inside, part⟩
        · cases same

namespace Renaming
variable (rn : Renaming)

/-- Nothing in the text could be taken for a reference, nor in small letters, nor where character
references are decoded. -/
def Raw (s : List Char) : Prop :=
  rn.Free (s.map Char.toLower) ∧ rn.Free (Markup.decode s)

variable {rn} {P Q : List Char → Prop} {g h : Pattern} {s t s' t' : List Char}

theorem Raw.free (raw : rn.Raw s) : rn.Free s := by
  intro first k starts given core
  have small : (Ref.core (first + k)).map Char.toLower = Ref.core (first + k) :=
    (List.map_congr_left fun c mem =>
      Ref.toLower_of_mem ((Ref.core_inside _).subset mem)).trans (List.map_id _)
  have mapped := core.map Char.toLower
  rw [small] at mapped
  exact raw.1 first k starts given mapped

theorem Free.nil : rn.Free [] := by
  intro first k starts given core
  cases List.infix_nil.1 core

theorem Texts.lower (h : rn.Texts rn.Raw s t) :
    rn.Texts rn.Free (s.map Char.toLower) (t.map Char.toLower) := by
  obtain ⟨g, valid, rfl, rfl⟩ := h
  refine ⟨g.map Pattern.lower, ⟨fun k mem => ?_, fun s inside => ?_⟩,
    (Pattern.spell_lower _ g).symm, (Pattern.spell_lower _ g).symm⟩
  · obtain ⟨a, mem, same⟩ := List.mem_map.1 mem
    cases a with
    | char c => cases same
    | ref j => cases same; exact valid.refs _ mem
  · obtain ⟨l, run, same⟩ := List.infix_map_iff.1 inside
    obtain ⟨u, rfl, rfl⟩ := Pattern.letters_of_map_lower same
    exact (valid.runs u run).1

theorem Texts.decode (h : rn.Texts rn.Raw s t) :
    rn.Texts rn.Free (Markup.decode s) (Markup.decode t) := by
  obtain ⟨g, valid, rfl, rfl⟩ := h
  obtain ⟨h, decoded, refs, runs⟩ := Pattern.spell_decode g
  refine ⟨h, ⟨fun k mem => valid.refs k (refs k mem), fun s inside => ?_⟩, (decoded _).symm,
    (decoded _).symm⟩
  obtain ⟨u, run, part⟩ := runs s inside
  exact (valid.runs u run).2.of_part part

theorem Texts.trim (h : rn.Texts P s t) : rn.Texts P (Text.trim s) (Text.trim t) := by
  obtain ⟨g, valid, hs, ht⟩ := h.dropWhile even_isBlank
  obtain ⟨g₁, g₂, rfl, trimmed⟩ := Pattern.spell_trimEnd g
  rw [Text.trim, Text.trim, Text.trimStart, Text.trimStart, ← hs, ← ht, trimmed, trimmed]
  exact valid.texts (List.prefix_append g₁ g₂).isInfix

theorem Texts.words (h : rn.Texts P s t) :
    List.Forall₂ (rn.Texts P) (Text.wordsFrom [] s) (Text.wordsFrom [] t) := by
  obtain ⟨g, valid, rfl, rfl⟩ := h
  obtain ⟨ws, inside, read⟩ := Pattern.spell_wordsFrom [] g
  rw [show Text.wordsFrom [] (Pattern.spell rn.old g) = _ from read rn.old,
    show Text.wordsFrom [] (Pattern.spell rn.new g) = _ from read rn.new,
    List.forall₂_map_left_iff, List.forall₂_map_right_iff, List.forall₂_same]
  exact fun w mem => valid.texts (inside w mem)

end Renaming

/-! Pieces. -/

theorem Text.splitOn_of_none {u s : List Char} (h : cut? u s = none) : splitOn u s = [s] := by
  rw [splitOn]
  split
  case h_1 => rfl
  case h_2 h' =>
    rw [h] at h'
    cases h'

theorem Text.splitOn_of_some {u s before after : List Char} (nonempty : u ≠ [])
    (h : cut? u s = some (before, after)) : splitOn u s = before :: splitOn u after := by
  rw [splitOn]
  split
  case h_1 h' =>
    rw [h] at h'
    cases h'
  case h_2 h' =>
    rw [h] at h'
    cases h'
    rw [dif_neg nonempty]

namespace Renaming
variable {rn : Renaming} {P Q : List Char → Prop} {g h : Pattern} {s t u v : List Char}

/-- Where both are cut alike, the pieces are alike. By induction on the length of the first. -/
theorem pieces_of_cuts (nonempty : u ≠ []) (nonempty' : v ≠ [])
    (cut : ∀ {s t}, rn.Texts P s t → Option.Rel (rn.Pairs P) (Text.cut? u s) (Text.cut? v t))
    (h : rn.Texts P s t) : List.Forall₂ (rn.Texts P) (Text.splitOn u s) (Text.splitOn v t) := by
  induction n : s.length using Nat.strongRecOn generalizing s t with
  | ind n ih =>
    subst n
    have both := cut h
    cases hs : Text.cut? u s with
    | none =>
      cases ht : Text.cut? v t with
      | none =>
        rw [Text.splitOn_of_none hs, Text.splitOn_of_none ht]
        exact .cons h .nil
      | some q =>
        rw [hs, ht] at both
        cases both
    | some p =>
      cases ht : Text.cut? v t with
      | none =>
        rw [hs, ht] at both
        cases both
      | some q =>
        rw [hs, ht] at both
        cases both with
        | some pair =>
          have shorter : p.2.length < s.length := by
            have whole := congrArg List.length (Text.eq_append_of_cut? hs)
            have := List.length_pos_iff.2 nonempty
            simp only [List.length_append] at whole
            omega
          rw [Text.splitOn_of_some nonempty hs, Text.splitOn_of_some nonempty' ht]
          exact .cons pair.1 (ih _ shorter pair.2 rfl)

theorem Texts.pieces (h : rn.Texts P s t) {d : Char} {ds : List Char}
    (other : d.isAlphanum = false) (plain : '_' ∉ d :: ds) :
    List.Forall₂ (rn.Texts P) (Text.splitOn (d :: ds) s) (Text.splitOn (d :: ds) t) :=
  pieces_of_cuts (List.cons_ne_nil d ds) (List.cons_ne_nil d ds) (fun h => h.cut? other plain) h

end Renaming

theorem Text.cut?_prefix {u : List Char} (nonempty : u ≠ []) (t : List Char) :
    cut? u (u ++ t) = some ([], t) := by
  obtain ⟨c, v, rfl⟩ := List.exists_cons_of_ne_nil nonempty
  have starts : (c :: v).isPrefixOf (c :: (v ++ t)) = true :=
    List.isPrefixOf_iff_prefix.2 (List.prefix_append (c :: v) t)
  rw [List.cons_append, cut?, if_pos starts, ← List.cons_append, List.drop_left]

/-- A part in which a match begins nowhere. By induction on it. -/
theorem Text.cut?_pass {u s t : List Char} (apart : ∀ v, v ≠ [] → v <:+ s → ¬ u <+: v ++ t) :
    cut? u (s ++ t) = (cut? u t).map fun p => (s ++ p.1, p.2) := by
  induction s with
  | nil => simp
  | cons c s ih =>
    have here : ¬ u.isPrefixOf (c :: (s ++ t)) = true := fun starts =>
      apart (c :: s) (List.cons_ne_nil c s) List.suffix_rfl (List.isPrefixOf_iff_prefix.1 starts)
    have later := ih fun v nonempty inside =>
      apart v nonempty (inside.trans (List.suffix_cons c s))
    rw [List.cons_append, cut?, if_neg here, later, Option.map_map]
    rfl

namespace Renaming
variable {rn : Renaming} {g : Pattern} {s t : List Char}

/-- How what is left of a number with two underscores behind it begins. -/
theorem suffix_digits {digits v : List Char} (number : ∀ {c}, c ∈ digits → c.isDigit = true)
    (nonempty : v ≠ []) (h : v <:+ digits ++ ['_', '_']) :
    (∃ c w, v = c :: w ∧ c.isDigit = true) ∨ v = ['_', '_'] ∨ v = ['_'] := by
  induction digits with
  | nil =>
    rcases List.suffix_cons_iff.1 h with whole | h
    · exact .inr (.inl whole)
    · rcases List.suffix_cons_iff.1 h with half | h
      · exact .inr (.inr half)
      · exact absurd (List.suffix_nil.1 h) nonempty
  | cons d digits ih =>
    rcases List.suffix_cons_iff.1 h with whole | h
    · exact .inl ⟨d, _, whole, number List.mem_cons_self⟩
    · exact ih (fun mem => number (List.mem_cons_of_mem d mem)) h

/-- A reference begins in another one nowhere. -/
theorem Over.apart {j k first : Nat} (valid : rn.Over rn.Free (.ref j :: g)) (other : j ≠ k)
    (starts : rn.Starts first) (given : k < rn.count) {v : List Char} (nonempty : v ≠ [])
    (inside : v <:+ (Ref.mk (first + j)).text.toList) :
    ¬ (Ref.mk (first + k)).text.toList <+: v ++ Pattern.spell first g := by
  rintro ⟨rest, found⟩
  have within : g <:+: .ref j :: g := (List.suffix_cons _ g).isInfix
  rw [← List.append_nil (Ref.mk (first + j)).text.toList, Ref.toList_text_append] at inside
  have digit : ∀ {c}, c ∈ Nat.toDigits 10 (first + j) → c.isDigit = true :=
    Nat.isDigit_of_mem_toDigits (by decide) (by decide)
  have parts : Ref.core (first + j) ++ ['_', '_'] =
      'r' :: 'e' :: 'f' :: '_' :: (Nat.toDigits 10 (first + j) ++ ['_', '_']) := rfl
  rw [parts] at inside
  rcases List.suffix_cons_iff.1 inside with rfl | inside
  · -- The whole of it: the references would be the same.
    have whole : Pattern.spell first (.ref j :: g) =
        (Ref.mk (first + k)).text.toList ++ rest := by
      rw [found, Pattern.spell, Ref.toList_text_append]
      simp [Ref.core]
    obtain ⟨g', same, -⟩ := valid.ref_of_spell starts given whole
    cases same
    exact other rfl
  rw [Ref.toList_text_append] at found
  rcases List.suffix_cons_iff.1 inside with rfl | inside
  · cases found
  rcases List.suffix_cons_iff.1 inside with rfl | inside
  · cases found
  rcases List.suffix_cons_iff.1 inside with rfl | inside
  · cases found
  rcases List.suffix_cons_iff.1 inside with rfl | inside
  · cases found
  obtain ⟨d, ds, digits⟩ := List.exists_cons_of_ne_nil
    (Nat.toDigits_ne_nil (n := first + j) (b := 10))
  rcases List.suffix_cons_iff.1 inside with rfl | inside
  · -- A second underscore would be a digit.
    rw [digits] at found digit
    obtain ⟨-, same⟩ := List.cons.inj found
    obtain ⟨rfl, -⟩ := List.cons.inj same
    exact absurd (digit List.mem_cons_self) (by decide)
  rcases suffix_digits digit nonempty inside with ⟨c, w, rfl, number⟩ | rfl | rfl
  · obtain ⟨rfl, -⟩ := List.cons.inj found
    exact absurd number (by decide)
  · simp only [List.cons_append, List.nil_append, List.cons.injEq, true_and] at found
    exact valid.core_ne within starts given _ found.symm
  · simp only [List.cons_append, List.nil_append, List.cons.injEq, true_and] at found
    exact valid.underscore_core_ne within starts given _ found.symm

/-- The first place of a reference. By induction on the pattern. -/
theorem Over.spell_cut?_ref {k : Nat} (valid : rn.Over rn.Free g) (given : k < rn.count) :
    (∀ first, rn.Starts first →
        Text.cut? (Ref.mk (first + k)).text.toList (Pattern.spell first g) = none) ∨
      ∃ g₁ g₂, g = g₁ ++ .ref k :: g₂ ∧ ∀ first, rn.Starts first →
        Text.cut? (Ref.mk (first + k)).text.toList (Pattern.spell first g) =
          some (Pattern.spell first g₁, Pattern.spell first g₂) := by
  induction g with
  | nil =>
    refine .inl fun first _ => ?_
    rw [Pattern.spell, Text.cut?, ← List.append_nil (Ref.mk (first + k)).text.toList,
      Ref.toList_text_append]
    rfl
  | cons a g ih =>
    cases a with
    | char c =>
      have here : ∀ first, rn.Starts first →
          ¬ (Ref.mk (first + k)).text.toList.isPrefixOf (c :: Pattern.spell first g) = true := by
        intro first starts found
        obtain ⟨rest, found⟩ := List.isPrefixOf_iff_prefix.1 found
        have whole : Pattern.spell first (.char c :: g) =
            (Ref.mk (first + k)).text.toList ++ rest := found.symm
        obtain ⟨g', same, -⟩ := valid.ref_of_spell starts given whole
        cases same
      rcases ih valid.tail with gone | ⟨g₁, g₂, rfl, cut⟩
      · exact .inl fun first starts => by
          rw [Pattern.spell, Text.cut?, if_neg (here first starts), gone first starts]
          rfl
      · exact .inr ⟨.char c :: g₁, g₂, rfl, fun first starts => by
          rw [Pattern.spell, Text.cut?, if_neg (here first starts), cut first starts]
          rfl⟩
    | ref j =>
      by_cases same : j = k
      · subst same
        refine .inr ⟨[], g, rfl, fun first _ => ?_⟩
        exact Text.cut?_prefix (Ref.toList_text_ne_nil _) _
      · have pass : ∀ first, rn.Starts first →
            Text.cut? (Ref.mk (first + k)).text.toList (Pattern.spell first (.ref j :: g)) =
              (Text.cut? (Ref.mk (first + k)).text.toList (Pattern.spell first g)).map
                fun p => ((Ref.mk (first + j)).text.toList ++ p.1, p.2) :=
          fun first starts => Text.cut?_pass fun v nonempty inside =>
            valid.apart same starts given nonempty inside
        rcases ih valid.tail with gone | ⟨g₁, g₂, rfl, cut⟩
        · exact .inl fun first starts => by
            rw [pass first starts, gone first starts]
            rfl
        · exact .inr ⟨.ref j :: g₁, g₂, rfl, fun first starts => by
            rw [pass first starts, cut first starts]
            rfl⟩

theorem Texts.pieces_ref (h : rn.Texts rn.Free s t) {k : Nat} (given : k < rn.count) :
    List.Forall₂ (rn.Texts rn.Free) (Text.splitOn (Ref.mk (rn.old + k)).text.toList s)
      (Text.splitOn (Ref.mk (rn.new + k)).text.toList t) := by
  refine pieces_of_cuts (Ref.toList_text_ne_nil _) (Ref.toList_text_ne_nil _)
    (fun {s t} h => ?_) h
  obtain ⟨g, valid, rfl, rfl⟩ := h
  rcases valid.spell_cut?_ref given with gone | ⟨g₁, g₂, rfl, cut⟩
  · rw [gone _ (.inl rfl), gone _ (.inr rfl)]
    exact .none
  · rw [cut _ (.inl rfl), cut _ (.inr rfl)]
    exact .some ⟨valid.texts (List.prefix_append g₁ _).isInfix,
      valid.texts ⟨g₁ ++ [.ref k], [], by simp⟩⟩

/-! Joints. -/

variable {P : List Char → Prop} {h : Pattern} {s' t' : List Char} {c : Char}

theorem Over.append_ref (valid : rn.Over P g) (valid' : rn.Over P h) {k : Nat}
    (given : k < rn.count) : rn.Over P (g ++ .ref k :: h) := by
  refine ⟨fun j mem => ?_, fun s inside => ?_⟩
  · rcases List.mem_append.1 mem with mem | mem
    · exact valid.refs j mem
    · rcases List.mem_cons.1 mem with same | mem
      · cases same
        exact given
      · exact valid'.refs j mem
  · rcases Pattern.letters_inside inside with left | right | ⟨c, s₁, s₂, same, -⟩
    · exact valid.runs s left
    · exact valid'.runs s right
    · cases same

theorem Over.append_char (valid : rn.Over P g) (valid' : rn.Over P h)
    (joint : ∀ s t, P s → P t → P (s ++ c :: t)) : rn.Over P (g ++ .char c :: h) := by
  refine ⟨fun j mem => ?_, fun s inside => ?_⟩
  · rcases List.mem_append.1 mem with mem | mem
    · exact valid.refs j mem
    · rcases List.mem_cons.1 mem with same | mem
      · cases same
      · exact valid'.refs j mem
  · rcases Pattern.letters_inside inside with left | right | ⟨d, s₁, s₂, same, rfl, left, right⟩
    · exact valid.runs s left
    · exact valid'.runs s right
    · cases same
      exact joint s₁ s₂ (valid.runs s₁ left.isInfix) (valid'.runs s₂ right.isInfix)

theorem Over.letters (all : ∀ u, u <:+: s → P u) : rn.Over P (Pattern.letters s) := by
  refine ⟨fun k mem => ?_, fun u inside => ?_⟩
  · obtain ⟨c, -, same⟩ := List.mem_map.1 mem
    cases same
  · obtain ⟨l, inside, same⟩ := List.infix_map_iff.1 inside
    exact all u (Pattern.letters_injective same ▸ inside)

/-- A character that has no part in what tells references from each other. -/
theorem Free.append_cons (free : rn.Free s) (free' : rn.Free t) (other : c.isAlphanum = false)
    (mark : c ≠ '_') : rn.Free (s ++ c :: t) := by
  intro first k starts given core
  rcases infix_append_cons core with left | right | ⟨l₁, l₂, parts, -, -⟩
  · exact free first k starts given left
  · exact free' first k starts given right
  · have mem : c ∈ (Ref.mk (first + k)).text.toList :=
      (Ref.core_inside _).subset (parts ▸ by simp)
    rcases Ref.isAlphanum_of_mem mem with letter | same
    · rw [letter] at other
      cases other
    · exact mark same

theorem Raw.append_cons (raw : rn.Raw s) (raw' : rn.Raw t) (stop : Markup.IsBreak c)
    (mark : c ≠ '_') : rn.Raw (s ++ c :: t) := by
  have small : c.toLower = c := Markup.toLower_of_not_upper (Bool.eq_false_iff.2 fun upper => by
    have other : c.isAlphanum = false := stop.1
    delta Char.isAlphanum Char.isAlpha at other
    simp [upper] at other)
  refine ⟨?_, ?_⟩
  · rw [List.map_append, List.map_cons, small]
    exact raw.1.append_cons raw'.1 stop.1 mark
  · rw [Markup.decode_append_break stop]
    exact raw.2.append_cons raw'.2 stop.1 mark

theorem Texts.append_cons (h : rn.Texts rn.Free s t) (h' : rn.Texts rn.Free s' t')
    (other : c.isAlphanum = false) (mark : c ≠ '_') :
    rn.Texts rn.Free (s ++ c :: s') (t ++ c :: t') := by
  obtain ⟨g, valid, rfl, rfl⟩ := h
  obtain ⟨g', valid', rfl, rfl⟩ := h'
  refine ⟨g ++ .char c :: g', valid.append_char valid' fun s t hs ht =>
    hs.append_cons ht other mark, ?_, ?_⟩
  · rw [Pattern.spell_append, Pattern.spell]
  · rw [Pattern.spell_append, Pattern.spell]

/-- A text without references. -/
theorem Texts.plain (free : rn.Free s) : rn.Texts rn.Free s s :=
  ⟨Pattern.letters s, .letters fun _ => free.of_part, Pattern.spell_letters s,
    Pattern.spell_letters s⟩

end Renaming
end LiveMarkup
