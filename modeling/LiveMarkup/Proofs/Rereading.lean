import LiveMarkup.Proofs.Respelling

/-!
Rereading: the parser makes the same of both spellings of a pattern, if the texts between references
are raw. Tags, attributes, texts and comments come out the same but for the references.
-/
namespace LiveMarkup.Renaming

open Template (Ref)
open Markup (Unfinished Item Frame Builder Tree)

variable {rn : Renaming} {P Q : List Char → Prop} {a b a' b' : String}

/-! Strings. -/

theorem Strings.mono (h : rn.Strings P a b) (imp : ∀ u, P u → Q u) : rn.Strings Q a b :=
  Texts.mono h imp

theorem Texts.strings {s t : List Char} (h : rn.Texts P s t) :
    rn.Strings P (String.ofList s) (String.ofList t) := by
  rw [Strings, String.toList_ofList, String.toList_ofList]
  exact h

theorem Strings.eq_iff (h : rn.Strings rn.Free a b) (h' : rn.Strings rn.Free a' b') :
    a = a' ↔ b = b' := by
  rw [← String.toList_inj, ← String.toList_inj]
  exact Texts.eq_iff h h'

theorem Strings.eq_const (h : rn.Strings P a b) {u : String} (plain : '_' ∉ u.toList) :
    a = u ↔ b = u := by
  rw [← String.toList_inj, ← String.toList_inj]
  exact Texts.eq_const h plain

theorem Strings.isEmpty (h : rn.Strings P a b) : a.isEmpty = b.isEmpty := by
  rw [Bool.eq_iff_iff, String.isEmpty_iff, String.isEmpty_iff]
  exact h.eq_const (by decide)

theorem Strings.lowercase (h : rn.Strings rn.Raw a b) :
    rn.Strings rn.Free (Text.lowercase a) (Text.lowercase b) :=
  (Texts.lower h).strings

theorem Strings.beq (h : rn.Strings rn.Free a b) (h' : rn.Strings rn.Free a' b') :
    (a == a') = (b == b') := by
  rw [Bool.eq_iff_iff, beq_iff_eq, beq_iff_eq]
  exact h.eq_iff h'

/-! Entries. -/

/-- Keys are equal where those that they are related to are. -/
def Sharp {κ : Type} [BEq κ] (K : κ → κ → Prop) : Prop :=
  ∀ {k k' j j'}, K k k' → K j j' → (k == j) = (k' == j')

theorem sharp_strings : Sharp (rn.Strings rn.Free) :=
  Strings.beq

/-- Entries with related keys and related values. -/
def Entries {κ ν : Type} (K : κ → κ → Prop) (R : κ → ν → ν → Prop) (l l' : List (κ × ν)) : Prop :=
  List.Forall₂ (fun e e' => K e.1 e'.1 ∧ R e.1 e.2 e'.2) l l'

namespace Entries
variable {κ ν : Type} [BEq κ] [LawfulBEq κ] {K : κ → κ → Prop} {R R' : κ → ν → ν → Prop}
  {l l' : List (κ × ν)} {k k' : κ}

omit [BEq κ] [LawfulBEq κ] in
theorem mono (h : Entries K R l l') (imp : ∀ k v v', R k v v' → R' k v v') : Entries K R' l l' :=
  List.Forall₂.imp (fun _ _ both => ⟨both.1, imp _ _ _ both.2⟩) h

theorem find? (h : Entries K R l l') (sharp : Sharp K) (hk : K k k') :
    Option.Rel (R k) (Ordered.find? k l) (Ordered.find? k' l') := by
  induction h with
  | nil => exact .none
  | @cons e e' l l' here _ ih =>
    have same := sharp here.1 hk
    rw [Ordered.find?, Ordered.find?, ← same]
    cases sought : e.1 == k with
    | true => exact .some (eq_of_beq sought ▸ here.2)
    | false => exact ih

theorem put (h : Entries K R l l') (sharp : Sharp K) (hk : K k k') {v v' : ν} (hv : R k v v') :
    Entries K R (Ordered.put k v l) (Ordered.put k' v' l') := by
  induction h with
  | nil => exact .cons ⟨hk, hv⟩ .nil
  | @cons e e' l l' here rest ih =>
    have same := sharp here.1 hk
    rw [Ordered.put, Ordered.put, ← same]
    cases sought : e.1 == k with
    | true => exact .cons ⟨here.1, eq_of_beq sought ▸ hv⟩ rest
    | false => exact .cons here ih

omit [LawfulBEq κ] in
theorem erase (h : Entries K R l l') (sharp : Sharp K) (hk : K k k') :
    Entries K R (l.filter fun e => !(e.1 == k)) (l'.filter fun e => !(e.1 == k')) := by
  refine List.rel_filter (fun e e' both => ?_) h
  dsimp only
  rw [sharp both.1 hk]

end Entries

/-! Attributes. -/

variable (rn) in
/-- Attributes that are the same but for the references. Their values are texts of a kind that the
name decides. -/
def Attributes (P : String → List Char → Prop) (a b : Markup.Attributes) : Prop :=
  Entries (rn.Strings rn.Free) (fun name => rn.Strings (P name)) a.entries b.entries

namespace Attributes
variable {P P' : String → List Char → Prop} {a b : Markup.Attributes} {k k' v v' : String}

theorem empty : rn.Attributes P .empty .empty :=
  List.Forall₂.nil

theorem value? (h : rn.Attributes P a b) (hk : rn.Strings rn.Raw k k') :
    Option.Rel (rn.Strings (P (Text.lowercase k))) (a.value? k) (b.value? k') :=
  Entries.find? h sharp_strings hk.lowercase

theorem has (h : rn.Attributes P a b) (hk : rn.Strings rn.Raw k k') : a.has k = b.has k' := by
  have both := h.value? hk
  unfold Markup.Attributes.has
  generalize a.value? k = u, b.value? k' = v at both
  cases both with
  | none => rfl
  | some _ => rfl

theorem set (h : rn.Attributes P a b) (hk : rn.Strings rn.Raw k k')
    (hv : rn.Strings (P (Text.lowercase k)) v v') : rn.Attributes P (a.set k v) (b.set k' v') :=
  Entries.put h sharp_strings hk.lowercase hv

theorem remove (h : rn.Attributes P a b) (hk : rn.Strings rn.Raw k k') :
    rn.Attributes P (a.remove k) (b.remove k') :=
  Entries.erase h sharp_strings hk.lowercase

end Attributes

/-! The parts of tags. -/

theorem even_isTagChar : Even Markup.isTagChar := by
  intro c tagChar
  rw [tagChar]
  decide

/-- A test that lets pass what is neither blank nor one of some marks. -/
theorem even_of_marks {p : Char → Bool} (marks : List Char)
    (pass : ∀ c, Text.isBlank c = false → c ∉ marks → p c = true)
    (others : ∀ d ∈ marks, Markup.isTagChar d = false) : Even p := by
  have all : ∀ c, Markup.isTagChar c = true → p c = true := by
    intro c tagChar
    refine pass c (Template.not_blank_of_isTagChar tagChar) fun mem => ?_
    rw [others c mem] at tagChar
    cases tagChar
  intro c tagChar
  rw [all c tagChar, all '_' (by decide)]

theorem even_isAttributeChar : Even Markup.isAttributeChar := by
  refine even_of_marks ['=', '>', '/', '\x22', '\x27'] (fun c solid other => ?_)
    (Text.forall_mem_of_all (by decide))
  simp only [List.mem_cons, List.not_mem_nil, or_false, not_or] at other
  simp [Markup.isAttributeChar, solid, other]

variable {s t : List Char}

theorem Texts.readUntil (h : rn.Texts P s t) {d : Char} {ds : List Char}
    (other : d.isAlphanum = false) (plain : '_' ∉ d :: ds) {within : Unfinished}
    {r : List Char × List Char} (read : Markup.readUntil (d :: ds) within s = .ok r) :
    ∃ r', Markup.readUntil (d :: ds) within t = .ok r' ∧ rn.Pairs P r r' := by
  have both := h.cut? other plain
  unfold Markup.readUntil at read ⊢
  generalize Text.cut? (d :: ds) s = u, Text.cut? (d :: ds) t = v at read both
  cases both with
  | none => cases read
  | some pair =>
    cases read
    exact ⟨_, rfl, pair⟩

theorem Texts.ne_cons (h : rn.Texts P s t) {c : Char} (other : ∀ rest, s ≠ c :: rest) :
    ∀ rest, t ≠ c :: rest := by
  rintro rest rfl
  obtain ⟨more, same⟩ := List.head?_eq_some_iff.1 h.head?
  exact other more same

theorem Texts.readValue (h : rn.Texts P s t) {r : List Char × List Char}
    (read : Markup.readValue s = .ok r) :
    ∃ r', Markup.readValue t = .ok r' ∧ rn.Pairs P r r' := by
  unfold Markup.readValue at read
  split at read
  case h_1 rest =>
    obtain ⟨t', rfl, rest⟩ := h.tail (by decide)
    exact rest.readUntil (by decide) (by decide) read
  case h_2 rest =>
    obtain ⟨t', rfl, rest⟩ := h.tail (by decide)
    exact rest.readUntil (by decide) (by decide) read
  case h_3 double single =>
    have even : Even fun c => !Text.isBlank c && c != '>' :=
      even_of_marks ['>'] (fun c solid other => by simpa [solid] using other)
        (Text.forall_mem_of_all (by decide))
    cases read
    refine ⟨(t.takeWhile fun c => !Text.isBlank c && c != '>',
      t.dropWhile fun c => !Text.isBlank c && c != '>'), ?_, h.takeWhile even, h.dropWhile even⟩
    unfold Markup.readValue
    split
    case h_1 rest => exact absurd rfl (h.ne_cons double rest)
    case h_2 rest => exact absurd rfl (h.ne_cons single rest)
    case h_3 => rfl

theorem Texts.trimStart (h : rn.Texts P s t) : rn.Texts P (Text.trimStart s) (Text.trimStart t) :=
  h.dropWhile even_isBlank

theorem Texts.readAssigned (h : rn.Texts rn.Raw s t) {r : String × List Char}
    (read : Markup.readAssigned s = .ok r) :
    ∃ r', Markup.readAssigned t = .ok r' ∧ rn.Strings rn.Free r.1 r'.1 ∧
      rn.Texts rn.Raw r.2 r'.2 := by
  have trimmed := h.trimStart
  unfold Markup.readAssigned at read ⊢
  split at read
  case h_1 rest heq =>
    rw [heq] at trimmed
    obtain ⟨t', same, rest⟩ := trimmed.tail (by decide)
    rw [same]
    split at read
    case h_2 => cases read
    case h_1 raw after value =>
      cases read
      obtain ⟨r', value', raws, afters⟩ := rest.trimStart.readValue value
      simp only [value']
      exact ⟨_, rfl, raws.decode.strings, afters⟩
  case h_2 other =>
    cases read
    split
    case h_1 rest heq => exact absurd heq (trimmed.ne_cons other rest)
    case h_2 => exact ⟨_, rfl, Texts.plain .nil, trimmed⟩

theorem Texts.readAttributes {found found' : Markup.Attributes} (h : rn.Texts rn.Raw s t)
    (hf : rn.Attributes (fun _ => rn.Free) found found') {r : Markup.Attributes × Bool × List Char}
    (read : Markup.readAttributes found s = .ok r) :
    ∃ r', Markup.readAttributes found' t = .ok r' ∧
      rn.Attributes (fun _ => rn.Free) r.1 r'.1 ∧ r.2.1 = r'.2.1 ∧
        rn.Texts rn.Raw r.2.2 r'.2.2 := by
  fun_induction Markup.readAttributes found s generalizing found' t with
  | case1 => cases read
  | case2 found s rest heq =>
    cases read
    have trimmed := h.trimStart
    rw [heq] at trimmed
    obtain ⟨t', same, trimmed⟩ := trimmed.tail (by decide)
    obtain ⟨t', rfl, rest⟩ := trimmed.tail (by decide)
    exact ⟨_, Markup.readAttributes_selfClosing found' same, hf, rfl, rest⟩
  | case3 found s rest heq =>
    cases read
    have trimmed := h.trimStart
    rw [heq] at trimmed
    obtain ⟨t', same, rest⟩ := trimmed.tail (by decide)
    exact ⟨_, Markup.readAttributes_close found' same, hf, rfl, rest⟩
  | case4 found s c rest slash close heq hlt named name value after assigned shorter =>
    rename_i ih
    have trimmed := h.trimStart
    rw [heq] at trimmed
    have names := trimmed.takeWhile even_isAttributeChar
    have tails := trimmed.dropWhile even_isAttributeChar
    rw [List.dropWhile_cons_of_pos named] at tails
    obtain ⟨more, starts⟩ := List.head?_eq_some_iff.1 (trimmed.head?.symm.trans rfl)
    obtain ⟨⟨value', after'⟩, assigned', values, afters⟩ := tails.readAssigned assigned
    have all := names.strings.lowercase
    have next : rn.Attributes (fun _ => rn.Free)
        (if found.has name then found else found.set name value)
        (if found'.has (String.ofList ((Text.trimStart t).takeWhile Markup.isAttributeChar)) then
          found' else found'.set
            (String.ofList ((Text.trimStart t).takeWhile Markup.isAttributeChar)) value') := by
      rw [← hf.has names.strings]
      split
      · exact hf
      · exact hf.set names.strings values
    obtain ⟨r', read', rest⟩ := ih afters next read
    refine ⟨r', ?_, rest⟩
    refine (Markup.readAttributes_named ((Text.trimStart t).dropWhile Markup.isAttributeChar)
      found' List.takeWhile_append_dropWhile.symm ?_ ?_ ?_ assigned').trans read'
    · rw [starts, List.takeWhile_cons_of_pos named]
      exact List.cons_ne_nil _ _
    · exact List.all_eq_true.1 List.all_takeWhile
    · intro d head
      have := List.head?_dropWhile_not Markup.isAttributeChar (Text.trimStart t)
      rw [head] at this
      simpa using this
  | case5 => cases read
  | case6 found s c rest slash close heq hlt other shorter =>
    rename_i ih
    have trimmed := h.trimStart
    rw [heq] at trimmed
    have mark : c ≠ '_' := by
      rintro rfl
      exact other (by decide)
    obtain ⟨t', same, rests⟩ := trimmed.tail mark
    obtain ⟨r', read', rest⟩ := ih rests hf read
    refine ⟨r', ?_, rest⟩
    rw [Markup.readAttributes_skip found' same close
      (fun isSlash => rests.ne_cons fun more same => slash more isSlash same)
      (Bool.eq_false_iff.2 other)]
    exact read'

/-! Items. -/

/-- The end tag is sought in small letters, and the text cut where it is found. -/
theorem Texts.readRaw (h : rn.Texts P s t) {tag : String} (plain : '_' ∉ tag.toList)
    {r : List Char × List Char} (read : Markup.readRaw tag s = .ok r) :
    ∃ r', Markup.readRaw tag t = .ok r' ∧ rn.Pairs P r r' := by
  obtain ⟨g, valid, rfl, rfl⟩ := h
  have plain : '_' ∉ '<' :: '/' :: tag.toList := by simpa using plain
  unfold Markup.readRaw at read ⊢
  rw [Pattern.spell_lower] at read ⊢
  rcases Pattern.spell_cut? (by decide) plain (g.map Pattern.lower) with gone | ⟨g₁, g₂, parts, cut⟩
  · rw [gone] at read
    cases read
  · rw [List.append_assoc] at parts
    obtain ⟨text, after, rfl, rfl, -⟩ := List.map_eq_append_iff.1 parts
    have length : ∀ first, (Pattern.spell first (text.map Pattern.lower)).length =
        (Pattern.spell first text).length := fun first => by
      rw [← Pattern.spell_lower, List.length_map]
    rw [cut] at read ⊢
    simp only [length, Pattern.spell_append, List.drop_left, List.take_left] at read ⊢
    have rest : rn.Texts P (Pattern.spell rn.old after) (Pattern.spell rn.new after) :=
      valid.texts (List.suffix_append text after).isInfix
    split at read
    case h_2 => cases read
    case h_1 ended =>
      cases read
      obtain ⟨r', ended', -, afters⟩ := rest.readUntil (by decide) (by decide) ended
      simp only [ended']
      exact ⟨_, rfl, valid.texts (List.prefix_append text after).isInfix, afters⟩

variable (rn) in
/-- Items that are the same but for the references. -/
inductive Items : Item → Item → Prop
  | text {a b : String} (data : rn.Strings (fun _ => True) a b) : Items (.text a) (.text b)
  | comment {a b : String} (data : rn.Strings (fun _ => True) a b) : Items (.comment a) (.comment b)
  | declaration : Items .declaration .declaration
  | opening {tag tag' : String} {a b : Markup.Attributes} (tags : rn.Strings rn.Free tag tag')
    (attributes : rn.Attributes (fun _ => rn.Free) a b) : Items (.opening tag a) (.opening tag' b)
  | closed {tag tag' content content' : String} {a b : Markup.Attributes}
    (tags : rn.Strings rn.Free tag tag') (attributes : rn.Attributes (fun _ => rn.Free) a b)
    (contents : rn.Strings (fun _ => True) content content') :
    Items (.closed tag a content) (.closed tag' b content')
  | ending {tag tag' : String} (tags : rn.Strings rn.Free tag tag') :
    Items (.ending tag) (.ending tag')

/-- Whether a tag is one of some names without underscores. -/
theorem Strings.mem_iff (h : rn.Strings P a b) {l : List String}
    (plain : ∀ u ∈ l, '_' ∉ u.toList) : l.contains a = l.contains b := by
  rw [Bool.eq_iff_iff, List.contains_iff_mem, List.contains_iff_mem]
  constructor
  · intro mem
    rwa [(h.eq_const (plain a mem)).1 rfl]
  · intro mem
    rwa [(h.eq_const (plain b mem)).2 rfl]

theorem Strings.isVoid (h : rn.Strings P a b) : Markup.isVoid a = Markup.isVoid b :=
  h.mem_iff (by decide)

theorem Strings.isRaw (h : rn.Strings P a b) : Markup.isRaw a = Markup.isRaw b :=
  h.mem_iff (by decide)

/-- Tags of raw text have no references. -/
theorem Strings.eq_of_isRaw (h : rn.Strings P a b) (raw : Markup.isRaw a = true) :
    b = a ∧ '_' ∉ a.toList := by
  have mem : a ∈ Markup.rawTags := by simpa [Markup.isRaw] using raw
  have plain : '_' ∉ a.toList := by
    have all : ∀ u ∈ Markup.rawTags, '_' ∉ u.toList := by decide
    exact all a mem
  exact ⟨(h.eq_const plain).1 rfl, plain⟩

/-- Two items, each with what comes after it. -/
def ItemAndRest (rn : Renaming) (r r' : Item × List Char) : Prop :=
  rn.Items r.1 r'.1 ∧ rn.Texts rn.Raw r.2 r'.2

theorem Texts.any (h : rn.Texts P s t) :
    rn.Strings (fun _ => True) (String.ofList s) (String.ofList t) :=
  (h.mono fun _ _ => trivial).strings

theorem Texts.readElement (h : rn.Texts rn.Raw s t) {r : Item × List Char}
    (read : Markup.readElement s = .ok r) :
    ∃ r', Markup.readElement t = .ok r' ∧ rn.ItemAndRest r r' := by
  have tags := (h.takeWhile even_isTagChar).strings.lowercase
  unfold Markup.readElement at read ⊢
  dsimp only at read ⊢
  split at read
  case h_1 => cases read
  case h_2 attributes selfClosing after found =>
    obtain ⟨⟨attributes', selfClosing', after'⟩, found', attrs, same, afters⟩ :=
      (h.dropWhile even_isTagChar).readAttributes .empty found
    dsimp only at same attrs afters
    subst same
    simp only [found', ← tags.isVoid, ← tags.isRaw]
    split at read
    case isTrue closes =>
      cases read
      rw [if_pos closes]
      exact ⟨_, rfl, .closed tags attrs (Texts.mono (.plain .nil) fun _ _ => trivial), afters⟩
    case isFalse opens =>
      rw [if_neg opens]
      split at read
      case isTrue raw =>
        obtain ⟨same, plain⟩ := tags.eq_of_isRaw raw
        split at read
        case h_2 => cases read
        case h_1 text rest readRaw =>
          cases read
          obtain ⟨⟨text', rest'⟩, readRaw', texts, rests⟩ := afters.readRaw plain readRaw
          rw [if_pos raw, same, readRaw']
          refine ⟨_, rfl, .closed ?_ attrs texts.any, rests⟩
          rw [same] at tags
          exact tags
      case isFalse normal =>
        cases read
        rw [if_neg normal]
        exact ⟨_, rfl, .opening tags attrs, afters⟩

theorem Texts.readEnding (h : rn.Texts rn.Raw s t) {r : Item × List Char}
    (read : Markup.readEnding s = .ok r) :
    ∃ r', Markup.readEnding t = .ok r' ∧ rn.ItemAndRest r r' := by
  have tags := (h.takeWhile even_isTagChar).strings.lowercase
  unfold Markup.readEnding at read ⊢
  dsimp only at read ⊢
  split at read
  case h_2 => cases read
  case h_1 ended =>
    cases read
    obtain ⟨r', ended', -, afters⟩ :=
      (h.dropWhile even_isTagChar).readUntil (by decide) (by decide) ended
    simp only [ended']
    exact ⟨_, rfl, .ending tags, afters⟩

theorem opensMarkup_of_ne {c : Char} (other : c ≠ '<') (s : List Char) :
    Markup.opensMarkup (c :: s) = false := by
  unfold Markup.opensMarkup
  split
  case h_1 heq => exact absurd (List.cons.inj heq).1 other
  case h_2 => rfl

/-- Where markup may open is told by the first two characters. -/
theorem opensMarkup_head (c : Char) {s t : List Char} (h : s.head? = t.head?) :
    Markup.opensMarkup (c :: s) = Markup.opensMarkup (c :: t) := by
  by_cases lt : c = '<'
  · subst lt
    cases s with
    | nil =>
      cases t with
      | nil => rfl
      | cons d t => cases h
    | cons d s =>
      cases t with
      | nil => cases h
      | cons e t =>
        cases h
        rfl
  · rw [opensMarkup_of_ne lt, opensMarkup_of_ne lt]

theorem spanText_append {u : List Char} (plain : '<' ∉ u) (s : List Char) :
    Markup.spanText (u ++ s) = (u ++ (Markup.spanText s).1, (Markup.spanText s).2) := by
  induction u with
  | nil => rfl
  | cons c u ih =>
    have other : c ≠ '<' := fun same => plain (same ▸ List.mem_cons_self)
    have later : '<' ∉ u := fun mem => plain (List.mem_cons_of_mem c mem)
    rw [List.cons_append, Markup.spanText, opensMarkup_of_ne other, ih later]
    rfl

theorem head?_spell (first : Nat) (g : Pattern) :
    (Pattern.spell first g).head? = (Pattern.spell 0 g).head? := by
  cases g with
  | nil => rfl
  | cons a g =>
    cases a with
    | char c => rfl
    | ref k => rw [Pattern.spell, Pattern.spell, Ref.toList_text_append, Ref.toList_text_append]; rfl

/-- By induction on the pattern. -/
theorem spell_spanText (g : Pattern) :
    ∃ g₁ g₂, g = g₁ ++ g₂ ∧ ∀ first, Markup.spanText (Pattern.spell first g) =
      (Pattern.spell first g₁, Pattern.spell first g₂) := by
  induction g with
  | nil => exact ⟨[], [], rfl, fun _ => rfl⟩
  | cons a g ih =>
    obtain ⟨g₁, g₂, rfl, cut⟩ := ih
    cases a with
    | char c =>
      have same := fun first => opensMarkup_head c (head?_spell first (g₁ ++ g₂))
      cases opens : Markup.opensMarkup (c :: Pattern.spell 0 (g₁ ++ g₂)) with
      | true =>
        refine ⟨[], _, rfl, fun first => ?_⟩
        change Markup.spanText (c :: Pattern.spell first (g₁ ++ g₂)) = _
        rw [Markup.spanText, same, opens]
        rfl
      | false =>
        exact ⟨.char c :: g₁, g₂, rfl, fun first => by
          rw [Pattern.spell, Markup.spanText, same, opens, cut]
          rfl⟩
    | ref k =>
      have plain : ∀ first, '<' ∉ (Ref.mk (first + k)).text.toList := fun first mem => by
        have := Ref.isTagChar_of_mem mem
        exact absurd this (by decide)
      exact ⟨.ref k :: g₁, g₂, rfl, fun first => by
        rw [Pattern.spell, spanText_append (plain first), cut]
        rfl⟩

/-- The first character is text whatever it is. Only one that may open markup stands apart from the
others. -/
theorem Texts.readText {c : Char} (h : rn.Texts rn.Raw (c :: s) (c :: t)) :
    rn.ItemAndRest (Markup.readText c s) (Markup.readText c t) := by
  have spans : rn.Texts rn.Raw (c :: (Markup.spanText s).1) (c :: (Markup.spanText t).1) ∧
      rn.Texts rn.Raw (Markup.spanText s).2 (Markup.spanText t).2 := by
    by_cases lt : c = '<'
    · subst lt
      obtain ⟨g, valid, hs, ht⟩ := h
      cases g with
      | nil => cases hs
      | cons a g =>
        cases a with
        | ref k =>
          rw [Pattern.spell, Ref.toList_text_append] at hs
          cases hs
        | char d =>
          obtain ⟨rfl, rfl⟩ := List.cons.inj hs
          obtain ⟨-, rfl⟩ := List.cons.inj ht
          obtain ⟨g₁, g₂, rfl, cut⟩ := spell_spanText g
          rw [cut, cut]
          exact ⟨⟨.char '<' :: g₁, valid.of_part ⟨[], g₂, rfl⟩, rfl, rfl⟩,
            valid.texts ⟨.char '<' :: g₁, [], by simp⟩⟩
    · have through : ∀ u, Markup.spanText (c :: u) =
          (c :: (Markup.spanText u).1, (Markup.spanText u).2) := fun u => by
        rw [Markup.spanText, opensMarkup_of_ne lt]
        rfl
      obtain ⟨g, valid, hs, ht⟩ := h
      obtain ⟨g₁, g₂, rfl, cut⟩ := spell_spanText g
      have here := (congrArg Markup.spanText hs).symm.trans (cut rn.old)
      have there := (congrArg Markup.spanText ht).symm.trans (cut rn.new)
      rw [through] at here there
      obtain ⟨text, rest⟩ := Prod.mk.inj here
      obtain ⟨text', rest'⟩ := Prod.mk.inj there
      rw [text, rest, text', rest']
      exact ⟨valid.texts (List.prefix_append g₁ g₂).isInfix,
        valid.texts (List.suffix_append g₁ g₂).isInfix⟩
  exact ⟨.text spans.1.decode.any, spans.2⟩

theorem Texts.prefix_iff (h : rn.Texts P s t) {u : List Char} (plain : '_' ∉ u) :
    u <+: s ↔ u <+: t := by
  obtain ⟨g, valid, rfl, rfl⟩ := h
  rw [← List.isPrefixOf_iff_prefix, ← List.isPrefixOf_iff_prefix, Pattern.isPrefixOf_spell plain,
    Pattern.isPrefixOf_spell plain]

theorem ok_of_map {ε α β : Type} {f : α → β} {x : Except ε α} {b : β} (h : x.map f = .ok b) :
    ∃ a, x = .ok a ∧ f a = b := by
  cases x with
  | error e => cases h
  | ok a =>
    cases h
    exact ⟨a, rfl, rfl⟩

theorem Texts.eq_nil (h : rn.Texts P [] t) : t = [] :=
  (h.eq_const (u := []) (by decide)).1 rfl

/-- By cases on what follows a `<`. -/
theorem Texts.readItem {c : Char} (h : rn.Texts rn.Raw (c :: s) (c :: t)) {r : Item × List Char}
    (read : Markup.readItem c s = .ok r) :
    ∃ r', Markup.readItem c t = .ok r' ∧ rn.ItemAndRest r r' := by
  by_cases lt : c = '<'
  · subst lt
    obtain ⟨t', same, rest⟩ := h.tail (by decide)
    obtain rfl := (List.cons.inj same).2
    rw [Markup.readItem.eq_def, if_pos rfl] at read
    split at read
    case h_1 body =>
      obtain ⟨_, rfl, rest₁⟩ := rest.tail (by decide)
      obtain ⟨_, rfl, rest₂⟩ := rest₁.tail (by decide)
      obtain ⟨_, rfl, rest₃⟩ := rest₂.tail (by decide)
      obtain ⟨⟨data, after⟩, found, rfl⟩ := ok_of_map read
      obtain ⟨r', found', datas, afters⟩ := rest₃.readUntil (by decide) (by decide) found
      refine ⟨(.comment (String.ofList r'.1), r'.2), ?_, .comment datas.any, afters⟩
      simp only [Markup.readItem, if_pos, found']
      rfl
    case h_2 d body =>
      obtain ⟨t₁, rfl, rest₁⟩ := rest.tail (by decide)
      obtain ⟨t₂, rfl⟩ := List.head?_eq_some_iff.1 (rest₁.head?.symm.trans rfl)
      simp only [Markup.readItem, if_pos]
      split at read
      case isTrue start =>
        rw [if_pos start]
        exact rest₁.readEnding read
      case isFalse other =>
        cases read
        rw [if_neg other]
        exact ⟨_, rfl, h.readText⟩
    case h_3 body other =>
      obtain ⟨t₁, rfl, rest₁⟩ := rest.tail (by decide)
      obtain ⟨⟨data, after⟩, found, rfl⟩ := ok_of_map read
      obtain ⟨r', found', datas, afters⟩ := rest₁.readUntil (by decide) (by decide) found
      rw [Markup.readItem.eq_def, if_pos rfl]
      split
      case h_1 body' heq =>
        obtain rfl := (List.cons.inj heq).2
        obtain ⟨more, rfl⟩ := (rest₁.prefix_iff (u := ['-', '-']) (by decide)).2 ⟨body', rfl⟩
        exact absurd rfl (other more)
      case h_2 heq => cases heq
      case h_3 heq =>
        obtain rfl := (List.cons.inj heq).2
        rw [found']
        exact ⟨_, rfl, .declaration, afters⟩
      case h_4 noDeclaration heq => exact (noDeclaration (List.cons.inj heq).1.symm).elim
      case h_5 heq => cases heq
    case h_4 d body noComment noEnding noDeclaration =>
      obtain ⟨t₁, rfl⟩ := List.head?_eq_some_iff.1 (rest.head?.symm.trans rfl)
      rw [Markup.readItem.eq_def, if_pos rfl]
      split
      case h_1 heq =>
        obtain rfl := (List.cons.inj heq).1
        exact (noDeclaration rfl).elim
      case h_2 e more heq =>
        obtain ⟨rfl, rfl⟩ := List.cons.inj heq
        obtain ⟨_, same, inner⟩ := rest.tail (by decide)
        obtain rfl := (List.cons.inj same).2
        cases body with
        | nil => cases inner.eq_nil
        | cons e body => exact (noEnding e body rfl rfl).elim
      case h_3 heq =>
        obtain rfl := (List.cons.inj heq).1
        exact (noDeclaration rfl).elim
      case h_4 heq =>
        obtain ⟨rfl, rfl⟩ := List.cons.inj heq
        split at read
        case isTrue start =>
          rw [if_pos start]
          exact rest.readElement read
        case isFalse other =>
          cases read
          rw [if_neg other]
          exact ⟨_, rfl, h.readText⟩
      case h_5 heq => cases heq
    case h_5 =>
      obtain rfl := rest.eq_nil
      cases read
      exact ⟨_, rfl, h.readText⟩
  · rw [Markup.readItem.eq_def, if_neg lt] at read ⊢
    cases read
    exact ⟨_, rfl, h.readText⟩

/-- By induction on the length of the input. -/
theorem Texts.items (h : rn.Texts rn.Raw s t) {l : List Item} (read : Markup.items s = .ok l) :
    ∃ l', Markup.items t = .ok l' ∧ List.Forall₂ rn.Items l l' := by
  induction n : s.length using Nat.strongRecOn generalizing s t l with
  | ind n ih =>
    subst n
    cases s with
    | nil =>
      obtain rfl := h.eq_nil
      rw [Markup.items] at read ⊢
      cases read
      exact ⟨[], rfl, .nil⟩
    | cons c s =>
      obtain ⟨t', rfl⟩ := List.head?_eq_some_iff.1 (h.head?.symm.trans rfl)
      rw [Markup.items] at read ⊢
      split at read
      case h_1 => cases read
      case h_2 item after found =>
        obtain ⟨⟨item', after'⟩, found', items, afters⟩ := h.readItem found
        split at read
        case h_1 => cases read
        case h_2 more rest =>
          cases read
          obtain ⟨l', rest', mores⟩ := ih _ (Markup.length_of_readItem found) afters rest rfl
          split
          case h_1 e failed =>
            rw [found'] at failed
            cases failed
          case h_2 item₂ after₂ found₂ =>
            rw [found'] at found₂
            cases found₂
            rw [rest']
            exact ⟨_, rfl, .cons items mores⟩

/-! Fragments. -/

variable (rn) in
/-- Trees that are the same but for the references. The values of attributes are texts of a kind that
the name decides. -/
inductive Trees (P : String → List Char → Prop) : List Tree → List Tree → Prop
  | nil : Trees P [] []
  | element {tag tag' : String} {a b : Markup.Attributes} {children children' rest rest' : List Tree}
    (tags : rn.Strings rn.Free tag tag') (attributes : rn.Attributes P a b)
    (inside : Trees P children children') (beside : Trees P rest rest') :
    Trees P (.element tag a children :: rest) (.element tag' b children' :: rest')
  | text {a b : String} {rest rest' : List Tree} (data : rn.Strings (fun _ => True) a b)
    (beside : Trees P rest rest') : Trees P (.text a :: rest) (.text b :: rest')
  | comment {a b : String} {rest rest' : List Tree} (data : rn.Strings (fun _ => True) a b)
    (beside : Trees P rest rest') : Trees P (.comment a :: rest) (.comment b :: rest')

variable {K : String → List Char → Prop} {l l' m m' : List Tree}

theorem Trees.append (h : rn.Trees K l l') (h' : rn.Trees K m m') :
    rn.Trees K (l ++ m) (l' ++ m') := by
  induction h with
  | nil => exact h'
  | element tags attributes inside _ _ ih => exact .element tags attributes inside ih
  | text data _ ih => exact .text data ih
  | comment data _ ih => exact .comment data ih

theorem Trees.reverse (h : rn.Trees K l l') : rn.Trees K l.reverse l'.reverse := by
  induction h with
  | nil => exact .nil
  | element tags attributes inside _ _ ih =>
    rw [List.reverse_cons, List.reverse_cons]
    exact ih.append (.element tags attributes inside .nil)
  | text data _ ih =>
    rw [List.reverse_cons, List.reverse_cons]
    exact ih.append (.text data .nil)
  | comment data _ ih =>
    rw [List.reverse_cons, List.reverse_cons]
    exact ih.append (.comment data .nil)

variable (rn) in
/-- Open elements that are the same but for the references. -/
structure Frames (f f' : Frame) : Prop where
  tag : rn.Strings rn.Free f.tag f'.tag
  attributes : rn.Attributes (fun _ => rn.Free) f.attributes f'.attributes
  elder : rn.Trees (fun _ => rn.Free) f.elder f'.elder

variable (rn) in
/-- Fragments under construction that are the same but for the references. -/
structure Builders (b b' : Builder) : Prop where
  here : rn.Trees (fun _ => rn.Free) b.here b'.here
  frames : List.Forall₂ rn.Frames b.frames b'.frames

theorem builders_closeAll {here here' : List Tree} {outer outer' inner inner' : List Frame}
    (h : rn.Trees (fun _ => rn.Free) here here') (outers : List.Forall₂ rn.Frames outer outer')
    (inners : List.Forall₂ rn.Frames inner inner') :
    rn.Builders (Builder.closeAll here outer inner) (Builder.closeAll here' outer' inner') := by
  induction inners generalizing here here' with
  | nil => exact ⟨h, outers⟩
  | cons frame _ ih => exact ih (.element frame.tag frame.attributes h.reverse frame.elder)

/-- The innermost element of a name stands at the same place. -/
theorem frames_takeWhile {tag tag' : String} (tags : rn.Strings rn.Free tag tag')
    {frames frames' : List Frame} (h : List.Forall₂ rn.Frames frames frames') :
    List.Forall₂ rn.Frames (frames.takeWhile fun f => f.tag != tag)
      (frames'.takeWhile fun f => f.tag != tag') := by
  induction h with
  | nil => exact .nil
  | @cons f f' _ _ frame _ ih =>
    have same : (f.tag != tag) = (f'.tag != tag') := congrArg not (Strings.beq frame.tag tags)
    rw [List.takeWhile_cons, List.takeWhile_cons, ← same]
    split
    · exact .cons frame ih
    · exact .nil

theorem Builders.step {b b' : Builder} (h : rn.Builders b b') {item item' : Item}
    (items : rn.Items item item') : rn.Builders (b.step item) (b'.step item') := by
  cases items with
  | text data => exact ⟨.text data h.here, h.frames⟩
  | comment data => exact ⟨.comment data h.here, h.frames⟩
  | declaration => exact h
  | opening tags attributes => exact ⟨.nil, .cons ⟨tags, attributes, h.here⟩ h.frames⟩
  | closed tags attributes contents =>
    refine ⟨.element tags attributes ?_ h.here, h.frames⟩
    rw [← contents.isEmpty]
    split
    · exact .nil
    · exact .text contents .nil
  | @ending tag tag' tags =>
    have inner := frames_takeWhile tags h.frames
    have outer := List.forall₂_drop (b.frames.takeWhile fun f => f.tag != tag).length h.frames
    unfold Builder.step Builder.close
    dsimp only
    rw [← inner.length_eq]
    generalize b.frames.drop _ = rest, b'.frames.drop _ = rest' at outer
    cases outer with
    | nil => exact h
    | cons frame outer =>
      exact builders_closeAll h.here outer (List.rel_append inner (.cons frame .nil))

theorem trees_ofItems {items items' : List Item} (h : List.Forall₂ rn.Items items items') :
    rn.Trees (fun _ => rn.Free) (Markup.ofItems items) (Markup.ofItems items') := by
  have run : ∀ {b b'}, rn.Builders b b' →
      rn.Builders (items.foldl Builder.step b) (items'.foldl Builder.step b') := by
    induction h with
    | nil => exact fun built => built
    | cons item _ ih => exact fun built => ih (built.step item)
  have all : rn.Builders (items.foldl Builder.step .start) (items'.foldl Builder.step .start) :=
    run ⟨.nil, .nil⟩
  exact (builders_closeAll all.here .nil all.frames).here.reverse

/-- Both spellings of raw markup are parsed to the same trees. -/
theorem Strings.parse {a b : String} (h : rn.Strings rn.Raw a b) (read : Markup.parse a = .ok l) :
    ∃ l', Markup.parse b = .ok l' ∧ rn.Trees (fun _ => rn.Free) l l' := by
  obtain ⟨items, found, rfl⟩ := ok_of_map read
  obtain ⟨items', found', same⟩ := Texts.items h found
  refine ⟨Markup.ofItems items', ?_, trees_ofItems same⟩
  rw [Markup.parse, found']
  rfl

end LiveMarkup.Renaming
