import LiveMarkup.Proofs.Written

/-!
The markup that a template compiles to, and how it reads: what the parser makes of it is the tree that
the template promises.
-/
namespace LiveMarkup.Template

/-! References. -/

theorem Ref.toList_text (r : Ref) :
    r.text.toList = "__ref_".toList ++ Nat.toDigits 10 r.number ++ "__".toList := by
  simp [Ref.text]

theorem Ref.text_injective {r r' : Ref} (h : r.text = r'.text) : r = r' := by
  have lists := congrArg String.toList h
  rw [toList_text, toList_text] at lists
  have digits : Nat.toDigits 10 r.number = Nat.toDigits 10 r'.number :=
    List.append_cancel_left (List.append_cancel_right lists)
  have numbers := congrArg (Nat.ofDigitChars 10 · 0) digits
  simp only [Nat.ofDigitChars_ten_toDigits] at numbers
  cases r
  cases r'
  exact congrArg Ref.mk numbers

theorem Ref.plain {r : Ref} {c : Char} (h : c ∈ r.text.toList) : c ≠ '&' ∧ c ≠ '\x22' := by
  have digit : c ∈ Nat.toDigits 10 r.number → c.isDigit = true :=
    Nat.isDigit_of_mem_toDigits (by decide) (by decide)
  have mark : ∀ c ∈ "__ref_".toList, c ≠ '&' ∧ c ≠ '\x22' := Text.forall_mem_of_all (by decide)
  have tail : ∀ c ∈ "__".toList, c ≠ '&' ∧ c ≠ '\x22' := Text.forall_mem_of_all (by decide)
  rw [toList_text] at h
  rcases List.mem_append.1 h with h | h
  · rcases List.mem_append.1 h with h | h
    · exact mark c h
    · constructor <;> (rintro rfl; exact absurd (digit h) (by decide))
  · exact tail c h

open Markup

namespace Field

/-- The compiled markup of a field. -/
def markup (r : Ref) : Field → List Char
  | .quoted name first rest =>
    ' ' :: name.toList ++ '=' :: '\x22' :: (first.toList.flatMap escapeInValue ++
      rest.flatMap fun literal => r.text.toList ++ literal.toList.flatMap escapeInValue) ++
      ['\x22']
  | .bare name => ' ' :: name.toList ++ ['=', '\x22', '\x22']
  | .directive kind name => ' ' :: (kind.name ++ ":" ++ name).toList ++ ['=', '\x22', '\x22']
  | .component => [' ']

theorem decode_value (r : Ref) (first : String) (rest : List String) :
    String.ofList (decode (first.toList.flatMap escapeInValue ++
      rest.flatMap fun literal => r.text.toList ++ literal.toList.flatMap escapeInValue)) =
    first ++ String.join (rest.map fun literal => r.text ++ literal) := by
  have plain : '&' ∉ r.text.toList := fun h => (Ref.plain h).1 rfl
  have later : decode (rest.flatMap fun literal =>
      r.text.toList ++ literal.toList.flatMap escapeInValue) =
      rest.flatMap fun literal => r.text.toList ++ literal.toList := by
    induction rest with
    | nil => exact decode_nil
    | cons literal rest ih =>
      simp only [List.flatMap_cons, List.append_assoc]
      rw [decode_plain plain, decode_flatMap _ _ _ fun c _ => decode_escapeInValue c, ih]
  rw [decode_flatMap _ _ _ fun c _ => decode_escapeInValue c, later]
  apply String.toList_inj.1
  simp [List.flatMap_map]

theorem closed_value (r : Ref) (first : String) (rest : List String) :
    '\x22' ∉ first.toList.flatMap escapeInValue ++
      rest.flatMap fun literal => r.text.toList ++ literal.toList.flatMap escapeInValue := by
  intro h
  rcases List.mem_append.1 h with h | h
  · exact not_mem_escapeInValue _ h
  · obtain ⟨literal, -, h⟩ := List.mem_flatMap.1 h
    rcases List.mem_append.1 h with h | h
    · exact (Ref.plain h).2 rfl
    · exact not_mem_escapeInValue _ h

theorem name?_eq_map (r : Ref) (field : Field) : field.name? = (field.pair? r).map (·.1) := by
  cases field <;> rfl

/-- The attributes with those of a field added. -/
def addTo (r : Ref) (found : Attributes) (field : Field) : Attributes :=
  match field.pair? r with
  | some (name, value) => found.insert name value
  | none => found

/-- The end of a start tag, or another attribute, ends an attribute. -/
theorem readAttributes_field {tag : String} {r : Ref} {field : Field} (fits : field.Fits tag)
    {found : Attributes} (new : ∀ name ∈ field.name?, name ∉ found.keys) {s rest : List Char}
    (h : Text.trimStart s = Text.trimStart (field.markup r ++ rest)) :
    ∃ s', Text.trimStart s' = Text.trimStart rest ∧
      readAttributes found s = readAttributes (field.addTo r found) s' := by
  have quoted : ∀ {name : String} {raw : List Char}, IsName name → name ∉ found.keys →
      '\x22' ∉ raw →
      Text.trimStart s = Text.trimStart (' ' :: name.toList ++ '=' :: '\x22' :: raw ++
        '\x22' :: rest) →
      readAttributes found s =
        readAttributes (found.insert name (String.ofList (decode raw))) rest :=
    fun isName => readAttributes_new _ _ _ isName.nonempty isName.readable isName.small
  cases field with
  | quoted name first rest' =>
    refine ⟨rest, rfl, ?_⟩
    rw [quoted fits.1 (new name rfl) (closed_value r first rest') (by simpa [markup] using h),
      decode_value]
    rfl
  | bare name =>
    refine ⟨rest, rfl, ?_⟩
    rw [quoted fits.1 (new name rfl) List.not_mem_nil (by simpa [markup] using h)]
    simp [addTo, pair?]
  | directive kind name =>
    refine ⟨rest, rfl, ?_⟩
    rw [quoted fits (new _ rfl) List.not_mem_nil (by simpa [markup] using h)]
    simp [addTo, pair?]
  | component => exact ⟨s, by rw [h]; exact trimStart_space rest, rfl⟩

theorem keys_addTo {r : Ref} {field : Field} {found : Attributes}
    (new : ∀ name ∈ field.name?, name ∉ found.keys) :
    (field.addTo r found).keys = found.keys ++ field.name?.toList := by
  rw [name?_eq_map r] at new ⊢
  unfold addTo
  cases entry : field.pair? r with
  | none => simp
  | some e => exact Ordered.keys_insert (new e.1 (by rw [entry]; rfl)) e.2

theorem foldl_addTo (r : Ref) (fields : List Field) (found : Attributes) :
    fields.foldl (fun found field => field.addTo r found) found =
      (fields.filterMap (pair? r)).foldl (fun m e => m.insert e.1 e.2) found := by
  induction fields generalizing found with
  | nil => rfl
  | cons field fields ih =>
    rw [List.foldl_cons, ih, List.filterMap_cons]
    unfold addTo
    cases field.pair? r <;> rfl

theorem readAttributes_fields {tag : String} {r : Ref} {fields : List Field}
    (fits : ∀ field ∈ fields, field.Fits tag) (found : Attributes)
    (distinct : (found.keys ++ fields.filterMap name?).Nodup) {s rest : List Char}
    (h : Text.trimStart s = Text.trimStart (fields.flatMap (markup r) ++ '>' :: rest)) :
    readAttributes found s = .ok (fields.foldl (fun found field => field.addTo r found) found,
      false, rest) := by
  induction fields generalizing found s with
  | nil =>
    exact readAttributes_close found (by rw [h]; exact trimStart_of_not_blank (by decide) rest)
  | cons field fields ih =>
    rw [List.flatMap_cons, List.append_assoc] at h
    have new : ∀ name ∈ field.name?, name ∉ found.keys := by
      intro name hname mem
      refine (List.nodup_append.1 distinct).2.2 name mem name ?_ rfl
      exact List.mem_filterMap.2 ⟨field, List.mem_cons_self, hname⟩
    obtain ⟨s', later, here⟩ := readAttributes_field (fits field List.mem_cons_self) new h
    rw [here]
    refine ih (fun f hf => fits f (List.mem_cons_of_mem _ hf)) (field.addTo r found) ?_ later
    rw [keys_addTo new, List.append_assoc]
    rw [List.filterMap_cons] at distinct
    cases named : field.name? with
    | none => simpa [named] using distinct
    | some name => simpa [named] using distinct

/-- The compiled fields of a start tag, with the marker that they call for. -/
def markupAll (r : Ref) (fields : List Field) : List Char :=
  (if holesAll fields = 0 then [] else (marker .standard r).toList) ++
    fields.flatMap (Field.markup r)

theorem toList_marker (config : Config) (r : Ref) :
    (marker config r).toList = ' ' :: config.refAttribute.toList ++ '=' :: '\x22' :: r.text.toList ++
      ['\x22'] := by
  simp [marker]

/-- A marker is read as the attribute that it is, if its name can stand in markup. -/
theorem readAttributes_mark {config : Config} (nonempty : config.refAttribute.toList ≠ [])
    (readable : ∀ c ∈ config.refAttribute.toList, isAttributeChar c = true) (r : Ref)
    (s : List Char) :
    readAttributes .empty ((marker config r).toList ++ s) =
      readAttributes (Attributes.set .empty config.refAttribute r.text) s := by
  have plain : '&' ∉ r.text.toList := fun h => (Ref.plain h).1 rfl
  have whole : decode r.text.toList = r.text.toList := by
    have := decode_plain plain []
    simpa using this
  have absent : Attributes.has .empty config.refAttribute = false := rfl
  have here : Text.trimStart ((marker config r).toList ++ s) = Text.trimStart
      (' ' :: config.refAttribute.toList ++ '=' :: '\x22' :: r.text.toList ++ '\x22' :: s) := by
    rw [toList_marker]
    simp
  rw [readAttributes_quoted .empty here nonempty readable fun h => (Ref.plain h).2 rfl, whole]
  simp [absent]

theorem readAttributes_marker (r : Ref) (s : List Char) :
    readAttributes .empty ((marker .standard r).toList ++ s) =
      readAttributes (Ordered.empty.insert ":ref" r.text) s := by
  have small : Text.lowercase ":ref" = ":ref" := by decide
  rw [readAttributes_mark (by decide) (Text.forall_mem_of_all (by decide)), Attributes.set,
    Config.standard, small]

theorem not_marker {tag : String} {fields : List Field} (fits : ∀ field ∈ fields, field.Fits tag) :
    ":ref" ∉ fields.filterMap name? := by
  intro mem
  obtain ⟨field, hf, named⟩ := List.mem_filterMap.1 mem
  have fit := fits field hf
  cases field with
  | quoted name first rest =>
    cases named
    exact fit.1.unmarked rfl
  | bare name =>
    cases named
    exact fit.1.unmarked rfl
  | directive kind name => exact fit.unmarked (Option.some.inj named)
  | component => cases named

theorem readAttributes_markupAll {tag : String} {r : Ref} {fields : List Field}
    (fits : ∀ field ∈ fields, field.Fits tag) (distinct : (fields.filterMap name?).Nodup)
    (rest : List Char) :
    readAttributes .empty (markupAll r fields ++ '>' :: rest) =
      .ok (attributes r fields, false, rest) := by
  unfold markupAll attributes
  split
  case isTrue =>
    rw [List.nil_append, List.nil_append,
      readAttributes_fields fits .empty (by simpa [Ordered.keys, Ordered.empty] using distinct) rfl,
      foldl_addTo]
    rfl
  case isFalse =>
    rw [List.append_assoc, readAttributes_marker, readAttributes_fields fits _ ?_ rfl, foldl_addTo]
    · rfl
    · have : (Ordered.empty.insert ":ref" r.text : Attributes).keys = [":ref"] := rfl
      rw [this]
      exact List.nodup_cons.2 ⟨not_marker fits, distinct⟩

theorem head_markupAll (r : Ref) (fields : List Field) (rest : List Char) :
    ∀ c ∈ (markupAll r fields ++ '>' :: rest).head?, isTagChar c = false := by
  unfold markupAll
  split
  case isTrue =>
    cases fields with
    | nil =>
      rintro c ⟨⟩
      decide
    | cons field fields =>
      have blank : ∃ s, field.markup r = ' ' :: s := by
        cases field <;> exact ⟨_, rfl⟩
      obtain ⟨s, hs⟩ := blank
      rw [List.flatMap_cons, hs]
      rintro c ⟨⟩
      decide
  case isFalse =>
    rw [toList_marker]
    rintro c ⟨⟩
    decide

end Field

namespace Written

mutual

/-- The compiled markup of a piece. -/
def markup (n m : Nat) : Written → List Char
  | .text data => data.toList.flatMap escapeInText
  | .hole => (outlet .standard ⟨m⟩).toList
  | .comment data => "<!--".toList ++ data.toList ++ "-->".toList
  | .element tag fields children =>
    '<' :: tag.toList ++ (Field.markupAll ⟨n⟩ fields ++ '>' ::
      if isVoid tag then [] else markupAll (n + 1) m children ++ printEnd tag)

def markupAll (n m : Nat) : List Written → List Char
  | [] => []
  | t :: rest => t.markup n m ++ markupAll (n + t.tags) (m + t.outlets) rest

end

theorem toList_outlet (r : Ref) :
    (outlet .standard r).toList =
      '<' :: "x".toList ++ ((marker .standard r).toList ++ '>' :: printEnd "x") := by
  simp [outlet, Config.standard, printEnd]

theorem isTag_outlet : IsTag "x" := by decide

/-- Only a text goes on into a text. -/
theorem endsText_markup {t : Written} (fits : t.Fits) (notText : ¬ t.IsText) (n m : Nat)
    (rest : List Char) : EndsText (t.markup n m ++ rest) := by
  refine .inr ?_
  cases t with
  | text data => exact absurd trivial notText
  | hole =>
    rw [markup, toList_outlet]
    rfl
  | comment data => rfl
  | element tag fields children =>
    obtain ⟨c, name, split, letter⟩ := fits.1.start
    simp [markup, split, opensMarkup, letter]

mutual

theorem readInto_markup (n m : Nat) (t : Written) (fits : t.Fits) (b : Builder) (rest : List Char)
    (ends : t.IsText → EndsText rest) :
    readInto b (t.markup n m ++ rest) = readInto (b.add (t.tree n m)) rest := by
  cases t with
  | text data =>
    have nonempty : data.toList ≠ [] := by simpa [Fits] using fits
    rw [markup, readInto_text b nonempty (ends trivial), String.ofList_toList]
    rfl
  | hole =>
    have read : readAttributes .empty
        ((marker .standard ⟨m⟩).toList ++ ('>' :: (printEnd "x" ++ rest))) =
        .ok (Ordered.empty.insert ":ref" (Ref.text ⟨m⟩), false, printEnd "x" ++ rest) := by
      rw [Field.readAttributes_marker]
      exact readAttributes_close _ (trimStart_of_not_blank (by decide) _)
    have stop : ∀ c ∈ ((marker .standard ⟨m⟩).toList ++ ('>' :: (printEnd "x" ++ rest))).head?,
        isTagChar c = false := by
      rw [Field.toList_marker]
      rintro c ⟨⟩
      decide
    have opened := readInto_start isTag_outlet (by decide) stop read b
    have closed := readInto_ending isTag_outlet (Ordered.empty.insert ":ref" (Ref.text ⟨m⟩)) []
      b.here b.frames rest
    rw [show isVoid "x" = false by decide] at opened
    rw [markup, toList_outlet]
    simp only [List.append_assoc, List.cons_append] at opened ⊢
    rw [opened]
    exact closed
  | comment data =>
    rw [markup, readInto_comment b fits.closed, String.ofList_toList]
    rfl
  | element tag fields children =>
    obtain ⟨isTag, notRaw, fit, distinct, void, childrenFit⟩ := fits
    have opened : ∀ s, readInto b ('<' :: tag.toList ++ (Field.markupAll ⟨n⟩ fields ++ '>' :: s)) = _ :=
      fun s => readInto_start isTag notRaw (Field.head_markupAll ⟨n⟩ fields s)
        (Field.readAttributes_markupAll fit distinct s) b
    by_cases isVoid : isVoid tag = true
    · have none := void isVoid
      subst none
      have := opened rest
      simp only [markup, isVoid, if_true, List.append_assoc, List.cons_append, List.nil_append] at this ⊢
      rw [this]
      rfl
    · have inside := readInto_markupAll (n + 1) m children childrenFit
        ⟨[], ⟨tag, Field.attributes ⟨n⟩ fields, b.here⟩ :: b.frames⟩ (printEnd tag ++ rest)
        (.inr rfl)
      have closed := readInto_ending isTag (Field.attributes ⟨n⟩ fields)
        ((trees (n + 1) m children).reverse ++ []) b.here b.frames rest
      have := opened (markupAll (n + 1) m children ++ (printEnd tag ++ rest))
      rw [if_neg isVoid] at this
      rw [markup, if_neg isVoid]
      simp only [List.append_assoc, List.cons_append] at this ⊢
      rw [this, inside, closed]
      simp [tree, Builder.add]

theorem readInto_markupAll (n m : Nat) (ts : List Written) (fits : FitsAll ts) (b : Builder)
    (rest : List Char) (ends : EndsText rest) :
    readInto b (markupAll n m ts ++ rest) =
      readInto ⟨(trees n m ts).reverse ++ b.here, b.frames⟩ rest := by
  cases ts with
  | nil => rfl
  | cons t ts =>
    obtain ⟨fit, apart, later⟩ := fits
    have next : t.IsText → EndsText (markupAll (n + t.tags) (m + t.outlets) ts ++ rest) := by
      intro isText
      cases ts with
      | nil => exact ends
      | cons u ts =>
        rw [markupAll, List.append_assoc]
        exact endsText_markup later.1 (apart isText u rfl) _ _ _
    rw [markupAll, List.append_assoc, readInto_markup n m t fit b _ next,
      readInto_markupAll _ _ ts later _ _ ends]
    simp [trees, Builder.add]

end

/-- The compiled markup reads as the tree that the template promises. -/
theorem parse_markupAll {ts : List Written} (fits : FitsAll ts) (n m : Nat) :
    parse (String.ofList (markupAll n m ts)) = .ok (trees n m ts) := by
  have := readInto_markupAll n m ts fits .start [] (.inl rfl)
  rw [List.append_nil] at this
  rw [parse_eq, String.toList_ofList, this, readInto_nil]
  simp [Except.map, Builder.finish, Builder.start, Builder.closeAll]

end Written
end LiveMarkup.Template
