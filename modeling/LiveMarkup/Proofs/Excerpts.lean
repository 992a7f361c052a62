import LiveMarkup.Proofs.Validation
import LiveMarkup.Proofs.Rescanning
import LiveMarkup.Proofs.Declarations

/-!
Excerpts: what an error quotes of the markup that it was found in. That markup is put together token
by token up to the slot that has no place, or to the end of the template. It always has an opening
bracket, since nothing goes wrong in plain text; so a limit of zero, which sets none, lets through
what it should have kept out.

Main statement: `Descriptor.context_limited_iff`.
-/
namespace LiveMarkup

namespace Text
variable {s : List Char} {c : Char} {limit : Nat}

theorem length_trim_le (s : List Char) : (trim s).length ≤ s.length :=
  (trim_isPrefix_trimStart s).length_le.trans (List.dropWhile_suffix _).length_le

theorem lastChars_suffix (limit : Nat) (s : List Char) : lastChars limit s <:+ s := by
  unfold lastChars
  split
  · exact List.suffix_rfl
  · exact List.drop_suffix _ _

theorem length_lastChars (h : limit ≠ 0) : (lastChars limit s).length = min limit s.length := by
  rw [lastChars, if_neg h, List.length_drop]
  omega

end Text

/-- Without an opening bracket there is nothing to parse but text. -/
theorem Markup.parse_plain {html : String} (plain : '<' ∉ html.toList) :
    ∃ trees, parse html = .ok trees := by
  have read := readInto_textTrees plain (.inl rfl) []
  rw [List.append_nil, readInto_nil] at read
  exact ⟨_, by rw [parse_eq, Builder.start, read]; rfl⟩

namespace Template

/-- The markup put together of tokens when the first slot is come to that has no place, or of all of
them if every slot has one. -/
def gathered (config : Config) (nextRef index : Nat) : List Token → String
  | [] => ""
  | [last] => last.html
  | t :: rest =>
    t.html ++
      match place config index ⟨nextRef⟩ t with
      | .ok p =>
        p.insertion ++
          gathered config (if t.place = .outer then nextRef + 1 else nextRef) (index + 1) rest
      | .error _ => ""

/-- The markup put together of chunks when compiling them fails. -/
def markupAtFault (config : Config) (nextRef : Nat) (chunks : List String) : String :=
  gathered config (tokenize config nextRef chunks).2 0 (tokenize config nextRef chunks).1

/-- A shape has all the markup, and an error quotes what there is of it. By recursion on the tokens.
-/
theorem Shape.build_gathers (config : Config) (nextRef : Nat) (s : Shape) (tokens : List Token) :
    let html := s.html ++ gathered config nextRef s.slots.length tokens
    (∀ s', (build config nextRef s tokens).1 = .ok s' → s'.html = html) ∧
      ∀ e, (build config nextRef s tokens).1 = .error e → ∃ fault, e = .at config html fault := by
  induction tokens generalizing nextRef s with
  | nil =>
    refine ⟨fun s' built => ?_, fun e failed => (by cases failed)⟩
    cases built
    exact (String.append_empty).symm
  | cons t rest ih =>
    cases rest with
    | nil =>
      refine ⟨fun s' built => ?_, fun e failed => (by cases failed)⟩
      cases built
      rfl
    | cons t' rest =>
      unfold build gathered
      dsimp only
      cases place config s.slots.length ⟨nextRef⟩ t with
      | error fault =>
        refine ⟨fun s' built => (by cases built), fun e failed => ?_⟩
        cases failed
        exact ⟨fault, by rw [String.append_empty]⟩
      | ok p =>
        have next := ih (if t.place = .outer then nextRef + 1 else nextRef)
          (add { s with html := s.html ++ t.html } s.slots.length p)
        simpa only [add, List.length_append, List.length_singleton, String.append_assoc] using next

namespace Scan
variable {s : Scan}

theorem mem_html_slotToken {chunk : String} {c : Char} (mem : c ∈ chunk.toList) (config : Config)
    (s : Scan) : c ∈ (s.slotToken config chunk).1.html.toList := by
  unfold slotToken
  dsimp only
  split
  case h_2 => exact mem
  case h_1 offset r _ =>
    rw [← List.take_append_drop offset chunk.toList] at mem
    simp only [token, String.toList_append, String.toList_ofList, List.mem_append]
    rcases List.mem_append.1 mem with early | late
    · exact .inl (.inl early)
    · exact .inr late

/-- Behind a slot there has been an opening bracket: in a chunk, or else the slot is in text and an
outlet was put in for it. -/
theorem lt_mem_gathered (start : s.place = .outer) (config : Config) (nextRef index : Nat)
    (chunk chunk' : String) (rest : List String) :
    '<' ∈ (gathered config nextRef index (s.tokens config (chunk :: chunk' :: rest)).1).toList := by
  obtain ⟨t, more, tokens, slot⟩ : ∃ t more,
      (s.tokens config (chunk :: chunk' :: rest)).1 = t :: more ∧
      t = ((s.nextChunk.feed chunk.toList).slotToken config chunk).1 := ⟨_, _, rfl, rfl⟩
  have whole : '<' ∈ t.html.toList ∨ t.place = .outer := by
    by_cases bracket : '<' ∈ chunk.toList
    · exact .inl (slot ▸ mem_html_slotToken bracket config _)
    · right
      have outer : (s.nextChunk.feed chunk.toList).place = .outer :=
        place_feed_text (s := s.nextChunk) start bracket
      rw [slot, slotToken_text config outer]
      exact outer
  rw [tokens]
  cases more with
  | nil =>
    exact absurd (List.cons.inj tokens).2 (Scan.fst_tokens_ne_nil config _ chunk' rest)
  | cons t' more =>
    unfold gathered
    rw [String.toList_append, List.mem_append]
    refine whole.imp_right fun outer => ?_
    have placed : Template.place config index ⟨nextRef⟩ t =
        .ok ⟨.node ⟨nextRef⟩, outlet config ⟨nextRef⟩, none⟩ := by
      simp [Template.place, outer]
    rw [placed]
    simp [outlet]

end Scan

namespace Descriptor
variable {config : Config} {nextRef : Nat} {chunks : List String} {e : CompileError}

/-- Whether compiling fails can be decided with the descriptor left out. -/
theorem error_of_map {compiled : Except CompileError Descriptor}
    (h : compiled.map (fun _ => ()) = .error e) : compiled = .error e := by
  cases compiled with
  | ok d => cases h
  | error e' =>
    cases h
    rfl

/-- Whatever goes wrong, the error quotes the markup that was put together. -/
theorem error_eq_at (failed : (compile config nextRef chunks).1 = .error e) :
    ∃ fault, e = .at config (markupAtFault config nextRef chunks) fault := by
  obtain ⟨tokens, numbered⟩ : ∃ p, tokenize config nextRef chunks = p := ⟨_, rfl⟩
  obtain ⟨gathers, quotes⟩ := Shape.build_gathers config tokens.2 .empty tokens.1
  have whole : Shape.empty.html ++ gathered config tokens.2 Shape.empty.slots.length tokens.1 =
      markupAtFault config nextRef chunks := by
    rw [markupAtFault, numbered]
    exact String.empty_append
  rw [whole] at gathers quotes
  have stages : (compile config nextRef chunks).1 =
      ((Shape.build config tokens.2 .empty tokens.1).1).bind (ofShape config) := by
    simp only [compile, compileEdited, Shape.parse, Shape.ofTokens, numbered, List.foldl_nil]
  rw [stages] at failed
  cases built : (Shape.build config tokens.2 .empty tokens.1).1 with
  | error e' =>
    rw [built] at failed
    cases failed
    exact quotes _ built
  | ok s =>
    rw [built] at failed
    change ofShape config s = .error e at failed
    rw [← gathers s built]
    unfold ofShape at failed
    split at failed
    · cases failed
      exact ⟨_, rfl⟩
    · split at failed
      · cases failed
        exact ⟨_, rfl⟩
      · cases failed

/-- Nothing goes wrong before the first opening bracket. -/
theorem lt_mem_markupAtFault (failed : (compile config nextRef chunks).1 = .error e) :
    '<' ∈ (markupAtFault config nextRef chunks).toList := by
  have single : ∀ html : String,
      ofShape config ⟨html, [], .empty⟩ = .error e → '<' ∈ html.toList := by
    intro html wrong
    by_contra plain
    obtain ⟨trees, parsed⟩ := Markup.parse_plain plain
    have compiled : ofShape config ⟨html, [], .empty⟩ = .ok ⟨trees, html, [], .empty, config⟩ := by
      simp only [ofShape, parsed]
      rfl
    rw [compiled] at wrong
    cases wrong
  cases chunks with
  | nil => exact single "" failed
  | cons chunk rest =>
    cases rest with
    | nil =>
      refine single chunk ?_
      rw [← failed]
      simp [compile, compileEdited, Shape.parse, Shape.ofTokens, tokenize, Scan.tokens, Shape.build,
        Shape.empty, Scan.token, Except.bind]
    | cons chunk' rest => exact Scan.lt_mem_gathered rfl config _ 0 chunk chunk' rest

/-- The context of an error has no more characters than the limit, and is the last so many
characters of the markup without blanks at the ends, if and only if the limit is not zero. A limit
of zero has all the markup quoted. -/
theorem context_limited_iff (failed : (compile config nextRef chunks).1 = .error e) :
    let html := (markupAtFault config nextRef chunks).toList
    (((∃ tail, tail <:+ html ∧ tail.length = min config.contextChars html.length ∧
        e.context.toList = Text.trim tail) ∧ e.context.toList.length ≤ config.contextChars) ↔
      config.contextChars ≠ 0) ∧
    (config.contextChars = 0 → e.context.toList = Text.trim html) := by
  intro html
  obtain ⟨fault, quoted⟩ := error_eq_at failed
  have context : e.context.toList = Text.trim (Text.lastChars config.contextChars html) := by
    rw [quoted]
    exact String.toList_ofList
  have unlimited : config.contextChars = 0 → e.context.toList = Text.trim html := by
    intro zero
    rw [context, zero, Text.lastChars, if_pos rfl]
  refine ⟨⟨?_, fun limited => ?_⟩, unlimited⟩
  · rintro ⟨-, short⟩ zero
    have bracket : '<' ∈ e.context.toList := by
      rw [unlimited zero]
      exact (Text.mem_trim (by decide)).2 (lt_mem_markupAtFault failed)
    exact Nat.not_lt.2 short (zero ▸ List.length_pos_of_mem bracket)
  · have length := Text.length_lastChars (s := html) limited
    refine ⟨⟨_, Text.lastChars_suffix _ html, length, context⟩, ?_⟩
    rw [context]
    exact (Text.length_trim_le _).trans (length.trans_le (Nat.min_le_left _ _))

/-- Six characters of a template that quotes a directive, two of them of more than one byte. -/
theorem context_limited_iff_accented :
    ∃ e, (compile ⟨":ref", "x", 6⟩ 0 ["<p on:é✓=\"", "\"></p>"]).1 = .error e ∧
      e.context = "n:é✓=\"" ∧
        ∃ tail, tail <:+ (markupAtFault ⟨":ref", "x", 6⟩ 0 ["<p on:é✓=\"", "\"></p>"]).toList ∧
          tail.length = 6 ∧ e.context.toList = Text.trim tail := by
  have failed : (compile ⟨":ref", "x", 6⟩ 0 ["<p on:é✓=\"", "\"></p>"]).1 =
      .error ⟨.quotedDirective "on:é✓", "n:é✓=\""⟩ := error_of_map (by decide +kernel)
  obtain ⟨⟨tail, suffix, length, context⟩, -⟩ := (context_limited_iff failed).1.2 (by decide)
  refine ⟨_, failed, rfl, tail, suffix, ?_, context⟩
  rw [length]
  decide +kernel

/-- With a limit of zero the error quotes all the markup, and so more than no characters. -/
theorem context_whole_at_zero :
    ∃ e, (compile ⟨":ref", "x", 0⟩ 1000000 ["<p class:on=\"", "\"></p>"]).1 = .error e ∧
      e.context = "<p :ref=\"__ref_1000000__\" class:on=\"" ∧ ¬ e.context.toList.length ≤ 0 :=
  ⟨⟨.quotedDirective "class:on", "<p :ref=\"__ref_1000000__\" class:on=\""⟩,
    error_of_map (by decide +kernel), rfl, by decide +kernel⟩

end Descriptor
end Template
end LiveMarkup
