import LiveMarkup.Proofs.Tidiness

/-!
Pieces of a chunk that stand between breaks are decoded by themselves: what does not turn up in a chunk
when that is decoded does not turn up in them.
-/
namespace LiveMarkup.Markup

variable {p : Prop} {read front l back raw : List Char} {c : Char}

/-- Whether no reference begins in a text when it is decoded. -/
def Clean (l : List Char) : Prop :=
  ¬ "__ref_".toList <:+: decode l

/-- Whether nothing before goes over into what stands behind. -/
def Broken (front : List Char) : Prop :=
  front = [] ∨ ∃ more c, front = more ++ [c] ∧ IsBreak c

theorem clean_nil : Clean [] := by
  rw [Clean, decode_nil]
  decide

theorem Broken.mark (stop : IsBreak c) (front : List Char) : Broken (front ++ [c]) :=
  .inr ⟨front, c, rfl, stop⟩

theorem Broken.decode (h : Broken front) (l : List Char) :
    Markup.decode (front ++ l) = Markup.decode front ++ Markup.decode l := by
  rcases h with rfl | ⟨more, c, rfl, stop⟩
  · simp
  · have here := decode_append_break stop more []
    rw [decode_nil] at here
    rw [List.append_assoc, List.singleton_append, decode_append_break stop, here]
    simp

theorem Broken.clean (h : Broken front) (clean : Clean (front ++ l)) : Clean l := by
  intro inside
  refine clean ?_
  rw [h.decode]
  exact inside.trans (List.suffix_append _ _).isInfix

theorem Clean.before (stop : IsBreak c) (clean : Clean (l ++ c :: back)) : Clean l := by
  intro inside
  refine clean ?_
  rw [decode_append_break stop]
  exact inside.trans (List.prefix_append _ _).isInfix

/-- Between two clean texts, a mark that is no part of references makes none. -/
theorem Clean.joined (first : Clean front) (second : Clean l) (stop : IsBreak c)
    (other : c ∉ "__ref_".toList) : Clean (front ++ c :: l) := by
  intro inside
  rw [decode_append_break stop] at inside
  rcases infix_append_cons inside with left | right | ⟨l₁, l₂, same, -, -⟩
  · exact first left
  · exact second right
  · exact other (by rw [same]; simp)

theorem isBreak_of_isQuote (quote : Template.isQuote c = true) : IsBreak c ∧ c ∉ "__ref_".toList := by
  simp only [Template.isQuote, Bool.or_eq_true, beq_iff_eq] at quote
  rcases quote with rfl | rfl
  · exact ⟨⟨by decide, by decide⟩, by decide⟩
  · exact ⟨⟨by decide, by decide⟩, by decide⟩

/-- A text is the end of what was read of a chunk, behind a break. -/
def Piece (read l : List Char) : Prop :=
  ∃ front, read = front ++ l ∧ Broken front

namespace Piece

theorem start (h : Broken read) : Piece read [] :=
  ⟨read, (List.append_nil read).symm, h⟩

theorem grow (h : Piece read l) (c : Char) : Piece (read ++ [c]) (l ++ [c]) := by
  obtain ⟨front, rfl, broken⟩ := h
  exact ⟨front, List.append_assoc _ _ _, broken⟩

/-- A piece that is over with its chunk. -/
theorem clean (h : Piece read l) (chunk : Clean read) : Clean l := by
  obtain ⟨front, rfl, broken⟩ := h
  exact broken.clean chunk

/-- A piece that is over at a break. -/
theorem clean_before (h : Piece read l) (stop : IsBreak c) (chunk : ∃ back, Clean (read ++ c :: back)) :
    Clean l := by
  obtain ⟨back, chunk⟩ := chunk
  obtain ⟨front, rfl, broken⟩ := h
  rw [List.append_assoc] at chunk
  exact (broken.clean chunk).before stop

end Piece

/-- A value without quotes, in which slots left a pair of quotes each. Chunks are clean if `p` holds. -/
structure Patched (p : Prop) (read raw : List Char) : Prop where
  pieces : ∃ front l, raw = front ++ l ∧ Piece read l ∧
    (front = [] ∨ ∃ more, front = more ++ ['\x22'] ∧ (p → Clean more))

namespace Patched

theorem clean_of (h : Patched p read raw) (last : ∀ l, Piece read l → p → Clean l) (holds : p) :
    Clean raw := by
  obtain ⟨front, l, rfl, piece, rfl | ⟨more, rfl, clean⟩⟩ := h.pieces
  · exact last l piece holds
  · rw [List.append_assoc]
    exact (clean holds).joined (last l piece holds) ⟨by decide, by decide⟩ (by decide)

theorem grow (h : Patched p read raw) (c : Char) : Patched p (read ++ [c]) (raw ++ [c]) := by
  obtain ⟨front, l, rfl, piece, patched⟩ := h.pieces
  exact ⟨front, l ++ [c], List.append_assoc _ _ _, piece.grow c, patched⟩

theorem clean_before (h : Patched p read raw) (stop : IsBreak c)
    (chunk : p → ∃ back, Clean (read ++ c :: back)) (holds : p) : Clean raw :=
  h.clean_of (fun _ piece holds => piece.clean_before stop (chunk holds)) holds

/-- A slot in the value. -/
theorem patch (h : Patched p read raw) (chunk : p → Clean read) :
    Patched p [] (raw ++ ['\x22', '\x22']) := by
  refine ⟨raw ++ ['\x22', '\x22'], [], (List.append_nil _).symm, .start (.inl rfl),
    .inr ⟨raw ++ ['\x22'], by simp, fun holds => ?_⟩⟩
  have clean := h.clean_of (fun _ piece holds => piece.clean (chunk holds)) holds
  exact clean.joined clean_nil ⟨by decide, by decide⟩ (by decide)

end Patched

end LiveMarkup.Markup
