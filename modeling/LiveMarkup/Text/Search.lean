/-!
Looking for a piece of text inside another: the first cut at a pattern, all cuts, and replacement.
All functions work on lists of characters and look at the leftmost match first.
-/
namespace LiveMarkup.Text

/-- What stands before and after the first occurrence of `pattern`. -/
def cut? (pattern : List Char) : List Char → Option (List Char × List Char)
  | [] => if pattern.isEmpty then some ([], []) else none
  | c :: rest =>
    if pattern.isPrefixOf (c :: rest) then some ([], (c :: rest).drop pattern.length)
    else (cut? pattern rest).map fun (before, after) => (c :: before, after)

theorem eq_append_of_isPrefixOf {pattern s : List Char} (h : pattern.isPrefixOf s = true) :
    s = pattern ++ s.drop pattern.length := by
  obtain ⟨t, rfl⟩ := List.isPrefixOf_iff_prefix.1 h
  simp

/-- A cut loses nothing but the pattern. -/
theorem eq_append_of_cut? {pattern s before after : List Char}
    (h : cut? pattern s = some (before, after)) : s = before ++ pattern ++ after := by
  induction s generalizing before after with
  | nil =>
    simp only [cut?] at h
    split at h <;> simp_all
  | cons c rest ih =>
    simp only [cut?] at h
    split at h
    · rename_i hp
      have := eq_append_of_isPrefixOf hp
      simp only [Option.some.injEq, Prod.mk.injEq] at h
      obtain ⟨rfl, rfl⟩ := h
      simpa using this
    · simp only [Option.map_eq_some_iff, Prod.mk.injEq, Prod.exists] at h
      obtain ⟨b, a, hb, rfl, rfl⟩ := h
      simp [ih hb]

/-- The pieces between the occurrences of `pattern`. An empty pattern cuts nowhere. -/
def splitOn (pattern : List Char) (s : List Char) : List (List Char) :=
  match h : cut? pattern s with
  | none => [s]
  | some (before, after) =>
    if hp : pattern = [] then [s]
    else
      have : after.length < s.length := by
        have hl := congrArg List.length (eq_append_of_cut? h)
        have := List.length_pos_iff.2 hp
        simp at hl
        omega
      before :: splitOn pattern after
termination_by s.length

/-- The pieces of a string between the occurrences of `pattern`. -/
def pieces (pattern s : String) : List String :=
  (splitOn pattern.toList s.toList).map String.ofList

/-- Every occurrence of `old` replaced; an empty `old` stands before each character and at the
end. -/
def replaceAll (old new s : String) : String :=
  if old.isEmpty then
    String.ofList (s.toList.flatMap (fun c => new.toList ++ [c]) ++ new.toList)
  else new.intercalate (pieces old s)

/-- The two sides of the first occurrence of a character. -/
def cutAt? (mark : Char) (s : String) : Option (String × String) :=
  (cut? [mark] s.toList).map fun (before, after) => (String.ofList before, String.ofList after)

/-- ASCII capitals made small; every other character stays. -/
def lowercase (s : String) : String :=
  String.ofList (s.toList.map Char.toLower)

/-- The last `limit` characters; a limit of zero sets no limit. -/
def lastChars (limit : Nat) (s : List Char) : List Char :=
  if limit = 0 then s else s.drop (s.length - limit)

end LiveMarkup.Text
