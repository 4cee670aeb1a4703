import FontSizeLint.Proofs.Text.Bytes

/-! Highlighting by byte offsets, and colours taken out of a text again. The offsets are looked up for
indices of characters, so that a line is never split inside a character, whatever the indices are. -/
namespace FontSizeLint.Text

/-- Takes the given sequences out of a text, if they stand where they are said to stand, each so many
characters behind the one before. -/
def uncolour? : List (Nat × List Char) → List Char → Option (List Char)
  | [], s => some s
  | (n, e) :: es, s =>
    if e <+: s.drop n then (uncolour? es (s.drop (n + e.length))).map (s.take n ++ ·) else none

section Span
variable {line : String} {start count : Nat}

lemma getD_bind_byteOffset? (hline : line.utf8ByteSize < wordLimit) :
    ((checkedAdd start count).bind (byteOffset? line)).getD line.utf8ByteSize =
      byteSize (line.toList.take (min (start + count) line.length)) := by
  have hlength : line.length ≤ line.utf8ByteSize := by
    rw [← byteSize_toList, ← String.length_toList]
    exact length_le_byteSize line.toList
  have hwhole : byteSize (line.toList.take line.length) = line.utf8ByteSize := by
    rw [← String.length_toList, List.take_length, byteSize_toList]
  by_cases hend : start + count ≤ line.length
  · have hword : start + count < wordLimit := by omega
    rw [checkedAdd, if_pos hword, Option.bind_some, byteOffset?_eq, if_pos hend, Option.getD_some,
      Nat.min_eq_left hend]
  · rw [Nat.min_eq_right (Nat.le_of_not_le hend), hwhole]
    by_cases hword : start + count < wordLimit
    · rw [checkedAdd, if_pos hword, Option.bind_some, byteOffset?_eq, if_neg hend, Option.getD_none]
    · rw [checkedAdd, if_neg hword, Option.bind_none, Option.getD_none]

lemma byteSpan?_eq (hline : line.utf8ByteSize < wordLimit) (start count : Nat) :
    byteSpan? line start count = if start ≤ line.length then
      some (byteSize (line.toList.take start),
        byteSize (line.toList.take (min (start + count) line.length))) else none := by
  rw [byteSpan?, byteOffset?_eq, getD_bind_byteOffset? hline]
  split_ifs <;> rfl

end Span

lemma highlight_eq (line : List Char) (start span : Nat) :
    highlight line start span =
      if line.length < start then line
      else line.take start ++ magenta ++ (line.take (min (start + span) line.length)).drop start ++
        plain ++ line.drop (min (start + span) line.length) := by
  have htarget : (line.take (min (start + span) line.length)).drop start =
      (line.drop start).take span := by
    rw [List.drop_take, List.take_eq_take_iff, List.length_drop]
    omega
  have hrest : line.drop (min (start + span) line.length) = line.drop (start + span) := by
    rcases Nat.le_total (start + span) line.length with h | h
    · rw [Nat.min_eq_left h]
    · rw [Nat.min_eq_right h, List.drop_length, List.drop_eq_nil_of_le h]
  rw [htarget, hrest, highlight]

lemma checkedSub_byteSize_take (s : List Char) {i j : Nat} (h : i ≤ j) :
    checkedSub (byteSize (s.take j)) (byteSize (s.take i)) =
      some (byteSize ((s.drop i).take (j - i))) := by
  have hsplit : s.take j = s.take i ++ (s.drop i).take (j - i) := by
    rw [← List.take_add, Nat.add_sub_cancel' h]
  rw [hsplit, byteSize_append, checkedSub, if_pos (Nat.le_add_right _ _), Nat.add_sub_cancel_left]

lemma highlightBytes?_eq {line : String} (hline : line.utf8ByteSize < wordLimit) (start : Nat)
    (matched : String) :
    highlightBytes? line start matched =
      some (String.ofList (highlight line.toList start matched.length)) := by
  rw [highlightBytes?, byteSpan?_eq hline, highlight_eq, String.length_toList]
  by_cases hstart : start ≤ line.length
  · have hle : start ≤ min (start + matched.length) line.length := by omega
    have hrest := splitAt?_byteSize_take (String.ofList (line.toList.drop start))
      (min (start + matched.length) line.length - start)
    rw [String.toList_ofList, List.drop_drop, Nat.add_sub_cancel' hle] at hrest
    rw [if_pos hstart, if_neg (Nat.not_lt_of_le hstart)]
    simp only [splitAt?_byteSize_take, checkedSub_byteSize_take _ hle, hrest, Option.bind_eq_bind,
      Option.bind_some, List.drop_take, String.ofList_append]
  · rw [if_neg hstart, if_pos (Nat.lt_of_not_le hstart), String.ofList_toList]

/-- A text put together from pieces with a sequence behind each, and a rest. -/
def coloured (ps : List (List Char × List Char)) (rest : List Char) : List Char :=
  ps.flatMap (fun p => p.1 ++ p.2) ++ rest

lemma uncolour?_coloured (ps : List (List Char × List Char)) (rest : List Char) :
    uncolour? (ps.map fun p => (p.1.length, p.2)) (coloured ps rest) =
      some (ps.flatMap Prod.fst ++ rest) := by
  induction ps with
  | nil => rfl
  | cons p ps ih =>
    have hsplit : coloured (p :: ps) rest = p.1 ++ (p.2 ++ coloured ps rest) := by
      simp [coloured]
    rw [hsplit, List.map_cons, uncolour?, List.drop_left, if_pos (List.prefix_append _ _),
      ← List.drop_drop, List.drop_left, List.drop_left, ih, List.take_left, List.flatMap_cons,
      List.append_assoc]
    rfl

end FontSizeLint.Text
