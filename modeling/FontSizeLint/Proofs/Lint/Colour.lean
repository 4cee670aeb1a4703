import FontSizeLint.Proofs.Lint.Violations
import FontSizeLint.Proofs.Text.Highlight

/-! The coloured message of a record is its message with colours put in, at places that the line and the
part tell. -/
namespace FontSizeLint
open Text Css

namespace Rule
section Record
variable (r : Rule) (p : Part) (line : List Char)

/-- The colours in the coloured message about a part on a line, each so many characters behind the one
before. -/
def colours : List (Nat × List Char) :=
  let start := p.position.col - 1
  let stop := min (start + p.text.length) line.length
  if line.length < start then [(line.length + 3, brightBlack), (r.stem.length, plain)]
  else [(start + 1, magenta), (stop - start, plain), (line.length - stop + 2, brightBlack),
    (r.stem.length, plain)]

/-- The characters of the message up to each colour, with the colour. -/
def pieces : List (List Char × List Char) :=
  let start := p.position.col - 1
  let stop := min (start + p.text.length) line.length
  if line.length < start then [('`' :: line ++ ['`', ' '], brightBlack), (r.stem, plain)]
  else [('`' :: line.take start, magenta), ((line.take stop).drop start, plain),
    (line.drop stop ++ ['`', ' '], brightBlack), (r.stem, plain)]

lemma colours_eq_map : r.colours p line = (r.pieces p line).map fun q => (q.1.length, q.2) := by
  unfold colours pieces
  generalize p.position.col - 1 = start
  by_cases h : line.length < start
  · simp [h]
  · have hstart : start ≤ line.length := Nat.le_of_not_lt h
    simp [h, hstart]

lemma toList_colorMessage_record :
    (r.record p line).colorMessage.toList = coloured (r.pieces p line) [] := by
  have hcolor : (r.record p line).colorMessage.toList =
      '`' :: highlight line (p.position.col - 1) p.text.length ++ '`' :: ' ' :: muted r.stem :=
    String.toList_ofList
  rw [hcolor, highlight_eq, pieces]
  split_ifs <;> simp [coloured, muted]

lemma toList_message_record :
    (r.record p line).message.toList = (r.pieces p line).flatMap Prod.fst := by
  have hmessage : (r.record p line).message.toList = '`' :: line ++ '`' :: ' ' :: r.stem :=
    String.toList_ofList
  rw [hmessage, pieces]
  generalize p.position.col - 1 = start
  split_ifs with h
  · simp
  · generalize hstop : min (start + p.text.length) line.length = stop
    have hle : start ≤ stop := by omega
    have htake : line.take start = (line.take stop).take start := by
      rw [List.take_take, Nat.min_eq_left hle]
    have hline : line.take start ++ ((line.take stop).drop start ++ line.drop stop) = line := by
      rw [htake, ← List.append_assoc, List.take_append_drop, List.take_append_drop]
    conv_lhs => rw [← hline]
    simp

lemma uncolour?_record : uncolour? (r.colours p line) (r.record p line).colorMessage.toList =
    some (r.record p line).message.toList := by
  rw [colours_eq_map, toList_colorMessage_record, uncolour?_coloured, List.append_nil,
    toList_message_record]

end Record
end Rule

/-- Highlighting puts two colours into a line whose size is a word, one behind as many characters as the
index says and one behind the span, which ends where the line ends if it is too long; behind the end of
the line it changes nothing. The byte offsets that it looks up stand between characters, the first of
them not behind the second, so that it never fails, whatever the index and the span are. So every
recorded violation has a coloured message that is its message once the colours are taken out. -/
theorem colours_only_inserted :
    (∀ (line : String) (start : Nat) (matched : String), line.utf8ByteSize < wordLimit →
      highlightBytes? line start matched =
        some (String.ofList (highlight line.toList start matched.length)) ∧
      (start ≤ line.length → ∃ first stop, byteSpan? line start matched.length = some (first, stop) ∧
        first ≤ stop ∧ String.Pos.Raw.IsValid line ⟨first⟩ ∧ String.Pos.Raw.IsValid line ⟨stop⟩)) ∧
    (∀ (line : List Char) (start span : Nat), highlight line start span =
      if line.length < start then line
      else line.take start ++ magenta ++ (line.take (min (start + span) line.length)).drop start ++
        plain ++ line.drop (min (start + span) line.length)) ∧
    ∀ (r : Rule) (p : Part) (x : Record), r.inspect p = some (.violation x) →
      ∃ line, r.line? p.position.line = some line ∧
        uncolour? (r.colours p line) x.colorMessage.toList = some x.message.toList := by
  refine ⟨fun line start matched hline => ⟨highlightBytes?_eq hline start matched, fun hstart => ?_⟩,
    highlight_eq, fun r p x hx => ?_⟩
  · have hle : start ≤ min (start + matched.length) line.length := by omega
    have hspan := byteSpan?_eq hline start matched.length
    rw [if_pos hstart] at hspan
    exact ⟨_, _, hspan, byteSize_le_of_isPrefix (List.take_prefix_take_left hle),
      isValid_byteSize_take line _, isValid_byteSize_take line _⟩
  · obtain ⟨line, hline, rfl⟩ := Rule.exists_line_of_inspect hx
    exact ⟨line, hline, r.uncolour?_record p line⟩

/-- A span behind a character of three bytes that goes beyond the end of its line, and the largest of all
indices. -/
theorem colours_only_inserted_clamped :
    let line := "/*字*/ 9px"
    let p : Part := ⟨some (.finite ⟨false, ⟨0x41100000, by decide⟩⟩), "9px 10px", ⟨1, 7⟩⟩
    let r : Rule := ⟨"min-font-size", line, ⟨⟨0x41400000, by decide⟩, by decide⟩⟩
    line.utf8ByteSize < wordLimit ∧
    highlightBytes? line 6 p.text = some "/*字*/ \x1b[35m9px\x1b[39m" ∧
    highlightBytes? line (wordLimit - 1) p.text = some line ∧
    byteSpan? line 6 p.text.length = some (8, 11) ∧
    r.inspect p = some (.violation (r.report p)) ∧
    (r.report p).colorMessage = "`/*字*/ \x1b[35m9px\x1b[39m` " ++
      "\x1b[90mfont-size should not be less than 12px\x1b[39m" ∧
    ∃ l, r.line? 1 = some l ∧
      uncolour? (r.colours p l) (r.report p).colorMessage.toList =
        some (r.report p).message.toList := by
  intro line p r
  have hline : line.utf8ByteSize < wordLimit := by decide
  have hx : r.inspect p = some (.violation (r.report p)) :=
    r.inspect_of_line (l := line.toList) (by decide +kernel)
  obtain ⟨hbytes, -, hrecord⟩ := colours_only_inserted
  refine ⟨hline, (hbytes line 6 p.text hline).1.trans ?_,
    (hbytes line (wordLimit - 1) p.text hline).1.trans ?_, ?_, hx, ?_, hrecord r p _ hx⟩
  all_goals decide +kernel

end FontSizeLint
