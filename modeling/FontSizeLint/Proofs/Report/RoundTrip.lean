import FontSizeLint.Report
import FontSizeLint.Proofs.Json.Reader
import FontSizeLint.Proofs.Json.Writer

/-! Reports as JSON texts. A report belongs to the grammar and denotes the array of its records, and
the same records are read from it. -/
namespace FontSizeLint

namespace Record
open Json

/-- Line and column fit in 32 bits. -/
def Fits (r : Record) : Prop := r.line < 2 ^ 32 ∧ r.col < 2 ^ 32

lemma plain_toJson {r : Record} (h : r.Fits) : Plain 1 r.toJson := by
  obtain ⟨hl, hc⟩ := h
  refine .object ?_
  simp only [List.forall_mem_cons]
  exact ⟨.string _, .integer (by omega) (by omega), .integer (by omega) (by omega), .string _,
    .string _, by simp⟩

lemma sorted_toJson (r : Record) : r.toJson.sorted = .object
    [("col", .number (.integer r.col)), ("colorMessage", .string r.colorMessage),
      ("line", .number (.integer r.line)), ("message", .string r.message),
      ("ruleName", .string r.ruleName)] := by
  simp only [toJson, Field.name, sorted, sortedEntries, enterAll, List.foldl_cons, List.foldl_nil,
    enter, String.reduceEq, String.reduceLT, if_false, if_true]

lemma wordOf_natCast {n : Nat} (h : n < 2 ^ 32) : wordOf (.number (.integer n)) = .ok n := by
  have hn : (0 : Int) ≤ n ∧ (n : Int) < Nat.pow 2 32 := ⟨by omega, by exact_mod_cast h⟩
  rw [wordOf, if_pos hn, Int.toNat_natCast]

-- The two words are variables: unfolding their comparison with the limit would count up to it.
lemma ofEntries_sorted {r : Record} {line col : Json} (hl : wordOf line = .ok r.line)
    (hc : wordOf col = .ok r.col) : ofEntries
      [("col", col), ("colorMessage", .string r.colorMessage), ("line", line),
        ("message", .string r.message), ("ruleName", .string r.ruleName)] = .ok r := by
  simp only [ofEntries, List.foldlM_cons, List.foldlM_nil, Draft.take, hl, hc, stringOf, Except.map]
  rfl

lemma ofJson_sorted_toJson {r : Record} (h : r.Fits) : ofJson r.toJson.sorted = .ok r := by
  rw [sorted_toJson, ofJson, ofEntries_sorted (wordOf_natCast h.1) (wordOf_natCast h.2)]

end Record

namespace Report
open Json

lemma mapM_ofJson_sortedItems {records : List Record} (h : ∀ r ∈ records, r.Fits) :
    (sortedItems (records.map Record.toJson)).mapM Record.ofJson = .ok records := by
  induction records with
  | nil => rfl
  | cons r records ih =>
    rw [List.forall_mem_cons] at h
    rw [List.map_cons, sortedItems, List.mapM_cons, Record.ofJson_sorted_toJson h.1, ih h.2]
    rfl

lemma denotes_json {records : List Record} (h : ∀ r ∈ records, r.Fits) :
    Denotes 2 (json records).toList (.array (records.map Record.toJson)) := by
  have hplain : Plain 2 (.array (records.map Record.toJson)) := by
    refine .array ?_
    rw [List.forall_mem_map]
    exact fun r hr => Record.plain_toJson (h r hr)
  rw [json, String.toList_ofList]
  exact denotes_pretty hplain 0

lemma read_json {records : List Record} (h : ∀ r ∈ records, r.Fits) :
    Json.read (json records).toList = .ok (.array (sortedItems (records.map Record.toJson))) := by
  have hread := read_of_denotes (p := .bare _ _) (by decide) (denotes_json h)
  rwa [Padded.text_bare] at hread

/-- A report is a JSON text of the array of its records, and the same records are read from it,
whatever characters their texts have. -/
theorem json_round_trip {records : List Record}
    (h : ∀ r ∈ records, r.line < 2 ^ 32 ∧ r.col < 2 ^ 32) :
    IsText (json records).toList (.array (records.map Record.toJson)) ∧
      ofJson (json records) = .ok records := by
  constructor
  · exact ⟨.bare _ _, 2, Padded.text_bare _ _, rfl, denotes_json h⟩
  · rw [ofJson, read_json h]
    simp only [mapM_ofJson_sortedItems h]

/-- Every kind of escape, characters that are not escaped, and the greatest numbers. -/
def awkward : Record where
  ruleName := "\"no\\small/type\""
  line := 4294967295
  col := 4294967295
  message := "\x00\x08\t\n\x0c\r\x1f\x7f\\u0041é😀"
  colorMessage := "\x1b[35m9px\x1b[39m"

theorem json_round_trip_awkward : (∀ r ∈ [awkward, awkward], r.line < 2 ^ 32 ∧ r.col < 2 ^ 32) ∧
    IsText (json [awkward, awkward]).toList (.array [awkward.toJson, awkward.toJson]) ∧
      ofJson (json [awkward, awkward]) = .ok [awkward, awkward] := by
  have h : ∀ r ∈ [awkward, awkward], r.line < 2 ^ 32 ∧ r.col < 2 ^ 32 := by simp [awkward]
  exact ⟨h, json_round_trip h⟩

end Report

end FontSizeLint
