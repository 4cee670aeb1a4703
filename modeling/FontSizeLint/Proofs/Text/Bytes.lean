import FontSizeLint.Text.Highlight
import Mathlib.Data.List.Infix
import Mathlib.Tactic.Lemma

/-! Texts by their bytes in UTF-8. Byte offsets of characters are where a text can be split, and to
whoever looks for ASCII characters only, the bytes of a text are as good as its characters. -/
namespace FontSizeLint.Text

/-- The bytes of a text, each as the character of its number. -/
def octets (s : String) : List Char := s.toByteArray.data.toList.map Char.ofUInt8

def byteSize (s : List Char) : Nat := (String.ofList s).utf8ByteSize

@[simp] lemma byteSize_nil : byteSize [] = 0 := rfl

lemma byteSize_append (s t : List Char) : byteSize (s ++ t) = byteSize s + byteSize t := by
  rw [byteSize, String.ofList_append, String.utf8ByteSize_append]
  rfl

lemma byteSize_singleton (c : Char) : byteSize [c] = c.utf8Size := by
  rw [byteSize, ← String.singleton_eq_ofList, String.utf8ByteSize_singleton]

lemma byteSize_cons (c : Char) (s : List Char) : byteSize (c :: s) = c.utf8Size + byteSize s := by
  rw [← List.singleton_append, byteSize_append, byteSize_singleton]

lemma byteSize_toList (s : String) : byteSize s.toList = s.utf8ByteSize := by
  rw [byteSize, String.ofList_toList]

lemma length_le_byteSize (s : List Char) : s.length ≤ byteSize s := by
  induction s with
  | nil => exact Nat.le_refl 0
  | cons c s ih =>
    have hc := c.utf8Size_pos
    rw [List.length_cons, byteSize_cons]
    omega

lemma splitAt?_append (s t : String) : splitAt? (s ++ t) s.utf8ByteSize = some (s, t) := by
  have hvalid : (String.Pos.Raw.mk s.utf8ByteSize).IsValid (s ++ t) :=
    String.Pos.Raw.isValid_iff_exists_append.mpr ⟨s, t, rfl, rfl⟩
  have hsplits : String.Pos.Splits (s := s ++ t) ⟨_, hvalid⟩ s t := ⟨rfl, rfl⟩
  obtain ⟨hleft, hright⟩ := (String.Pos.splits _).eq hsplits
  rw [splitAt?, dif_pos hvalid, hleft, hright]

lemma ofList_take_append_drop (s : String) (i : Nat) :
    String.ofList (s.toList.take i) ++ String.ofList (s.toList.drop i) = s := by
  rw [← String.ofList_append, List.take_append_drop, String.ofList_toList]

lemma splitAt?_byteSize_take (s : String) (i : Nat) :
    splitAt? s (byteSize (s.toList.take i)) =
      some (String.ofList (s.toList.take i), String.ofList (s.toList.drop i)) := by
  have h := splitAt?_append (String.ofList (s.toList.take i)) (String.ofList (s.toList.drop i))
  rwa [ofList_take_append_drop] at h

lemma isValid_byteSize_take (s : String) (i : Nat) :
    String.Pos.Raw.IsValid s ⟨byteSize (s.toList.take i)⟩ :=
  String.Pos.Raw.isValid_iff_exists_append.mpr
    ⟨_, String.ofList (s.toList.drop i), (ofList_take_append_drop s i).symm, rfl⟩

lemma byteSize_le_of_isPrefix {s t : List Char} (h : s <+: t) : byteSize s ≤ byteSize t := by
  obtain ⟨u, rfl⟩ := h
  rw [byteSize_append]
  exact Nat.le_add_right _ _

lemma getElem?_charOffsets (s : List Char) (o i : Nat) :
    (charOffsets o s ++ [o + byteSize s])[i]? =
      if i ≤ s.length then some (o + byteSize (s.take i)) else none := by
  induction s generalizing o i with
  | nil => cases i <;> simp [charOffsets]
  | cons c s ih =>
    cases i with
    | zero => simp [charOffsets]
    | succ i =>
      have hi := ih (o + c.utf8Size) i
      rw [Nat.add_assoc] at hi
      simp only [charOffsets, byteSize_cons, List.cons_append, List.getElem?_cons_succ, hi,
        List.length_cons, List.take_succ_cons, Nat.add_le_add_iff_right, Nat.add_assoc]

lemma byteOffset?_eq (s : String) (i : Nat) :
    byteOffset? s i = if i ≤ s.length then some (byteSize (s.toList.take i)) else none := by
  have h := getElem?_charOffsets s.toList 0 i
  rwa [Nat.zero_add, Nat.zero_add, byteSize_toList, String.length_toList] at h

lemma octets_ofList (s : List Char) :
    octets (String.ofList s) = s.flatMap fun c => (String.utf8EncodeChar c).map Char.ofUInt8 := by
  rw [octets, String.toByteArray_ofList, List.utf8Encode, List.data_toByteArray, List.toList_toArray,
    List.map_flatMap]

lemma octets_of_ascii {c : Char} (h : c.toNat < 128) :
    (String.utf8EncodeChar c).map Char.ofUInt8 = [c] := by
  have hc : c.val.toNat ≤ 127 := Nat.le_of_lt_succ h
  have hbyte : (UInt8.ofNat c.val.toNat).toNat = c.val.toNat :=
    UInt8.toNat_ofNat_of_lt' (Nat.lt_of_le_of_lt hc (by decide))
  rw [String.utf8EncodeChar, if_pos hc, List.map_singleton, List.singleton_inj]
  exact Char.toNat_inj.mp hbyte

lemma exists_octets_of_not_ascii {c : Char} (h : 128 ≤ c.toNat) :
    ∃ d r, (String.utf8EncodeChar c).map Char.ofUInt8 = d :: r ∧ 128 ≤ d.toNat := by
  have hc : ¬ c.val.toNat ≤ 127 := Nat.not_le_of_lt h
  have hbyte : ∀ n, 128 ≤ n → n < 256 → 128 ≤ (Char.ofUInt8 (UInt8.ofNat n)).toNat := by
    intro n hl hu
    change 128 ≤ (UInt8.ofNat n).toNat
    rwa [UInt8.toNat_ofNat_of_lt' hu]
  rw [String.utf8EncodeChar, if_neg hc]
  split_ifs <;> exact ⟨_, _, rfl, hbyte _ (by omega) (by omega)⟩

lemma isPrefix_octets_iff {u : List Char} (hu : ∀ c ∈ u, c.toNat < 128) (s : String) :
    u <+: octets s ↔ u <+: s.toList := by
  obtain ⟨s, rfl⟩ : ∃ l, s = String.ofList l := ⟨s.toList, (String.ofList_toList).symm⟩
  rw [octets_ofList, String.toList_ofList]
  induction u generalizing s with
  | nil => simp
  | cons c u ih =>
    rw [List.forall_mem_cons] at hu
    cases s with
    | nil => simp
    | cons d s =>
      rw [List.flatMap_cons]
      by_cases hd : d.toNat < 128
      · rw [octets_of_ascii hd, List.singleton_append, List.cons_prefix_cons, List.cons_prefix_cons,
          ih hu.2]
      · obtain ⟨e, r, he, hle⟩ := exists_octets_of_not_ascii (Nat.le_of_not_lt hd)
        have hce : c ≠ e := by
          rintro rfl
          omega
        have hcd : c ≠ d := by
          rintro rfl
          exact hd hu.1
        simp [he, List.cons_prefix_cons, hce, hcd]

lemma byteSize_of_ascii {s : List Char} (h : ∀ c ∈ s, c.toNat < 128) : byteSize s = s.length := by
  induction s with
  | nil => rfl
  | cons c s ih =>
    rw [List.forall_mem_cons] at h
    have hc : c.utf8Size = 1 := Char.utf8Size_eq_one_iff.mpr (UInt32.le_iff_toNat_le.mpr (Nat.le_of_lt_succ h.1))
    rw [byteSize_cons, hc, ih h.2, List.length_cons, Nat.add_comm]

end FontSizeLint.Text
