import FontSizeLint.Json.Writer
import FontSizeLint.Proofs.Json.Grammar

/-! Written texts. The text of a value belongs to the grammar and denotes that value, if its numbers
are integers of 64 bits. -/
namespace FontSizeLint.Json
open Numeric

/-- The value has no numbers but integers that fit in 64 bits, signed or not, and at most so many
arrays and objects one within the other. -/
inductive Plain : Nat → Json → Prop
  | null {n : Nat} : Plain n .null
  | bool {n : Nat} (b : Bool) : Plain n (.bool b)
  | integer {n : Nat} {i : Int} (hl : -2 ^ 63 ≤ i) (hu : i < 2 ^ 64) :
    Plain n (.number (.integer i))
  | string {n : Nat} (s : String) : Plain n (.string s)
  | array {n : Nat} {items : List Json} (h : ∀ v ∈ items, Plain n v) : Plain (n + 1) (.array items)
  | object {n : Nat} {entries : List (String × Json)} (h : ∀ e ∈ entries, Plain n e.2) :
    Plain (n + 1) (.object entries)

section Strings

lemma mem_hexDigits : ∀ n < 16, (Nat.digitChar n, n) ∈ hexDigits := by decide

def Hex4.ofByte (n : Nat) (h : n < 256) : Hex4 where
  digits := [('0', 0), ('0', 0), (Nat.digitChar (n / 16), n / 16), (Nat.digitChar (n % 16), n % 16)]
  length_eq := rfl
  isHex := by
    have hz : ('0', 0) ∈ hexDigits := by decide
    have hd := mem_hexDigits (n / 16) (by omega)
    have hm := mem_hexDigits (n % 16) (by omega)
    simp [hz, hd, hm]

lemma Hex4.value_ofByte {n : Nat} (h : n < 256) : (ofByte n h).value = n := by
  simp only [value, ofByte, List.foldl_cons, List.foldl_nil]
  omega

lemma denotesChar_letter {e c : Char} (h : (e, c) ∈ letterEscapes) : DenotesChar ['\\', e] c :=
  .escaped (.letter h)

lemma denotesChar_control {c : Char} (hc : c.toNat < 0x20) :
    DenotesChar ['\\', 'u', '0', '0', Nat.digitChar (c.toNat / 16), Nat.digitChar (c.toNat % 16)]
      c := by
  have hb : c.toNat < 256 := by omega
  have hv := Hex4.value_ofByte hb
  have hvalid : (Hex4.ofByte c.toNat hb).value.isValidChar := by
    rw [hv]
    exact Or.inl (by omega)
  have hd := DenotesChar.escaped (.numbered hvalid)
  rw [hv, Char.ofNat_toNat] at hd
  exact hd

lemma denotesChar_escaped (c : Char) : DenotesChar (escaped c) c := by
  fun_cases escaped c with
  | case1 h =>
    have hc : c = '"' ∨ c = '\\' := by simpa using h
    rcases hc with rfl | rfl <;> exact denotesChar_letter (by decide)
  | case2 _ h => rw [eq_of_beq h]; exact denotesChar_letter (by decide)
  | case3 _ _ h => rw [eq_of_beq h]; exact denotesChar_letter (by decide)
  | case4 _ _ _ h => rw [eq_of_beq h]; exact denotesChar_letter (by decide)
  | case5 _ _ _ _ h => rw [eq_of_beq h]; exact denotesChar_letter (by decide)
  | case6 _ _ _ _ _ h => rw [eq_of_beq h]; exact denotesChar_letter (by decide)
  | case7 _ _ _ _ _ _ h => exact denotesChar_control h
  | case8 h _ _ _ _ _ hc =>
    have hq : c ≠ '"' ∧ c ≠ '\\' := by simpa using h
    exact .plain (Nat.not_lt.mp hc) hq.1 hq.2

lemma denotesString_stringText (s : String) : DenotesString (stringText s) s := by
  refine ⟨s.toList.map escaped, ?_, ?_⟩
  · rw [List.forall₂_map_left_iff, List.forall₂_same]
    intro c _
    exact denotesChar_escaped c
  · rw [stringText, List.flatMap_def]
    rfl

end Strings

section Numbers

lemma digitsValue_lt (ds : List (Fin 10)) : digitsValue ds < 10 ^ ds.length := by
  induction ds with
  | nil => simp [digitsValue]
  | cons d ds ih =>
    rw [digitsValue, List.length_cons, Nat.pow_succ]
    have hd : (d : Nat) * 10 ^ ds.length ≤ 9 * 10 ^ ds.length :=
      Nat.mul_le_mul_right _ (by omega)
    omega

lemma zero_alone_of_toDigits {n : Nat} {ds : List (Fin 10)}
    (h : digitsText (0 :: ds) = Nat.toDigits 10 n) : ds = [] := by
  by_contra hne
  have hv : digitsValue ds = n := by
    have ho := Nat.ofDigitChars_ten_toDigits (n := n)
    rw [← h, ofDigitChars_digitsText] at ho
    simpa [digitsValue] using ho
  have hlen : (Nat.toDigits 10 n).length ≤ ds.length := by
    rw [Nat.length_toDigits_le_iff (by decide) (List.length_pos_iff.mpr hne), ← hv]
    exact digitsValue_lt ds
  rw [← h, length_digitsText, List.length_cons] at hlen
  omega

lemma denotes_toDigits {k : Nat} (sign : Sign) (hs : sign ≠ .plus) {n : Nat} {x : Number}
    (hx : Number.Parts.number? sign.isNegative ⟨Nat.toDigits 10 n, none, none⟩ = some x) :
    Denotes k (sign.text ++ Nat.toDigits 10 n) (.number x) := by
  obtain ⟨ds, hd⟩ := exists_digitsText (s := Nat.toDigits 10 n)
    fun c hc => Nat.isDigit_of_mem_toDigits (by decide) (by decide) hc
  have hl : IsNumber ⟨sign, ds, none, none⟩ := by
    refine ⟨hs, ?_, ?_, by simp⟩
    · rintro rfl
      exact Nat.toDigits_ne_nil hd.symm
    · rintro es rfl
      exact zero_alone_of_toDigits hd
  have ht : Literal.text ⟨sign, ds, none, none⟩ = sign.text ++ Nat.toDigits 10 n := by
    rw [Literal.text, Literal.unsignedText, hd, fractionText, Exponent.text, List.append_nil,
      List.append_nil]
  rw [← hd] at hx
  rw [← ht]
  exact .number hl hx

lemma number?_toDigits {n : Nat} (h : n < 2 ^ 64) :
    Number.Parts.number? false ⟨Nat.toDigits 10 n, none, none⟩ = some (.integer n) := by
  have hn : n < 18446744073709551616 := h
  simp [Number.Parts.number?, hn]

lemma number?_toDigits_neg {n : Nat} (hz : 0 < n) (h : n ≤ 2 ^ 63) :
    Number.Parts.number? true ⟨Nat.toDigits 10 n, none, none⟩ = some (.integer (-n)) := by
  have hn : n ≤ 9223372036854775808 := h
  simp [Number.Parts.number?, hz, hn]

lemma denotes_integer {k : Nat} {i : Int} (hl : -2 ^ 63 ≤ i) (hu : i < 2 ^ 64) :
    Denotes k (Number.text (.integer i)) (.number (.integer i)) := by
  rw [Number.text, Int.toString_eq_repr, Int.repr_eq_if]
  split
  case isTrue h =>
    have hx := number?_toDigits (n := i.toNat) (by omega)
    rw [Int.toNat_of_nonneg h] at hx
    rw [Nat.repr_eq_ofList_toDigits, String.toList_ofList]
    exact denotes_toDigits .absent (by decide) hx
  case isFalse h =>
    have hx := number?_toDigits_neg (n := (-i).toNat) (by omega) (by omega)
    rw [Int.toNat_of_nonneg (by omega), neg_neg] at hx
    rw [String.toList_append, Nat.repr_eq_ofList_toDigits, String.toList_ofList,
      String.toList_ofList]
    exact denotes_toDigits .minus (by decide) hx

end Numbers

section Layout

lemma prettyItems_eq_map (level : Nat) (items : List Json) :
    prettyItems level items = items.map (pretty level) := by
  induction items with
  | nil => rfl
  | cons v items ih => rw [prettyItems, ih, List.map_cons]

lemma prettyEntries_eq_map (level : Nat) (entries : List (String × Json)) :
    prettyEntries level entries =
      entries.map fun e => stringText e.1 ++ ':' :: ' ' :: pretty level e.2 := by
  induction entries with
  | nil => rfl
  | cons e entries ih => rw [prettyEntries, ih, List.map_cons]

namespace Blank

def one : Blank := ⟨[' '], by simp [blanks]⟩

def indent (level : Nat) : Blank where
  text := indented level
  mem_blanks := by
    have hn : '\n' ∈ blanks := by decide
    have hs : ' ' ∈ blanks := by decide
    rw [indented, List.forall_mem_cons]
    exact ⟨hn, fun c hc => List.eq_of_mem_replicate hc ▸ hs⟩

end Blank

/-- Builds one item from each; only the last has blanks behind it. -/
def padLast {α β : Type} (build : Blank → α → β) (last : Blank) : List α → List β
  | [] => []
  | [a] => [build last a]
  | a :: b :: l => build .none a :: padLast build last (b :: l)

section PadLast

variable {α β : Type} (build : Blank → α → β) (last : Blank) {l : List α}

lemma padLast_ne_nil (h : l ≠ []) : padLast build last l ≠ [] := by
  fun_cases padLast build last l with
  | case1 => exact absurd rfl h
  | case2 a => exact List.cons_ne_nil _ _
  | case3 a b l => exact List.cons_ne_nil _ _

lemma map_padLast {f : β → α} (h : ∀ after a, f (build after a) = a) (l : List α) :
    (padLast build last l).map f = l := by
  fun_induction padLast build last l with
  | case1 => rfl
  | case2 a => rw [List.map_singleton, h]
  | case3 a b l ih => rw [List.map_cons, ih, h]

variable {build last}

lemma exists_of_mem_padLast {b : β} (h : b ∈ padLast build last l) :
    ∃ a ∈ l, ∃ after, build after a = b := by
  fun_induction padLast build last l with
  | case1 => simp at h
  | case2 a => exact ⟨a, by simp, last, (List.mem_singleton.mp h).symm⟩
  | case3 a b l ih =>
    rcases List.mem_cons.mp h with rfl | h
    · exact ⟨a, by simp, .none, rfl⟩
    · obtain ⟨c, hc, hb⟩ := ih h
      exact ⟨c, List.mem_cons_of_mem a hc, hb⟩

lemma intercalate_padLast {text : β → List Char} {g : α → List Char} (hl : l ≠ [])
    (h : ∀ after a, text (build after a) = g a ++ after.text) :
    [','].intercalate ((padLast build last l).map text) =
      [','].intercalate (l.map g) ++ last.text := by
  fun_induction padLast build last l with
  | case1 => exact absurd rfl hl
  | case2 a => simp [h]
  | case3 a b l ih =>
    have hne : (padLast build last (b :: l)).map text ≠ [] := by
      rw [ne_eq, List.map_eq_nil_iff]
      exact padLast_ne_nil build last (List.cons_ne_nil b l)
    rw [List.map_cons, List.intercalate_cons_of_ne_nil hne, ih (List.cons_ne_nil b l), h]
    simp [Blank.none, List.intercalate_cons_cons]

lemma stacked_map {level : Nat} {opener closer : Char} {text : β → List Char} {g : α → List Char}
    (hl : l ≠ [])
    (h : ∀ after a, text (build after a) = indented (level + 1) ++ g a ++ after.text) :
    stacked level opener closer (l.map g) =
      opener :: ([','].intercalate ((padLast build (.indent level) l).map text) ++ [closer]) := by
  rw [intercalate_padLast hl h, stacked]
  · simp [Blank.indent, Function.comp_def]
  · simpa using hl

end PadLast

def lineItem (level : Nat) (after : Blank) (v : Json) : Padded Json :=
  ⟨.indent level, v.pretty level, after, v⟩

lemma text_lineItem (level : Nat) (after : Blank) (v : Json) :
    (lineItem level after v).text = indented level ++ v.pretty level ++ after.text := by
  simp [lineItem, Padded.text, Blank.indent]

def lineMember (level : Nat) (after : Blank) (e : String × Json) : Member :=
  ⟨⟨.indent level, stringText e.1, .none, e.1⟩, ⟨.one, e.2.pretty level, after, e.2⟩⟩

lemma text_lineMember (level : Nat) (after : Blank) (e : String × Json) :
    (lineMember level after e).text =
      indented level ++ (stringText e.1 ++ ':' :: ' ' :: e.2.pretty level) ++ after.text := by
  simp [lineMember, Member.text, Padded.text, Blank.indent, Blank.none, Blank.one]

lemma denotes_pretty_array {n level : Nat} {items : List Json}
    (h : ∀ v ∈ items, Denotes n (v.pretty (level + 1)) v) :
    Denotes (n + 1) (pretty level (.array items)) (.array items) := by
  rw [pretty, prettyItems_eq_map]
  by_cases hne : items = []
  · rw [hne]
    exact .emptyArray .none
  · rw [stacked_map hne (text_lineItem (level + 1))]
    have hd := Denotes.array (n := n) (padLast_ne_nil (lineItem (level + 1)) (.indent level) hne) ?_
    · rwa [map_padLast _ _ fun _ _ => rfl] at hd
    · intro p hp
      obtain ⟨v, hv, after, rfl⟩ := exists_of_mem_padLast hp
      exact h v hv

lemma denotes_pretty_object {n level : Nat} {entries : List (String × Json)}
    (h : ∀ e ∈ entries, Denotes n (e.2.pretty (level + 1)) e.2) :
    Denotes (n + 1) (pretty level (.object entries)) (.object entries) := by
  rw [pretty, prettyEntries_eq_map]
  by_cases hne : entries = []
  · rw [hne]
    exact .emptyObject .none
  · rw [stacked_map hne (text_lineMember (level + 1))]
    have hd := Denotes.object (n := n) (padLast_ne_nil (lineMember (level + 1)) (.indent level) hne)
      ?_ ?_
    · rwa [map_padLast _ _ fun _ _ => rfl] at hd
    · intro m hm
      obtain ⟨e, -, after, rfl⟩ := exists_of_mem_padLast hm
      exact denotesString_stringText e.1
    · intro m hm
      obtain ⟨e, he, after, rfl⟩ := exists_of_mem_padLast hm
      exact h e he

end Layout

/-- A written value denotes itself. -/
theorem denotes_pretty {n : Nat} {v : Json} (h : Plain n v) (level : Nat) :
    Denotes n (v.pretty level) v := by
  induction h generalizing level with
  | null => exact .null
  | bool b => cases b <;> [exact .false; exact .true]
  | integer hl hu => exact denotes_integer hl hu
  | string s => exact .string (denotesString_stringText s)
  | array _ ih => exact denotes_pretty_array fun v hv => ih v hv (level + 1)
  | object _ ih => exact denotes_pretty_object fun e he => ih e he (level + 1)

end FontSizeLint.Json
