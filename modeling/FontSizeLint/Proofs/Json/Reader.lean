import FontSizeLint.Proofs.Json.Token
import FontSizeLint.Proofs.Text.Cut

/-! Reading well-formed texts. Whatever the grammar says a text denotes is what is read from it,
with the entries of its objects sorted, unless it nests too deep. -/
namespace FontSizeLint.Json
open Text

def enterAll (new entries : List (String × Json)) : List (String × Json) :=
  new.foldl (fun entries e => enter e.1 e.2 entries) entries

mutual
/-- The value with the entries of each object by name, the last only of those of one name. -/
def sorted : Json → Json
  | null => null
  | bool b => bool b
  | number n => number n
  | string s => string s
  | array items => array (sortedItems items)
  | object entries => object (enterAll (sortedEntries entries) [])
def sortedItems : List Json → List Json
  | [] => []
  | v :: vs => sorted v :: sortedItems vs
def sortedEntries : List (String × Json) → List (String × Json)
  | [] => []
  | (k, v) :: es => (k, sorted v) :: sortedEntries es
end

namespace State

def run (st : State) (s : List Char) : Except ReadError State :=
  ((pieces Token.first 0 s).map Prod.fst).foldlM step st

lemma run_token {st : State} {s r : List Char} {t : Token} (hs : s ≠ [])
    (h : Token.first (s ++ r) = (t, s.length)) : run st (s ++ r) = step st t >>= (run · r) := by
  have hpos : 0 < (Token.first (s ++ r)).2 := by
    rw [h]
    exact List.length_pos_iff.mpr hs
  rw [run, pieces_step hpos (by simp [hs]), h, List.drop_left]
  rfl

lemma run_char {st : State} {c : Char} {r : List Char} {t : Token}
    (h : Token.first (c :: r) = (t, 1)) : run st (c :: r) = step st t >>= (run · r) :=
  run_token (s := [c]) (List.cons_ne_nil c []) h

lemma run_mark {c : Char} (hc : c ∈ Token.marks) (st : State) (r : List Char) :
    run st (c :: r) = step st (.mark c) >>= (run · r) :=
  run_char (Token.first_of_mem_marks hc r)

lemma step_space (st : State) : step st .space = .ok st := by cases st <;> rfl

lemma run_blank (b : Blank) (st : State) (r : List Char) : run st (b.text ++ r) = run st r := by
  obtain ⟨s, hs⟩ := b
  induction s with
  | nil => rfl
  | cons c s ih =>
    rw [List.forall_mem_cons] at hs
    change run st (c :: (s ++ r)) = _
    rw [run_char (Token.first_of_mem_blanks hs.1 _), step_space]
    exact ih hs.2

/-- In front of a delimiter the text gives the value to whatever waits for it, if there is room for
so many more arrays and objects. -/
def Supplies (room : Nat) (s : List Char) (v : Json) : Prop :=
  ∀ (frames : List Frame) (mayEnd : Bool) (r : List Char), frames.length + room ≤ depthLimit →
    Token.Delimited r → run (.value frames mayEnd) (s ++ r) = run (supply v frames) r

lemma supplies_scalar {n : Nat} {s : List Char} {v : Json} (hs : s ≠ [])
    (h : ∀ r, Token.Delimited r → Token.first (s ++ r) = (.scalar v, s.length)) :
    Supplies n s v := by
  intro frames mayEnd r _ hr
  rw [run_token hs (h r hr)]
  rfl

lemma Supplies.padded {n : Nat} {p : Padded Json} {v : Json} (h : Supplies n p.core v)
    (frames : List Frame) (hn : frames.length + n ≤ depthLimit) (mayEnd : Bool) {r : List Char}
    (hr : Token.Delimited r) :
    run (.value frames mayEnd) (p.text ++ r) = run (supply v frames) r := by
  rw [Padded.text, List.append_assoc, List.append_assoc, run_blank,
    h frames mayEnd _ hn (Token.delimited_append p.after hr), run_blank]

lemma run_items {n : Nat} {items : List (Padded Json)} (hne : items ≠ [])
    (h : ∀ p ∈ items, Supplies n p.core p.meaning.sorted) {frames : List Frame}
    (hn : frames.length + 1 + n ≤ depthLimit) (before : List Json) (mayEnd : Bool) (r : List Char) :
    run (.value (.array before :: frames) mayEnd)
        ([','].intercalate (items.map Padded.text) ++ ']' :: r) =
      run (supply (.array (before ++ sortedItems (items.map Padded.meaning))) frames) r := by
  induction items generalizing before mayEnd with
  | nil => exact absurd rfl hne
  | cons p items ih =>
    rw [List.forall_mem_cons] at h
    cases items with
    | nil =>
      rw [List.map_singleton, List.intercalate_singleton,
        h.1.padded (.array before :: frames) hn mayEnd (Token.delimited_cons (by decide) r), supply,
        run_mark (by decide)]
      rfl
    | cons q items =>
      rw [List.map_cons, List.map_cons, List.intercalate_cons_cons, ← List.map_cons,
        List.append_assoc, List.append_assoc, List.singleton_append,
        h.1.padded (.array before :: frames) hn mayEnd (Token.delimited_cons (by decide) _), supply,
        run_mark (by decide)]
      change run (.value (.array (before ++ [p.meaning.sorted]) :: frames) false) _ = _
      rw [ih (List.cons_ne_nil q items) h.2, List.append_assoc]
      rfl

lemma run_member {n : Nat} {m : Member} (hk : DenotesString m.name.core m.name.meaning)
    (hv : Supplies n m.value.core m.value.meaning.sorted) {frames : List Frame}
    (hn : frames.length + 1 + n ≤ depthLimit) (entries : List (String × Json)) (mayEnd : Bool)
    {r : List Char} (hr : Token.Delimited r) :
    run (.key entries frames mayEnd) (m.text ++ r) =
      run (.afterEntry (enter m.name.meaning m.value.meaning.sorted entries) frames) r := by
  have hne : m.name.core ≠ [] := by
    obtain ⟨letters, -, h⟩ := hk
    simp [h]
  rw [Member.text, Padded.text, List.append_assoc, List.append_assoc, List.append_assoc,
    List.cons_append, run_blank, run_token hne (Token.first_string hk _)]
  change run (.colon entries m.name.meaning frames) _ = _
  rw [run_blank, run_mark (by decide)]
  change run (.value (.object entries m.name.meaning :: frames) false) _ = _
  rw [hv.padded (.object entries m.name.meaning :: frames) hn false hr, supply]

lemma run_members {n : Nat} {members : List Member} (hne : members ≠ [])
    (hk : ∀ m ∈ members, DenotesString m.name.core m.name.meaning)
    (hv : ∀ m ∈ members, Supplies n m.value.core m.value.meaning.sorted) {frames : List Frame}
    (hn : frames.length + 1 + n ≤ depthLimit) (entries : List (String × Json)) (mayEnd : Bool)
    (r : List Char) :
    run (.key entries frames mayEnd) ([','].intercalate (members.map Member.text) ++ '}' :: r) =
      run (supply (.object (enterAll (sortedEntries (members.map Member.entry)) entries)) frames)
        r := by
  induction members generalizing entries mayEnd with
  | nil => exact absurd rfl hne
  | cons m members ih =>
    rw [List.forall_mem_cons] at hk hv
    cases members with
    | nil =>
      rw [List.map_singleton, List.intercalate_singleton,
        run_member hk.1 hv.1 hn entries mayEnd (Token.delimited_cons (by decide) r),
        run_mark (by decide)]
      rfl
    | cons m' members =>
      rw [List.map_cons, List.map_cons, List.intercalate_cons_cons, ← List.map_cons,
        List.append_assoc, List.append_assoc, List.singleton_append,
        run_member hk.1 hv.1 hn entries mayEnd (Token.delimited_cons (by decide) _),
        run_mark (by decide)]
      change run (.key _ frames false) _ = _
      rw [ih (List.cons_ne_nil m' members) hk.2 hv.2]
      rfl

lemma step_bracket {frames : List Frame} (h : frames.length < depthLimit) (mayEnd : Bool) :
    step (.value frames mayEnd) (.mark '[') = .ok (.value (.array [] :: frames) true) := by
  simp [step, stepValue, deeper, h]

lemma step_brace {frames : List Frame} (h : frames.length < depthLimit) (mayEnd : Bool) :
    step (.value frames mayEnd) (.mark '{') = .ok (.key [] frames true) := by
  simp [step, stepValue, deeper, h]

/-- What a text denotes is what it supplies. -/
theorem supplies_of_denotes {n : Nat} {s : List Char} {v : Json} (h : Denotes n s v) :
    Supplies n s v.sorted := by
  induction h with
  | null => exact supplies_scalar (by simp) fun r _ => rfl
  | true => exact supplies_scalar (by simp) fun r _ => rfl
  | false => exact supplies_scalar (by simp) fun r _ => rfl
  | @number n l x hl hx =>
    refine supplies_scalar ?_ fun r hr => Token.first_number hl hx hr
    obtain ⟨c, -, s, hs⟩ := Token.exists_numberHead hl
    simp [hs]
  | string h =>
    refine supplies_scalar ?_ fun r _ => Token.first_string h r
    obtain ⟨letters, -, rfl⟩ := h
    simp
  | emptyArray b =>
    intro frames mayEnd r hn _
    rw [List.cons_append, List.append_assoc, run_mark (by decide), step_bracket (by omega)]
    change run (.value (.array [] :: frames) true) _ = _
    rw [run_blank, List.singleton_append, run_mark (by decide)]
    rfl
  | @array n items hne _ ih =>
    intro frames mayEnd r hn _
    rw [List.cons_append, List.append_assoc, run_mark (by decide), step_bracket (by omega)]
    exact run_items hne ih (by omega) [] true r
  | emptyObject b =>
    intro frames mayEnd r hn _
    rw [List.cons_append, List.append_assoc, run_mark (by decide), step_brace (by omega)]
    change run (.key [] frames true) _ = _
    rw [run_blank, List.singleton_append, run_mark (by decide)]
    rfl
  | @object n members hne hk _ ih =>
    intro frames mayEnd r hn _
    rw [List.cons_append, List.append_assoc, run_mark (by decide), step_brace (by omega)]
    exact run_members hne hk ih (by omega) [] true r

end State

lemma readLeading_eq_run (s : List Char) :
    readLeading s = State.run (.value [] false) s >>= State.result := rfl

/-- A text of the grammar is read as the value that it denotes, with sorted entries. -/
theorem read_of_denotes {n : Nat} (hn : n ≤ State.depthLimit) {p : Padded Json}
    (h : Denotes n p.core p.meaning) : read p.text = .ok p.meaning.sorted := by
  have hrun := (State.supplies_of_denotes h).padded [] (by simpa using hn) false Token.delimited_nil
  rw [List.append_nil] at hrun
  rw [read, readLeading_eq_run, hrun]
  rfl

end FontSizeLint.Json
