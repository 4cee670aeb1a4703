import FontSizeLint.Session
import Mathlib.Tactic.Lemma
import Mathlib.Tactic.SplitIfs

/-! What effects do to the lists of a session: a list grows by the records collected into it, in
order, and by nothing else. -/
namespace FontSizeLint
open Text Css

def Effect.record? (list : Nat) : Effect → Option Record
  | .collect l record => if l = list then some record else none
  | _ => none

namespace Session

@[simp] lemma length_lists_append (s : Session) (list : Nat) (r : Record) :
    (s.append list r).lists.length = s.lists.length := by simp [append]

@[simp] lemma length_lists_apply (s : Session) (e : Effect) :
    (s.apply e).lists.length = s.lists.length := by
  cases e <;> simp [apply]

lemma records_append (s : Session) (list other : Nat) (r : Record) (h : other < s.lists.length) :
    (s.append list r).records other =
      s.records other ++ if list = other then [r] else [] := by
  simp only [records, append, List.getElem?_modify]
  split_ifs with hl <;> simp [List.getElem?_eq_getElem h]

lemma records_apply (s : Session) (e : Effect) (list : Nat) (h : list < s.lists.length) :
    (s.apply e).records list = s.records list ++ (e.record? list).toList := by
  cases e with
  | collect l r =>
    rw [apply, records_append s l list r h]
    split_ifs with hl <;> simp [Effect.record?, hl]
  | sighting tag d => simp [apply, Effect.record?]
  | notice n => simp [apply, Effect.record?]

lemma frame_foldl_apply (es : List Effect) (s : Session) :
    (es.foldl apply s).names = s.names ∧ (es.foldl apply s).listeners = s.listeners ∧
      (es.foldl apply s).lists.length = s.lists.length := by
  induction es generalizing s with
  | nil => exact ⟨rfl, rfl, rfl⟩
  | cons e es ih =>
    obtain ⟨hn, hl, hs⟩ := ih (s.apply e)
    rw [List.foldl_cons, hn, hl, hs, length_lists_apply]
    cases e <;> exact ⟨rfl, rfl, rfl⟩

/-- Effects add their records in order. -/
theorem records_foldl_apply (es : List Effect) (s : Session) (list : Nat)
    (h : list < s.lists.length) :
    (es.foldl apply s).records list = s.records list ++ es.filterMap (Effect.record? list) := by
  induction es generalizing s with
  | nil => simp
  | cons e es ih =>
    rw [List.foldl_cons, ih (s.apply e) (by simpa using h), records_apply s e list h,
      List.append_assoc, List.filterMap_cons]
    cases e.record? list <;> rfl

lemma filterMap_walk {α : Type} {f : Effect → Option α}
    (hf : ∀ n, n.level ≠ .warn → f (.notice n) = none) (s : Session) (sheet : Stylesheet) :
    (s.walk sheet).filterMap f = sheet.declarations.flatMap fun d => (s.hear d).filterMap f := by
  have hv : ∀ name position, f (.notice (.visited name position)) = none :=
    fun name position => hf _ (by simp [Notice.level])
  have hw : ∀ n m k, f (.notice (.walked n m k)) = none :=
    fun n m k => hf _ (by simp [Notice.level])
  simp only [walk, List.filterMap_append, List.filterMap_flatMap, List.filterMap_cons, hv, hw,
    List.filterMap_nil, List.append_nil]

lemma filterMap_record?_walk (s : Session) (sheet : Stylesheet) (list : Nat) :
    (s.walk sheet).filterMap (Effect.record? list) =
      sheet.declarations.flatMap fun d => (s.hear d).filterMap (Effect.record? list) :=
  filterMap_walk (fun _ _ => rfl) s sheet

lemma level_of_mem_walk {s : Session} {sheet : Stylesheet} {n : Notice}
    (h : .notice n ∈ s.walk sheet) :
    n.level ≠ .warn ∨ ∃ d ∈ sheet.declarations, .notice n ∈ s.hear d := by
  rcases List.mem_append.mp h with h | h
  · obtain ⟨d, hd, h⟩ := List.mem_flatMap.mp h
    rcases List.mem_cons.mp h with h | h
    · rw [Effect.notice.inj h]
      exact .inl (by simp [Notice.level])
    · exact .inr ⟨d, hd, h⟩
  · rw [Effect.notice.inj (List.mem_singleton.mp h)]
    exact .inl (by simp [Notice.level])

end Session
end FontSizeLint
