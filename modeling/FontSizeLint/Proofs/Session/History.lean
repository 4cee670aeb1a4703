import FontSizeLint.Proofs.Session.Effects
import Mathlib.Order.Nat

/-! Sessions step by step: the state in which each step is taken, and what holds in every state that
steps lead to. Neither a name nor a rule stands for a list that has not been made. -/
namespace FontSizeLint

/-- A step and the session in which it is taken. -/
structure Moment where
  session : Session
  step : Step

def Moment.outcome (m : Moment) : Outcome := m.session.step m.step

namespace Session

/-- The steps taken one after the other, each with the session it is taken in. -/
def moments (s : Session) : List Step → List Moment
  | [] => []
  | x :: xs => ⟨s, x⟩ :: moments (s.step x).session xs

def after (s : Session) (xs : List Step) : Session := xs.foldl (fun s x => (s.step x).session) s

@[simp] lemma after_nil (s : Session) : s.after [] = s := rfl

@[simp] lemma after_cons (s : Session) (x : Step) (xs : List Step) :
    s.after (x :: xs) = (s.step x).session.after xs := rfl

@[simp] lemma after_append (s : Session) (xs ys : List Step) :
    s.after (xs ++ ys) = (s.after xs).after ys := List.foldl_append

lemma moments_append (s : Session) (xs ys : List Step) :
    s.moments (xs ++ ys) = s.moments xs ++ (s.after xs).moments ys := by
  induction xs generalizing s with
  | nil => rfl
  | cons x xs ih => simp [moments, ih]

lemma list?_bind (s : Session) (name other : String) (list : Nat) :
    (s.bind name list).list? other = if name = other then some list else s.list? other := by
  unfold bind list?
  split_ifs with h
  · simp [h]
  · rw [List.find?_cons_of_neg (by simpa using h), List.find?_filter]
    congr 2
    funext n
    by_cases hn : n.1 = other <;> simp [hn, Ne.symm h]

lemma withList_some {s : Session} {name : String} {list : Nat} (h : s.list? name = some list)
    (f : Nat → Outcome) : s.withList name f = f list := by rw [withList, h]

lemma withList_none {s : Session} {name : String} (h : s.list? name = none)
    (f : Nat → Outcome) : s.withList name f = ⟨s, .nothing, []⟩ := by rw [withList, h]

lemma withList_induction {motive : Outcome → Prop} (s : Session) (name : String)
    (f : Nat → Outcome) (none : s.list? name = none → motive ⟨s, .nothing, []⟩)
    (some : ∀ list, s.list? name = some list → motive (f list)) : motive (s.withList name f) := by
  unfold withList
  split
  next list h => exact some list h
  next h => exact none h

lemma lists_withList {s : Session} {name : String} {f : Nat → Outcome}
    (hf : ∀ list, (f list).session.lists = s.lists) : (s.withList name f).session.lists = s.lists :=
  withList_induction (motive := fun o => o.session.lists = s.lists) s name f (fun _ => rfl)
    fun list _ => hf list

lemma lists_register (s : Session) (list : Nat) (rule source : String)
    (minimum : Option Threshold) : (s.register list rule source minimum).session.lists = s.lists := by
  cases minimum <;> rfl

lemma length_lists_step (s : Session) (x : Step) :
    s.lists.length ≤ (s.step x).session.lists.length := by
  have hw : ∀ name f, (∀ list, s.lists.length ≤ (f list).session.lists.length) →
      s.lists.length ≤ (s.withList name f).session.lists.length := fun name f hf =>
    withList_induction (motive := fun o => s.lists.length ≤ o.session.lists.length) s name f
      (fun _ => le_rfl) fun list _ => hf list
  have hp : ∀ reply es, s.lists.length ≤ (s.perform reply es).session.lists.length :=
    fun _ es => (frame_foldl_apply es s).2.2.ge
  cases x with
  | create name rs => exact (List.sublist_append_left _ _).length_le
  | push name r => exact hw _ _ fun list => (length_lists_append s list r).ge
  | take name => exact hw _ _ fun _ => List.length_set.ge
  | register name rule source minimum =>
    exact hw _ _ fun list => (congrArg _ (lists_register s list rule source minimum)).ge
  | configure name rule source value =>
    exact hw _ _ fun list => (congrArg _ (lists_register s list rule source _)).ge
  | fire d => exact hp _ _
  | parse css => exact hp _ _
  | same name other => exact hw _ _ fun _ => hw _ _ fun _ => le_rfl
  | listen tag => exact le_rfl
  | share | size | snapshot | render => exact hw _ _ fun _ => le_rfl

lemma length_lists_after (s : Session) (xs : List Step) :
    s.lists.length ≤ (s.after xs).lists.length := by
  induction xs generalizing s with
  | nil => exact le_rfl
  | cons x xs ih => exact (s.length_lists_step x).trans (ih _)

/-- Names and rules stand for lists that have been made. -/
structure Sound (s : Session) : Prop where
  names : ∀ name list, s.list? name = some list → list < s.lists.length
  rules : ∀ r list, .rule r list ∈ s.listeners → list < s.lists.length

lemma sound_empty : Sound empty where
  names := by simp [list?, empty]
  rules := by simp [empty]

namespace Sound
variable {s : Session}

lemma create (h : s.Sound) (name : String) (rs : List Record) :
    (bind { s with lists := s.lists ++ [rs] } name s.lists.length).Sound where
  names := by
    intro other list hl
    rw [list?_bind] at hl
    change list < (s.lists ++ [rs]).length
    rw [List.length_append, List.length_singleton]
    split_ifs at hl with hn
    · obtain rfl := Option.some.inj hl
      omega
    · have hlt := h.names other list hl
      omega
  rules := by
    intro r list hr
    have hlt := h.rules r list hr
    change list < (s.lists ++ [rs]).length
    rw [List.length_append, List.length_singleton]
    omega

lemma bind (h : s.Sound) (name : String) {list : Nat} (hl : list < s.lists.length) :
    (s.bind name list).Sound where
  names := by
    intro other l hother
    rw [list?_bind] at hother
    split_ifs at hother with hn
    · exact Option.some.inj hother ▸ hl
    · exact h.names other l hother
  rules := h.rules

lemma of_frame (h : s.Sound) {t : Session} (hn : t.names = s.names)
    (hl : t.listeners = s.listeners) (hs : t.lists.length = s.lists.length) : t.Sound where
  names := by
    intro name list ht
    rw [hs]
    exact h.names name list (by rwa [list?, hn] at ht)
  rules := by
    intro r list ht
    rw [hs]
    exact h.rules r list (hl ▸ ht)

lemma listen (h : s.Sound) {l : Listener} (hl : ∀ r list, l = .rule r list → list < s.lists.length) :
    Sound { s with listeners := s.listeners ++ [l] } where
  names := h.names
  rules := by
    intro r list hr
    rcases List.mem_append.mp hr with hr | hr
    · exact h.rules r list hr
    · exact hl r list (List.mem_singleton.mp hr).symm

lemma perform (h : s.Sound) (reply : Reply) (es : List Effect) : (s.perform reply es).session.Sound :=
  have hf := frame_foldl_apply es s
  h.of_frame hf.1 hf.2.1 hf.2.2

lemma register (h : s.Sound) {list : Nat} (hl : list < s.lists.length) (rule source : String)
    (minimum : Option Threshold) : (s.register list rule source minimum).session.Sound := by
  cases minimum with
  | none => exact h.perform _ _
  | some t =>
    apply Sound.perform
    apply h.listen
    rintro r l ⟨⟩
    exact hl

lemma withList (h : s.Sound) {name : String} {f : Nat → Outcome}
    (hf : ∀ list, s.list? name = some list → (f list).session.Sound) :
    (s.withList name f).session.Sound :=
  withList_induction (motive := fun o => o.session.Sound) s name f (fun _ => h) hf

/-- One step leaves a sound session sound. -/
theorem step (h : s.Sound) (x : Step) : (s.step x).session.Sound := by
  cases x with
  | create name rs => exact h.create name rs
  | share source name => exact h.withList fun list hl => h.bind name (h.names source list hl)
  | push name r =>
    exact h.withList fun list _ => h.of_frame rfl rfl (length_lists_append s list r)
  | take name => exact h.withList fun _ _ => h.of_frame rfl rfl List.length_set
  | register name rule source minimum =>
    exact h.withList fun list hl => h.register (h.names name list hl) rule source minimum
  | configure name rule source value =>
    exact h.withList fun list hl => h.register (h.names name list hl) rule source _
  | listen tag => exact h.listen (by simp)
  | fire d => exact h.perform _ _
  | parse css => exact h.perform _ _
  | same name other => exact h.withList fun _ _ => h.withList fun _ _ => h
  | size name | snapshot name | render name color => exact h.withList fun _ _ => h

theorem after (h : s.Sound) (xs : List Step) : (s.after xs).Sound := by
  induction xs generalizing s with
  | nil => exact h
  | cons x xs ih => exact ih (h.step x)

end Sound
end Session
end FontSizeLint
