import FontSizeLint.Proofs.Session.Dispatch

/-! What goes into a list comes out of it once and in order, through whichever of its names, or stays
in it. Names of one list tell the same of it, and are told apart from names of another. -/
namespace FontSizeLint
open Text Css

def Reply.handed : Reply → List Record
  | .records rs => rs
  | _ => []

namespace Moment

/-- The records that the step takes out of a list, as they are handed over. -/
def taken (list : Nat) (m : Moment) : List Record :=
  match m.step with
  | .take name => if m.session.list? name = some list then m.outcome.reply.handed else []
  | _ => []

/-- The records that the step puts into a list that is there, by name or by a rule. -/
def pushed (list : Nat) (m : Moment) : List Record :=
  match m.step with
  | .push name r => if m.session.list? name = some list then [r] else []
  | .fire d => m.session.recordsFor list [d]
  | .parse css => m.session.recordsFor list (Stylesheet.ofText css.toList).declarations
  | _ => []

end Moment

namespace Session

lemma records_create (s : Session) (name : String) (rs : List Record) {list : Nat}
    (h : list < s.lists.length) : (s.step (.create name rs)).session.records list = s.records list := by
  change (s.lists ++ [rs])[list]?.getD [] = s.lists[list]?.getD []
  rw [List.getElem?_append_left h]

lemma records_created (s : Session) (name : String) (rs : List Record) :
    (s.step (.create name rs)).session.records s.lists.length = rs := by
  change (s.lists ++ [rs])[s.lists.length]?.getD [] = rs
  simp

lemma records_cleared (s : Session) (list other : Nat) :
    Session.records { s with lists := s.lists.set list [] } other =
      if list = other then [] else s.records other := by
  simp only [records, List.getElem?_set]
  split_ifs <;> rfl

end Session

namespace Moment

/-- What one step takes out of a list and what it leaves there is what was there and what the step
puts in. -/
theorem balance {s : Session} (x : Step) {list : Nat} (hl : list < s.lists.length) :
    taken list ⟨s, x⟩ ++ (s.step x).session.records list =
      s.records list ++ pushed list ⟨s, x⟩ := by
  -- a step that leaves the lists alone neither takes nor puts
  have quiet : (s.step x).session.lists = s.lists →
      [] ++ (s.step x).session.records list = s.records list ++ [] := by
    intro hx
    rw [Session.records, hx, List.append_nil]
    rfl
  cases x with
  | create name rs =>
    rw [s.records_create name rs hl]
    exact (List.append_nil _).symm
  | push name r =>
    cases hn : s.list? name with
    | none => simp [taken, pushed, Session.step, Session.withList_none hn, hn]
    | some i =>
      simp [taken, pushed, Session.step, Session.withList_some hn, hn,
        Session.records_append s i list r hl]
  | take name =>
    cases hn : s.list? name with
    | none => simp [taken, pushed, Session.step, Session.withList_none hn, hn]
    | some i =>
      simp only [taken, pushed, outcome, Session.step, Session.withList_some hn, hn,
        Session.records_cleared, Reply.handed]
      by_cases hi : i = list <;> simp [hi]
  | fire d =>
    simpa only [taken, pushed, List.nil_append] using (s.delivers_fire d).records list hl
  | parse css =>
    simpa only [taken, pushed, List.nil_append] using (s.delivers_parse css).records list hl
  | share | size | snapshot | render => exact quiet (Session.lists_withList fun _ => rfl)
  | same name other =>
    exact quiet (Session.lists_withList fun _ => Session.lists_withList fun _ => rfl)
  | register name rule source minimum =>
    exact quiet (Session.lists_withList fun i => Session.lists_register s i rule source minimum)
  | configure name rule source value =>
    exact quiet (Session.lists_withList fun i => Session.lists_register s i rule source _)
  | listen tag => exact quiet rfl

lemma idle {s : Session} (h : s.Sound) (x : Step) {list : Nat} (hl : s.lists.length ≤ list) :
    taken list ⟨s, x⟩ = [] ∧ pushed list ⟨s, x⟩ = [] := by
  have hn : ∀ name, s.list? name ≠ some list := by
    intro name hname
    have hlt := h.names name list hname
    omega
  have hr : s.rulesOn list = [] := by
    rw [Session.rulesOn, List.filterMap_eq_nil_iff]
    intro l hmem
    cases l with
    | probe tag => rfl
    | rule r i =>
      have hlt := h.rules r i hmem
      exact if_neg (by omega)
  constructor
  · simp only [taken]
    split
    · exact if_neg (hn _)
    · rfl
  · simp only [pushed]
    split
    · exact if_neg (hn _)
    · simp [Session.recordsFor, hr]
    · simp [Session.recordsFor, hr]
    · rfl

end Moment

namespace Session

/-- What steps take out of a list and what they leave there is what was there and what they put
in. -/
theorem balance_moments (xs : List Step) (s : Session) {list : Nat} (hl : list < s.lists.length) :
    (s.moments xs).flatMap (Moment.taken list) ++ (s.after xs).records list =
      s.records list ++ (s.moments xs).flatMap (Moment.pushed list) := by
  induction xs generalizing s with
  | nil => simp [moments]
  | cons x xs ih =>
    calc (s.moments (x :: xs)).flatMap (Moment.taken list) ++ (s.after (x :: xs)).records list
        = Moment.taken list ⟨s, x⟩ ++ (((s.step x).session.moments xs).flatMap (Moment.taken list) ++
            ((s.step x).session.after xs).records list) := by simp [moments]
      _ = (Moment.taken list ⟨s, x⟩ ++ (s.step x).session.records list) ++
            ((s.step x).session.moments xs).flatMap (Moment.pushed list) := by
          rw [ih _ (hl.trans_le (s.length_lists_step x)), List.append_assoc]
      _ = s.records list ++ (s.moments (x :: xs)).flatMap (Moment.pushed list) := by
          rw [Moment.balance x hl]
          simp [moments]

lemma idle_moments (xs : List Step) {s : Session} (h : s.Sound) {list : Nat}
    (hl : (s.after xs).lists.length ≤ list) :
    (s.moments xs).flatMap (Moment.taken list) = [] ∧
      (s.moments xs).flatMap (Moment.pushed list) = [] := by
  induction xs generalizing s with
  | nil => exact ⟨rfl, rfl⟩
  | cons x xs ih =>
    obtain ⟨ht, hp⟩ := ih (h.step x) hl
    obtain ⟨ht', hp'⟩ := Moment.idle h x ((s.length_lists_after (x :: xs)).trans hl)
    rw [moments, List.flatMap_cons, List.flatMap_cons, ht, hp, ht', hp']
    exact ⟨rfl, rfl⟩

lemma replies_of_list? {s : Session} {name : String} {list : Nat} (h : s.list? name = some list) :
    (s.step (.size name)).reply = .size (s.records list).length (s.records list).isEmpty ∧
      (s.step (.snapshot name)).reply = .records (s.records list) := by
  simp only [step, withList_some h, and_self]

lemma same_iff {s : Session} (hs : s.Sound) {a b : String} {i j : Nat} (ha : s.list? a = some i)
    (hb : s.list? b = some j) :
    (s.step (.same a b)).reply = .flag (i == j) ∧
      ∀ r, ((s.step (.push a r)).session.step (.snapshot b)).reply =
        .records (s.records j ++ if i = j then [r] else []) := by
  constructor
  · simp only [step, withList_some ha, withList_some hb]
  · intro r
    have hp : (s.step (.push a r)).session = s.append i r := by simp only [step, withList_some ha]
    have hb' : (s.append i r).list? b = some j := hb
    rw [hp, (replies_of_list? hb').2, records_append s i j r (hs.names b j hb)]

end Session

/-- No record is lost or doubled. For a list that some step of a session makes, what all steps take out
of it, followed by what it holds in the end, is what it was made with, followed by what was put in, in
order. At every moment its names tell the same of it, and a name is the same as one of its names
exactly if it stands for the list too, which is when a push to the one shows in the other. -/
theorem records_conserved (before later : List Step) (name : String) (rs : List Record) :
    let xs := before ++ .create name rs :: later
    let list := (Session.empty.after before).lists.length
    (Session.empty.moments xs).flatMap (Moment.taken list) ++
        (Session.empty.after xs).records list =
      rs ++ (Session.empty.moments xs).flatMap (Moment.pushed list) ∧
    ∀ ys s, ys <+: xs → s = Session.empty.after ys → ∀ a, s.list? a = some list →
      (s.step (.size a)).reply = .size (s.records list).length (s.records list).isEmpty ∧
      (s.step (.snapshot a)).reply = .records (s.records list) ∧
      ∀ b other, s.list? b = some other →
        (s.step (.same a b)).reply = .flag (list == other) ∧
        ∀ r, ((s.step (.push a r)).session.step (.snapshot b)).reply =
          .records (s.records other ++ if list = other then [r] else []) := by
  intro xs list
  have hb := Session.sound_empty.after before
  constructor
  · obtain ⟨ht, hp⟩ := Session.idle_moments before Session.sound_empty (le_refl list)
    have hrs := (Session.empty.after before).records_created name rs
    have hlt : list < ((Session.empty.after before).step (.create name rs)).session.lists.length := by
      change list < ((Session.empty.after before).lists ++ [rs]).length
      simp [list]
    have hbal := Session.balance_moments later _ hlt
    simp only [xs, Session.moments_append, Session.moments, List.flatMap_append, List.flatMap_cons,
      ht, hp, Session.after_append, Session.after_cons, List.nil_append]
    rw [hrs] at hbal
    exact hbal
  · rintro ys s - rfl a ha
    obtain ⟨hsize, hsnap⟩ := Session.replies_of_list? ha
    exact ⟨hsize, hsnap, fun b other hother =>
      Session.same_iff (Session.sound_empty.after ys) ha hother⟩

end FontSizeLint
