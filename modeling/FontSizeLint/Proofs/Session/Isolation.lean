import FontSizeLint.Proofs.Session.Dispatch

/-! Lists do not interfere. A session in which only the steps about one list are taken does to that
list what the whole session does: the other lists, their rules and the probes leave no trace on it. -/
namespace FontSizeLint
open Text Css

namespace Session

/-- Whether a step is about a list: it makes the list, or names it, for a rule only with a threshold.
Declarations are about every list. -/
def concerns (s : Session) (list : Nat) : Step → Bool
  | .create _ _ => s.lists.length == list
  | .share name _ => s.list? name == some list
  | .push name _ => s.list? name == some list
  | .size name => s.list? name == some list
  | .snapshot name => s.list? name == some list
  | .take name => s.list? name == some list
  | .same name other => s.list? name == some list && s.list? other == some list
  | .register name _ _ minimum => s.list? name == some list && minimum.isSome
  | .configure name _ _ value => s.list? name == some list && (Threshold.ofJson? value).isSome
  | .listen _ => false
  | .fire _ => true
  | .parse _ => true
  | .render name _ => s.list? name == some list

/-- The moments of a session whose steps are about a list. -/
def momentsOn (s : Session) (list : Nat) (xs : List Step) : List Moment :=
  (s.moments xs).filter fun m => m.session.concerns list m.step

/-- The second session has, as its first list, what the first session has in a given list; what stands
for that list in the one stands for it in the other, and rules on it are the same. -/
structure Mirrors (list : Nat) (s t : Session) : Prop where
  content : t.lists[0]? = s.lists[list]?
  names : ∀ name, s.list? name = some list → t.list? name = some 0
  rules : t.rulesOn 0 = s.rulesOn list

lemma getElem?_append (s : Session) (i list : Nat) (r : Record) :
    (s.append i r).lists[list]? = if i = list then s.lists[list]?.map (· ++ [r]) else s.lists[list]? := by
  rw [append, List.getElem?_modify]
  split_ifs <;> simp

lemma rulesOn_listen (s : Session) (l : Listener) (list : Nat) :
    rulesOn { s with listeners := s.listeners ++ [l] } list =
      s.rulesOn list ++ (l.ruleOn? list).toList := by
  simp only [rulesOn, List.filterMap_append]
  cases h : l.ruleOn? list <;> simp [h]

lemma getElem?_deliver {s : Session} {ds : List Declaration} {o : Outcome} (h : Delivers s ds o)
    (list : Nat) : o.session.lists[list]? = s.lists[list]?.map (· ++ s.recordsFor list ds) := by
  by_cases hl : list < s.lists.length
  · have hr := h.records list hl
    have ho : list < o.session.lists.length := h.lists ▸ hl
    simpa [records, List.getElem?_eq_getElem hl, List.getElem?_eq_getElem ho] using hr
  · have ho : ¬ list < o.session.lists.length := h.lists ▸ hl
    rw [List.getElem?_eq_none (by omega), List.getElem?_eq_none (by omega)]
    rfl

namespace Mirrors
variable {list : Nat} {s t : Session}

lemma records (h : Mirrors list s t) : t.records 0 = s.records list := by
  rw [Session.records, Session.records, h.content]

/-! What happens elsewhere. -/

lemma create_other (h : Mirrors list s t) (name : String) (rs : List Record)
    (hl : s.lists.length ≠ list) :
    Mirrors list (Session.bind { s with lists := s.lists ++ [rs] } name s.lists.length) t where
  content := by
    rw [h.content]
    change s.lists[list]? = (s.lists ++ [rs])[list]?
    rcases Nat.lt_or_gt_of_ne hl with hlt | hgt
    · rw [List.getElem?_eq_none (by omega), List.getElem?_eq_none (by simp; omega)]
    · rw [List.getElem?_append_left hgt]
  names := by
    intro other ho
    rw [list?_bind] at ho
    split_ifs at ho
    · exact absurd (Option.some.inj ho) hl
    · exact h.names other ho
  rules := h.rules

lemma bind_other (h : Mirrors list s t) (name : String) {i : Nat} (hi : i ≠ list) :
    Mirrors list (s.bind name i) t where
  content := h.content
  names := by
    intro other ho
    rw [list?_bind] at ho
    split_ifs at ho
    · exact absurd (Option.some.inj ho) hi
    · exact h.names other ho
  rules := h.rules

lemma append_other (h : Mirrors list s t) (r : Record) {i : Nat} (hi : i ≠ list) :
    Mirrors list (s.append i r) t where
  content := by rw [h.content, getElem?_append, if_neg hi]
  names := h.names
  rules := h.rules

lemma clear_other (h : Mirrors list s t) {i : Nat} (hi : i ≠ list) :
    Mirrors list { s with lists := s.lists.set i [] } t where
  content := by rw [h.content, List.getElem?_set_ne hi]
  names := h.names
  rules := h.rules

lemma listen_other (h : Mirrors list s t) {l : Listener} (hl : l.ruleOn? list = none) :
    Mirrors list { s with listeners := s.listeners ++ [l] } t where
  content := h.content
  names := h.names
  rules := by rw [h.rules, rulesOn_listen, hl, Option.toList_none, List.append_nil]

lemma register_other (h : Mirrors list s t) {i : Nat} (rule source : String)
    {minimum : Option Threshold} (hm : minimum.isSome → i ≠ list) :
    Mirrors list (s.register i rule source minimum).session t := by
  cases minimum with
  | none => exact h
  | some m => exact h.listen_other (if_neg (hm rfl))

lemma withList_other (h : Mirrors list s t) {name : String} {f : Nat → Outcome}
    (hf : ∀ i, s.list? name = some i → Mirrors list (f i).session t) :
    Mirrors list (s.withList name f).session t :=
  withList_induction (motive := fun o => Mirrors list o.session t) s name f (fun _ => h) hf

/-- A step that is not about the list changes nothing that the mirror shows. -/
theorem skip (h : Mirrors list s t) (x : Step) (hx : s.concerns list x = false) :
    Mirrors list (s.step x).session t := by
  cases x with
  | create name rs => exact h.create_other name rs (by simpa [concerns] using hx)
  | share source name =>
    exact h.withList_other fun i hi => h.bind_other name (by simpa [concerns, hi] using hx)
  | push name r =>
    exact h.withList_other fun i hi => h.append_other r (by simpa [concerns, hi] using hx)
  | take name =>
    exact h.withList_other fun i hi => h.clear_other (by simpa [concerns, hi] using hx)
  | register name rule source minimum =>
    refine h.withList_other fun i hi => h.register_other rule source fun hm => ?_
    simpa [concerns, hi, hm] using hx
  | configure name rule source value =>
    refine h.withList_other fun i hi => h.register_other rule source fun hm => ?_
    simpa [concerns, hi, hm] using hx
  | listen tag => exact h.listen_other rfl
  | fire d => simp [concerns] at hx
  | parse css => simp [concerns] at hx
  | same name other => exact h.withList_other fun _ _ => h.withList_other fun _ _ => h
  | size | snapshot | render => exact h.withList_other fun _ _ => h

/-! What happens to the list itself. -/

lemma create (h : Mirrors list s t) (name : String) (rs : List Record)
    (hl : s.lists.length = list) :
    Mirrors list (Session.bind { s with lists := s.lists ++ [rs] } name s.lists.length)
      (Session.bind { t with lists := t.lists ++ [rs] } name t.lists.length) := by
  subst hl
  have ht : t.lists = [] := by
    have hc := h.content
    rw [List.getElem?_eq_none le_rfl] at hc
    simpa using hc
  refine ⟨?_, ?_, h.rules⟩
  · change (t.lists ++ [rs])[0]? = (s.lists ++ [rs])[s.lists.length]?
    simp [ht]
  · intro other ho
    rw [list?_bind] at ho ⊢
    split_ifs at ho ⊢
    · simp [ht]
    · exact h.names other ho

lemma bind (h : Mirrors list s t) (name : String) :
    Mirrors list (s.bind name list) (t.bind name 0) where
  content := h.content
  names := by
    intro other ho
    rw [list?_bind] at ho ⊢
    split_ifs at ho ⊢
    · rfl
    · exact h.names other ho
  rules := h.rules

lemma append (h : Mirrors list s t) (r : Record) :
    Mirrors list (s.append list r) (t.append 0 r) where
  content := by rw [getElem?_append, getElem?_append, if_pos rfl, if_pos rfl, h.content]
  names := h.names
  rules := h.rules

lemma clear (h : Mirrors list s t) :
    Mirrors list { s with lists := s.lists.set list [] } { t with lists := t.lists.set 0 [] } where
  content := by
    rw [List.getElem?_set_self', List.getElem?_set_self', h.content]
  names := h.names
  rules := h.rules

lemma register (h : Mirrors list s t) (rule source : String) (minimum : Option Threshold) :
    Mirrors list (s.register list rule source minimum).session
      (t.register 0 rule source minimum).session := by
  cases minimum with
  | none => exact h
  | some m =>
    refine ⟨h.content, h.names, ?_⟩
    change rulesOn { t with listeners := _ } 0 = rulesOn { s with listeners := _ } list
    rw [rulesOn_listen, rulesOn_listen, h.rules]
    simp [Listener.ruleOn?]

lemma deliver (h : Mirrors list s t) {ds : List Declaration} {o p : Outcome}
    (ho : Delivers s ds o) (hp : Delivers t ds p) : Mirrors list o.session p.session where
  content := by
    rw [getElem?_deliver ho, getElem?_deliver hp, h.content, recordsFor, recordsFor, h.rules]
  names := by
    intro name hn
    rw [list?, ho.names] at hn
    rw [list?, hp.names]
    exact h.names name hn
  rules := by
    rw [rulesOn, hp.listeners, rulesOn, ho.listeners]
    exact h.rules

lemma withList (h : Mirrors list s t) {name : String} (hn : s.list? name = some list)
    {f g : Nat → Outcome} (hs : Mirrors list (f list).session (g 0).session)
    (hr : (f list).reply = (g 0).reply) :
    Mirrors list (s.withList name f).session (t.withList name g).session ∧
      (s.withList name f).reply = (t.withList name g).reply := by
  rw [withList_some hn, withList_some (h.names name hn)]
  exact ⟨hs, hr⟩

/-- A step that is about the list does the same in the mirror, and is answered alike. -/
theorem follow (h : Mirrors list s t) (x : Step) (hx : s.concerns list x = true) :
    Mirrors list (s.step x).session (t.step x).session ∧ (s.step x).reply = (t.step x).reply := by
  cases x with
  | create name rs => exact ⟨h.create name rs (by simpa [concerns] using hx), rfl⟩
  | share source name => exact h.withList (by simpa [concerns] using hx) (h.bind name) rfl
  | push name r => exact h.withList (by simpa [concerns] using hx) (h.append r) rfl
  | take name => exact h.withList (by simpa [concerns] using hx) h.clear (by rw [h.records])
  | size name | snapshot name | render name color =>
    exact h.withList (by simpa [concerns] using hx) h (by rw [h.records])
  | same name other =>
    obtain ⟨hn, ho⟩ : s.list? name = some list ∧ s.list? other = some list := by
      simpa [concerns] using hx
    obtain ⟨hs, hr⟩ := h.withList ho (f := fun b => ⟨s, .flag (list == b), []⟩)
      (g := fun b => ⟨t, .flag (0 == b), []⟩) h (by simp)
    exact h.withList hn hs hr
  | register name rule source minimum =>
    obtain ⟨hn, -⟩ : s.list? name = some list ∧ minimum.isSome := by simpa [concerns] using hx
    exact h.withList hn (h.register rule source minimum) (by cases minimum <;> rfl)
  | configure name rule source value =>
    obtain ⟨hn, -⟩ : s.list? name = some list ∧ (Threshold.ofJson? value).isSome := by
      simpa [concerns] using hx
    exact h.withList hn (h.register rule source _) (by cases Threshold.ofJson? value <;> rfl)
  | listen tag => simp [concerns] at hx
  | fire d => exact ⟨h.deliver (s.delivers_fire d) (t.delivers_fire d), rfl⟩
  | parse css => exact ⟨h.deliver (s.delivers_parse css) (t.delivers_parse css), rfl⟩

/-- Along a whole session, the steps about the list do in the mirror what they do in the session. -/
theorem run (xs : List Step) (h : Mirrors list s t) :
    (t.run ((s.momentsOn list xs).map Moment.step)).map (fun o => (o.session.records 0, o.reply)) =
      (s.momentsOn list xs).map fun m => (m.outcome.session.records list, m.outcome.reply) := by
  induction xs generalizing s t with
  | nil => rfl
  | cons x xs ih =>
    cases hx : s.concerns list x with
    | false =>
      have hm : s.momentsOn list (x :: xs) = (s.step x).session.momentsOn list xs := by
        simp [momentsOn, moments, hx]
      rw [hm]
      exact ih (h.skip x hx)
    | true =>
      have hm : s.momentsOn list (x :: xs) = ⟨s, x⟩ :: (s.step x).session.momentsOn list xs := by
        simp [momentsOn, moments, hx]
      obtain ⟨hs, hr⟩ := h.follow x hx
      rw [hm, List.map_cons, List.map_cons, Session.run, List.map_cons, ih hs, hs.records, ← hr]
      rfl

end Mirrors
end Session

/-- Lists do not interfere. Leave out of a session the steps that make, name or register a rule on other
lists than a given one, the probes, and the rules without a threshold. Then the list, which is now the
only one, holds after each step that is left what it held after that step of the whole session, and
the step is answered alike. -/
theorem lists_isolated (xs : List Step) (list : Nat) :
    (Session.empty.run ((Session.empty.momentsOn list xs).map Moment.step)).map
        (fun o => (o.session.records 0, o.reply)) =
      (Session.empty.momentsOn list xs).map
        fun m => (m.outcome.session.records list, m.outcome.reply) := by
  apply Session.Mirrors.run
  exact ⟨rfl, by simp [Session.list?, Session.empty], rfl⟩

end FontSizeLint
