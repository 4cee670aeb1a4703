import FontSizeLint.Proofs.Lint.Compliance
import FontSizeLint.Proofs.Session.Order
import Mathlib.Data.Int.Order.Basic

/-! Stricter rules. Of two rules for one source, the one with the higher minimum reports wherever the
other does, in the same order, and more only at sizes between the two minimums. Any two minimums
compare, however they were configured. -/
namespace FontSizeLint
open Text Css Numeric

namespace Numeric.Binary
variable {F : Format} {x y z : Binary F}

/-- At most. Nothing is at most what is not a number, and that is at most nothing. -/
def le (x y : Binary F) : Bool := x.compare? y == some .lt || x.compare? y == some .eq

def isFinite : Binary F → Bool
  | finite _ => true
  | _ => false

lemma compare?_eq_some {o : Ordering} : x.compare? y = some o ↔
    ∃ a b, x.place? = some a ∧ y.place? = some b ∧ compare a b = o := by
  unfold compare?
  cases x.place? <;> cases y.place? <;> simp

lemma lt_iff : x.lt y = true ↔ ∃ a b, x.place? = some a ∧ y.place? = some b ∧ a < b := by
  simp only [lt, beq_iff_eq, compare?_eq_some, compare_lt_iff_lt]

lemma le_iff : x.le y = true ↔ ∃ a b, x.place? = some a ∧ y.place? = some b ∧ a ≤ b := by
  simp only [le, Bool.or_eq_true, beq_iff_eq, compare?_eq_some, compare_lt_iff_lt, compare_eq_iff_eq]
  constructor
  · rintro (⟨a, b, ha, hb, h⟩ | ⟨a, b, ha, hb, h⟩)
    · exact ⟨a, b, ha, hb, h.le⟩
    · exact ⟨a, b, ha, hb, h.le⟩
  · rintro ⟨a, b, ha, hb, h⟩
    rcases h.lt_or_eq with h | h
    · exact .inl ⟨a, b, ha, hb, h⟩
    · exact .inr ⟨a, b, ha, hb, h⟩

lemma lt_of_lt_of_le (h : x.lt y = true) (h' : y.le z = true) : x.lt z = true := by
  obtain ⟨a, b, ha, hb, hab⟩ := lt_iff.mp h
  obtain ⟨b', c, hb', hc, hbc⟩ := le_iff.mp h'
  obtain rfl : b = b' := Option.some.inj (hb.symm.trans hb')
  exact lt_iff.mpr ⟨a, c, ha, hc, by omega⟩

lemma le_of_not_lt (h : x.lt z = true) (hy : y.place?.isSome) (h' : x.lt y = false) :
    y.le x = true := by
  obtain ⟨a, c, ha, -, -⟩ := lt_iff.mp h
  obtain ⟨b, hb⟩ := Option.isSome_iff_exists.mp hy
  rw [← Bool.not_eq_true, lt_iff] at h'
  refine le_iff.mpr ⟨b, a, hb, ha, ?_⟩
  by_contra hab
  exact h' ⟨a, b, ha, hb, by omega⟩

end Numeric.Binary

namespace Threshold

/-- The number that a configuration value names, before it is tested. -/
def named? : Json → Option Single
  | .number n => some (narrow n.toDouble)
  | .string s => (Binary.ofText single (trim s.toList)).toOption
  | _ => none

/-- The ways to come by a threshold, each with the number that it is made from. -/
inductive Obtained : Single → Threshold → Prop
  | single {x : Single} {t : Threshold} : ofSingle? x = some t → Obtained x t
  | text {s : List Char} {x : Single} {t : Threshold} :
    Binary.ofText Numeric.single (trim s) = .ok x → ofText s = .ok t → Obtained x t
  | json? {value : Json} {x : Single} {t : Threshold} :
    named? value = some x → ofJson? value = some t → Obtained x t
  | json {value : Json} {x : Single} {t : Threshold} :
    named? value = some x → ofJson value = .ok t → Obtained x t
  | jsonText {s : List Char} {value : Json} {trailing : Bool} {x : Single} {t : Threshold} :
    Json.readLeading s = .ok (value, trailing) → named? value = some x → ofJsonText s = .ok t →
      Obtained x t

lemma isSome_ofSingle?_iff (x : Single) :
    (ofSingle? x).isSome = true ↔ x.isFinite = true ∧ (Binary.ofRank false 0 : Single).lt x = true := by
  have hzero : (Binary.ofRank false 0 : Single).place? = some 0 := rfl
  rw [Binary.lt_iff]
  simp only [hzero, Option.some.injEq]
  fun_cases ofSingle? x with
  | case1 rank h => simpa [Binary.isFinite, Binary.place?] using h
  | case2 rank h => simpa [Binary.isFinite, Binary.place?] using h
  | case3 x hx =>
    cases x with
    | nan => simp [Binary.isFinite]
    | infinite negative => simp [Binary.isFinite]
    | finite y =>
      obtain ⟨negative, rank⟩ := y
      cases negative with
      | true => simp [Binary.isFinite, Binary.place?]
      | false => exact absurd rfl (hx rank)

lemma ofSingle?_of_ofText {s : List Char} {x : Single} {t : Threshold}
    (hx : Binary.ofText single (trim s) = .ok x) (ht : ofText s = .ok t) : ofSingle? x = some t := by
  rw [ofText, hx] at ht
  cases h : ofSingle? x with
  | none => simp [h] at ht
  | some u => simpa [h] using ht

lemma ofSingle?_of_ofJson? {value : Json} {x : Single} {t : Threshold} (hx : named? value = some x)
    (ht : ofJson? value = some t) : ofSingle? x = some t := by
  cases value with
  | number n =>
    obtain rfl := Option.some.inj hx
    exact ht
  | string s =>
    rw [ofJson?] at ht
    cases hs : ofText s.toList with
    | error e => simp [hs, Except.toOption] at ht
    | ok u =>
      obtain rfl : u = t := by simpa [hs, Except.toOption] using ht
      cases hb : Binary.ofText single (trim s.toList) with
      | error e => simp [named?, hb, Except.toOption] at hx
      | ok y =>
        obtain rfl : y = x := by simpa [named?, hb, Except.toOption] using hx
        exact ofSingle?_of_ofText hb hs
  | _ => simp [named?] at hx

lemma ofJson?_of_ofJson {value : Json} {t : Threshold} (h : ofJson value = .ok t) :
    ofJson? value = some t := by
  unfold ofJson at h
  split at h
  · simp_all
  · simp at h

lemma ofJson_of_ofJsonText {s : List Char} {value : Json} {trailing : Bool} {t : Threshold}
    (hs : Json.readLeading s = .ok (value, trailing)) (h : ofJsonText s = .ok t) :
    ofJson value = .ok t := by
  simp only [ofJsonText, hs] at h
  split at h
  · simp at h
  · split_ifs at h
    simp_all

lemma Obtained.ofSingle? {x : Single} {t : Threshold} (h : Obtained x t) : ofSingle? x = some t := by
  cases h with
  | single h => exact h
  | text hx ht => exact ofSingle?_of_ofText hx ht
  | json? hx ht => exact ofSingle?_of_ofJson? hx ht
  | json hx ht => exact ofSingle?_of_ofJson? hx (ofJson?_of_ofJson ht)
  | jsonText hs hx ht => exact ofSingle?_of_ofJson? hx (ofJson?_of_ofJson (ofJson_of_ofJsonText hs ht))

end Threshold

namespace Rule

/-- The parts of font sizes below the minimum that stand on lines of the source. -/
def reported (r : Rule) (ds : List Declaration) : List Part :=
  (ds.filter fun d => d.name == "font-size").flatMap fun d =>
    d.parts.filter fun p => r.isBelow p && r.isOnSource p

lemma flatMap_recordsFor (r : Rule) (ds : List Declaration) :
    ds.flatMap r.recordsFor = (r.reported ds).map r.report := by
  rw [reported, flatMap_filter, List.map_flatMap]
  apply List.flatMap_congr
  intro d _
  unfold recordsFor
  by_cases hd : d.name = "font-size" <;> simp [hd]

lemma positions_report (r : Rule) (ps : List Part) :
    (ps.map r.report).map Record.position = ps.map Part.position := by
  rw [List.map_map]
  rfl

lemma isBelow_iff {r : Rule} {p : Part} :
    r.isBelow p = true ↔ ∃ m, p.value = some m ∧ m.lt r.minimum.toSingle = true := by
  unfold isBelow
  cases p.value <;> simp

section Stricter
variable {r r' : Rule} (hs : r.source = r'.source)
  (h : r.minimum.toSingle.le r'.minimum.toSingle = true)
include h

lemma isBelow_of_le {p : Part} (hp : r.isBelow p = true) : r'.isBelow p = true := by
  obtain ⟨m, hv, hm⟩ := isBelow_iff.mp hp
  exact isBelow_iff.mpr ⟨m, hv, Binary.lt_of_lt_of_le hm h⟩

include hs

lemma reported_sublist (ds : List Declaration) : (r.reported ds).Sublist (r'.reported ds) := by
  apply List.Sublist.flatMap_right
  intro d _
  apply List.monotone_filter_right
  intro p hp
  have hon : r.isOnSource p = r'.isOnSource p := by rw [isOnSource, isOnSource, hs]
  rw [Bool.and_eq_true, hon] at hp
  rw [Bool.and_eq_true]
  exact ⟨isBelow_of_le h hp.1, hp.2⟩

omit h in
lemma exists_between {ds : List Declaration} {p : Part} (hp : p ∈ r'.reported ds)
    (hr : p ∉ r.reported ds) : ∃ d ∈ ds, d.name = "font-size" ∧ p ∈ d.parts ∧
      ∃ m, p.value = some m ∧ r.minimum.toSingle.le m = true ∧ m.lt r'.minimum.toSingle = true := by
  obtain ⟨d, hd, hpd⟩ := List.mem_flatMap.mp hp
  obtain ⟨hpart, hkeep⟩ := List.mem_filter.mp hpd
  rw [Bool.and_eq_true] at hkeep
  obtain ⟨m, hv, hm⟩ := isBelow_iff.mp hkeep.1
  have hon : r.isOnSource p = true := by
    rw [isOnSource, hs]
    exact hkeep.2
  have hnot : m.lt r.minimum.toSingle = false := by
    rw [← Bool.not_eq_true]
    intro hlt
    apply hr
    refine List.mem_flatMap.mpr ⟨d, hd, List.mem_filter.mpr ⟨hpart, ?_⟩⟩
    rw [Bool.and_eq_true]
    exact ⟨isBelow_iff.mpr ⟨m, hv, hlt⟩, hon⟩
  exact ⟨d, (List.mem_filter.mp hd).1, by simpa using (List.mem_filter.mp hd).2, hpart, m, hv,
    Binary.le_of_not_lt hm rfl hnot, hm⟩

end Stricter
end Rule

/-- The records that a rule collects into a list of its own when a style sheet is parsed, whatever
listeners a session has besides. -/
def Session.emitted (s : Session) (r : Rule) (css : String) : List Record :=
  let registered := s.after [.create r.name [], .register r.name r.name r.source (some r.minimum)]
  (registered.step (.parse css)).session.records s.lists.length

namespace Session

lemma rulesOn_registered {s : Session} (h : s.Sound) (r : Rule) :
    let registered := s.after [.create r.name [], .register r.name r.name r.source (some r.minimum)]
    registered.lists = s.lists ++ [[]] ∧ registered.rulesOn s.lists.length = [r] := by
  intro registered
  have hname : (s.step (.create r.name [])).session.list? r.name = some s.lists.length := by
    simp [step, list?_bind]
  have hregistered : registered = ((s.step (.create r.name [])).session.register s.lists.length
      r.name r.source (some r.minimum)).session := by
    change ((s.step (.create r.name [])).session.withList r.name _).session = _
    rw [withList_some hname]
  have hlisteners : registered.listeners = s.listeners ++ [.rule r s.lists.length] := by
    rw [hregistered]
    rfl
  constructor
  · rw [hregistered]
    rfl
  · have hold : s.rulesOn s.lists.length = [] := by
      rw [rulesOn, List.filterMap_eq_nil_iff]
      intro l hl
      cases l with
      | probe tag => rfl
      | rule r' list => exact if_neg (h.rules r' list hl).ne
    rw [rulesOn] at hold
    rw [rulesOn, hlisteners, List.filterMap_append, hold]
    simp [Listener.ruleOn?]

lemma emitted_eq {s : Session} (h : s.Sound) (r : Rule) (css : String) :
    s.emitted r css =
      (r.reported (Stylesheet.ofText css.toList).declarations).map r.report := by
  obtain ⟨hlists, hrules⟩ := rulesOn_registered h r
  generalize hs : s.after [.create r.name [], .register r.name r.name r.source (some r.minimum)] =
    registered at hlists hrules
  have hlt : s.lists.length < registered.lists.length := by simp [hlists]
  have hnil : registered.records s.lists.length = [] := by simp [records, hlists]
  rw [emitted, hs, (registered.delivers_parse css).records _ hlt, hnil, List.nil_append, recordsFor,
    hrules]
  simp only [List.flatMap_singleton]
  exact r.flatMap_recordsFor _

end Session

/-- Raising a minimum only adds records. Whatever sessions two rules for one source are registered in,
the positions that the one with the lower minimum collects for a style sheet are some of those of the
other, in the same order, and a record of the other alone is for a part with a number between the
minimums. However two minimums were come by, each is the number it was made from, which is finite and
greater than zero, and they compare. -/
theorem stricter_rule_adds_only :
    (∀ (css source : String) (t u : Threshold), t.toSingle.le u.toSingle = true →
      ∀ (xs ys : List Step) (name name' : String),
        let stricter : Rule := ⟨name', source, u⟩
        let loose := (Session.empty.after xs).emitted ⟨name, source, t⟩ css
        let strict := (Session.empty.after ys).emitted stricter css
        (loose.map Record.position).Sublist (strict.map Record.position) ∧
        ∀ r ∈ strict, r.position ∉ loose.map Record.position →
          ∃ d ∈ (Stylesheet.ofText css.toList).declarations, d.name = "font-size" ∧
            ∃ p ∈ d.parts, r = stricter.report p ∧
              ∃ m, p.value = some m ∧ t.toSingle.le m = true ∧ m.lt u.toSingle = true) ∧
    ∀ (x y : Single) (t u : Threshold), Threshold.Obtained x t → Threshold.Obtained y u →
      t.toSingle = x ∧ x.isFinite = true ∧ (Binary.ofRank false 0 : Single).lt x = true ∧
      (t.toSingle.compare? u.toSingle).isSome = true := by
  constructor
  · intro css source t u h xs ys name name' stricter loose strict
    obtain ⟨looser, hlooser⟩ : ∃ looser : Rule, looser = ⟨name, source, t⟩ := ⟨_, rfl⟩
    have hs : looser.source = stricter.source := by rw [hlooser]
    have hle : looser.minimum.toSingle.le stricter.minimum.toSingle = true := by rwa [hlooser]
    simp only [loose, strict, Session.emitted_eq (Session.sound_empty.after _), ← hlooser]
    rw [Rule.positions_report, Rule.positions_report]
    refine ⟨(Rule.reported_sublist hs hle _).map _, ?_⟩
    intro r hr hnew
    obtain ⟨p, hp, rfl⟩ := List.mem_map.mp hr
    have hp' : p ∉ looser.reported (Stylesheet.ofText css.toList).declarations :=
      fun hmem => hnew (List.mem_map_of_mem hmem)
    obtain ⟨d, hd, hname, hpart, m, hv, hm⟩ := Rule.exists_between hs hp hp'
    rw [hlooser] at hm
    exact ⟨d, hd, hname, p, hpart, rfl, m, hv, hm⟩
  · intro x y t u hx _
    obtain ⟨hfinite, hpos⟩ := (Threshold.isSome_ofSingle?_iff x).mp
      (Option.isSome_iff_exists.mpr ⟨t, hx.ofSingle?⟩)
    have hsome := Threshold.compare?_toSingle t u
    exact ⟨(Threshold.eq_toSingle_of_ofSingle? hx.ofSingle?).symm, hfinite, hpos,
      Option.isSome_iff_exists.mpr ⟨_, hsome⟩⟩

/-- Minimums of 10 and 12, the one a number and the other a text, and a size of 11. -/
theorem stricter_rule_adds_only_eleven :
    let css := "a{font-size:9px 11px 12px}"
    let t : Threshold := ⟨⟨0x41200000, by decide⟩, by decide⟩
    let u : Threshold := ⟨⟨0x41400000, by decide⟩, by decide⟩
    let loose := Session.empty.emitted ⟨"sizes", css, t⟩ css
    let strict := Session.empty.emitted ⟨"sizes", css, u⟩ css
    Threshold.Obtained t.toSingle t ∧ Threshold.Obtained u.toSingle u ∧
    t.toSingle.le u.toSingle = true ∧
    loose.map Record.position = [⟨1, 13⟩] ∧ strict.map Record.position = [⟨1, 13⟩, ⟨1, 17⟩] ∧
    (loose.map Record.position).Sublist (strict.map Record.position) ∧
    (t.toSingle.compare? u.toSingle).isSome = true := by
  intro css t u loose strict
  have ht : Threshold.Obtained t.toSingle t := .single (Threshold.ofSingle?_toSingle t)
  have hu : Threshold.Obtained u.toSingle u :=
    .text (s := " 12 ".toList) rfl rfl
  have hle : t.toSingle.le u.toSingle = true := by decide
  refine ⟨ht, hu, hle, by decide +kernel, by decide +kernel, ?_, ?_⟩
  · exact (stricter_rule_adds_only.1 css css t u hle [] [] "sizes" "sizes").1
  · exact (stricter_rule_adds_only.2 _ _ t u ht hu).2.2.2

end FontSizeLint
