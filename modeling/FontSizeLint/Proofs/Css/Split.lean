import FontSizeLint.Proofs.Css.Grouping

/-! What is read first of a value, of the body of a block or of a list of rules, and what is left for
later. -/
namespace FontSizeLint.Css
open Text

namespace Part

/-- What stands behind a mark of importance that begins with a given component. -/
def behindMark? (c : Component) (cs : List Component) : Option (List Component) :=
  match cs.dropWhile Component.isTrivia with
  | d :: rest => if isBang c && isImportantWord d then some rest else none
  | [] => none

lemma exists_of_behindMark? {c : Component} {cs rest : List Component}
    (h : behindMark? c cs = some rest) : ∃ gap word, cs = gap ++ word :: rest ∧
      isBang c = true ∧ (∀ g ∈ gap, g.isTrivia = true) ∧ isImportantWord word = true := by
  unfold behindMark? at h
  split at h
  next word ds hd =>
    split_ifs at h with hm
    obtain rfl := Option.some.inj h
    obtain ⟨hbang, hword⟩ := Bool.and_eq_true_iff.mp hm
    refine ⟨cs.takeWhile Component.isTrivia, word, ?_, hbang,
      fun g hg => List.mem_takeWhile_imp hg, hword⟩
    rw [← hd, List.takeWhile_append_dropWhile]
  next => simp at h

lemma filter_of_dropWhile {cs : List Component} :
    cs.filter (fun c => !c.isTrivia) =
      (cs.dropWhile Component.isTrivia).filter fun c => !c.isTrivia := by
  induction cs with
  | nil => rfl
  | cons c cs ih =>
    by_cases hc : c.isTrivia = true
    · rw [List.dropWhile_cons_of_pos hc, ← ih, List.filter_cons_of_neg (by simp [hc])]
    · rw [List.dropWhile_cons_of_neg hc]

lemma isTrivia_eq_false_of_isImportantWord {c : Component} (h : isImportantWord c = true) :
    c.isTrivia = false := by
  cases c with
  | leaf t =>
    simp only [isImportantWord, Bool.and_eq_true, beq_iff_eq] at h
    simp [Component.isTrivia, h.1, Kind.isTrivia]
  | block o body closer => rfl

lemma filter_eq_nil_of_isTrivia {ts : List Component} (h : ∀ c ∈ ts, Component.isTrivia c = true) :
    ts.filter (fun c => !c.isTrivia) = [] := by
  rw [List.filter_eq_nil_iff]
  simpa using h

lemma ofValue_of_behindMark? {c : Component} {cs rest : List Component} (hc : c.isTrivia = false)
    (h : behindMark? c cs = some rest) : ofValue (c :: cs) = ((ofValue rest).1, true) := by
  obtain ⟨gap, word, rfl, hbang, hgap, hword⟩ := exists_of_behindMark? h
  have hword' := isTrivia_eq_false_of_isImportantWord hword
  have hfilter : (c :: (gap ++ word :: rest)).filter (fun c => !c.isTrivia) =
      c :: word :: rest.filter fun c => !c.isTrivia := by
    simp [hc, hword', filter_eq_nil_of_isTrivia hgap]
  simp only [ofValue, hfilter, dropMarks, hbang, hword, Bool.and_self, if_true]

lemma dropMarks_cons {c : Component} {cs : List Component}
    (h : ∀ d ∈ cs.head?, (isBang c && isImportantWord d) = false) :
    dropMarks (c :: cs) = (c :: (dropMarks cs).1, (dropMarks cs).2) := by
  cases cs with
  | nil => rfl
  | cons d cs =>
    have hd := h d rfl
    rw [dropMarks, if_neg (by simp [hd])]

lemma ofValue_of_behindMark?_eq_none {c : Component} {cs : List Component}
    (hc : c.isTrivia = false) (h : behindMark? c cs = none) :
    ofValue (c :: cs) = ((if isSeparator c then [] else [ofComponent c]) ++ (ofValue cs).1,
      (ofValue cs).2) := by
  have hhead : ∀ d ∈ (cs.filter fun c => !c.isTrivia).head?,
      (isBang c && isImportantWord d) = false := by
    unfold behindMark? at h
    rw [filter_of_dropWhile]
    split at h
    next e ds he =>
      have hne : cs.dropWhile Component.isTrivia ≠ [] := by simp [he]
      have hnot := List.head_dropWhile_not Component.isTrivia hne
      simp only [he, List.head_cons] at hnot
      rw [he, List.filter_cons_of_pos (by simp [hnot])]
      simpa using h
    next hd => simp [hd]
  rw [ofValue, List.filter_cons_of_pos (by simp [hc]), dropMarks_cons hhead]
  by_cases hs : isSeparator c = true <;> simp [ofValue, hs]

end Part

lemma dropWhile_isTrivia {gap ds : List Component} (hgap : ∀ c ∈ gap, c.isTrivia = true)
    (hds : ∀ c ∈ ds.head?, c.isTrivia = false) : (gap ++ ds).dropWhile Component.isTrivia = ds := by
  rw [List.dropWhile_append_of_pos hgap]
  cases ds with
  | nil => rfl
  | cons c ds => rw [List.dropWhile_cons_of_neg (by simpa using hds)]

namespace Declaration
variable {t colon : Token} {gap ds : List Component}

lemma ofStatement?_of_colon (ht : t.kind = .ident) (hgap : ∀ c ∈ gap, c.isTrivia = true)
    (hcolon : colon.kind = .colon) (value : List Component) :
    ofStatement? (.leaf t :: (gap ++ .leaf colon :: value)) = some (ofValue t value) := by
  have hhead : ∀ c ∈ (.leaf colon :: value : List Component).head?, c.isTrivia = false := by
    simp [Component.isTrivia, hcolon, Kind.isTrivia]
  have hdrop := dropWhile_isTrivia hgap hhead
  simp [ofStatement?, ht, hdrop, hcolon]

lemma ofStatement?_of_not_colon (hgap : ∀ c ∈ gap, c.isTrivia = true)
    (hds : ∀ c ∈ ds.head?, c.isTrivia = false ∧ c.isLeaf .colon = false) :
    ofStatement? (.leaf t :: (gap ++ ds)) = none := by
  rw [ofStatement?, dropWhile_isTrivia hgap fun c hc => (hds c hc).1]
  split
  · split
    next colon value =>
      have hcolon : ¬ (colon.kind == .colon) = true := by simpa [Component.isLeaf] using (hds _ rfl).2
      rw [if_neg hcolon]
    next => rfl
  · rfl

lemma ofStatement?_eq_none {c : Component} {st : List Component}
    (h : c.isLeaf .ident = false) : ofStatement? (c :: st) = none := by
  cases c with
  | block => rfl
  | leaf t =>
    have ht : ¬ (t.kind == .ident) = true := by simpa [Component.isLeaf] using h
    simp only [ofStatement?, ht, Bool.false_eq_true, if_false]

end Declaration

lemma statements_reading {begun pre : List Component} (hne : begun ≠ [])
    (hpre : ∀ c ∈ pre, c.isLeaf .semicolon = false ∧
      (isAtStatement begun && c.braced?.isSome) = false) (cs : List Component) :
    statements begun (pre ++ cs) = statements (begun ++ pre) cs := by
  induction pre generalizing begun with
  | nil => rw [List.append_nil, List.nil_append]
  | cons c pre ih =>
    rw [List.forall_mem_cons] at hpre
    obtain ⟨⟨hsemi, hbrace⟩, hpre⟩ := hpre
    have hat : isAtStatement (begun ++ [c]) = isAtStatement begun := by
      obtain ⟨d, begun, rfl⟩ := List.exists_cons_of_ne_nil hne
      rfl
    rw [List.cons_append, statements, hsemi, hbrace, List.isEmpty_eq_false_iff.mpr hne]
    simp only [Bool.false_eq_true, if_false, Bool.false_and]
    rw [ih (by simp) (by rwa [hat]), List.append_assoc, List.singleton_append]

lemma declarations_statement {c : Component} {pre behind : List Component}
    (htrivia : c.isTrivia = false) (hsemi : c.isLeaf .semicolon = false)
    (hpre : ∀ d ∈ pre, d.isLeaf .semicolon = false ∧
      (c.isLeaf .atKeyword && d.braced?.isSome) = false)
    (hbehind : ∀ d ∈ behind.head?, d.isLeaf .semicolon = true ∨
      (c.isLeaf .atKeyword && d.braced?.isSome) = true) :
    declarations (c :: (pre ++ behind)) =
      (Declaration.ofStatement? (c :: pre)).toList ++ declarations behind.tail := by
  have hstart : statements [] (c :: (pre ++ behind)) = statements (c :: pre) behind := by
    rw [← List.singleton_append (x := c) (l := pre), ← statements_reading (by simp) hpre]
    simp [statements, htrivia, hsemi, isAtStatement]
  have hnone : c.isLeaf .atKeyword = true → ∀ st, Declaration.ofStatement? (c :: st) = none := by
    intro hat st
    cases c with
    | block => rfl
    | leaf t => simp_all [Declaration.ofStatement?, Component.isLeaf]
  rw [declarations, hstart]
  cases behind with
  | nil =>
    have hnil : declarations [] = [] := rfl
    rw [List.tail_nil, hnil, statements]
    cases h : Declaration.ofStatement? (c :: pre) <;> simp [h]
  | cons d behind =>
    rw [List.tail_cons, statements]
    split_ifs with hd hat hempty
    · cases h : Declaration.ofStatement? (c :: pre) <;> simp [h, declarations]
    · have hc : c.isLeaf .atKeyword = true := (Bool.and_eq_true_iff.mp hat).1
      simp [hnone hc, declarations]
    · simp at hempty
    · rcases hbehind d rfl with h | h
      · exact absurd h hd
      · exact absurd h hat

lemma declarations_trivia_append {gap : List Component} (h : ∀ c ∈ gap, c.isTrivia = true)
    (cs : List Component) : declarations (gap ++ cs) = declarations cs := by
  induction gap with
  | nil => rfl
  | cons c gap ih =>
    rw [List.forall_mem_cons] at h
    have hsemi : c.isLeaf .semicolon = false := by
      cases c with
      | block => rfl
      | leaf t =>
        have ht : t.kind.isTrivia = true := h.1
        cases hk : t.kind <;> simp_all [Component.isLeaf, Kind.isTrivia]
    rw [← ih h.2, List.cons_append, declarations, statements]
    simp [hsemi, h.1, isAtStatement, declarations]

lemma declarations_semicolon {c : Component} (h : c.isLeaf .semicolon = true) (cs : List Component) :
    declarations (c :: cs) = declarations cs := by
  have hnone : Declaration.ofStatement? [] = none := rfl
  rw [declarations, statements, if_pos h, List.filterMap_cons_none hnone, declarations]

namespace Pending

/-- What is pending before a rule, be it the first or not. -/
def before (first : Bool) : Pending := if first then .fresh else .nothing

lemma isIdle_before (first : Bool) : (before first).isIdle = true := by cases first <;> rfl

lemma next_before (first : Bool) {c : Component} (h : isBetweenRules c = false) :
    (before first).next c = start first c := by
  cases first <;> simp [before, next, h]

end Pending

lemma rulesFrom_between_append {p : Pending} (hp : p.isIdle = true) {gap : List Component}
    (h : ∀ c ∈ gap, isBetweenRules c = true) (cs : List Component) :
    rulesFrom p (gap ++ cs) = rulesFrom p cs := by
  induction gap with
  | nil => rfl
  | cons c gap ih =>
    rw [List.forall_mem_cons] at h
    rw [List.cons_append, rulesFrom_reading (Pending.next_of_isBetweenRules hp h.1), ih h.2]

lemma rulesFrom_reading_append (f : List Component → Pending) (begun : List Component)
    {pre : List Component}
    (h : ∀ begun, ∀ c ∈ pre, (f begun).next c = .reading (f (begun ++ [c]))) (cs : List Component) :
    rulesFrom (f begun) (pre ++ cs) = rulesFrom (f (begun ++ pre)) cs := by
  induction pre generalizing begun with
  | nil => rw [List.append_nil, List.nil_append]
  | cons c pre ih =>
    rw [List.cons_append, rulesFrom_reading (h begun c List.mem_cons_self),
      ih _ fun begun d hd => h begun d (List.mem_cons_of_mem c hd), List.append_assoc,
      List.singleton_append]

section Rule
open Pending
variable {first : Bool} {t : Token} {pre behind : List Component}

lemma rulesFrom_charset (ht : t.kind = .atKeyword) (hkey : t.key = "charset".toList)
    (hpre : ∀ c ∈ pre, c.isLeaf .semicolon = false ∧ c.braced?.isSome = false)
    (hbehind : ∀ c ∈ behind.head?, c.isLeaf .semicolon = true ∨ c.braced?.isSome = true) :
    rulesFrom .fresh (.leaf t :: (pre ++ behind)) = rulesFrom .nothing behind.tail := by
  have hnext : Pending.fresh.next (.leaf t) = .reading .ignored := by
    simp [next, start, isBetweenRules, Component.isTrivia, Component.isLeaf, ht, hkey, Kind.isTrivia]
  rw [rulesFrom_reading hnext, rulesFrom_reading_append (fun _ => .ignored) [] ?_]
  · cases behind with
    | nil => simp [rulesFrom]
    | cons c behind =>
      have hc := hbehind c rfl
      rw [rulesFrom]
      simp [next, hc]
  · intro _ c hc
    simp [next, hpre c hc]

lemma rulesFrom_atRule (ht : t.kind = .atKeyword)
    (hkey : ¬ (first = true ∧ t.key = "charset".toList))
    (hpre : ∀ c ∈ pre, c.isLeaf .semicolon = false ∧ c.braced?.isSome = false) :
    rulesFrom (before first) (.leaf t :: (pre ++ behind)) = rulesFrom (.atRule t.key pre) behind := by
  have hbetween : isBetweenRules (.leaf t) = false := by
    simp [isBetweenRules, Component.isTrivia, Component.isLeaf, ht, Kind.isTrivia]
  have hnext : (before first).next (.leaf t) = .reading (.atRule t.key []) := by
    rw [next_before first hbetween]
    simp only [start, ht, beq_self_eq_true, if_true, Bool.and_eq_true, beq_iff_eq]
    rw [if_neg hkey]
  rw [rulesFrom_reading hnext, rulesFrom_reading_append (.atRule t.key) [] ?_,
    List.nil_append]
  intro _ c hc
  simp [next, hpre c hc]

lemma rulesFrom_atRule_semicolon {name : List Char}
    (h : ∀ c ∈ behind.head?, c.isLeaf .semicolon = true) :
    rulesFrom (.atRule name pre) behind = rulesFrom .nothing behind.tail := by
  cases behind with
  | nil => simp [rulesFrom]
  | cons c behind =>
    rw [rulesFrom]
    simp [next, h c rfl]

lemma rulesFrom_atRule_block {name : List Char} {o : Token} {body : List Component}
    {closer : Option Token} (ho : o.kind = .opening .curly) :
    rulesFrom (.atRule name pre) (.block o body closer :: behind) =
      (if groupNames.contains name then rulesFrom .fresh body
        else [⟨String.ofList (atHeader name (written pre)), declarations body⟩]) ++
        rulesFrom .nothing behind := by
  rw [rulesFrom]
  simp only [next, Component.isLeaf, Component.braced?, ho, beq_self_eq_true, if_true,
    Option.isSome_some, Bool.false_eq_true, if_false, Option.getD_some]
  split
  next h => split at h <;> simp_all
  next h => split at h <;> simp_all
  next h => split at h <;> simp_all [Component.innerRules]
  next h => split at h <;> simp_all

lemma rulesFrom_qualified (hhead : ∀ c ∈ (pre ++ behind).head?, isBetweenRules c = false ∧
      c.isLeaf .atKeyword = false) (hpre : ∀ c ∈ pre, c.braced?.isSome = false)
    (hbehind : ∀ c ∈ behind.head?, c.braced?.isSome = true) :
    rulesFrom (before first) (pre ++ behind) =
      (behind.head?.toList.flatMap fun c => if isCustomProperty pre then [] else
        [⟨String.ofList (written pre), declarations (c.braced?.getD [])⟩]) ++
        rulesFrom .nothing behind.tail := by
  have hend : ∀ pre, rulesFrom (.qualified pre) behind =
      (behind.head?.toList.flatMap fun c => if isCustomProperty pre then [] else
        [⟨String.ofList (written pre), declarations (c.braced?.getD [])⟩]) ++
        rulesFrom .nothing behind.tail := by
    intro pre
    cases behind with
    | nil => simp [rulesFrom]
    | cons c behind =>
      rw [rulesFrom]
      by_cases hcustom : isCustomProperty pre = true <;> simp [next, hbehind c rfl, hcustom]
  cases pre with
  | nil =>
    cases behind with
    | nil => simp [rulesFrom]
    | cons c behind =>
      have hc := hbehind c rfl
      cases c with
      | leaf => contradiction
      | block o body closer =>
        rw [List.nil_append, rulesFrom, next_before first (hhead _ rfl).1]
        simp [start, hc, isCustomProperty, written, Component.textOf]
  | cons c pre =>
    rw [List.forall_mem_cons] at hpre
    obtain ⟨hbetween, hat⟩ := hhead c rfl
    have hnext : (before first).next c = .reading (.qualified [c]) := by
      rw [next_before first hbetween]
      cases c with
      | leaf t =>
        have ht : ¬ (t.kind == .atKeyword) = true := by simpa [Component.isLeaf] using hat
        rw [start, if_neg ht]
      | block o body closer => simp [start, hpre.1]
    rw [List.cons_append, rulesFrom_reading hnext,
      rulesFrom_reading_append (.qualified) [c] ?_, hend, List.singleton_append]
    intro _ c hc
    simp [next, hpre.2 c hc]

end Rule
end FontSizeLint.Css
