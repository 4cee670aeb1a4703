import FontSizeLint.Css.Parser.Stylesheet
import FontSizeLint.Proofs.Css.Parser
import FontSizeLint.Proofs.Css.Split

/-! One iteration of each of the loops that read a style sheet. It ends its loop where nothing is ahead
that could be read, or it goes on in the text; and what it reads is read first of the components ahead. -/
namespace FontSizeLint.Css
open Text

namespace Parser
variable {α β : Type} {p q : Parser} {cs ds gap : List Component}

/-- An iteration ends its loop where it has passed all that is ahead, or it passes some components, and
the text goes on less than before. -/
def Proceeds (p : Parser) (r : Option (Round α)) (last : Prop) (more : α → List Component → Prop) :
    Prop :=
  r = some (.last (p.beyond p.ahead)) ∧ last ∨
  ∃ a q used left, r = some (.more a q) ∧ q.settle = p.beyond used ∧ p.ahead = used ++ left ∧
    p.cursor.Before q.cursor ∧ more a left

/-- A reader passes some of the components ahead, and the text goes on less than before. -/
def Takes (p : Parser) (r : Option (Reply α)) (tells : Option α → List Component → Prop) : Prop :=
  ∃ a q used left, r = some (a, q) ∧ q.settle = p.beyond used ∧ p.ahead = used ++ left ∧
    p.cursor.Before q.cursor ∧ tells a left

lemma Takes.beyond {r : Option (Reply α)} {tells : Option α → List Component → Prop} {a : Option α}
    {used left : List Component} (hr : r = some (a, p.beyond used)) (h : p.ahead = used ++ left)
    (hused : used ≠ []) (htells : tells a left) : p.Takes r tells :=
  ⟨a, _, used, left, hr, settle_beyond, h, before_beyond h hused, htells⟩

lemma Takes.of_beyond {r : Option (Reply α)} {tells : Option α → List Component → Prop}
    (h : p.ahead = gap ++ ds) (hr : (p.beyond gap).Takes r tells) : p.Takes r tells := by
  obtain ⟨a, q, used, left, hr, hq, hleft, hbefore, htells⟩ := hr
  rw [ahead_beyond h] at hleft
  rw [beyond_beyond] at hq
  refine ⟨a, q, gap ++ used, left, hr, hq, ?_, hbefore.of_isSuffix (rest_beyond_isSuffix h), htells⟩
  rw [h, hleft, List.append_assoc]

lemma Takes.proceeds {r : Option (Reply α)} {tells : Option α → List Component → Prop} {last : Prop}
    {more : β → List Component → Prop} (h : p.Takes r tells) (f : Option α → β)
    (hmore : ∀ a left, tells a left → more (f a) left) :
    Proceeds p (r.bind fun x => some (.more (f x.1) x.2)) last more := by
  obtain ⟨a, q, used, left, rfl, hq, hp, hbefore, htells⟩ := h
  exact .inr ⟨f a, q, used, left, rfl, hq, hp, hbefore, hmore a left htells⟩

lemma Proceeds.beyond {r : Option (Round α)} {last : Prop} {more : α → List Component → Prop} {a : α}
    {used left : List Component} (hr : r = some (.more a (p.beyond used))) (h : p.ahead = used ++ left)
    (hused : used ≠ []) (hmore : more a left) : Proceeds p r last more :=
  .inr ⟨a, _, used, left, hr, settle_beyond, h, before_beyond h hused, hmore⟩

lemma Proceeds.imp {r : Option (Round α)} {last last' : Prop} {more more' : α → List Component → Prop}
    (h : Proceeds p r last more) (hlast : last → last') (hmore : ∀ a left, more a left → more' a left) :
    Proceeds p r last' more' := by
  rcases h with ⟨hr, h⟩ | ⟨a, q, used, left, hr, hq, hp, hbefore, h⟩
  · exact .inl ⟨hr, hlast h⟩
  · exact .inr ⟨a, q, used, left, hr, hq, hp, hbefore, hmore a left h⟩

/-- A loop of such iterations ends, behind all that is ahead, and reads that. -/
theorem loopWithin_eq {round : Parser → Option (Round α)} {I : List Delimiter → Prop}
    {F : List Component → β} {b : β} {g : α → β → β}
    (h : ∀ p : Parser, I p.stops →
      Proceeds p (round p) (F p.ahead = b) fun a left => F p.ahead = g a (F left))
    (n : Nat) (p : Parser) (hp : I p.stops) (hn : p.cursor.left < n) :
    ∃ as, loopWithin round n p = some (as, p.beyond p.ahead) ∧ F p.ahead = as.foldr g b := by
  -- What is left of the text stays below the number of iterations, as each leaves less of it.
  induction n generalizing p with
  | zero => exact absurd hn (Nat.not_lt_zero _)
  | succ n ih =>
    rcases h p hp with ⟨hround, hlast⟩ | ⟨a, q, used, left, hround, hq, hleft, hbefore, hmore⟩
    · exact ⟨[], by rw [loopWithin, hround]; rfl, hlast⟩
    · have hlt := hbefore.left_lt
      obtain ⟨as, hloop, has⟩ := ih q (by rwa [stops_of_settle hq]) (by omega)
      have hahead := ahead_of_settle hq hleft
      refine ⟨a :: as, ?_, by rw [hmore, ← hahead, has]; rfl⟩
      rw [loopWithin, hround]
      simp only [Option.bind_eq_bind, Option.bind_some, hloop]
      rw [hahead, beyond_of_settle hq, hleft]
      rfl

/-! Values. -/

lemma isDelim_kind {t : Token} {c : Char} (h : t.isDelim c = true) : t.kind = .delim := by
  simp only [Token.isDelim, Bool.and_eq_true, beq_iff_eq] at h
  exact h.1

lemma exists_leaf_of_isBang {c : Component} (h : Part.isBang c = true) :
    ∃ t, c = .leaf t ∧ t.isDelim '!' = true := by
  cases c with
  | leaf t => exact ⟨t, rfl, h⟩
  | block o body closer => contradiction

lemma isBang_eq {c : Component} (h : c.Proper) : Part.isBang c = c.head.isDelim '!' := by
  cases c with
  | leaf t => rfl
  | block o body closer =>
    have ho : o.kind.opens?.isSome = true := h
    by_contra hne
    have hd : o.isDelim '!' = true := by simpa [Part.isBang, Component.head] using hne
    simp [isDelim_kind hd, Kind.opens?] at ho

lemma isImportantWord_eq {c : Component} (h : c.Proper) :
    Part.isImportantWord c = (c.head.kind == .ident && c.head.key == importantWord) := by
  cases c with
  | leaf t => rfl
  | block o body closer =>
    have ho : o.kind.opens?.isSome = true := h
    have hk : o.kind ≠ .ident := by
      intro hk
      simp [hk, Kind.opens?] at ho
    simp [Part.isImportantWord, Component.head, hk]

lemma isSeparator_eq {c : Component} (h : c.Proper) :
    Part.isSeparator c = (c.head.kind == .comma || c.head.isDelim '/') := by
  cases c with
  | leaf t => rfl
  | block o body closer =>
    have ho : o.kind.opens?.isSome = true := h
    have hk : o.kind ≠ .comma ∧ o.kind ≠ .delim := by
      constructor <;> intro hk <;> simp [hk, Kind.opens?] at ho
    simp [Part.isSeparator, Component.head, Token.isDelim, hk]

lemma mark_of_behindMark? {c : Component} {left : List Component} (h : p.ahead = c :: cs)
    (hm : Part.behindMark? c cs = some left) :
    ∃ t used, p.mark = (some t, p.beyond (c :: used)) ∧ cs = used ++ left := by
  obtain ⟨gap, word, rfl, hbang, hgap, hword⟩ := Part.exists_of_behindMark? hm
  cases c with
  | block => contradiction
  | leaf b =>
    cases word with
    | block => contradiction
    | leaf w =>
      have hb : b.kind = .delim := isDelim_kind hbang
      have hw : w.kind.isTrivia = false := Part.isTrivia_eq_false_of_isImportantWord hword
      have hfirst : p.expect (·.isDelim '!') = (some b, p.beyond [.leaf b]) :=
        expect_leaf (List.forall_mem_nil _) (by rw [hb]; rfl) hbang h
      have hsecond : (p.beyond [.leaf b]).expect (fun t => t.kind == .ident && t.key == importantWord) =
          (some w, (p.beyond [.leaf b]).beyond (gap ++ [.leaf w])) :=
        expect_leaf hgap hw hword (ahead_beyond h)
      refine ⟨w, gap ++ [.leaf w], ?_, by simp⟩
      rw [mark, hfirst]
      simpa using hsecond

lemma mark_fst_eq_none (h : p.ahead = ds) (hds : ∀ c ∈ ds.head?, c.isTrivia = false ∧
    Part.behindMark? c ds.tail = none) : p.mark.1 = none := by
  have hproper : ∀ c ∈ p.ahead, c.Proper := fun c hc => p.wellNested_ahead.proper hc
  have hnone : (p.expect (·.isDelim '!')).1 = none → p.mark.1 = none := by
    intro hfst
    rw [mark]
    split
    next => rfl
    next ht => simp [ht] at hfst
  cases ds with
  | nil => exact hnone (by rw [expect_fst, h]; rfl)
  | cons c cs =>
    rw [h, List.forall_mem_cons] at hproper
    obtain ⟨hc, hm⟩ := hds c rfl
    by_cases hbang : Part.isBang c = true
    · obtain ⟨b, rfl, hb⟩ := exists_leaf_of_isBang hbang
      have hexpect : p.expect (·.isDelim '!') = (some b, p.beyond [.leaf b]) :=
        expect_leaf (List.forall_mem_nil _) hc hb h
      rw [mark, hexpect]
      simp only
      rw [expect_fst, ahead_beyond h]
      rw [Part.behindMark?, List.tail_cons] at hm
      split at hm
      next d left hd =>
        have hword : d.Proper := hproper.2 d ((List.dropWhile_suffix _).subset (hd ▸ List.mem_cons_self))
        simp only [hbang, isImportantWord_eq hword, Bool.true_and] at hm
        simpa [hd, Option.filter_some] using hm
      next hd => rw [hd]; rfl
    · refine hnone ?_
      rw [isBang_eq hproper.1] at hbang
      rw [expect_fst, h, List.dropWhile_cons_of_neg (by simp [hc])]
      simpa [Option.filter_some] using hbang

lemma part_beyond {c : Component} (hp : p.opened = none) (h : p.ahead = c :: cs) :
    (p.beyond [c]).part c.head p.cursor = Part.ofComponent c := by
  have htext : p.cursor.upTo (p.beyond [c]).cursor = c.text := by
    have hsplit : p.ahead = [c] ++ cs := h
    rw [upTo_beyond hp hsplit]
    simp [Component.textOf]
  rw [part, htext, ← position_head hp h]
  rfl

def met (c : Component) : Met :=
  if Part.isSeparator c then .separator else .part (Part.ofComponent c)

lemma valueRound_mark {c : Component} {left : List Component} (h : p.ahead = gap ++ c :: cs)
    (hgap : ∀ c ∈ gap, c.isTrivia = true) (hc : c.isTrivia = false)
    (hm : Part.behindMark? c cs = some left) :
    ∃ used, p.valueRound = some (.more .mark (p.beyond (gap ++ c :: used))) ∧ cs = used ++ left := by
  obtain ⟨t, used, hmark, hcs⟩ := mark_of_behindMark? (ahead_beyond h) hm
  refine ⟨used, ?_, hcs⟩
  rw [valueRound, skip_gap hgap (by simpa using hc) h, attempt_of_some hmark]
  simp only [Option.pure_def, beyond_beyond]

lemma valueRound_part {c : Component} (h : p.ahead = gap ++ c :: cs)
    (hgap : ∀ c ∈ gap, c.isTrivia = true) (hc : c.isTrivia = false)
    (hm : Part.behindMark? c cs = none) :
    p.valueRound = some (.more (met c) (p.beyond (gap ++ [c]))) := by
  have hahead := ahead_beyond h
  have hmark : (p.beyond gap).mark.1 = none := mark_fst_eq_none hahead (by simp [hc, hm])
  have hproper : c.Proper := p.wellNested_ahead.proper (by simp [h])
  have hpart : (p.beyond (gap ++ [c])).part c.head (p.beyond gap).cursor = Part.ofComponent c := by
    rw [← beyond_beyond]
    exact part_beyond rfl hahead
  rw [valueRound, skip_gap hgap (by simpa using hc) h, attempt_of_none hmark, met,
    isSeparator_eq hproper]
  simp only [Option.pure_def, Option.bind_eq_bind]
  cases c with
  | leaf t =>
    have hnext : (p.beyond gap).next = (some t, p.beyond (gap ++ [.leaf t])) := by
      rw [← beyond_beyond]
      exact next_leaf (List.forall_mem_nil _) hc hahead
    have ht : t.kind.opens?.isNone = true := Option.isNone_iff_eq_none.mpr hproper
    simp only [hnext, ht, if_true, Component.head]
    by_cases hs : (t.kind == .comma || t.isDelim '/') = true
    · simp only [hs, if_true]
    · simp only [hs, Bool.false_eq_true, if_false]
      rw [← hpart]
      rfl
  | block o body closer =>
    obtain ⟨q, b, hnext, ho, hin, -⟩ := next_block (List.forall_mem_nil _) hahead
    rw [List.nil_append, beyond_beyond] at hin
    -- Reading a block to its end never fails, so the loop goes on behind it.
    have hdrain : Reads (fun r : Parser => some (some (), r.drain)) (q.inside b) (some ()) [] :=
      ⟨_, (q.inside b).ahead, rfl, by rw [drain_eq, settle_beyond], (List.append_nil _).symm⟩
    have hs : (o.kind == .comma || o.isDelim '/') = false := (isSeparator_eq hproper).symm
    have hsome : o.kind.opens?.isNone = false := by simp [ho]
    simp only [hnext, hs, hsome, Component.head, Bool.false_eq_true, if_false]
    rw [block_eq hin hdrain, ← hpart]
    rfl

/-- One iteration on a value: it ends where nothing is ahead, or it passes a mark of importance or one
component. -/
theorem valueRound_proceeds (p : Parser) :
    Proceeds p p.valueRound (Part.ofValue p.ahead = ([], false)) fun m left =>
      Part.ofValue p.ahead =
        (m.part?.toList ++ (Part.ofValue left).1, m.isMark || (Part.ofValue left).2) := by
  obtain ⟨gap, ds, h, hgap, hds⟩ := exists_gap p.ahead
  have hvalue : Part.ofValue p.ahead = Part.ofValue ds := by
    rw [h, Part.ofValue, List.filter_append, Part.filter_eq_nil_of_isTrivia hgap]
    rfl
  rw [hvalue]
  cases ds with
  | nil =>
    have hahead := ahead_beyond h
    have hmark : (p.beyond gap).mark.1 = none := mark_fst_eq_none hahead (by simp)
    have hnext : (p.beyond gap).next = (none, p.beyond p.ahead) := by
      rw [next_nil (by simp [hahead]), hahead, beyond_beyond, h]
    refine .inl ⟨?_, rfl⟩
    rw [valueRound, skip_gap hgap hds h, attempt_of_none hmark]
    simp only [hnext]
    rfl
  | cons c cs =>
    have hc := hds c rfl
    cases hm : Part.behindMark? c cs with
    | some left =>
      obtain ⟨used, hround, rfl⟩ := valueRound_mark h hgap hc hm
      have hp : p.ahead = (gap ++ c :: used) ++ left := by simp [h]
      refine .beyond hround hp (by simp) ?_
      rw [Part.ofValue_of_behindMark? hc hm]
      rfl
    | none =>
      have hp : p.ahead = (gap ++ [c]) ++ cs := by simp [h]
      refine .beyond (valueRound_part h hgap hc hm) hp (by simp) ?_
      rw [Part.ofValue_of_behindMark?_eq_none hc hm, met]
      by_cases hs : Part.isSeparator c = true <;> simp [hs, Met.part?, Met.isMark]

/-- All parts of a value are read, and all marks of importance. -/
theorem loop_valueRound (p : Parser) : ∃ ms, p.loop valueRound = some (ms, p.beyond p.ahead) ∧
    Part.ofValue p.ahead = (ms.filterMap Met.part?, ms.any Met.isMark) := by
  obtain ⟨ms, hloop, hms⟩ := loopWithin_eq (I := fun _ => True)
    (g := fun (m : Met) (v : List Part × Bool) => (m.part?.toList ++ v.1, m.isMark || v.2))
    (fun p _ => valueRound_proceeds p) _ p trivial (Nat.lt_succ_self _)
  refine ⟨ms, hloop, hms.trans ?_⟩
  clear hloop hms
  induction ms with
  | nil => rfl
  | cons m ms ih =>
    rw [List.foldr_cons, ih, List.any_cons, List.filterMap_cons]
    cases m.part? <;> rfl

theorem value_eq (name : Token) (hp : p.opened = none) :
    p.value name = some (some (Declaration.ofValue name p.ahead), p.beyond p.ahead) := by
  obtain ⟨ms, hloop, hms⟩ := p.loop_valueRound
  rw [value, hloop]
  simp only [Option.bind_eq_bind, Option.bind_some, upTo_beyond hp (List.append_nil p.ahead).symm]
  rw [Declaration.ofValue, hms]
  rfl

end Parser
end FontSizeLint.Css
