import FontSizeLint.Proofs.Text.Lines
import Mathlib.Data.List.Chain

/-! The lines of a text as a partition of it. Lines with a break behind each, and the last line without
one, make up the text; the lines found are those of the only such partition. -/
namespace FontSizeLint.Text

/-- A break as it is written behind a line. -/
inductive Terminator
  | feed
  | carriageReturn
  | returnAndFeed
  | formFeed
  deriving DecidableEq

namespace Terminator

def text : Terminator → List Char
  | feed => ['\n']
  | carriageReturn => ['\r']
  | returnAndFeed => ['\r', '\n']
  | formFeed => ['\x0c']

lemma text_injective : Function.Injective text := by
  intro t u h
  cases t <;> cases u <;> simp_all [text]

/-- The break ends before a given rest, and does not take the first feed of it with it. -/
def EndsBefore (t : Terminator) (s : List Char) : Prop := t = carriageReturn → s.head? ≠ some '\n'

end Terminator

/-- A line with the break behind it. -/
structure EndedLine where
  line : List Char
  terminator : Terminator
  deriving DecidableEq

namespace EndedLine

def text (l : EndedLine) : List Char := l.line ++ l.terminator.text

/-- Two lines that are one as written: a carriage return ends the first, and all that stands behind it
on the second is the feed that makes one break with it. -/
def SplitBreak (a b : EndedLine) : Prop :=
  a.terminator = .carriageReturn ∧ b.line = [] ∧ b.terminator = .feed

end EndedLine

def joined (ended : List EndedLine) (last : List Char) : List Char :=
  ended.flatMap EndedLine.text ++ last

/-- None of the lines has a break in it, and no break is split into two. -/
structure Proper (ended : List EndedLine) (last : List Char) : Prop where
  unbroken : ∀ l ∈ ended, Unbroken l.line
  unbroken_last : Unbroken last
  whole : ended.IsChain fun a b => ¬ a.SplitBreak b

/-- A text as lines with their breaks, and a last line. -/
structure Partition (s : List Char) where
  ended : List EndedLine
  last : List Char
  proper : Proper ended last
  joined_eq : joined ended last = s

def Partition.lines {s : List Char} (p : Partition s) : List (List Char) :=
  p.ended.map EndedLine.line ++ [p.last]

/-- What is left of a text behind its first break, if it has one. -/
def behindBreak? (s : List Char) : Option (List Char) :=
  match s.dropWhile fun c => !isBreak c with
  | [] => none
  | c :: r => some ((c :: r).drop (breakLength (c :: r)))

@[simp] lemma joined_nil (last : List Char) : joined [] last = last := rfl

lemma joined_cons (l : EndedLine) (ls : List EndedLine) (last : List Char) :
    joined (l :: ls) last = l.line ++ (l.terminator.text ++ joined ls last) := by
  simp [joined, EndedLine.text]

section Break
variable {t : Terminator} {s : List Char}

lemma returnAndFeed_or_single (h : t.EndsBefore s) : t = .returnAndFeed ∨
    ∃ c, t.text = [c] ∧ isBreak c = true ∧ ∀ r, c = '\r' → s = '\n' :: r → False := by
  cases t with
  | feed => exact .inr ⟨'\n', rfl, by decide, by simp⟩
  | carriageReturn =>
    refine .inr ⟨'\r', rfl, by decide, ?_⟩
    rintro r - rfl
    exact h rfl rfl
  | returnAndFeed => exact .inl rfl
  | formFeed => exact .inr ⟨'\x0c', rfl, by decide, by simp⟩

lemma lines_terminator_append (h : t.EndsBefore s) : lines (t.text ++ s) = [] :: lines s := by
  obtain rfl | ⟨c, htext, hc, hpair⟩ := returnAndFeed_or_single h
  · rfl
  · rw [htext, List.singleton_append, lines.eq_3 _ _ hpair, if_pos hc]

lemma breaks_terminator_append (h : t.EndsBefore s) : breaks (t.text ++ s) = breaks s + 1 := by
  obtain rfl | ⟨c, htext, hc, hpair⟩ := returnAndFeed_or_single h
  · rfl
  · rw [htext, List.singleton_append, breaks.eq_3 _ _ hpair, if_pos hc]

lemma breakLength_terminator_append (h : t.EndsBefore s) :
    breakLength (t.text ++ s) = t.text.length := by
  obtain rfl | ⟨c, htext, hc, hpair⟩ := returnAndFeed_or_single h
  · rfl
  · rw [htext, List.singleton_append, breakLength.eq_2 _ _ hpair, if_pos hc, List.length_singleton]

lemma terminator_append_inj {u : Terminator} {r : List Char} (ht : t.EndsBefore s) (hu : u.EndsBefore r)
    (h : t.text ++ s = u.text ++ r) : t = u ∧ s = r := by
  have hlength : t.text.length = u.text.length := by
    rw [← breakLength_terminator_append ht, h, breakLength_terminator_append hu]
  obtain ⟨htext, hrest⟩ := List.append_inj h hlength
  exact ⟨Terminator.text_injective htext, hrest⟩

lemma exists_terminator {c : Char} (hc : isBreak c = true) (s : List Char) :
    ∃ t : Terminator, t.EndsBefore ((c :: s).drop (breakLength (c :: s))) ∧
      c :: s = t.text ++ (c :: s).drop (breakLength (c :: s)) := by
  rcases isBreak_iff.mp hc with rfl | rfl | rfl
  · exact ⟨.feed, by simp [Terminator.EndsBefore], rfl⟩
  · cases s with
    | nil => exact ⟨.carriageReturn, fun _ => by decide, rfl⟩
    | cons d s =>
      by_cases hd : d = '\n'
      · subst d
        exact ⟨.returnAndFeed, by simp [Terminator.EndsBefore], rfl⟩
      · have hlength : breakLength ('\r' :: d :: s) = 1 := by simp [breakLength, hd, isBreak]
        rw [hlength]
        exact ⟨.carriageReturn, fun _ => by simpa using hd, rfl⟩
  · exact ⟨.formFeed, by simp [Terminator.EndsBefore], rfl⟩

end Break

lemma unbroken_firstLine (s : List Char) : Unbroken (firstLine s) := by
  intro c hc
  simpa using List.mem_takeWhile_imp hc

lemma unbroken_of_behindBreak?_eq_none {s : List Char} (h : behindBreak? s = none) : Unbroken s := by
  unfold behindBreak? at h
  split at h
  · rename_i hs
    intro c hc
    simpa using List.dropWhile_eq_nil_iff.mp hs c hc
  · simp at h

lemma exists_terminator_of_behindBreak? {s r : List Char} (h : behindBreak? s = some r) :
    ∃ t : Terminator, t.EndsBefore r ∧ s = firstLine s ++ (t.text ++ r) := by
  unfold behindBreak? at h
  split at h
  · simp at h
  · rename_i c u hs
    have hc : isBreak c = true := by
      have hhead := List.head?_dropWhile_not (fun c => !isBreak c) s
      simpa [hs] using hhead
    obtain ⟨t, ht, htext⟩ := exists_terminator hc u
    rw [Option.some.inj h] at ht htext
    refine ⟨t, ht, ?_⟩
    rw [← htext, ← hs]
    exact (List.takeWhile_append_dropWhile (p := fun c => !isBreak c)).symm

/-- Lines are found one after the other, each behind the break of the line before. -/
theorem lines_eq_cons (s : List Char) :
    lines s = firstLine s :: (behindBreak? s).elim [] lines := by
  cases h : behindBreak? s with
  | none =>
    have hs := unbroken_of_behindBreak?_eq_none h
    have hfirst : firstLine s = s := List.takeWhile_eq_self_iff.mpr (by simpa [Unbroken] using hs)
    have hl := lines_unbroken_append (s := []) hs rfl
    rw [List.append_nil] at hl
    rw [hl, hfirst]
    rfl
  | some r =>
    obtain ⟨t, ht, hs⟩ := exists_terminator_of_behindBreak? h
    have hl := lines_unbroken_append (unbroken_firstLine s) (lines_terminator_append ht)
    rwa [← hs, List.append_nil] at hl

section Joined
variable {l : EndedLine} {ls ms : List EndedLine} {last last' : List Char}

lemma head?_ne_feed {s : List Char} (h : Unbroken s) : s.head? ≠ some '\n' := by
  intro hs
  exact absurd (h _ (List.mem_of_head? hs)) (by decide)

lemma head?_joined_cons {m : EndedLine} (hm : Unbroken m.line) :
    (joined (m :: ms) last).head? = some '\n' ↔ m.line = [] ∧ m.terminator = .feed := by
  rw [joined_cons]
  cases hline : m.line with
  | nil => cases m.terminator <;> simp [Terminator.text]
  | cons c r =>
    have hc := head?_ne_feed hm
    rw [hline] at hc
    simpa using hc

lemma proper_cons : Proper (l :: ls) last ↔
    Unbroken l.line ∧ l.terminator.EndsBefore (joined ls last) ∧ Proper ls last := by
  have hends (h : Proper ls last) :
      l.terminator.EndsBefore (joined ls last) ↔ ∀ m ∈ ls.head?, ¬ l.SplitBreak m := by
    cases ls with
    | nil => simp [Terminator.EndsBefore, head?_ne_feed h.unbroken_last]
    | cons m ls =>
      simp [Terminator.EndsBefore, EndedLine.SplitBreak,
        head?_joined_cons (h.unbroken m List.mem_cons_self)]
  constructor
  · intro h
    have hwhole := List.isChain_cons.mp h.whole
    have hunbroken := List.forall_mem_cons.mp h.unbroken
    have hls : Proper ls last := ⟨hunbroken.2, h.unbroken_last, hwhole.2⟩
    exact ⟨hunbroken.1, (hends hls).mpr hwhole.1, hls⟩
  · rintro ⟨hl, hbreak, h⟩
    exact ⟨List.forall_mem_cons.mpr ⟨hl, h.unbroken⟩, h.unbroken_last,
      List.isChain_cons.mpr ⟨(hends h).mp hbreak, h.whole⟩⟩

/-- Lines put together with their breaks are found again. -/
theorem lines_joined (h : Proper ls last) :
    lines (joined ls last) = ls.map EndedLine.line ++ [last] ∧
      breaks (joined ls last) = ls.length := by
  induction ls with
  | nil =>
    have hl := lines_unbroken_append (s := []) h.unbroken_last rfl
    have hb := breaks_unbroken_append h.unbroken_last []
    rw [List.append_nil] at hl hb
    rw [joined_nil, hl, hb]
    simp [breaks]
  | cons l ls ih =>
    obtain ⟨hline, hends, hls⟩ := proper_cons.mp h
    obtain ⟨hlines, hbreaks⟩ := ih hls
    rw [joined_cons]
    constructor
    · rw [lines_unbroken_append hline (lines_terminator_append hends), hlines, List.append_nil]
      rfl
    · rw [breaks_unbroken_append hline, breaks_terminator_append hends, hbreaks, List.length_cons]

/-- Lines and breaks can be told from the text that they make up. -/
theorem joined_injective (h : Proper ls last) (h' : Proper ms last')
    (heq : joined ls last = joined ms last') : ls = ms ∧ last = last' := by
  have hlines : ls.map EndedLine.line ++ [last] = ms.map EndedLine.line ++ [last'] := by
    rw [← (lines_joined h).1, heq, (lines_joined h').1]
  obtain ⟨hmap, hlast⟩ := List.append_inj' hlines rfl
  refine ⟨?_, List.cons.inj hlast |>.1⟩
  clear hlines
  induction ls generalizing ms with
  | nil => exact (List.map_eq_nil_iff.mp hmap.symm).symm
  | cons l ls ih =>
    obtain ⟨m, ms, rfl⟩ : ∃ m ms', ms = m :: ms' := by
      cases ms with
      | nil => simp at hmap
      | cons m ms => exact ⟨m, ms, rfl⟩
    obtain ⟨-, hl, hls⟩ := proper_cons.mp h
    obtain ⟨-, hm, hms⟩ := proper_cons.mp h'
    obtain ⟨hline, hmap⟩ := List.cons.inj hmap
    rw [joined_cons, joined_cons, hline, List.append_cancel_left_eq] at heq
    obtain ⟨hterminator, hrest⟩ := terminator_append_inj hl hm heq
    have hlm : l = m := by
      cases l
      cases m
      simp_all
    rw [hlm, ih hls hms hrest hmap]

end Joined

/-- Every text is lines with their breaks, and a last line. -/
theorem exists_proper (s : List Char) : ∃ ls last, Proper ls last ∧ joined ls last = s := by
  induction hn : s.length using Nat.strong_induction_on generalizing s with
  | h n ih =>
    subst hn
    cases hs : behindBreak? s with
    | none => exact ⟨[], s, ⟨by simp, unbroken_of_behindBreak?_eq_none hs, .nil⟩, rfl⟩
    | some r =>
      obtain ⟨t, ht, hsplit⟩ := exists_terminator_of_behindBreak? hs
      have hlt : r.length < s.length := by
        have hpos : 0 < t.text.length := by cases t <;> decide
        have hlength := congrArg List.length hsplit
        simp only [List.length_append] at hlength
        omega
      obtain ⟨ls, last, hproper, hjoined⟩ := ih r.length hlt r rfl
      refine ⟨⟨firstLine s, t⟩ :: ls, last, ?_, ?_⟩
      · exact proper_cons.mpr ⟨unbroken_firstLine s, hjoined ▸ ht, hproper⟩
      · rw [joined_cons, hjoined]
        exact hsplit.symm

lemma count_zip_cons {c : Char} {s : List Char} (h : ∀ r, c = '\r' → s = '\n' :: r → False) :
    ((c :: s).zip s).count ('\r', '\n') = (s.zip s.tail).count ('\r', '\n') := by
  cases s with
  | nil => rfl
  | cons d s =>
    have hne : (c, d) ≠ ('\r', '\n') := by
      intro he
      obtain ⟨rfl, rfl⟩ := Prod.mk.inj he
      exact h s rfl rfl
    rw [List.zip_cons_cons, List.count_cons_of_ne hne, List.tail_cons]

lemma breaks_add_count (s : List Char) :
    breaks s + (s.zip s.tail).count ('\r', '\n') = s.countP isBreak := by
  fun_induction breaks s with
  | case1 => rfl
  | case2 s ih =>
    have hzip : (('\n' :: s).zip s).count ('\r', '\n') = (s.zip s.tail).count ('\r', '\n') :=
      count_zip_cons fun _ h => absurd h (by decide)
    rw [List.tail_cons, List.zip_cons_cons, List.count_cons_self, hzip,
      List.countP_cons_of_pos (by decide), List.countP_cons_of_pos (by decide), ← ih]
    omega
  | case3 c s hpair hc ih =>
    rw [List.tail_cons, count_zip_cons hpair, List.countP_cons_of_pos hc, ← ih]
    omega
  | case4 c s hpair hc ih =>
    rw [List.tail_cons, count_zip_cons hpair, List.countP_cons_of_neg hc, ih]

lemma length_lines (s : List Char) : (lines s).length = breaks s + 1 := by
  obtain ⟨ls, last, h, rfl⟩ := exists_proper s
  obtain ⟨hlines, hbreaks⟩ := lines_joined h
  rw [hlines, hbreaks, List.length_append, List.length_map, List.length_singleton]

lemma isSome_line?_iff (s : List Char) (n : Nat) :
    (line? s n).isSome = true ↔ 1 ≤ n ∧ n ≤ 1 + breaks s := by
  cases n with
  | zero => simp
  | succ n =>
    rw [line?, isSome_getElem?, length_lines]
    omega

/-- A text has one line more than breaks, under the numbers from one on, and none under others. Each
line is what stands before the next break, the next line begins behind that, and no line has a
break in it. With the breaks put back between them the lines are the text, in the one way that does
not split a carriage return from its line feed. -/
theorem lines_partition_text (s : List Char) :
    (∀ n, (line? s n).isSome = true ↔ 1 ≤ n ∧ n ≤ 1 + breaks s) ∧
    breaks s + (s.zip s.tail).count ('\r', '\n') = s.countP isBreak ∧
    lines s = firstLine s :: (behindBreak? s).elim [] lines ∧
    ∃ p : Partition s, (∀ n, line? s (n + 1) = p.lines[n]?) ∧
      (∀ l ∈ p.lines, ∀ c ∈ l, c ≠ '\n' ∧ c ≠ '\r' ∧ c ≠ '\x0c') ∧ ∀ q : Partition s, q = p := by
  obtain ⟨ls, last, hproper, hjoined⟩ := exists_proper s
  have hlines : lines s = ls.map EndedLine.line ++ [last] := by
    rw [← hjoined]
    exact (lines_joined hproper).1
  refine ⟨isSome_line?_iff s, breaks_add_count s, lines_eq_cons s,
    ⟨ls, last, hproper, hjoined⟩, fun n => ?_, fun l hl c hc => ?_, fun q => ?_⟩
  · rw [line?, hlines]
    rfl
  · have hbreak : isBreak c = false := unbroken_of_mem_lines s l (hlines ▸ hl) c hc
    rw [← Bool.not_eq_true, isBreak_iff, not_or, not_or] at hbreak
    exact hbreak
  · obtain ⟨hq, hqlast⟩ := joined_injective q.proper hproper (q.joined_eq.trans hjoined.symm)
    cases q
    simp_all

/-- A carriage return in front of another with its feed, and an empty line behind the last break. -/
theorem lines_partition_text_mixed :
    let s := "a\r\r\n\x0c\nb\r".toList
    breaks s = 5 ∧ line? s 1 = some ['a'] ∧ line? s 6 = some [] ∧ line? s 7 = none ∧
    ∃ p : Partition s, p.ended.map EndedLine.terminator =
        [.carriageReturn, .returnAndFeed, .formFeed, .feed, .carriageReturn] ∧
      (∀ l ∈ p.lines, ∀ c ∈ l, c ≠ '\n' ∧ c ≠ '\r' ∧ c ≠ '\x0c') ∧ ∀ q : Partition s, q = p := by
  intro s
  obtain ⟨-, -, -, p, -, hunbroken, hunique⟩ := lines_partition_text s
  let found : Partition s :=
    { ended := [⟨['a'], .carriageReturn⟩, ⟨[], .returnAndFeed⟩, ⟨[], .formFeed⟩, ⟨[], .feed⟩,
        ⟨['b'], .carriageReturn⟩]
      last := []
      proper := ⟨by decide, by decide, by simp [EndedLine.SplitBreak]⟩
      joined_eq := by decide }
  refine ⟨by decide, by decide, by decide, by decide, p, ?_, hunbroken, hunique⟩
  rw [← hunique found]
  rfl

end FontSizeLint.Text
