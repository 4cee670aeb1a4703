import FontSizeLint.Proofs.Text.Lines
import FontSizeLint.Proofs.Text.Spelling

/-! Letter case and styles of line breaks as spellings. A text in lower case, and a text whose line feeds
are written as breaks of another style, have the lines and positions of the text itself. -/
namespace FontSizeLint.Text

/-- Other breaks than the line feed. -/
inductive BreakStyle
  | carriageReturn
  | returnAndFeed
  | formFeed
  deriving DecidableEq

namespace BreakStyle

def text : BreakStyle → List Char
  | carriageReturn => ['\r']
  | returnAndFeed => ['\r', '\n']
  | formFeed => ['\x0c']

/-- The text with this break for every line feed. -/
def rewrite (style : BreakStyle) (s : List Char) : List Char :=
  s.flatMap fun c => if c = '\n' then style.text else [c]

end BreakStyle

def OnlyFeeds (s : List Char) : Prop := ∀ c ∈ s, c ≠ '\r' ∧ c ≠ '\x0c'

instance (s : List Char) : Decidable (OnlyFeeds s) :=
  List.decidableBAll (fun c => c ≠ '\r' ∧ c ≠ '\x0c') s

def feedBreaks : List Char → List Char
  | [] => []
  | '\r' :: '\n' :: s => '\n' :: feedBreaks s
  | c :: s => (if isBreak c then '\n' else c) :: feedBreaks s

lemma OnlyFeeds.of_cons {c : Char} {s : List Char} (h : OnlyFeeds (c :: s)) : OnlyFeeds s :=
  fun d hd => h d (List.mem_cons_of_mem c hd)

lemma OnlyFeeds.not_isBreak {c : Char} {s : List Char} (h : OnlyFeeds (c :: s)) (hc : c ≠ '\n') :
    isBreak c = false := by
  have hh := h c List.mem_cons_self
  rw [← Bool.not_eq_true, isBreak_iff]
  rintro (he | he | he)
  · exact hc he
  · exact hh.1 he
  · exact hh.2 he

namespace BreakStyle
variable (style : BreakStyle)

lemma rewrite_feed (s : List Char) : style.rewrite ('\n' :: s) = style.text ++ style.rewrite s := rfl

lemma rewrite_cons {c : Char} (hc : c ≠ '\n') (s : List Char) :
    style.rewrite (c :: s) = c :: style.rewrite s := by
  rw [rewrite, List.flatMap_cons, if_neg hc]
  rfl

lemma rewrite_eq_self {s : List Char} (hs : ∀ c ∈ s, isBreak c = false) : style.rewrite s = s := by
  induction s with
  | nil => rfl
  | cons c s ih =>
    rw [List.forall_mem_cons] at hs
    have hc : c ≠ '\n' := by
      rintro rfl
      exact absurd hs.1 (by decide)
    rw [rewrite_cons _ hc, ih hs.2]

lemma head?_rewrite_carriageReturn (s : List Char) :
    (carriageReturn.rewrite s).head? ≠ some '\n' := by
  cases s with
  | nil => simp [rewrite]
  | cons c s =>
    by_cases hc : c = '\n'
    · rw [hc, rewrite_feed]
      simp [text]
    · rw [rewrite_cons _ hc]
      simpa using hc

lemma breakLength_text_append (s : List Char) :
    breakLength (style.text ++ style.rewrite s) = style.text.length := by
  cases style with
  | carriageReturn =>
    rw [text, List.singleton_append, breakLength_cons, if_neg fun h => head?_rewrite_carriageReturn s h.2]
    rfl
  | returnAndFeed => rfl
  | formFeed => rfl

lemma breakLength_rewrite {s : List Char} (hs : OnlyFeeds s) :
    breakLength (style.rewrite s) = (style.rewrite (s.take (breakLength s))).length := by
  cases s with
  | nil => rfl
  | cons c s =>
    by_cases hc : c = '\n'
    · subst c
      have h1 : breakLength ('\n' :: s) = 1 := rfl
      rw [rewrite_feed, breakLength_text_append, h1, List.take_succ_cons, List.take_zero, rewrite_feed]
      simp [rewrite]
    · have h0 : ∀ t, breakLength (c :: t) = 0 := by
        intro t
        rw [Spelling.breakLength_eq_zero_iff]
        exact hs.not_isBreak hc
      rw [rewrite_cons _ hc, h0, h0]
      rfl

end BreakStyle

section FeedBreaks

lemma feedBreaks_cons {c : Char} {s : List Char} (h : ¬ (c = '\r' ∧ s.head? = some '\n')) :
    feedBreaks (c :: s) = (if isBreak c then '\n' else c) :: feedBreaks s := by
  rw [feedBreaks]
  rintro t rfl rfl
  exact h ⟨rfl, rfl⟩

lemma feedBreaks_append_cons {c : Char} (hc : c ≠ '\n') (s t : List Char) :
    feedBreaks (s ++ c :: t) = feedBreaks s ++ feedBreaks (c :: t) := by
  fun_induction feedBreaks s with
  | case1 => rfl
  | case2 s ih => simp only [List.cons_append, feedBreaks, ih]
  | case3 d s hpair ih =>
    rw [List.cons_append, feedBreaks_cons, ih, List.cons_append]
    rintro ⟨rfl, hs⟩
    cases s with
    | nil => exact hc (by simpa using hs)
    | cons e s =>
      have he : e = '\n' := by simpa using hs
      exact hpair s rfl (by rw [he])

lemma feedBreaks_rewrite (style : BreakStyle) {s : List Char} (hs : OnlyFeeds s) :
    feedBreaks (style.rewrite s) = s := by
  induction s with
  | nil => rfl
  | cons c s ih =>
    have ih := ih hs.of_cons
    by_cases hc : c = '\n'
    · have hstep : feedBreaks (style.text ++ style.rewrite s) = '\n' :: feedBreaks (style.rewrite s) := by
        cases style with
        | carriageReturn =>
          exact feedBreaks_cons fun h => BreakStyle.head?_rewrite_carriageReturn s h.2
        | returnAndFeed => rfl
        | formFeed => exact feedBreaks_cons (by simp)
      rw [hc, BreakStyle.rewrite_feed, hstep, ih]
    · have hr : c ≠ '\r' := (hs c List.mem_cons_self).1
      rw [style.rewrite_cons hc, feedBreaks_cons (by simp [hr]), hs.not_isBreak hc, ih]
      rfl

lemma feedBreaks_eq_self {s : List Char} (hs : OnlyFeeds s) : feedBreaks s = s := by
  induction s with
  | nil => rfl
  | cons c s ih =>
    have hr : c ≠ '\r' := (hs c List.mem_cons_self).1
    rw [feedBreaks_cons (by simp [hr]), ih hs.of_cons]
    by_cases hc : c = '\n'
    · rw [hc]
      rfl
    · rw [hs.not_isBreak hc]
      rfl

/-- The lines of a text do not depend on how it is broken into them. -/
theorem lines_feedBreaks (s : List Char) : lines (feedBreaks s) = lines s := by
  fun_induction feedBreaks s with
  | case1 => rfl
  | case2 s ih => rw [lines_feed_cons, ih, lines]
  | case3 c s hpair ih =>
    rw [lines.eq_3 c s hpair]
    cases hb : isBreak c with
    | true =>
      rw [if_pos rfl, if_pos rfl, lines_feed_cons, ih]
    | false =>
      have hr : c ≠ '\r' := by
        rintro rfl
        exact absurd hb (by decide)
      rw [if_neg (by decide), if_neg (by decide), lines.eq_3 _ _ fun t hc => absurd hc hr, hb,
        if_neg (by decide), ih]

lemma lines_rewrite (style : BreakStyle) {s : List Char} (hs : OnlyFeeds s) :
    lines (style.rewrite s) = lines s := by
  rw [← lines_feedBreaks, feedBreaks_rewrite style hs]

end FeedBreaks

lemma toLower_eq_break {x : Char} (hx : isBreak x = true) (c : Char) : c.toLower = x ↔ c = x := by
  have hfix : ∀ d, isBreak d = true → d.toLower = d := by
    intro d hd
    rcases isBreak_iff.mp hd with rfl | rfl | rfl <;> decide
  constructor
  · intro hc
    have hb : isBreak c = true := by rw [← blind_toLower Spelling.isBlind_isBreak, hc, hx]
    rw [← hc, hfix c hb]
  · rintro rfl
    exact hfix c hx

lemma breakLength_lower (s : List Char) : breakLength (lower s) = breakLength s := by
  cases s with
  | nil => rfl
  | cons c s =>
    have hs : (lower s).head? = some '\n' ↔ s.head? = some '\n' := by
      cases s with
      | nil => rfl
      | cons d s => simp [lower, toLower_eq_break (x := '\n') rfl]
    rw [lower, List.map_cons, ← lower, breakLength_cons, breakLength_cons,
      blind_toLower Spelling.isBlind_isBreak]
    simp only [toLower_eq_break (x := '\r') rfl, hs]

namespace Spelling

lemma flatMap_toLower (s : List Char) : s.flatMap (fun c => [c.toLower]) = lower s :=
  List.flatMap_pure_eq_map Char.toLower s

def lowerCase : Spelling where
  write c := [c.toLower]
  write_letter _ _ := .inr rfl
  write_break c hc := by
    refine ⟨List.cons_ne_nil _ _, fun d hd => ?_⟩
    rw [List.mem_singleton.mp hd, blind_toLower isBlind_isBreak, hc]
  admits _ := true
  breakLength_write s _ := by
    rw [flatMap_toLower, flatMap_toLower, breakLength_lower, lower_length,
      List.length_take_of_le (breakLength_le s)]

lemma spell_lowerCase (s : List Char) : lowerCase.spell s = lower s := flatMap_toLower s

lemma admits_lowerCase (s : List Char) : lowerCase.Admits s := fun _ _ => rfl

def breaksAs (style : BreakStyle) : Spelling where
  write c := if c = '\n' then style.text else [c]
  write_letter c hc := by
    left
    rw [if_neg]
    rintro rfl
    exact absurd hc (by decide)
  write_break c hc := by
    split_ifs
    · cases style <;> simp [BreakStyle.text, isBreak]
    · exact ⟨List.cons_ne_nil _ _, by simpa using hc⟩
  admits c := c != '\r' && c != '\x0c'
  breakLength_write s hs := style.breakLength_rewrite fun c hc => by simpa using hs c hc

lemma spell_breaksAs (style : BreakStyle) (s : List Char) :
    (breaksAs style).spell s = style.rewrite s := rfl

lemma admits_breaksAs {style : BreakStyle} {s : List Char} :
    (breaksAs style).Admits s ↔ OnlyFeeds s := by
  simp [Admits, breaksAs, OnlyFeeds]

end Spelling
end FontSizeLint.Text
