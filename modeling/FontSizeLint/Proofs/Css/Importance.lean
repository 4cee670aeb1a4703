import FontSizeLint.Proofs.Css.Split
import FontSizeLint.Proofs.Css.Reading
import FontSizeLint.Proofs.Text.Spelling

/-! Marks of importance. A value is marked by an exclamation mark among its components and the word
behind it, and by the text `!important` wherever it is written in the value. The two are the same for a
value whose exclamation marks all stand among its components, with no longer word behind. -/
namespace FontSizeLint.Css
open Text

/-- The text `!important` stands somewhere in a text, in any ASCII case. -/
def WritesMark (s : List Char) : Prop :=
  ∃ pre w post, s = pre ++ (w ++ post) ∧ lower w = '!' :: importantWord

/-- An exclamation mark stands among components, and the word behind it but for trivia. -/
def HasMark (value : List Component) : Prop :=
  ∃ pre b gap w post, value = pre ++ b :: (gap ++ w :: post) ∧ Part.isBang b = true ∧
    (∀ c ∈ gap, Component.isTrivia c = true) ∧ Part.isImportantWord w = true

/-- Every exclamation mark is one of the components, and none that begins with the word behind it goes
on. -/
structure PlainBangs (value : List Component) : Prop where
  isBang : ∀ c ∈ value, '!' ∈ c.text → Part.isBang c = true
  isWord : value.IsChain fun b c => Part.isBang b = true →
    lower (c.text.take 9) = importantWord → Part.isImportantWord c = true

section Written
variable {s w : List Char}

lemma isBlank_of_mem_mark (hw : lower w = '!' :: importantWord) {c : Char} (hc : c ∈ w) :
    isBlank c = false := by
  have hall : ('!' :: importantWord).all (!isBlank ·) = true := by decide
  have hmem : c.toLower ∈ '!' :: importantWord := by
    rw [← hw]
    exact List.mem_map_of_mem hc
  rw [← blind_toLower (p := isBlank) (by decide)]
  simpa using List.all_eq_true.mp hall _ hmem

lemma length_of_lower_eq (hw : lower w = '!' :: importantWord) : w.length = 10 := by
  rw [← lower_length, hw]
  rfl

lemma exists_of_lower_eq (hw : lower w = '!' :: importantWord) :
    ∃ v, w = '!' :: v ∧ lower v = importantWord := by
  cases w with
  | nil => simp [lower] at hw
  | cons b v =>
    obtain ⟨hb, hv⟩ := List.cons.inj hw
    have hblind : (b.toLower == '!') = (b == '!') := blind_toLower (p := (· == '!')) (by decide) b
    rw [hb] at hblind
    exact ⟨v, by rw [beq_iff_eq.mp hblind.symm], hv⟩

lemma exists_of_writesMark (h : WritesMark s) :
    ∃ pre w post, s = pre ++ '!' :: (w ++ post) ∧ lower w = importantWord := by
  obtain ⟨pre, w, post, rfl, hw⟩ := h
  obtain ⟨v, rfl, hv⟩ := exists_of_lower_eq hw
  exact ⟨pre, v, post, rfl, hv⟩

lemma not_writesMark_nil : ¬ WritesMark [] := by
  rintro ⟨pre, w, post, hs, hw⟩
  have hl := length_of_lower_eq hw
  have hs := congrArg List.length hs
  simp only [List.length_nil, List.length_append] at hs
  omega

lemma writesMark_cons (c : Char) (s : List Char) :
    WritesMark (c :: s) ↔ lower ((c :: s).take 10) = '!' :: importantWord ∨ WritesMark s := by
  constructor
  · rintro ⟨pre, w, post, hs, hw⟩
    cases pre with
    | nil =>
      left
      rw [hs, List.nil_append, ← length_of_lower_eq hw, List.take_left, hw]
    | cons d pre => exact .inr ⟨pre, w, post, (List.cons.inj hs).2, hw⟩
  · rintro (h | ⟨pre, w, post, rfl, hw⟩)
    · exact ⟨[], _, (c :: s).drop 10, by rw [List.nil_append, List.take_append_drop], h⟩
    · exact ⟨c :: pre, w, post, rfl, hw⟩

lemma writesMark_append_blanks {r : List Char} (hr : ∀ c ∈ r, isBlank c = true) (s : List Char) :
    WritesMark (s ++ r) ↔ WritesMark s := by
  constructor
  · induction r using List.reverseRecOn with
    | nil => simp
    | append_singleton r c ih =>
      rintro ⟨pre, w, post, hs, hw⟩
      rcases List.eq_nil_or_concat' post with rfl | ⟨post, d, rfl⟩
      · -- The last character of the mark would be blank.
        have hlast := congrArg List.getLast? hs
        have hne : w ≠ [] := by
          rintro rfl
          simp [lower] at hw
        have hget : (pre ++ w).getLast? = w.getLast? := by
          rw [List.getLast?_append_of_ne_nil _ hne]
        rw [← List.append_assoc, List.getLast?_concat, List.append_nil, hget] at hlast
        have hc := isBlank_of_mem_mark hw (List.mem_of_getLast? hlast.symm)
        rw [hr c (by simp)] at hc
        contradiction
      · refine ih (fun d hd => hr d (by simp [hd])) ⟨pre, w, post, ?_, hw⟩
        simp only [← List.append_assoc] at hs ⊢
        exact (List.append_inj' hs rfl).1
  · rintro ⟨pre, w, post, rfl, hw⟩
    exact ⟨pre, w, post ++ r, by simp, hw⟩

lemma writesMark_blanks_append {r : List Char} (hr : ∀ c ∈ r, isBlank c = true) (s : List Char) :
    WritesMark (r ++ s) ↔ WritesMark s := by
  induction r with
  | nil => rfl
  | cons c r ih =>
    rw [List.forall_mem_cons] at hr
    rw [List.cons_append, writesMark_cons, ih hr.2, or_iff_right]
    intro h
    have hb := isBlank_of_mem_mark h (c := c) (by simp)
    rw [hr.1] at hb
    contradiction

lemma writesMark_trim (s : List Char) : WritesMark (trim s) ↔ WritesMark s := by
  obtain ⟨l, r, hs, hl, hr⟩ := exists_trim s
  generalize trim s = t at hs
  rw [hs, writesMark_blanks_append hl, writesMark_append_blanks hr]

lemma beforeMark?_eq_none_iff : beforeMark? s = none ↔ ¬ WritesMark s := by
  induction s with
  | nil => simp [beforeMark?, not_writesMark_nil]
  | cons c s ih =>
    rw [writesMark_cons, not_or, ← ih, beforeMark?]
    cases beforeMark? s <;> simp

lemma splitMark_snd_iff : (splitMark s).2 = true ↔ WritesMark s := by
  rw [← writesMark_trim, ← not_iff_not, ← beforeMark?_eq_none_iff, splitMark]
  cases beforeMark? (trim s) <;> simp

end Written

namespace Part

lemma dropMarks_snd_iff (cs : List Component) : (dropMarks cs).2 = true ↔
    ∃ pre b w post, cs = pre ++ b :: w :: post ∧ isBang b = true ∧ isImportantWord w = true := by
  fun_induction dropMarks cs with
  | case1 c d cs h ih =>
    rw [Bool.and_eq_true] at h
    exact iff_of_true rfl ⟨[], c, d, cs, rfl, h⟩
  | case2 c d cs h rest marked hr ih =>
    rw [hr] at ih
    rw [ih]
    constructor
    · rintro ⟨pre, b, w, post, hcs, hb⟩
      exact ⟨c :: pre, b, w, post, by rw [hcs, List.cons_append], hb⟩
    · rintro ⟨pre, b, w, post, hcs, hb⟩
      cases pre with
      | nil =>
        obtain ⟨rfl, rfl, rfl⟩ : c = b ∧ d = w ∧ cs = post := by simpa using hcs
        exact absurd (Bool.and_eq_true_iff.mpr hb) h
      | cons e pre => exact ⟨pre, b, w, post, (List.cons.inj hcs).2, hb⟩
  | case3 cs h =>
    simp only [Bool.false_eq_true, false_iff]
    rintro ⟨pre, b, w, post, rfl, -⟩
    rcases pre with _ | ⟨c, _ | ⟨d, pre⟩⟩
    · exact h _ _ _ rfl
    · exact h c b (w :: post) rfl
    · exact h c d _ rfl

lemma isTrivia_of_isBang {c : Component} (h : isBang c = true) : c.isTrivia = false := by
  cases c with
  | leaf t =>
    simp only [isBang, Token.isDelim, Bool.and_eq_true, beq_iff_eq] at h
    simp [Component.isTrivia, h.1, Kind.isTrivia]
  | block o body closer => rfl

lemma text_of_isBang {c : Component} (h : isBang c = true) : c.text = ['!'] := by
  cases c with
  | leaf t =>
    simp only [isBang, Token.isDelim, Bool.and_eq_true, beq_iff_eq] at h
    exact h.2
  | block o body closer => simp [isBang] at h

lemma ofValue_snd_iff (value : List Component) : (ofValue value).2 = true ↔ HasMark value := by
  change (dropMarks (value.filter fun c => !c.isTrivia)).2 = true ↔ _
  rw [dropMarks_snd_iff]
  constructor
  · rintro ⟨pre, b, w, post, hf, hb, hw⟩
    obtain ⟨l₁, l₂, rfl, -, hl₂⟩ := List.filter_eq_append_iff.mp hf
    obtain ⟨m₁, m₂, rfl, -, -, hm₂⟩ := List.filter_eq_cons_iff.mp hl₂
    obtain ⟨gap, post', rfl, hgap, -, -⟩ := List.filter_eq_cons_iff.mp hm₂
    exact ⟨l₁ ++ m₁, b, gap, w, post', by simp, hb, by simpa using hgap, hw⟩
  · rintro ⟨pre, b, gap, w, post, rfl, hb, hgap, hw⟩
    refine ⟨pre.filter fun c => !c.isTrivia, b, w, post.filter fun c => !c.isTrivia, ?_, hb, hw⟩
    simp only [List.filter_append, List.filter_cons, isTrivia_of_isBang hb,
      isTrivia_eq_false_of_isImportantWord hw, filter_eq_nil_of_isTrivia hgap, Bool.not_false, if_true,
      List.nil_append]

end Part

lemma Declaration.important_iff (name : Token) (value : List Component) :
    (ofValue name value).important = true ↔
      HasMark value ∨ WritesMark (Component.textOf value) := by
  simp only [ofValue, Bool.or_eq_true, Part.ofValue_snd_iff, splitMark_snd_iff]

lemma exists_of_textOf_eq {cs : List Component} {pre post : List Char} {c : Char}
    (h : Component.textOf cs = pre ++ c :: post) : ∃ as d bs x y, cs = as ++ d :: bs ∧
      d.text = x ++ c :: y ∧ post = y ++ Component.textOf bs := by
  induction cs generalizing pre with
  | nil => simp [Component.textOf] at h
  | cons d cs ih =>
    rw [Component.textOf] at h
    rcases List.append_eq_append_iff.mp h with ⟨x, rfl, hx⟩ | ⟨y, hy, hpost⟩
    · obtain ⟨as, e, bs, u, v, rfl, he, hp⟩ := ih hx
      exact ⟨d :: as, e, bs, u, v, rfl, he, hp⟩
    · cases y with
      | nil =>
        have hcs : Component.textOf cs = [] ++ c :: post := hpost.symm
        obtain ⟨as, e, bs, u, v, rfl, he, hp⟩ := ih hcs
        exact ⟨d :: as, e, bs, u, v, rfl, he, hp⟩
      | cons c' y =>
        obtain ⟨rfl, rfl⟩ := List.cons.inj hpost
        exact ⟨[], d, cs, pre, y, rfl, hy, rfl⟩

lemma length_le_nameLength {w : List Char} (h : ∀ c ∈ w, c.isAlpha = true) (r : List Char) :
    w.length ≤ nameLength (w ++ r) := by
  induction w with
  | nil => exact Nat.zero_le _
  | cons c w ih =>
    rw [List.forall_mem_cons] at h
    have hu : nameUnit (c :: (w ++ r)) = 1 := by
      simp [nameUnit, isNameChar, isNameStart, h.1]
    rw [List.cons_append, nameLength, runLength, hu]
    exact Nat.succ_le_succ (ih h.2)

lemma isAlpha_of_lower_eq {w : List Char} (hw : lower w = importantWord) :
    ∀ c ∈ w, c.isAlpha = true := by
  have hall : importantWord.all Char.isAlpha = true := by decide
  intro c hc
  apply isAlpha_of_isAlpha_toLower
  apply List.all_eq_true.mp hall
  rw [← hw]
  exact List.mem_map_of_mem hc

lemma length_of_lower_eq_word {w : List Char} (hw : lower w = importantWord) : w.length = 9 := by
  rw [← lower_length, hw]
  rfl

lemma le_toNat_of_isAlpha {c : Char} (h : c.isAlpha = true) : 65 ≤ c.toNat := by
  have hval : (decide (c.val ≥ 65 ∧ c.val ≤ 90) ||
      (decide (c.val ≥ 97) && decide (c.val ≤ 122))) = true := h
  simp only [Bool.or_eq_true, Bool.and_eq_true, decide_eq_true_eq, ge_iff_le,
    UInt32.le_iff_toNat_le] at hval
  change (65 ≤ c.toNat ∧ _) ∨ (97 ≤ c.toNat ∧ _) at hval
  omega

lemma Lexer.first_eq_named {w : List Char} (hne : w ≠ []) (h : ∀ c ∈ w, c.isAlpha = true)
    (r : List Char) : first (w ++ r) = named (w ++ r) := by
  obtain ⟨c, v, rfl⟩ := List.exists_cons_of_ne_nil hne
  have hc := h c List.mem_cons_self
  have hn := le_toNat_of_isAlpha hc
  have hspace : ¬ 0 < spacesLength (c :: v ++ r) := by
    have hs : isSpace c = false := by
      rw [← Bool.not_eq_true]
      intro hs
      simp only [isSpace, isBreak, Bool.or_eq_true, beq_iff_eq] at hs
      rcases hs with (rfl | rfl) | ((rfl | rfl) | rfl) <;> exact absurd hn (by decide)
    simp [spacesLength, hs]
  have hnumber : ¬ startsNumber (c :: v ++ r) = true := by
    intro hs
    obtain ⟨e, u, heq, he⟩ := exists_cons_of_startsNumber hs
    obtain ⟨rfl, -⟩ := List.cons.inj heq
    simp only [isNumberHead, Bool.or_eq_true, beq_iff_eq, Char.isDigit, Bool.and_eq_true,
      decide_eq_true_eq, UInt32.le_iff_toNat_le] at he
    rcases he with ((⟨-, he⟩ | rfl) | rfl) | rfl
    · change c.toNat ≤ 57 at he
      omega
    · exact absurd hn (by decide)
    · exact absurd hn (by decide)
    · exact absurd hn (by decide)
  have hhyphen : c ≠ '-' := by
    rintro rfl
    simp at hc
  have hcdc : ¬ startsCdc (c :: v ++ r) = true := by
    unfold startsCdc
    split
    next heq => exact absurd (List.cons.inj heq).1 hhyphen
    next => simp
  have hname : startsName (c :: v ++ r) = true := by
    rw [List.cons_append, startsName]
    · simp [isNameStart, hc]
    · exact fun _ _ he => absurd he hhyphen
    · rintro rfl
      simp at hc
  rw [first, if_neg hspace, if_neg hnumber, if_neg hcdc, if_pos hname]

lemma Lexer.length_le_first {w : List Char} (hne : w ≠ []) (h : ∀ c ∈ w, c.isAlpha = true)
    (r : List Char) : w.length ≤ (first (w ++ r)).2 := by
  rw [first_eq_named hne h]
  exact (length_le_nameLength h r).trans (nameLength_le_named _)

lemma drop_textOf {css : List Char} {ts us : List Token} (h : tokens css = ts ++ us) :
    css.drop (Token.textOf ts).length = Token.textOf us := by
  have hcss : Token.textOf (tokens css) = css := tokens_flatten css
  rw [h, Token.textOf_append] at hcss
  rw [← hcss, List.drop_left]

lemma hasMark_of_writesMark {css : List Char} {value : List Component}
    (hin : Component.tokensOf value <:+: tokens css) (hplain : PlainBangs value)
    (h : WritesMark (Component.textOf value)) : HasMark value := by
  obtain ⟨pre, w, post, htext, hw⟩ := exists_of_writesMark h
  have hlength := length_of_lower_eq_word hw
  have hne : w ≠ [] := List.length_pos_iff.mp (by omega)
  -- The exclamation mark is a component, so that the word begins with the next one.
  obtain ⟨as, d, bs, x, y, rfl, hd, hrest⟩ := exists_of_textOf_eq htext
  have hbang := hplain.isBang d (by simp) (by simp [hd])
  obtain ⟨rfl, rfl⟩ : x = [] ∧ y = [] := by
    have hone := congrArg List.length (hd.symm.trans (Part.text_of_isBang hbang))
    simp only [List.length_append, List.length_cons, List.length_nil] at hone
    exact ⟨List.length_eq_zero_iff.mp (by omega), List.length_eq_zero_iff.mp (by omega)⟩
  cases bs with
  | nil => simp [Component.textOf, hne] at hrest
  | cons c bs =>
    rw [List.nil_append, Component.textOf] at hrest
    obtain ⟨before, after, hts⟩ := hin
    obtain ⟨ts, hhead⟩ := c.tokens_eq_head_cons
    have hsplit : tokens css = (before ++ Component.tokensOf (as ++ [d])) ++
        c.head :: (ts ++ Component.tokensOf bs ++ after) := by
      rw [← hts]
      simp [Component.tokensOf, hhead]
    have hbehind : css.drop (Token.textOf (before ++ Component.tokensOf (as ++ [d]))).length =
        w ++ (post ++ Token.textOf after) := by
      rw [drop_textOf hsplit, ← List.append_assoc w, hrest, Component.textOf_eq_textOf_tokensOf,
        Component.text_eq_textOf_tokens, hhead]
      simp
    have hlen : 9 ≤ c.head.text.length := by
      have hle := Lexer.length_le_first hne (isAlpha_of_lower_eq hw) (post ++ Token.textOf after)
      rw [(tokens_at hsplit).text, hbehind, List.length_take, List.length_append]
      omega
    have htake : lower (c.text.take 9) = importantWord := by
      have hprefix : w <+: c.text := by
        apply List.prefix_of_prefix_length_le ⟨post, hrest⟩ (List.prefix_append _ _)
        rw [Component.text_eq_textOf_tokens, hhead, Token.textOf_cons, List.length_append]
        omega
      rw [← hlength, ← List.prefix_iff_eq_take.mp hprefix, hw]
    have hword := (List.isChain_append_cons_cons.mp hplain.isWord).2.1 hbang htake
    exact ⟨as, d, [], c, bs, by simp, hbang, by simp, hword⟩

/-- The flag of a declaration. Every declaration of a style sheet stands in its text, and is important
exactly if a mark stands among the components of its value or is written in the text of its value; the
second adds nothing where every exclamation mark of the value is plain. -/
theorem important_iff_marked (css : List Char) {d : Declaration}
    (h : d ∈ (Stylesheet.ofText css).declarations) :
    (∃ name value after, d.ReadAs (tokens css) name value after) ∧
    ∀ name value after, d.ReadAs (tokens css) name value after →
      (d.important = true ↔ HasMark value ∨ WritesMark (Component.textOf value)) ∧
      (PlainBangs value → (d.important = true ↔ HasMark value)) := by
  refine ⟨exists_readAs h, ?_⟩
  intro name value after hd
  have hflag := Declaration.important_iff name value
  rw [← hd.eq_ofValue] at hflag
  refine ⟨hflag, fun hplain => ?_⟩
  rw [hflag, or_iff_left_iff_imp]
  exact hasMark_of_writesMark hd.stands.isInfix hplain

/-- A mark with a comment in it, in another case, before the end of the value. -/
theorem important_iff_marked_comment :
    let css := "a\x7bx:1!/**/Important 2\x7d".toList
    let value : List Component := [.leaf ⟨.number, ['1'], ⟨1, 5⟩⟩, .leaf ⟨.delim, ['!'], ⟨1, 6⟩⟩,
      .leaf ⟨.comment, "/**/".toList, ⟨1, 7⟩⟩, .leaf ⟨.ident, "Important".toList, ⟨1, 11⟩⟩,
      .leaf ⟨.whitespace, [' '], ⟨1, 20⟩⟩, .leaf ⟨.number, ['2'], ⟨1, 21⟩⟩]
    let d := Declaration.ofValue ⟨.ident, ['x'], ⟨1, 3⟩⟩ value
    d ∈ (Stylesheet.ofText css).declarations ∧
    d.ReadAs (tokens css) ⟨.ident, ['x'], ⟨1, 3⟩⟩ value [⟨.closing .curly, ['}'], ⟨1, 22⟩⟩] ∧
    PlainBangs value ∧ HasMark value ∧ d.important = true := by
  intro css value d
  have hd : d ∈ (Stylesheet.ofText css).declarations := by decide +kernel
  have hvalue : ∀ c ∈ value, c.Complete := by
    simp only [value, List.forall_mem_cons, List.not_mem_nil, false_imp_iff, implies_true, and_true]
    exact ⟨.leaf rfl, .leaf rfl, .leaf rfl, .leaf rfl, .leaf rfl, .leaf rfl⟩
  have hread : d.ReadAs (tokens css) ⟨.ident, ['x'], ⟨1, 3⟩⟩ value
      [⟨.closing .curly, ['}'], ⟨1, 22⟩⟩] :=
    ⟨rfl, rfl, ⟨_, [], ⟨.colon, [':'], ⟨1, 4⟩⟩, by simp, rfl, (by decide +kernel :
        tokens css = [⟨.ident, ['a'], ⟨1, 1⟩⟩, ⟨.opening .curly, ['{'], ⟨1, 2⟩⟩] ++ _)⟩,
      .complete hvalue, .inl hvalue, by decide, by decide, by simp⟩
  have hplain : PlainBangs value := ⟨by decide, by decide⟩
  have hmark : HasMark value :=
    ⟨[_], _, [_], _, [_, _], rfl, rfl, by simp [Component.isTrivia, Kind.isTrivia], rfl⟩
  exact ⟨hd, hread, hplain, hmark, (((important_iff_marked css hd).2 _ _ _ hread).2 hplain).mpr hmark⟩

/-- A string that says `!important` marks a declaration that has no mark. -/
theorem important_without_mark :
    let css := "a\x7bx:\"!important\"\x7d".toList
    let value : List Component := [.leaf ⟨.string, "\"!important\"".toList, ⟨1, 5⟩⟩]
    let d := Declaration.ofValue ⟨.ident, ['x'], ⟨1, 3⟩⟩ value
    d ∈ (Stylesheet.ofText css).declarations ∧
    d.ReadAs (tokens css) ⟨.ident, ['x'], ⟨1, 3⟩⟩ value [⟨.closing .curly, ['}'], ⟨1, 17⟩⟩] ∧
    d.important = true ∧ ¬ HasMark value := by
  intro css value d
  refine ⟨by decide +kernel, ?_, by decide +kernel, ?_⟩
  · have hvalue : ∀ c ∈ value, c.Complete := by
      simpa [value] using Component.Complete.leaf rfl
    exact ⟨rfl, rfl, ⟨_, [], ⟨.colon, [':'], ⟨1, 4⟩⟩, by simp, rfl, (by decide +kernel :
        tokens css = [⟨.ident, ['a'], ⟨1, 1⟩⟩, ⟨.opening .curly, ['{'], ⟨1, 2⟩⟩] ++ _)⟩,
      .complete hvalue, .inl hvalue, by decide, by decide, by simp⟩
  · rintro ⟨pre, b, gap, w, post, hv, -⟩
    have hl := congrArg List.length hv
    simp [value] at hl
    omega

end FontSizeLint.Css
