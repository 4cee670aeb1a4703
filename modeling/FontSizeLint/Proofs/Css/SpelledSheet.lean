import FontSizeLint.Proofs.Css.Likeness
import FontSizeLint.Proofs.Css.SpelledToken

/-! Style sheets in other spellings. In every spelling of a text the same rules stand at the same places,
and only what is handed on as written is spelled as the text is. -/
namespace FontSizeLint.Css
open Text Text.Spelling Numeric List

variable {w : Spelling} {s : List Char}

lemma lower_take_spell_eq {m : List Char} (hm : ∀ c ∈ m, isBreak c = false) (s : List Char) :
    lower ((w.spell s).take m.length) = m ↔ lower (s.take m.length) = m := by
  induction m generalizing s with
  | nil => simp [lower]
  | cons x m ih =>
    rw [List.forall_mem_cons] at hm
    cases s with
    | nil => rfl
    | cons c s =>
      cases hc : isBreak c with
      | false =>
        obtain ⟨d, hd, he⟩ := exists_spell_cons (w := w) hc
        have ihs := ih hm.2 s
        simp only [lower] at ihs ⊢
        rw [he, List.length_cons, List.take_succ_cons, List.take_succ_cons, List.map_cons, List.map_cons,
          List.cons.injEq, List.cons.injEq, hd, ihs]
      | true =>
        have hx : ∀ d t, isBreak d = true → lower ((d :: t).take (x :: m).length) ≠ x :: m := by
          intro d t hd he
          have hl : d.toLower = x := (List.cons.inj he).1
          rw [← hl, blind_toLower isBlind_isBreak, hd] at hm
          exact absurd hm.1 (by decide)
        obtain ⟨d, t, hd⟩ := List.exists_cons_of_ne_nil (w.write_ne_nil c)
        have hdb : isBreak d = true := (w.write_break c hc).2 d (by simp [hd])
        rw [spell_cons, hd, List.cons_append]
        exact iff_of_false (hx d _ hdb) (hx c s hc)

lemma isBreak_of_mem_mark (c : Char) (hc : c ∈ '!' :: importantWord) : isBreak c = false := by
  have h : ('!' :: importantWord).all (!isBreak ·) = true := by decide
  simpa using List.all_eq_true.mp h c hc

lemma beforeMark?_append {p : List Char} (hp : ∀ c ∈ p, isBreak c = true) (s : List Char) :
    beforeMark? (p ++ s) = (beforeMark? s).map (p ++ ·) := by
  induction p with
  | nil => simp
  | cons c p ih =>
    rw [List.forall_mem_cons] at hp
    rw [List.cons_append, beforeMark?, ih hp.2]
    cases beforeMark? s with
    | some before => rfl
    | none =>
      have hc : c.toLower ≠ '!' := by
        intro he
        have hb := blind_toLower isBlind_isBreak c
        rw [he, hp.1] at hb
        exact absurd hb (by decide)
      simp [lower, hc]

lemma beforeMark?_spell (s : List Char) : beforeMark? (w.spell s) = (beforeMark? s).map w.spell := by
  induction s with
  | nil => rfl
  | cons c s ih =>
    cases hc : isBreak c with
    | true =>
      have h := beforeMark?_append (p := [c]) (by simpa using hc) s
      rw [List.singleton_append] at h
      rw [spell_cons, beforeMark?_append (w.write_break c hc).2, ih, h, Option.map_map, Option.map_map]
      rfl
    | false =>
      obtain ⟨d, hd, he⟩ := exists_spell_cons (w := w) hc
      have hm : lower ((w.spell (c :: s)).take 10) = '!' :: importantWord ↔
          lower ((c :: s).take 10) = '!' :: importantWord :=
        lower_take_spell_eq (m := '!' :: importantWord) isBreak_of_mem_mark (c :: s)
      rw [he, beforeMark?, beforeMark?, ih]
      cases beforeMark? s with
      | some before => rw [Option.map_some, Option.map_some, he]
      | none =>
        rw [he] at hm
        simp only [Option.map_none, beq_iff_eq, hm]
        split_ifs <;> rfl

lemma splitMark_spell (s : List Char) :
    splitMark (w.spell s) = (w.spell (splitMark s).1, (splitMark s).2) := by
  rw [splitMark, splitMark, trim_spell, beforeMark?_spell]
  cases beforeMark? (trim s) with
  | none => rfl
  | some before => simp only [Option.map_some, trimEnd_spell]

lemma beforeMark?_subset {s t : List Char} (h : beforeMark? s = some t) : t ⊆ s := by
  induction s generalizing t with
  | nil => simp [beforeMark?] at h
  | cons c s ih =>
    rw [beforeMark?] at h
    split at h
    · rename_i before hb
      rw [← Option.some.inj h]
      exact List.cons_subset_cons c (ih hb)
    · split_ifs at h
      rw [← Option.some.inj h]
      exact List.nil_subset _

lemma splitMark_subset (s : List Char) : (splitMark s).1 ⊆ s := by
  rw [splitMark]
  split
  · rename_i before hb
    exact List.Subset.trans (trimEnd_subset _) (List.Subset.trans (beforeMark?_subset hb) (trim_subset s))
  · exact trim_subset s

variable (w) in
/-- Style sheets that differ in the spelling of their texts. Headers of rules may differ in more, since
the names in them are not as written. -/
def Likeness.ofSpelling (header : List Char → List Char → Prop)
    (header_of_text : ∀ s, w.Admits s → header s (w.spell s))
    (header_atRule : ∀ name s, lower name = name → w.Admits s →
      header (atHeader name s) (atHeader name (w.spell s))) : Likeness where
  text s s' := w.Admits s ∧ s' = w.spell s
  header := header
  place := Eq
  nil := ⟨by simp [Admits], rfl⟩
  append := by
    rintro s s' t t' ⟨hs, rfl⟩ ⟨ht, rfl⟩
    exact ⟨fun c hc => (List.mem_append.mp hc).elim (hs c) (ht c), (spell_append s t).symm⟩
  trim := by
    rintro s s' ⟨hs, rfl⟩
    exact ⟨fun c hc => hs c (trim_subset s hc), trim_spell s⟩
  splitMark := by
    rintro s s' ⟨hs, rfl⟩
    exact ⟨fun c hc => hs c (splitMark_subset s hc), by rw [splitMark_spell]⟩
  isMarked := by
    rintro s s' ⟨-, rfl⟩
    rw [splitMark_spell]
  leading? := by
    rintro s s' ⟨-, rfl⟩
    exact Numeral.leading?_spell single s
  header_of_text := by
    rintro s s' ⟨hs, rfl⟩
    exact header_of_text s hs
  header_atRule := by
    rintro name s s' hn ⟨hs, rfl⟩
    exact header_atRule name s hn hs

lemma isDelim_spelled {x : Char} (hx : isBlind (· == x) = true) (t : Token) :
    (t.spelled w).isDelim x = t.isDelim x := by
  have h : w.spell t.text = [x] ↔ t.text = [x] := by
    constructor
    · intro he
      obtain ⟨r, hr, hn⟩ := spell_eq_cons hx he
      rw [hr, spell_eq_nil.mp hn.symm]
    · intro he
      rw [he, spell_cons_of_isBlind hx]
      rfl
  rw [Token.isDelim, Token.isDelim, Bool.eq_iff_iff, Bool.and_eq_true, Bool.and_eq_true, beq_iff_eq,
    beq_iff_eq, beq_iff_eq, beq_iff_eq]
  exact and_congr_right fun _ => h

lemma tokens_alike {L : Likeness} (hL : ∀ s, w.Admits s → L.text s (w.spell s))
    (hp : ∀ p, L.place p p) (hs : w.Admits s) :
    Forall₂ (Token.Alike L) (tokens s) (tokens (w.spell s)) := by
  rw [tokens_spell hs, forall₂_map_right_iff, forall₂_same]
  intro t ht
  exact ⟨rfl, key_spelled hs ht, isDelim_spelled (by decide) t, isDelim_spelled (by decide) t,
    hL _ (admits_of_mem_tokens hs ht), hp _⟩

section MapText
variable (f : List Char → List Char)

def Part.mapText (p : Part) : Part := { p with text := String.ofList (f p.text.toList) }

/-- Writes the texts of a declaration and its parts anew. -/
def Declaration.mapText (d : Declaration) : Declaration :=
  { d with text := String.ofList (f d.text.toList), parts := d.parts.map (Part.mapText f) }

/-- Writes the header of a rule and the texts of its declarations anew. -/
def StyleRule.mapText (r : StyleRule) : StyleRule :=
  ⟨String.ofList (f r.prelude.toList), r.declarations.map (Declaration.mapText f)⟩

/-- Writes all texts of a style sheet anew; names, values, marks and positions stay. -/
def Stylesheet.mapText (sheet : Stylesheet) : Stylesheet := ⟨sheet.rules.map (StyleRule.mapText f)⟩

end MapText

lemma StyleRule.mapText_eq_of_alike {L : Likeness} {f g : List Char → List Char}
    (htext : ∀ s s', L.text s s' → f s = g s') (hheader : ∀ s s', L.header s s' → f s = g s')
    (hplace : ∀ p p', L.place p p' → p = p') {r r' : StyleRule} (h : r.Alike L r') :
    r.mapText f = r'.mapText g := by
  have hpart : ∀ p p', Part.Alike L p p' → p.mapText f = p'.mapText g := by
    intro p p' hp
    rw [Part.mapText, Part.mapText, hp.value, htext _ _ hp.text, hplace _ _ hp.position]
  have hdecl : ∀ d d', Declaration.Alike L d d' → d.mapText f = d'.mapText g := by
    intro d d' hd
    rw [Declaration.mapText, Declaration.mapText, hd.name, htext _ _ hd.text,
      map_eq_map_of_forall₂ hd.parts hpart, hd.important, hplace _ _ hd.position]
  rw [mapText, mapText, hheader _ _ h.prelude, map_eq_map_of_forall₂ h.declarations hdecl]

/-- Style sheets that are alike, with all at the same places, are equal once their texts are written
alike. -/
theorem Stylesheet.mapText_eq_of_alike {L : Likeness} {f g : List Char → List Char}
    (htext : ∀ s s', L.text s s' → f s = g s') (hheader : ∀ s s', L.header s s' → f s = g s')
    (hplace : ∀ p p', L.place p p' → p = p') {sheet sheet' : Stylesheet}
    (h : Forall₂ (StyleRule.Alike L) sheet.rules sheet'.rules) :
    sheet.mapText f = sheet'.mapText g :=
  congrArg Stylesheet.mk <| map_eq_map_of_forall₂ h fun _ _ hr =>
    StyleRule.mapText_eq_of_alike htext hheader hplace hr

lemma Stylesheet.mapText_id (sheet : Stylesheet) : sheet.mapText id = sheet := by
  have hpart : Part.mapText id = id := by
    funext p
    simp [Part.mapText]
  have hdecl : Declaration.mapText id = id := by
    funext d
    simp [Declaration.mapText, hpart]
  have hrule : StyleRule.mapText id = id := by
    funext r
    simp [StyleRule.mapText, hdecl]
  rw [mapText, hrule, List.map_id]

end FontSizeLint.Css
