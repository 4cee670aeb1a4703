import FontSizeLint.Proofs.Lint.Violations
import FontSizeLint.Proofs.Numeric.Shortest

/-! Printed thresholds. A threshold is printed as digits with at most a point in them, and is read back
from that text, whatever blanks are put around it; so the number in a message tells which minimum the
rule has. -/
namespace FontSizeLint
open Text Css Numeric

namespace Threshold

lemma exists_text_eq (t : Threshold) :
    ∃ whole fraction, t.text = digitsText whole ++ fractionText fraction := by
  obtain ⟨l, -, hsign, hexp, htext, -⟩ := exists_literal_text (shortest single .up t.rank)
  refine ⟨l.whole, l.fraction, ?_⟩
  change (shortest single .up t.rank).text plainStyle = _
  rw [← htext, Literal.text, Literal.unsignedText, hsign, hexp]
  simp [Sign.text, Exponent.text]

lemma isDigit_or_eq_of_mem_text {t : Threshold} {c : Char} (h : c ∈ t.text) :
    c.isDigit = true ∨ c = '.' := by
  obtain ⟨whole, fraction, htext⟩ := t.exists_text_eq
  rw [htext, List.mem_append] at h
  rcases h with h | h
  · exact .inl (isDigit_of_mem_digitsText c h)
  · cases fraction with
    | none => simp [fractionText] at h
    | some ds => exact (List.mem_cons.mp h).symm.imp_left (isDigit_of_mem_digitsText c)

lemma isBlank_of_mem_text {t : Threshold} {c : Char} (h : c ∈ t.text) : isBlank c = false := by
  apply Lexer.isBlank_of_isNumberHead
  rcases isDigit_or_eq_of_mem_text h with hd | rfl
  · simp [Lexer.isNumberHead, hd]
  · rfl

lemma ofText_padded (t : Threshold) {l r : List Char} (hl : ∀ c ∈ l, isBlank c = true)
    (hr : ∀ c ∈ r, isBlank c = true) : ofText (l ++ t.text ++ r) = .ok t := by
  have htrim : trim (l ++ t.text ++ r) = t.text := by
    rw [List.append_assoc, trim_blanks hl hr, trim_eq_self fun _ => isBlank_of_mem_text]
  rw [ofText, htrim, text, Binary.ofText_text (by decide)]
  simp only [ofSingle?_toSingle]

lemma text_injective {t u : Threshold} (h : t.text = u.text) : t = u := by
  have hread := (Binary.ofText_text (by decide) t.toSingle).symm.trans
    ((congrArg (Binary.ofText single) h).trans (Binary.ofText_text (by decide) u.toSingle))
  apply Option.some.inj
  rw [← ofSingle?_toSingle, ← ofSingle?_toSingle, Except.ok.inj hread]

lemma eq_of_append_text_eq {t u : Threshold} {p q s : List Char}
    (h : p ++ ' ' :: (t.text ++ s) = q ++ ' ' :: (u.text ++ s)) : t = u := by
  -- The number is what stands behind the last space.
  have hlast (v : Threshold) (p : List Char) : (p ++ ' ' :: v.text).rtakeWhile (· != ' ') = v.text := by
    have hv : ∀ c ∈ v.text.reverse, (c != ' ') = true := by
      intro c hc
      rw [bne_iff_ne]
      rintro rfl
      exact absurd (isBlank_of_mem_text (List.mem_reverse.mp hc)) (by decide)
    rw [List.rtakeWhile, List.reverse_append, List.reverse_cons, List.append_assoc,
      List.takeWhile_append_of_pos hv]
    simp
  rw [← List.cons_append, ← List.cons_append, ← List.append_assoc, ← List.append_assoc] at h
  apply text_injective
  rw [← hlast t p, List.append_cancel_right h, hlast]

end Threshold

namespace Rule

lemma exists_stem_eq : ∃ head : List Char, ∀ r : Rule,
    r.stem = head ++ ' ' :: (r.minimum.text ++ "px".toList) := by
  obtain ⟨head, hhead⟩ : ∃ head, "font-size should not be less than ".toList = head ++ [' '] :=
    ⟨"font-size should not be less than".toList, by decide⟩
  refine ⟨head, fun r => ?_⟩
  have hstem : r.stem =
    "font-size should not be less than ".toList ++ r.minimum.text ++ "px".toList := rfl
  rw [hstem, hhead, List.append_assoc, List.append_assoc, List.singleton_append]

lemma minimum_eq_of_complaint_eq {r r' : Rule} {line line' l m : List Char}
    (h : complaint line (l ++ (r.stem ++ m)) = complaint line' (l ++ (r'.stem ++ m))) :
    r.minimum = r'.minimum := by
  obtain ⟨head, hhead⟩ := exists_stem_eq
  have hchars := String.ofList_inj.mp h
  rw [hhead, hhead] at hchars
  have hnumber : ('`' :: line ++ '`' :: ' ' :: (l ++ head)) ++
        ' ' :: (r.minimum.text ++ ("px".toList ++ m)) =
      ('`' :: line' ++ '`' :: ' ' :: (l ++ head)) ++
        ' ' :: (r'.minimum.text ++ ("px".toList ++ m)) := by
    simpa only [List.append_assoc, List.cons_append] using hchars
  exact Threshold.eq_of_append_text_eq hnumber

lemma minimum_eq_of_message_eq {r r' : Rule} {p p' : Part} {x y : Record}
    (hx : r.inspect p = some (.violation x)) (hy : r'.inspect p' = some (.violation y))
    (h : x.message = y.message ∨ x.colorMessage = y.colorMessage) : r.minimum = r'.minimum := by
  obtain ⟨line, -, rfl⟩ := exists_line_of_inspect hx
  obtain ⟨line', -, rfl⟩ := exists_line_of_inspect hy
  rcases h with h | h
  · have hplain : complaint line ([] ++ (r.stem ++ [])) = complaint line' ([] ++ (r'.stem ++ [])) := by
      rwa [List.append_nil, List.append_nil]
    exact minimum_eq_of_complaint_eq hplain
  · simp only [record, muted, List.append_assoc] at h
    exact minimum_eq_of_complaint_eq h

end Rule

/-- A printed threshold consists of digits with at most a point in them. Put between blanks, as a text
or as a JSON string, it is read back as the same threshold. So a message of a violation, with or
without colours, quotes the minimum of its rule, and no rule with another minimum gives that message. -/
theorem printed_threshold_reads_back (t : Threshold) :
    (∃ whole fraction, t.text = digitsText whole ++ fractionText fraction) ∧
    (∀ l r : List Char, (∀ c ∈ l, isBlank c = true) → (∀ c ∈ r, isBlank c = true) →
      Threshold.ofText (l ++ t.text ++ r) = .ok t ∧
      Threshold.ofJson? (.string (String.ofList (l ++ t.text ++ r))) = some t) ∧
    ∀ (r : Rule) (p : Part) (x : Record), r.minimum = t → r.inspect p = some (.violation x) →
      (∃ line, x.message = "`" ++ String.ofList line ++ "` " ++
        "font-size should not be less than " ++ String.ofList t.text ++ "px") ∧
      ∀ (r' : Rule) (p' : Part) (y : Record), r'.inspect p' = some (.violation y) →
        x.message = y.message ∨ x.colorMessage = y.colorMessage → r'.minimum = t := by
  refine ⟨t.exists_text_eq, fun l r hl hr => ?_, fun r p x ht hx => ⟨?_, fun r' p' y hy h => ?_⟩⟩
  · have htext := t.ofText_padded hl hr
    refine ⟨htext, ?_⟩
    rw [Threshold.ofJson?, String.toList_ofList, htext]
    rfl
  · obtain ⟨line, -, rfl⟩ := Rule.exists_line_of_inspect hx
    exact ⟨line, ht ▸ complaint_eq line r.minimum.text⟩
  · rw [← ht]
    exact (Rule.minimum_eq_of_message_eq hx hy h).symm

/-- The smallest threshold between blanks of several kinds, and two rules that say the same of zero. -/
theorem printed_threshold_reads_back_smallest :
    let t : Threshold := ⟨⟨1, by decide⟩, by decide⟩
    let p : Part := ⟨some (.finite ⟨false, ⟨0, by decide⟩⟩), "0", ⟨1, 1⟩⟩
    let r : Rule := ⟨"sizes", "0", t⟩
    let r' : Rule := ⟨"other", "0", t⟩
    (∀ c ∈ ['\u3000', '\n'], isBlank c = true) ∧ (∀ c ∈ ['\u0085'], isBlank c = true) ∧
    t.text = "0.000000000000000000000000000000000000000000001".toList ∧
    Threshold.ofText (['\u3000', '\n'] ++ t.text ++ ['\u0085']) = .ok t ∧
    Threshold.ofJson? (.string (String.ofList (['\u3000', '\n'] ++ t.text ++ ['\u0085']))) = some t ∧
    r.inspect p = some (.violation (r.report p)) ∧
    r'.inspect p = some (.violation (r'.report p)) ∧
    (r.report p).message = (r'.report p).message ∧
    (∃ line, (r.report p).message = "`" ++ String.ofList line ++ "` " ++
      "font-size should not be less than " ++ String.ofList t.text ++ "px") ∧ r'.minimum = t := by
  intro t p r r'
  have hl : ∀ c ∈ ['\u3000', '\n'], isBlank c = true :=
    List.forall_mem_cons.mpr ⟨rfl, List.forall_mem_singleton.mpr rfl⟩
  have hr : ∀ c ∈ ['\u0085'], isBlank c = true := List.forall_mem_singleton.mpr rfl
  have hx : r.inspect p = some (.violation (r.report p)) :=
    r.inspect_of_line (l := ['0']) (by decide +kernel)
  have hy : r'.inspect p = some (.violation (r'.report p)) :=
    r'.inspect_of_line (l := ['0']) (by decide +kernel)
  obtain ⟨-, hread, hmessage⟩ := printed_threshold_reads_back t
  obtain ⟨hquoted, hunique⟩ := hmessage r p _ rfl hx
  exact ⟨hl, hr, by decide +kernel, (hread _ _ hl hr).1, (hread _ _ hl hr).2, hx, hy, rfl, hquoted,
    hunique r' p _ hy (.inl rfl)⟩

end FontSizeLint
