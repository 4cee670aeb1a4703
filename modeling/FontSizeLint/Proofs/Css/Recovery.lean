import FontSizeLint.Proofs.Css.Grouping

/-! Errors in a block are local. What stands before a semicolon, be it declarations or not, is read as if
the block ended there, and what stands behind it as if the block began there. -/
namespace FontSizeLint.Css
open Text

def isBrace (c : Component) : Bool := c.isLeaf (.closing .curly)

/-- What stands before the first brace that ends a block around it. -/
def beforeBrace (cs : List Component) : List Component := cs.takeWhile fun c => !isBrace c

lemma beforeBrace_append {cs : List Component} (h : ∀ c ∈ cs, isBrace c = false)
    (ds : List Component) : beforeBrace (cs ++ ds) = cs ++ beforeBrace ds :=
  List.takeWhile_append_of_pos fun c hc => by simp [h c hc]

lemma beforeBrace_brace {c : Component} (hc : isBrace c = true) (cs : List Component) :
    beforeBrace (c :: cs) = [] :=
  List.takeWhile_cons_of_neg (by simp [hc])

namespace Nest

lemma exists_finish_eq (m : Nest) : ∃ rest, m.finish = m.ground.reverse ++ rest := by
  have h : ∀ current outer, groundOf current outer <:+ closeAll current outer := by
    intro current outer
    induction outer generalizing current with
    | nil => exact List.suffix_rfl
    | cons f outer ih =>
      cases outer with
      | nil => exact List.suffix_cons _ _
      | cons g outer => exact ih _
  obtain ⟨rest, hrest⟩ := h m.current m.outer
  exact ⟨rest.reverse, by rw [finish, ← hrest, List.reverse_append, ground]⟩

lemma exists_finish_foldl_push (ts : List Token) (m : Nest) :
    ∃ rest, (ts.foldl push m).finish = m.ground.reverse ++ rest := by
  obtain ⟨more, hmore⟩ := ground_foldl_push ts m
  obtain ⟨rest, hrest⟩ := exists_finish_eq (ts.foldl push m)
  exact ⟨more.reverse ++ rest, by rw [hrest, ← hmore, List.reverse_append, List.append_assoc]⟩

lemma isBrace_finish {m : Nest} (hm : ∀ c ∈ m.ground, isBrace c = false) :
    ∀ c ∈ m.finish, isBrace c = false := by
  have h : ∀ current outer, (∀ c ∈ groundOf current outer, isBrace c = false) →
      ∀ c ∈ closeAll current outer, isBrace c = false := by
    intro current outer hg
    induction outer generalizing current with
    | nil => exact hg
    | cons f outer ih =>
      apply ih
      cases outer with
      | nil => exact List.forall_mem_cons.mpr ⟨rfl, hg⟩
      | cons g outer => exact hg
  exact fun c hc => h m.current m.outer hm c (List.mem_reverse.mp hc)

lemma isBrace_ground_push {t : Token} {m : Nest} (ht : t.kind = .closing .curly → m.outer ≠ [])
    (hm : ∀ c ∈ m.ground, isBrace c = false) : ∀ c ∈ (m.push t).ground, isBrace c = false := by
  have hleaf : m.outer = [] → isBrace (.leaf t) = false := by
    intro ho
    rw [isBrace, Component.isLeaf, beq_eq_false_iff_ne]
    exact fun hk => ht hk ho
  unfold push
  split
  · exact hm
  · split
    · split_ifs with ha
      · obtain ⟨current, outer⟩ := m
        obtain ⟨⟨opener, before⟩, outer, rfl⟩ := List.exists_cons_of_ne_nil (ne_nil_of_awaits ha)
        exact forall_ground_append (c := .block opener current.reverse (some t))
          (m := ⟨before, outer⟩) (fun _ => rfl) hm
      · exact forall_ground_append hleaf hm
    · exact forall_ground_append hleaf hm

lemma exists_finish_around {o : Token} (ho : o.kind = .opening .curly) (ts : List Token) {m : Nest}
    (hm : ∀ c ∈ m.ground, isBrace c = false) : ∃ closer rest,
      (ts.foldl push (around ⟨[], [(o, [])]⟩ m)).finish =
        .block o (beforeBrace (ts.foldl push m).finish) closer :: rest := by
  have hawaits : ∀ b, Nest.awaits b ⟨[], [(o, [])]⟩ = (.curly == b) := by
    intro b
    simp [awaits, ho, Kind.opens?]
  induction ts generalizing m with
  | nil =>
    have hall : beforeBrace m.finish = m.finish :=
      List.takeWhile_eq_self_iff.mpr fun c hc => by simp [isBrace_finish hm c hc]
    refine ⟨none, [], ?_⟩
    rw [List.foldl_nil, List.foldl_nil, hall, finish, around, closeAll_graft, List.append_nil]
    rfl
  | cons t ts ih =>
    rw [List.foldl_cons, List.foldl_cons]
    by_cases hend : t.kind = .closing .curly ∧ m.outer = []
    · obtain ⟨ht, hout⟩ := hend
      obtain ⟨current, outer⟩ := m
      obtain rfl : outer = [] := hout
      have hin : push (around ⟨[], [(o, [])]⟩ ⟨current, []⟩) t =
          ⟨[.block o current.reverse (some t)], []⟩ := by
        simp [push, ht, Kind.opens?, awaits, ho, close, around, graft]
      have halone : push ⟨current, []⟩ t = ⟨.leaf t :: current, []⟩ := by
        simp [push, ht, Kind.opens?, awaits, append]
      obtain ⟨rest, hrest⟩ := exists_finish_foldl_push ts ⟨[.block o current.reverse (some t)], []⟩
      obtain ⟨more, hmore⟩ := exists_finish_foldl_push ts ⟨.leaf t :: current, []⟩
      have hbrace : isBrace (.leaf t) = true := by simp [isBrace, Component.isLeaf, ht]
      refine ⟨some t, rest, ?_⟩
      rw [hin, halone, hrest, hmore]
      simp only [ground, groundOf, List.reverse_cons, List.append_assoc, List.singleton_append]
      have hcur : ∀ c ∈ current.reverse, isBrace c = false :=
        fun c hc => hm c (List.mem_reverse.mp hc)
      rw [beforeBrace_append hcur, beforeBrace_brace hbrace]
      simp
    · rw [push_around]
      · exact ih (isBrace_ground_push (fun ht hout => hend ⟨ht, hout⟩) hm)
      · intro b hb
        by_contra hc
        rw [hawaits, Bool.not_eq_false, Bool.and_eq_true, List.isEmpty_iff, beq_iff_eq] at hc
        exact hend ⟨by rw [hb, ← hc.2], hc.1⟩

end Nest

lemma exists_components_opening {o : Token} (ho : o.kind = .opening .curly) (ts : List Token) :
    ∃ closer rest, components (o :: ts) = .block o (beforeBrace (components ts)) closer :: rest := by
  have hpush : Nest.push .empty o = ⟨[], [(o, [])]⟩ := by simp [Nest.push, ho, Kind.opens?, Nest.empty]
  rw [components, List.foldl_cons, hpush]
  exact Nest.exists_finish_around ho ts (m := .empty) (by simp [Nest.ground, Nest.groundOf, Nest.empty])

lemma statements_append {semicolon : Component} (h : semicolon.isLeaf .semicolon = true)
    (begun cs ds : List Component) : statements begun (cs ++ semicolon :: ds) =
      statements begun cs ++ statements [] ds := by
  fun_induction statements begun cs with
  | case1 begun => rw [List.nil_append, statements, if_pos h, List.singleton_append]
  | case2 begun c cs hc ih => rw [List.cons_append, statements, if_pos hc, ih, List.cons_append]
  | case3 begun c cs hc ha ih =>
    rw [List.cons_append, statements, if_neg hc, if_pos ha, ih, List.cons_append]
  | case4 begun c cs hc ha hskip ih =>
    rw [List.cons_append, statements, if_neg hc, if_neg ha, if_pos hskip, ih]
  | case5 begun c cs hc ha hskip ih =>
    rw [List.cons_append, statements, if_neg hc, if_neg ha, if_neg hskip, ih]

lemma declarations_append {semicolon : Component} (h : semicolon.isLeaf .semicolon = true)
    (cs ds : List Component) :
    declarations (cs ++ semicolon :: ds) = declarations cs ++ declarations ds := by
  rw [declarations, statements_append h, List.filterMap_append]
  rfl

/-- A text that leaves nothing open, neither a token nor a block, and no brace of which would end a
block around it. -/
structure SelfContained (s : List Char) : Prop where
  settled : ∀ t ∈ (bareTokens s).getLast?, t.isOpen = false
  contained : Contained s

instance (s : List Char) : Decidable (SelfContained s) :=
  decidable_of_iff ((∀ t ∈ (bareTokens s).getLast?, t.isOpen = false) ∧ Contained s)
    ⟨fun h => ⟨h.1, h.2⟩, fun h => ⟨h.1, h.2⟩⟩

def ruleText (body : List Char) : List Char := 'a' :: '{' :: (body ++ ['}'])

def selector : Token := ⟨.ident, ['a'], .start⟩

lemma bareTokens_ruleText (body : List Char) :
    bareTokens (ruleText body) = selector :: stopToken '{' :: bareTokens (body ++ ['}']) := by
  have hfirst : Lexer.first ('a' :: '{' :: (body ++ ['}'])) = (.ident, 1) := rfl
  rw [ruleText, bareTokens_step (by simp), hfirst]
  change selector :: bareTokens ('{' :: (body ++ ['}'])) = _
  rw [bareTokens_stop rfl]

lemma exists_head_rules (body : List Char) :
    ∃ r, (Stylesheet.ofText (ruleText body)).rules.head? = some r ∧
      r.declarations.map Declaration.unplaced =
        declarations (beforeBrace (components (bareTokens (body ++ ['}'])))) := by
  obtain ⟨closer, rest, hblock⟩ :=
    exists_components_opening (o := stopToken '{') rfl (bareTokens (body ++ ['}']))
  have hstart : Pending.fresh.next (.leaf selector) = .reading (.qualified [.leaf selector]) := rfl
  have hrules := rules_unplaced (ruleText body)
  rw [bareTokens_ruleText, components_cons rfl, hblock, rulesFrom_reading hstart] at hrules
  obtain ⟨r, rs, hr, hunplaced, -⟩ := List.map_eq_cons_iff.mp hrules
  exact ⟨r, by rw [hr, List.head?_cons], congrArg StyleRule.declarations hunplaced⟩

lemma SelfContained.beforeBrace_eq {s : List Char} (h : SelfContained s) :
    beforeBrace (components (bareTokens (s ++ ['}']))) = components (bareTokens s) := by
  rw [bareTokens_append_of_not_isOpen rfl h.settled, components_append h.contained.closed,
    beforeBrace_append fun c hc => (h.contained c hc).2, components_cons rfl, beforeBrace_brace rfl,
    List.append_nil]

/-- Recovery from errors in a block is local. If what stands before a semicolon leaves nothing open, be
it a declaration or anything else, then the rule has the declarations of both sides as if each side were
all that stands in the block: nothing before the semicolon hides, changes or adds a declaration behind
it, or the other way round. -/
theorem recovery_local_to_semicolon {before : List Char} (h : SelfContained before)
    (behind : List Char) : ∃ r r₁ r₂,
      (Stylesheet.ofText (ruleText (before ++ ';' :: behind))).rules.head? = some r ∧
      (Stylesheet.ofText (ruleText before)).rules.head? = some r₁ ∧
      (Stylesheet.ofText (ruleText behind)).rules.head? = some r₂ ∧
      r.declarations.map Declaration.unplaced =
        r₁.declarations.map Declaration.unplaced ++ r₂.declarations.map Declaration.unplaced := by
  obtain ⟨r, hr, hd⟩ := exists_head_rules (before ++ ';' :: behind)
  obtain ⟨r₁, hr₁, hd₁⟩ := exists_head_rules before
  obtain ⟨r₂, hr₂, hd₂⟩ := exists_head_rules behind
  refine ⟨r, r₁, r₂, hr, hr₁, hr₂, ?_⟩
  have htokens : bareTokens (before ++ ';' :: behind ++ ['}']) =
      bareTokens before ++ stopToken ';' :: bareTokens (behind ++ ['}']) := by
    rw [List.append_assoc, List.cons_append, bareTokens_append_of_not_isOpen rfl h.settled]
  have hbody : beforeBrace (components (bareTokens (before ++ ';' :: behind ++ ['}']))) =
      components (bareTokens before) ++
        .leaf (stopToken ';') :: beforeBrace (components (bareTokens (behind ++ ['}']))) := by
    rw [htokens, components_append h.contained.closed, components_cons rfl,
      beforeBrace_append fun c hc => (h.contained c hc).2]
    rfl
  rw [hd, hd₁, hd₂, hbody, h.beforeBrace_eq, declarations_append rfl]

/-- Before the semicolon a nested rule, a declaration without a name, an at-rule and one in brackets. -/
theorem recovery_local_to_semicolon_junk :
    let before := "p\x7bq:r;\x7d s;: t; @u v\x7bw:x\x7d y:z (;)".toList
    let behind := "font-size:9px".toList
    SelfContained before ∧
    ((Stylesheet.ofText (ruleText before)).rules.head?.map fun r =>
      r.declarations.map Declaration.name) = some ["y"] ∧
    ∃ r r₁ r₂, (Stylesheet.ofText (ruleText (before ++ ';' :: behind))).rules.head? = some r ∧
      (Stylesheet.ofText (ruleText before)).rules.head? = some r₁ ∧
      (Stylesheet.ofText (ruleText behind)).rules.head? = some r₂ ∧
      r.declarations.map Declaration.unplaced =
        r₁.declarations.map Declaration.unplaced ++ r₂.declarations.map Declaration.unplaced := by
  intro before behind
  have h : SelfContained before := by decide +kernel
  exact ⟨h, by decide +kernel, recovery_local_to_semicolon h behind⟩

end FontSizeLint.Css
