import FontSizeLint.Css.Component
import Mathlib.Tactic.Lemma
import Mathlib.Tactic.SplitIfs

/-! Blocks within blocks. What tokens make up does not depend on where they stand: inside open blocks
they make up the same components as alone, unless a stray bracket of theirs ends a block around them. -/
namespace FontSizeLint.Css

namespace Component

/-- Whether the text ended before the block did. -/
def isUnclosed : Component → Bool
  | block _ _ none => true
  | _ => false

/-- Whether the block, unless the text cut it short, ends with the partner of its opening bracket. -/
def isPaired : Component → Bool
  | block o _ (some c) => o.kind.opens?.any fun b => c.kind == .closing b
  | _ => true

end Component

namespace Nest

/-- The nest of given open blocks inside those of another. -/
def graft (n : Nest) (current : List Component) : List (Token × List Component) → Nest
  | [] => ⟨current ++ n.current, n.outer⟩
  | (opener, before) :: outer =>
    ⟨current, (opener, (graft n before outer).current) :: (graft n before outer).outer⟩

/-- The open blocks of the second nest inside those of the first. -/
def around (n m : Nest) : Nest := n.graft m.current m.outer

lemma around_empty (n : Nest) : n.around .empty = n := rfl

lemma around_append (n m : Nest) (c : Component) : n.around (m.append c) = (n.around m).append c := by
  obtain ⟨current, outer⟩ := m
  cases outer <;> rfl

lemma ne_nil_of_awaits {b : Bracket} {m : Nest} (h : m.awaits b = true) : m.outer ≠ [] := by
  intro he
  simp [awaits, he] at h

lemma awaits_around (b : Bracket) (n m : Nest) :
    (n.around m).awaits b = (m.awaits b || m.outer.isEmpty && n.awaits b) := by
  obtain ⟨current, outer⟩ := m
  cases outer <;> simp [around, graft, awaits]

lemma close_around (t : Token) {m : Nest} (n : Nest) (h : m.outer ≠ []) :
    (n.around m).close (some t) = n.around (m.close (some t)) := by
  obtain ⟨current, outer⟩ := m
  match outer, h with
  | (opener, before) :: outer, _ => exact (around_append n ⟨before, outer⟩ _).symm

lemma push_around (n m : Nest) (t : Token)
    (h : ∀ b, t.kind = .closing b → (m.outer.isEmpty && n.awaits b) = false) :
    (n.around m).push t = n.around (m.push t) := by
  unfold push
  split
  · rfl
  · split
    · rename_i b hb
      rw [awaits_around, h b hb, Bool.or_false]
      split_ifs with ha
      · exact close_around t n (ne_nil_of_awaits ha)
      · exact (around_append n m _).symm
    · exact (around_append n m _).symm

/-- The components before the outermost of given open blocks, the latest first. -/
def groundOf (current : List Component) : List (Token × List Component) → List Component
  | [] => current
  | (_, before) :: outer => groundOf before outer

/-- The components outside all blocks, the latest first. -/
def ground (m : Nest) : List Component := groundOf m.current m.outer

lemma ground_append (c : Component) (m : Nest) : m.ground <:+ (m.append c).ground := by
  obtain ⟨current, outer⟩ := m
  cases outer with
  | nil => exact List.suffix_cons c current
  | cons f outer => exact List.suffix_rfl

lemma ground_push (m : Nest) (t : Token) : m.ground <:+ (m.push t).ground := by
  unfold push
  split
  · exact List.suffix_rfl
  · split
    · split_ifs with ha
      · obtain ⟨current, outer⟩ := m
        match outer, ne_nil_of_awaits ha with
        | (opener, before) :: outer, _ =>
          exact ground_append (.block opener current.reverse (some t)) ⟨before, outer⟩
      · exact ground_append _ m
    · exact ground_append _ m

lemma ground_foldl_push (ts : List Token) (m : Nest) : m.ground <:+ (ts.foldl push m).ground := by
  induction ts generalizing m with
  | nil => exact List.suffix_rfl
  | cons t ts ih => exact (ground_push m t).trans (ih _)

lemma forall_ground_append {P : Component → Prop} {c : Component} {m : Nest}
    (hc : m.outer = [] → P c) (h : ∀ d ∈ m.ground, P d) : ∀ d ∈ (m.append c).ground, P d := by
  obtain ⟨current, outer⟩ := m
  cases outer with
  | nil => exact List.forall_mem_cons.mpr ⟨hc rfl, h⟩
  | cons f outer => exact h

lemma isPaired_ground_push (t : Token) {m : Nest} (h : ∀ d ∈ m.ground, d.isPaired = true) :
    ∀ d ∈ (m.push t).ground, d.isPaired = true := by
  unfold push
  split
  · exact h
  · split
    · rename_i b hb
      split_ifs with ha
      · obtain ⟨current, outer⟩ := m
        match outer, ne_nil_of_awaits ha with
        | (opener, before) :: outer, _ =>
          have ho : opener.kind.opens? = some b := by simpa [awaits] using ha
          exact forall_ground_append (c := .block opener current.reverse (some t))
            (m := ⟨before, outer⟩) (fun _ => by simp [Component.isPaired, ho, hb]) h
      · exact forall_ground_append (fun _ => rfl) h
    · exact forall_ground_append (fun _ => rfl) h

lemma isPaired_ground_foldl_push (ts : List Token) {m : Nest}
    (h : ∀ d ∈ m.ground, d.isPaired = true) :
    ∀ d ∈ (ts.foldl push m).ground, d.isPaired = true := by
  induction ts generalizing m with
  | nil => exact h
  | cons t ts ih => exact ih (isPaired_ground_push t h)

/-- Tokens within another nest, if no stray bracket of theirs ends a block there. -/
theorem foldl_push_around (n : Nest) (ts : List Token) (m : Nest)
    (h : ∀ b, n.awaits b = true → ∀ c ∈ (ts.foldl push m).ground, c.isLeaf (.closing b) = false) :
    ts.foldl push (n.around m) = n.around (ts.foldl push m) := by
  induction ts generalizing m with
  | nil => rfl
  | cons t ts ih =>
    rw [List.foldl_cons, List.foldl_cons, push_around]
    · exact ih _ h
    · intro b hb
      rw [← Bool.not_eq_true]
      intro hl
      obtain ⟨ho, hn⟩ : m.outer = [] ∧ n.awaits b = true := by simpa using hl
      -- The bracket would be a token of its own outside all blocks, and stay one.
      have hpush : m.push t = m.append (.leaf t) := by
        simp [push, hb, Kind.opens?, awaits, ho]
      have hmem : .leaf t ∈ (m.push t).ground := by
        simp [hpush, append, ho, ground, groundOf]
      have hleaf := h b hn _ ((ground_foldl_push ts _).subset hmem)
      simp [Component.isLeaf, hb] at hleaf

lemma closeAll_graft (n : Nest) (current : List Component) (outer : List (Token × List Component)) :
    closeAll (graft n current outer).current (graft n current outer).outer =
      closeAll (closeAll current outer ++ n.current) n.outer := by
  induction outer generalizing current with
  | nil => rfl
  | cons f outer ih =>
    have h := around_append n ⟨f.2, outer⟩ (.block f.1 current.reverse none)
    rw [closeAll, ← ih, graft, closeAll]
    exact congrArg (fun n : Nest => closeAll n.current n.outer) h.symm

lemma finish_around (cs : List Component) (m : Nest) :
    (around ⟨cs.reverse, []⟩ m).finish = cs ++ m.finish := by
  rw [finish, around, closeAll_graft, closeAll, List.reverse_append, List.reverse_reverse, finish]

lemma exists_isUnclosed_closeAll (current : List Component) {outer : List (Token × List Component)}
    (h : outer ≠ [] ∨ ∃ c ∈ current, c.isUnclosed = true) :
    ∃ c ∈ closeAll current outer, c.isUnclosed = true := by
  induction outer generalizing current with
  | nil => exact h.resolve_left (fun hn => hn rfl)
  | cons f outer ih => exact ih _ (.inr ⟨_, List.mem_cons_self, rfl⟩)

end Nest

/-- Tokens that leave no block open. -/
def Closed (ts : List Token) : Prop := ∀ c ∈ components ts, c.isUnclosed = false

lemma Closed.foldl_push {ts : List Token} (h : Closed ts) :
    ts.foldl Nest.push .empty = ⟨(components ts).reverse, []⟩ := by
  rw [components, Nest.finish, List.reverse_reverse]
  cases ho : (ts.foldl Nest.push .empty).outer with
  | nil => rw [Nest.closeAll, ← ho]
  | cons f outer =>
    obtain ⟨c, hc, hu⟩ := Nest.exists_isUnclosed_closeAll
      (ts.foldl Nest.push .empty).current (.inl (List.cons_ne_nil f outer))
    rw [← ho] at hc
    rw [h c (List.mem_reverse.mpr hc)] at hu
    contradiction

lemma Closed.isPaired {ts : List Token} (h : Closed ts) :
    ∀ c ∈ components ts, c.isPaired = true := by
  have hp := Nest.isPaired_ground_foldl_push ts (m := .empty) (by simp [Nest.ground, Nest.groundOf,
    Nest.empty])
  rw [h.foldl_push] at hp
  simpa [Nest.ground, Nest.groundOf] using hp

/-- Tokens behind ones that leave no block open make up components of their own. -/
theorem components_append {ts : List Token} (h : Closed ts) (us : List Token) :
    components (ts ++ us) = components ts ++ components us := by
  rw [components, List.foldl_append, h.foldl_push,
    ← Nest.around_empty ⟨(components ts).reverse, []⟩, Nest.foldl_push_around, Nest.finish_around]
  · rfl
  · intro b hb
    simp [Nest.awaits] at hb

lemma Closed.of_concat {ts : List Token} {t : Token} (ht : t.kind.opens? = none)
    (hk : ∀ b, t.kind ≠ .closing b) (h : Closed (ts ++ [t])) :
    Closed ts ∧ components (ts ++ [t]) = components ts ++ [.leaf t] := by
  have hpush : ∀ n : Nest, n.push t = n.append (.leaf t) := by
    intro n
    simp only [Nest.push, ht]
  have hall := h.foldl_push
  rw [List.foldl_append, List.foldl_cons, List.foldl_nil, hpush] at hall
  obtain ⟨hcurrent, houter⟩ := Nest.mk.inj hall
  have hcomps : components (ts ++ [t]) = components ts ++ [.leaf t] := by
    rw [← List.reverse_inj, ← hcurrent, components, Nest.finish, houter]
    simp [Nest.closeAll]
  refine ⟨fun c hc => h c ?_, hcomps⟩
  rw [hcomps]
  exact List.mem_append_left _ hc

/-- A bracket, what stands in it, and its partner are one component. -/
theorem components_block {o c : Token} {b : Bracket} (ho : o.kind.opens? = some b)
    (hc : c.kind = .closing b) {ts : List Token} (h : Closed ts)
    (hts : ∀ d ∈ components ts, d.isLeaf (.closing b) = false) :
    components (o :: (ts ++ [c])) = [.block o (components ts) (some c)] := by
  have hopen : Nest.push .empty o = ⟨[], [(o, [])]⟩ := by
    simp [Nest.push, ho, Nest.empty]
  have hbody : ts.foldl Nest.push ⟨[], [(o, [])]⟩ = ⟨(components ts).reverse, [(o, [])]⟩ := by
    rw [← Nest.around_empty ⟨[], [(o, [])]⟩, Nest.foldl_push_around, h.foldl_push]
    · simp [Nest.around, Nest.graft]
    · intro b' hb'
      have he : b = b' := by simpa [Nest.awaits, ho] using hb'
      rw [h.foldl_push, ← he]
      simpa [Nest.ground, Nest.groundOf] using hts
  have hclose : Nest.push ⟨(components ts).reverse, [(o, [])]⟩ c =
      ⟨[.block o (components ts) (some c)], []⟩ := by
    have hno : (Kind.closing b).opens? = none := rfl
    simp [Nest.push, hc, hno, Nest.awaits, ho, Nest.close]
  rw [components, List.foldl_cons, hopen, List.foldl_append, hbody, List.foldl_cons, hclose]
  rfl

lemma components_cons {t : Token} (h : t.kind.opens? = none) (ts : List Token) :
    components (t :: ts) = .leaf t :: components ts := by
  have hone : components [t] = [.leaf t] := by
    unfold components
    simp only [List.foldl_cons, List.foldl_nil, Nest.push, h, Nest.awaits, Nest.empty]
    split <;> rfl
  have hclosed : Closed [t] := by
    simp [Closed, hone, Component.isUnclosed]
  rw [← List.singleton_append, components_append hclosed, hone, List.singleton_append]

end FontSizeLint.Css
