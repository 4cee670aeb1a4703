import FontSizeLint.Proofs.Css.Recovery
import FontSizeLint.Proofs.Css.Reread
import FontSizeLint.Proofs.Css.Spaced

/-! Marking a declaration. A mark of importance behind a complete value and a space changes the flag of
the declaration and nothing else, whatever the last token of the value makes of the space. -/
namespace FontSizeLint.Css
open Text Numeric List

/-- Tokens one behind the other, the first one at a given place. -/
def placed (p : Position) : List Token → List Token
  | [] => []
  | t :: ts => { t with position := p } :: placed (p.advance t.text) ts

def behind (p : Position) (ts : List Token) : Position := ts.foldl (fun p t => p.advance t.text) p

lemma placed_append (p : Position) (ts us : List Token) :
    placed p (ts ++ us) = placed p ts ++ placed (behind p ts) us := by
  induction ts generalizing p with
  | nil => rfl
  | cons t ts ih => rw [cons_append, placed, ih, placed, cons_append]; rfl

lemma tokens_eq_placed (s : List Char) : tokens s = placed .start (bareTokens s) := by
  have h : ∀ p ps, Lexer.place p ps = placed p (ps.map fun q => ⟨q.1, q.2, .start⟩) := by
    intro p ps
    induction ps generalizing p with
    | nil => rfl
    | cons q ps ih => rw [Lexer.place, ih, map_cons, placed]
  exact h .start _

lemma textOf_placed (p : Position) (ts : List Token) : Token.textOf (placed p ts) = Token.textOf ts := by
  induction ts generalizing p with
  | nil => rfl
  | cons t ts ih => rw [placed, Token.textOf_cons, Token.textOf_cons, ih]

lemma unplaced_placed (p : Position) (ts : List Token) :
    (placed p ts).map Token.unplaced = ts.map Token.unplaced := by
  induction ts generalizing p with
  | nil => rfl
  | cons t ts ih => rw [placed, map_cons, map_cons, ih]; rfl

/-- Tokens that make up a value in a block: they leave no block open, and nothing among them ends the
value or the block around. -/
def IsValue (ts : List Token) : Prop := ∀ c ∈ components ts,
  c.isUnclosed = false ∧ c.isLeaf (.closing .curly) = false ∧ c.isLeaf .semicolon = false

/-- A token that is no bracket and no semicolon. -/
def Kind.isInner : Kind → Bool
  | opening _ | function | closing _ | semicolon => false
  | _ => true

lemma Kind.opens?_of_isInner {k : Kind} (h : k.isInner = true) : k.opens? = none := by
  cases k <;> first | rfl | exact Bool.noConfusion h

lemma components_of_isInner {ts : List Token} (h : ∀ t ∈ ts, t.kind.isInner = true) :
    components ts = ts.map .leaf := by
  induction ts with
  | nil => rfl
  | cons t ts ih =>
    rw [forall_mem_cons] at h
    rw [components_cons (Kind.opens?_of_isInner h.1), ih h.2, map_cons]

lemma Component.Alike.isUnclosed {L : Likeness} {c c' : Component} (h : c.Alike L c') :
    c'.isUnclosed = c.isUnclosed := by
  cases h with
  | leaf _ => rfl
  | block _ _ hc => cases hc <;> rfl

lemma isValue_unplaced (ts : List Token) : IsValue (ts.map Token.unplaced) ↔ IsValue ts := by
  have h : ∀ {cs cs' : List Component}, Forall₂ (Component.Alike .atStart) cs cs' →
      ((∀ c ∈ cs', c.isUnclosed = false ∧ c.isLeaf (.closing .curly) = false ∧
        c.isLeaf .semicolon = false) ↔ ∀ c ∈ cs, c.isUnclosed = false ∧
        c.isLeaf (.closing .curly) = false ∧ c.isLeaf .semicolon = false) := by
    intro cs cs' h
    induction h with
    | nil => simp
    | cons hc _ ih => rw [forall_mem_cons, forall_mem_cons, ih, hc.isUnclosed, hc.isLeaf, hc.isLeaf]
  exact h (components_alike (alike_unplaced ts))

namespace IsValue
variable {ts us : List Token}

lemma closed (h : IsValue ts) : Closed ts := fun c hc => (h c hc).1

lemma of_concat {t : Token} (ht : t.kind.isInner = true) (h : IsValue (ts ++ [t])) : IsValue ts := by
  have hk : ∀ b, t.kind ≠ .closing b := by
    intro b hb
    rw [hb] at ht
    contradiction
  obtain ⟨-, hcomps⟩ := h.closed.of_concat (Kind.opens?_of_isInner ht) hk
  intro c hc
  exact h c (by rw [hcomps]; exact mem_append_left _ hc)

lemma placed (h : IsValue ts) (p : Position) : IsValue (Css.placed p ts) := by
  rwa [← isValue_unplaced, unplaced_placed, isValue_unplaced]

lemma append (h : IsValue ts) (hus : ∀ t ∈ us, t.kind.isInner = true) : IsValue (ts ++ us) := by
  intro c hc
  rw [components_append h.closed, components_of_isInner hus, mem_append, mem_map] at hc
  rcases hc with hc | ⟨t, ht, rfl⟩
  · exact h c hc
  · have hk := hus t ht
    refine ⟨rfl, ?_, ?_⟩ <;> rw [Component.isLeaf, beq_eq_false_iff_ne] <;>
      rintro he <;> rw [he] at hk <;> contradiction

end IsValue

lemma isInner_of_mem_placed {p : Position} {ts : List Token} (h : ∀ t ∈ ts, t.kind.isInner = true) :
    ∀ t ∈ placed p ts, t.kind.isInner = true := by
  induction ts generalizing p with
  | nil => exact h
  | cons t ts ih =>
    rw [forall_mem_cons] at h
    rw [placed, forall_mem_cons]
    exact ⟨h.1, ih h.2⟩

lemma IsValue.components_placed {ts us : List Token} (h : IsValue ts)
    (hus : ∀ t ∈ us, t.kind.isInner = true) (p : Position) : components (Css.placed p (ts ++ us)) =
      components (Css.placed p ts) ++ (Css.placed (behind p ts) us).map .leaf := by
  rw [placed_append, components_append (h.placed p).closed,
    components_of_isInner (isInner_of_mem_placed hus)]

/-- The property of the declaration, at its place. -/
def property : Token := ⟨.ident, ['x'], ⟨1, 3⟩⟩

/-- The components of a value behind its property. -/
def valueOf (value : List Char) : List Component := components (placed ⟨1, 5⟩ (bareTokens value))

lemma textOf_valueOf (value : List Char) : Component.textOf (valueOf value) = value := by
  rw [valueOf, textOf_components, textOf_placed, textOf_bareTokens]

lemma tokens_ruleText (value : List Char) : tokens (ruleText ("x:".toList ++ value)) =
    ⟨.ident, ['a'], ⟨1, 1⟩⟩ :: ⟨.opening .curly, ['{'], ⟨1, 2⟩⟩ :: property ::
      ⟨.colon, [':'], ⟨1, 4⟩⟩ :: placed ⟨1, 5⟩ (bareTokens (value ++ ['}'])) := by
  have hx : Lexer.first ('x' :: ':' :: (value ++ ['}'])) = (.ident, 1) := rfl
  have hc : Lexer.first (':' :: (value ++ ['}'])) = (.colon, 1) := rfl
  have hbare : bareTokens ("x:".toList ++ value ++ ['}']) = ⟨.ident, ['x'], .start⟩ ::
      ⟨.colon, [':'], .start⟩ :: bareTokens (value ++ ['}']) := by
    change bareTokens ('x' :: ':' :: (value ++ ['}'])) = _
    rw [bareTokens_step (by simp), hx]
    change _ :: bareTokens (':' :: (value ++ ['}'])) = _
    rw [bareTokens_step (by simp), hc]
    rfl
  rw [tokens_eq_placed, bareTokens_ruleText, hbare]
  rfl

lemma declarations_ruleText {value : List Char} (h : IsValue (bareTokens value))
    (hlast : ∀ t ∈ (bareTokens value).getLast?, t.isOpen = false) :
    (Stylesheet.ofText (ruleText ("x:".toList ++ value))).declarations =
      [.ofValue property (valueOf value)] := by
  have hvalue := h.placed ⟨1, 5⟩
  let colon : Token := ⟨.colon, [':'], ⟨1, 4⟩⟩
  let body := property :: colon :: placed ⟨1, 5⟩ (bareTokens value)
  let closer : Token := { stopToken '}' with position := behind ⟨1, 5⟩ (bareTokens value) }
  have htokens : tokens (ruleText ("x:".toList ++ value)) =
      ⟨.ident, ['a'], ⟨1, 1⟩⟩ :: ⟨.opening .curly, ['{'], ⟨1, 2⟩⟩ :: (body ++ [closer]) := by
    rw [tokens_ruleText, bareTokens_append_of_not_isOpen rfl hlast, placed_append]
    rfl
  have hbody : components body = .leaf property :: .leaf colon :: valueOf value := by
    rw [components_cons rfl, components_cons rfl, valueOf]
  have hinside : ∀ c ∈ components body, c.isUnclosed = false ∧ c.isLeaf (.closing .curly) = false := by
    rw [hbody, forall_mem_cons, forall_mem_cons]
    exact ⟨⟨rfl, rfl⟩, ⟨rfl, rfl⟩, fun c hc => ⟨(hvalue c hc).1, (hvalue c hc).2.1⟩⟩
  have hdecls : declarations (components body) = [.ofValue property (valueOf value)] := by
    rw [hbody]
    exact declarations_of_value rfl rfl fun c hc => (hvalue c hc).2.2
  rw [Stylesheet.declarations, Stylesheet.ofText, htokens, components_cons rfl,
    components_block (b := .curly) rfl rfl (fun c hc => (hinside c hc).1) fun c hc => (hinside c hc).2]
  change [StyleRule.mk _ (declarations (components body))].flatMap StyleRule.declarations = _
  rw [hdecls, flatMap_singleton]

section Word
variable {w : List Char}

/-- The exclamation mark of a mark of importance, and the word. -/
def bangToken : Token := ⟨.delim, ['!'], .start⟩
def wordToken (w : List Char) : Token := ⟨.ident, w, .start⟩

lemma bareTokens_bang (hw : lower w = importantWord) :
    bareTokens ('!' :: w) = [bangToken, wordToken w] := by
  have halpha := isAlpha_of_lower_eq hw
  have hlen := length_of_lower_eq_word hw
  have hne : w ≠ [] := length_pos_iff.mp (by omega)
  have hbang : Lexer.first ('!' :: w) = (.delim, 1) := rfl
  have hall : nameLength w = w.length := by
    have hle := length_le_nameLength halpha []
    rw [append_nil] at hle
    exact Nat.le_antisymm (nameLength_le w) hle
  have hword : Lexer.first w = (.ident, w.length) := by
    have hnamed := Lexer.first_eq_named hne halpha []
    rw [append_nil] at hnamed
    rw [hnamed, Lexer.named, hall, drop_length]
  rw [bareTokens_step (by simp), hbang]
  change bangToken :: bareTokens w = _
  rw [bareTokens_step hne, hword, take_length, drop_length]
  rfl

lemma isOpen_wordToken (hw : lower w = importantWord) : (wordToken w).isOpen = false := by
  have hback : '\\' ∉ w := fun hm => absurd (isAlpha_of_lower_eq hw _ hm) (by decide)
  have he := escapesNext_append hback []
  rwa [append_nil] at he

lemma isImportantWord_wordToken (hw : lower w = importantWord) (p : Position) :
    Part.isImportantWord (.leaf ⟨.ident, w, p⟩) = true := by
  have hkey : Token.key ⟨.ident, w, p⟩ = importantWord :=
    (congrArg lower (unescape_of_isAlpha (isAlpha_of_lower_eq hw))).trans hw
  simp [Part.isImportantWord, hkey]

lemma ofValue_bang (hw : lower w = importantWord) {ts us : List Token} (h : IsValue ts)
    (hus : ∀ t ∈ us, t.kind.isInner = true) (p : Position) :
    Part.ofValue (components (placed p (ts ++ us ++ [bangToken, wordToken w]))) =
      ((Part.ofValue (components (placed p (ts ++ us)))).1, true) := by
  rw [(h.append hus).components_placed (by simp [bangToken, wordToken, Kind.isInner])]
  exact Part.ofValue_append_mark rfl (isImportantWord_wordToken hw _) _

end Word

lemma trim_append_space (s : List Char) : trim (s ++ [' ']) = trim s :=
  trim_blanks (l := []) (by simp) (forall_mem_singleton.mpr rfl) s

lemma Lexer.Widens.part {k : Kind} {s : List Char} (h : Widens k s) (p : Position) :
    Part.Akin (.leaf ⟨k, s, p⟩) (.leaf ⟨k, s ++ [' '], p⟩) ∧
      Part.ofComponent (.leaf ⟨k, s, p⟩) = Part.ofComponent (.leaf ⟨k, s ++ [' '], p⟩) := by
  obtain ⟨hk, hname⟩ := h
  refine ⟨⟨rfl, ?_, ?_, ?_⟩, ?_⟩
  · simp only [mem_cons, not_mem_nil, or_false] at hk
    rcases hk with rfl | rfl | rfl | rfl | rfl <;> rfl
  · simp only [mem_cons, not_mem_nil, or_false] at hk
    rcases hk with rfl | rfl | rfl | rfl | rfl <;> rfl
  · rw [Part.isImportantWord, Part.isImportantWord]
    by_cases hident : k = .ident
    · subst k
      simp only [Token.key, Token.name, hname rfl]
    · simp only [beq_false_of_ne hident, Bool.false_and]
  · simp only [Part.ofComponent, Component.text, Component.head, Component.position,
      trim_append_space]
    rfl

lemma Lexer.Widens.isInner {k : Kind} {s : List Char} (h : Widens k s) : k.isInner = true := by
  have hk := h.isWide
  simp only [mem_cons, not_mem_nil, or_false] at hk
  rcases hk with rfl | rfl | rfl | rfl | rfl <;> rfl

/-- What a mark makes of a value behind it: the parts stay, and the flag is set. -/
theorem ofValue_valueOf_marked {v w : List Char} (hv : IsValue (bareTokens v))
    (hlast : ∀ t ∈ (bareTokens v).getLast?, t.isOpen = false) (hw : lower w = importantWord) :
    IsValue (bareTokens (v ++ ' ' :: '!' :: w)) ∧
      (bareTokens (v ++ ' ' :: '!' :: w)).getLast? = some (wordToken w) ∧
      Part.ofValue (valueOf (v ++ ' ' :: '!' :: w)) = ((Part.ofValue (valueOf v)).1, true) := by
  have hmark : ∀ t ∈ [bangToken, wordToken w], t.kind.isInner = true := by
    simp [bangToken, wordToken, Kind.isInner]
  rcases bareTokens_space_bang hlast w with hs | ⟨ts, t, hts, hwide, hs⟩
  · -- The space is a token of its own.
    rw [bareTokens_bang hw] at hs
    let space : Token := ⟨.whitespace, [' '], .start⟩
    have hspace : ∀ u ∈ [space], u.kind.isInner = true := by simp [space, Kind.isInner]
    have hsplit : bareTokens (v ++ ' ' :: '!' :: w) =
        bareTokens v ++ [space] ++ [bangToken, wordToken w] := by
      rw [hs, append_assoc]
      rfl
    refine ⟨hsplit ▸ (hv.append hspace).append hmark, by simp [hsplit], ?_⟩
    rw [valueOf, hsplit, ofValue_bang hw hv hspace, hv.components_placed hspace, Part.ofValue_append]
    · simp [space, placed, Part.ofValue, Component.isTrivia, Kind.isTrivia, Part.dropMarks, valueOf]
    · simp [space, placed, Component.isTrivia, Kind.isTrivia]
  · -- The space belongs to the last token, which is no bracket.
    rw [bareTokens_bang hw] at hs
    have hinner : ∀ x : List Char, ∀ u ∈ [{ t with text := x }], u.kind.isInner = true := by
      simp [hwide.isInner]
    have hfront : IsValue ts := IsValue.of_concat hwide.isInner (hts ▸ hv)
    have hsplit : bareTokens (v ++ ' ' :: '!' :: w) =
        ts ++ [{ t with text := t.text ++ [' '] }] ++ [bangToken, wordToken w] := by
      rw [hs, append_assoc]
      rfl
    refine ⟨hsplit ▸ (hfront.append (hinner _)).append hmark, by simp [hsplit], ?_⟩
    have hpart := hwide.part (behind ⟨1, 5⟩ ts)
    have hrel : Forall₂ (fun c c' => Part.Akin c c' ∧ Part.ofComponent c = Part.ofComponent c')
        (components (placed ⟨1, 5⟩ (ts ++ [t])))
        (components (placed ⟨1, 5⟩ (ts ++ [{ t with text := t.text ++ [' '] }]))) := by
      rw [hfront.components_placed (hinner t.text), hfront.components_placed (hinner _)]
      refine rel_append ?_ (.cons hpart .nil)
      exact forall₂_same.mpr fun c _ => ⟨⟨rfl, rfl, rfl, rfl⟩, rfl⟩
    have hparts := (Part.ofValue_rel (S := Eq) (fun _ _ h => h.1) (fun _ _ h => h.2) hrel).1
    rw [forall₂_eq_eq_eq] at hparts
    rw [valueOf, hsplit, ofValue_bang hw hfront (hinner _), valueOf, hts, hparts]

/-- Marking a declaration. If a value leaves nothing open, ends neither its block nor the statement, and
the declaration that it makes is not important, then with a space and a mark of importance in any ASCII
case behind the value it is the same declaration, with its name, text, parts and positions, but
important. -/
theorem important_of_mark_behind {v m : List Char} (hv : SelfContained v)
    (hsemi : ∀ c ∈ components (bareTokens v), c.isLeaf .semicolon = false)
    (hm : lower m = '!' :: importantWord) : ∃ d,
      (Stylesheet.ofText (ruleText ("x:".toList ++ v))).declarations = [d] ∧
      (d.important = false →
        (Stylesheet.ofText (ruleText ("x:".toList ++ (v ++ ' ' :: m)))).declarations =
          [{ d with important := true }]) := by
  obtain ⟨w, rfl, hw⟩ := exists_of_lower_eq hm
  have hvalue : IsValue (bareTokens v) :=
    fun c hc => ⟨(hv.contained c hc).1, (hv.contained c hc).2, hsemi c hc⟩
  obtain ⟨hmarked, hlast, hparts⟩ := ofValue_valueOf_marked hvalue hv.settled hw
  refine ⟨_, declarations_ruleText hvalue hv.settled, fun hplain => ?_⟩
  have hwritten : ¬ WritesMark v := by
    rw [← textOf_valueOf v]
    intro h
    rw [(Declaration.important_iff _ _).mpr (.inr h)] at hplain
    contradiction
  have htext : splitMark (v ++ ' ' :: '!' :: w) = (trim v, true) := by
    have hsplit := splitMark_append (r := []) hw not_writesMark_nil (v ++ [' '])
    rwa [append_nil, append_assoc, singleton_append, trim_append_space] at hsplit
  rw [declarations_ruleText hmarked]
  · simp only [Declaration.ofValue, hparts, textOf_valueOf, htext, splitMark_of_not_writesMark hwritten,
      Bool.true_or]
  · rw [hlast]
    rintro t ⟨⟩
    exact isOpen_wordToken hw

/-- The last name of the value ends with an escape that takes the space in, and an exclamation mark
stands in the value. -/
theorem important_of_mark_behind_escape :
    let v := "1px !i(;) \\31".toList
    let m := "!ImPortant".toList
    SelfContained v ∧ (∀ c ∈ components (bareTokens v), c.isLeaf .semicolon = false) ∧
    lower m = '!' :: importantWord ∧
    ∃ d, (Stylesheet.ofText (ruleText ("x:".toList ++ v))).declarations = [d] ∧ d.important = false ∧
      (Stylesheet.ofText (ruleText ("x:".toList ++ (v ++ ' ' :: m)))).declarations =
        [{ d with important := true }] := by
  intro v m
  have hv : SelfContained v := by decide +kernel
  have hsemi : ∀ c ∈ components (bareTokens v), c.isLeaf .semicolon = false := by decide +kernel
  have hm : lower m = '!' :: importantWord := by decide +kernel
  have hflag : (Stylesheet.ofText (ruleText ("x:".toList ++ v))).declarations.map
      Declaration.important = [false] := by
    decide +kernel
  obtain ⟨d, hd, hmarked⟩ := important_of_mark_behind hv hsemi hm
  rw [hd, map_singleton, singleton_inj] at hflag
  exact ⟨hv, hsemi, hm, d, hd, hflag, hmarked hflag⟩

end FontSizeLint.Css
