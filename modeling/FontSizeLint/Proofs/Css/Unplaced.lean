import FontSizeLint.Proofs.Css.Likeness

/-! What a style sheet says without where it says it. Positions are handed on and never looked at: from
tokens all at one place the same rules are read, with all positions at that place. -/
namespace FontSizeLint.Css
open Text List

/-- The same texts, as if each began where the text begins. -/
def Likeness.atStart : Likeness where
  text := Eq
  header := Eq
  place _ p := p = .start
  nil := rfl
  append := by rintro _ _ _ _ rfl rfl; rfl
  trim := by rintro _ _ rfl; rfl
  splitMark := by rintro _ _ rfl; rfl
  isMarked := by rintro _ _ rfl; rfl
  leading? := by rintro _ _ rfl; rfl
  header_of_text := id
  header_atRule _ := congrArg _

def Part.unplaced (p : Part) : Part := { p with position := .start }

def Declaration.unplaced (d : Declaration) : Declaration :=
  { d with parts := d.parts.map Part.unplaced, position := .start }

def StyleRule.unplaced (r : StyleRule) : StyleRule :=
  { r with declarations := r.declarations.map Declaration.unplaced }

lemma Part.Alike.unplaced_eq {p p' : Part} (h : p.Alike .atStart p') : p.unplaced = p' := by
  have ht : p.text = p'.text := String.toList_injective h.text
  have hp : p'.position = .start := h.position
  rw [Part.unplaced, ← h.value, ht, ← hp]

lemma Declaration.Alike.unplaced_eq {d d' : Declaration} (h : d.Alike .atStart d') :
    d.unplaced = d' := by
  have ht : d.text = d'.text := String.toList_injective h.text
  have hp : d'.position = .start := h.position
  have hparts : d.parts.map Part.unplaced = d'.parts :=
    map_eq_of_forall₂ h.parts fun _ _ => Part.Alike.unplaced_eq
  rw [Declaration.unplaced, ← h.name, ← h.important, ht, hparts, ← hp]

lemma StyleRule.Alike.unplaced_eq {r r' : StyleRule} (h : r.Alike .atStart r') :
    r.unplaced = r' := by
  have ht : r.prelude = r'.prelude := String.toList_injective h.prelude
  have hd : r.declarations.map Declaration.unplaced = r'.declarations :=
    map_eq_of_forall₂ h.declarations fun _ _ => Declaration.Alike.unplaced_eq
  rw [StyleRule.unplaced, ht, hd]

/-- The tokens of a text, each as if the text began with it. -/
def bareTokens (s : List Char) : List Token :=
  (pieces Lexer.first 0 s).map fun p => ⟨p.1, p.2, .start⟩

lemma Lexer.place_alike (p : Position) (ps : List (Kind × List Char)) :
    Forall₂ (Token.Alike .atStart) (place p ps) (ps.map fun p => ⟨p.1, p.2, .start⟩) := by
  induction ps generalizing p with
  | nil => exact .nil
  | cons q ps ih => exact .cons ⟨rfl, rfl, rfl, rfl, rfl, rfl⟩ (ih _)

/-- The rules of a style sheet less their positions are read from tokens without positions. -/
theorem rules_unplaced (s : List Char) :
    (Stylesheet.ofText s).rules.map StyleRule.unplaced =
      rulesFrom .fresh (components (bareTokens s)) := by
  have halike : Forall₂ (StyleRule.Alike .atStart) (Stylesheet.ofText s).rules
      (rulesFrom .fresh (components (bareTokens s))) := rules_alike (Lexer.place_alike .start _)
  exact map_eq_of_forall₂ halike fun _ _ => StyleRule.Alike.unplaced_eq

end FontSizeLint.Css
