import PointMutation.Syntax.Compound

/-!
# The grammar

All rules together, each reading what it contains by rules that allow one level of nesting less.
No text nests deeper than four levels for each of its characters, and `readTree` allows for more.
-/

namespace PointMutation.Syntax

/-- The rules for texts that nest at most `n` levels deep. -/
def rules : Nat → Rules
  | 0 => .none
  | n + 1 =>
    { expression := fun f e g => expression (rules n) f e g
      operation := fun l e g => operation (rules n) l e g
      interpolation := fun c => interpolation (rules n) c
      typeHint := fun b e g => typeHint (rules n) b e g
      casePattern := fun e g => casePattern (rules n) e g
      simplePattern := fun e g => simplePattern (rules n) e g
      target := fun b e g => target (rules n) b e g
      rightSide := fun c => rightSide (rules n) c
      statement := fun c => statement (rules n) c }

/-- All statements of a text. -/
def file (r : Rules) : Parser Tree := do
  let c ← get
  let f ← many (fun f => do pure (f ++ (← statement r))) ⟨[], [], c.place, c.place⟩
  let (extras, found) ← look .operand
  let d ← get
  match found, d.rest with
  | .text, [] => pure (.node .file none 0 d.size (f.items ++ extras))
  | _, _ => failure

/-- The tree of a text, if the text is made of statements. -/
def readTree (t : Text) : Option Tree :=
  ((file (rules (4 * t.length + 16))).run (.ofText t)).map (·.1)

end PointMutation.Syntax
