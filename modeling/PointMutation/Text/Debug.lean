import PointMutation.Text.Basic

/-!
# Text between quotation marks

A text as it is shown in complaints: between quotation marks, with escapes for what cannot be seen.
-/

namespace PointMutation.Text

/-- A character as it is shown between quotation marks. -/
def debugChar (c : Char) : Text :=
  match c with
  | '\x00' => ['\\', '0']
  | '\t' => ['\\', 't']
  | '\n' => ['\\', 'n']
  | '\r' => ['\\', 'r']
  | '"' => ['\\', '"']
  | '\\' => ['\\', '\\']
  | c =>
    if c.toNat < 0x20 || (0x7f ≤ c.toNat && c.toNat < 0xa0) then
      '\\' :: 'u' :: '\x7b' :: Nat.toDigits 16 c.toNat ++ ['\x7d']
    else [c]

/-- A text as it is shown between quotation marks. -/
def debug (t : Text) : Text := '"' :: t.flatMap debugChar ++ ['"']

end PointMutation.Text
