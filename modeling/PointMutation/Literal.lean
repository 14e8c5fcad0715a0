import PointMutation.Fold

/-!
# Literals

An expression may be a literal: a number, or a single quotation. Several quotations in a row are
none, and the words for truth values and for nothing are none either.
-/

namespace PointMutation

/-- What kind of literal an expression is. -/
inductive LiteralKind
  | integer | float | imaginary | string | bytes | formattedString
  deriving DecidableEq, Repr

namespace LiteralKind

def all : List LiteralKind := [integer, float, imaginary, string, bytes, formattedString]

/-- The name of a kind in configurations. -/
def name : LiteralKind → String
  | integer => "integer"
  | float => "float"
  | imaginary => "imaginary"
  | string => "string"
  | bytes => "bytes"
  | formattedString => "fstring"

/-- The name of a kind in complaints about it. -/
def title : LiteralKind → String
  | integer => "Integer"
  | float => "Float"
  | imaginary => "Imaginary"
  | string => "String"
  | bytes => "Bytes"
  | formattedString => "FormattedString"

/-- The kind of a number, which depends on its last letter. -/
def ofNumber (text : Text) (kind : LiteralKind) : LiteralKind :=
  if Text.endsIn text 'j' || Text.endsIn text 'J' then imaginary else kind

/-- The kind of a quotation, which depends on the letters in front of its mark. -/
def ofQuotation (text : Text) : LiteralKind :=
  let letters := text.takeWhile fun c => c != '"' && c != '\''
  if letters.any fun c => ['f', 'F', 't', 'T'].contains c then formattedString
  else if letters.any fun c => ['b', 'B'].contains c then bytes
  else string

end LiteralKind

namespace Expression

/-- The literal that an expression is. -/
def literal? (e : Expression) : Option LiteralKind :=
  match e.kind with
  | .integer => some (.ofNumber e.text .integer)
  | .float => some (.ofNumber e.text .float)
  | .string => some (.ofQuotation e.text)
  | _ => none

/-- The call of a function without parameters that gives the expression. -/
def identityLambda (e : Expression) : Text :=
  "(lambda: ".toList ++ e.text ++ ")()".toList

end Expression

end PointMutation
