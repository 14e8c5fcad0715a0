import PointMutation.Grammar.Form
import PointMutation.Syntax.Quoted

/-!
# Layout and quotations in a faulty text

Which token of the layout or of a quotation comes next depends on which tokens may come and on
what is open. After an error all tokens may come; quotations are then not looked into, and the end
of a line has no meaning, but indentations are still followed.
-/

namespace PointMutation.Repair

open PointMutation.Grammar PointMutation.Syntax

/-- What is open at a place: the quotations and the widths of the indentations, the innermost
first, and whether the quotation that was opened or closed last was the opening of a formatted
one. -/
structure Opened where
  formatting : Bool := false
  quotes : List Quote := []
  indents : List Nat := []
  deriving DecidableEq, Repr

/-- A token of the layout or of a quotation from `start` up to `stop`, and what is open behind
it. -/
structure Scanned where
  token : Terminal
  start : Nat
  stop : Nat
  opened : Opened

/-- The token at the front of a text, of those that may come by `may`, where `n` characters of a
quotation that never ends lie in front of it. -/
def scanLayout (may : Terminal → Bool) (o : Opened) (t : Text) (n : Nat) : Option Scanned :=
  let rest := t.drop n
  let bracket := may (.written "]") || may (.written ")") || may (.written "\x7d")
  let comments := may .newline || may .indent || may .dedent || may (.written "except")
  match blanks comments rest .space {} with
  | none => none
  | some b =>
    let skipped (_ : Unit) : Nat := rest.length - b.rest.length
    let here (token : Terminal) (o : Opened) : Option Scanned :=
      some ⟨token, if n = 0 || skipped () = 0 then 0 else n, n, o⟩
    let current := o.indents.headD 0
    if b.broke && may .indent && current < b.width then
      here .indent { o with indents := b.width :: o.indents }
    else if b.broke &&
        (may .dedent ||
          !(may .newline || (may .opening && atQuotationMark b.rest) || bracket)) &&
        b.width < current && !o.formatting && b.comment.all (· < current) then
      here .dedent { o with indents := o.indents.tail }
    else if b.broke && may .newline && !(may .content && may .indent) then here .newline o
    else if b.comment.isNone && may .opening then
      (opening b.rest).map fun (q, length) =>
        let skipped := skipped ()
        ⟨.opening, if skipped = 0 then 0 else n + skipped, n + skipped + length,
          { o with quotes := q :: o.quotes, formatting := q.format }⟩
    else none

/-- The token of the layout or of a quotation at the front of a text, of those that may come by
`may`. -/
def scan (may : Terminal → Bool) (o : Opened) (t : Text) : Option Scanned :=
  match o.quotes with
  | [] => scanLayout may o t 0
  | q :: outer =>
    if may .indent && may .content then scanLayout may o t 0
    else if may .doubledBrace && q.format &&
        (t.head?.any fun c => c == '\x7b' || c == '\x7d') then
      if atDoubledBrace t then some ⟨.doubledBrace, 0, 2, o⟩ else none
    else if may .content then
      match content q t .asIs 0 false with
      | .closing n => some ⟨.closing, 0, n, { o with quotes := outer, formatting := false }⟩
      | .plain n => some ⟨.content, 0, n, o⟩
      | .unfinished n => scanLayout may o t n
      | .other => none
    else scanLayout may o t 0

end PointMutation.Repair
