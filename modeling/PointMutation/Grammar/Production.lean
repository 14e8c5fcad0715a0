import PointMutation.Grammar.Form

/-!
# Productions

The rules of a grammar with every choice, repetition and abbreviation written out. What is left is,
for each phrase, a list of productions: sequences of tokens and phrases, each with its rank, its
side, its role and what it is shown as.
-/

namespace PointMutation.Grammar

/-- A token or a phrase by its number. -/
inductive Symbol
  | terminal (t : Nat)
  | phrase (p : Nat)
  deriving DecidableEq, Repr, Hashable

deriving instance Hashable for Kind
deriving instance Hashable for Terminal
deriving instance Hashable for Guise
deriving instance Hashable for Side

/-- A part of a production. -/
structure Step where
  symbol : Symbol
  rank : Option Int := none
  side : Option Side := none
  guise : Option Guise := none
  role : Option String := none
  deriving DecidableEq, Repr, Hashable

/-- One way to make a phrase. -/
structure Production where
  phrase : Nat
  steps : List Step
  weight : Int := 0
  deriving DecidableEq, Repr

/-! ## Repetitions -/

/-- Writes one or more of a form as a phrase. The same form has the same phrase everywhere. -/
def Form.withoutRepetition : Form → List Form → Form × List Form
  | .some a, rs =>
    let (a, rs) := a.withoutRepetition rs
    match rs.idxOf? a with
    | Option.some n => (.phrase (.repetition n), rs)
    | none => (.phrase (.repetition rs.length), rs ++ [a])
  | .seq a b, rs =>
    let (a, rs) := a.withoutRepetition rs
    let (b, rs) := b.withoutRepetition rs
    (.seq a b, rs)
  | .either a b, rs =>
    let (a, rs) := a.withoutRepetition rs
    let (b, rs) := b.withoutRepetition rs
    (.either a b, rs)
  | .ranked n s a, rs => let (a, rs) := a.withoutRepetition rs; (.ranked n s a, rs)
  | .weighted n a, rs => let (a, rs) := a.withoutRepetition rs; (.weighted n a, rs)
  | .shown g a, rs => let (a, rs) := a.withoutRepetition rs; (.shown g a, rs)
  | .role r a, rs => let (a, rs) := a.withoutRepetition rs; (.role r a, rs)
  | a, rs => (a, rs)

/-- The forms of all phrases without repetitions, those of the repetitions last. A repetition is
two of the same kind or one of what is repeated. -/
def withoutRepetitions (rules : List Rule) : List (Phrase × Form) :=
  let step (done : List (Phrase × Form) × List Form) (r : Rule) :=
    match r with
    | .phrase p f =>
      let (f, rs) := f.withoutRepetition done.2
      (done.1 ++ [(p, f)], rs)
    | .token _ => done
  let (forms, repeated) := rules.foldl step ([], [])
  forms ++ repeated.zipIdx.map fun (f, n) =>
    let p : Form := .phrase (.repetition n)
    (.repetition n, .either (.seq p p) f)

/-! ## Numbers of tokens and phrases -/

/-- The tokens of a form in order. -/
def Form.terminals : Form → List Terminal
  | .token t => [t]
  | .seq a b | .either a b => a.terminals ++ b.terminals
  | .some a | .ranked _ _ a | .weighted _ a | .shown _ a | .role _ a => a.terminals
  | .blank | .phrase _ => []

/-- The tokens of layout and quotations, which depend on what is open. -/
def contextual : List Terminal :=
  [.newline, .indent, .dedent, .opening, .content, .doubledBrace, .closing]

/-- Tokens that only their own rule lists, since they are known by what they are made of. -/
def Terminal.isPattern : Terminal → Bool
  | .leaf _ | .escape | .backslash | .conversion => true
  | _ => false

/-- All tokens: the ordinary ones in the order of the rules, those that depend on what is open,
and the end of the text. -/
def tokens (rules : List Rule) : Array Terminal :=
  let listed := rules.flatMap fun r =>
    match r with
    | .phrase _ f => f.terminals.filter fun t => !t.isPattern && !contextual.contains t
    | .token t => [t]
  (listed.eraseDups ++ contextual ++ [Terminal.stop]).toArray

/-! ## Choices -/

/-- The weight that counts where two meet. -/
def heavier (a b : Int) : Int := if a.natAbs < b.natAbs then b else a

/-- How the symbols of a form are counted. -/
structure Numbering where
  terminals : Array Terminal
  phrases : Array Phrase

def Numbering.step (n : Numbering) (c : Step) : Form → Option Step
  | .token t => (n.terminals.idxOf? t).map fun i => { c with symbol := .terminal i }
  | .phrase p => (n.phrases.idxOf? p).map fun i => { c with symbol := .phrase i }
  | _ => none

/-- All ways to read a form, each with its weight. What a form says of its parts is collected in
`c`. A rank or a side does not hold behind the last part of the form that it is given to, unless
that is the last part of the whole. -/
def Numbering.readings (n : Numbering) (c : Step) (last : Bool) : Form → List (List Step × Int)
  | .blank => [([], 0)]
  | .seq a b =>
    (n.readings c false a).flatMap fun (s, v) =>
      (n.readings c last b).map fun (t, w) => (s ++ t, heavier v w)
  | .either a b => n.readings c last a ++ n.readings c last b
  | .ranked r side a =>
    (n.readings { c with rank := some r, side := side <|> c.side } last a).map fun (s, w) =>
      (match s.getLast? with
        | some l =>
          if last then s
          else s.dropLast ++
            [{ l with rank := c.rank, side := if side.isSome then c.side else l.side }]
        | none => s, w)
  | .weighted v a => (n.readings c last a).map fun (s, w) => (s, heavier v w)
  | .shown g a => n.readings { c with guise := some g } last a
  | .role r a => n.readings { c with role := some r } last a
  | f => match n.step c f with
    | some s => [([s], 0)]
    | none => []

/-! ## Abbreviations -/

/-- The steps of an abbreviation in the place of a step. What the step says goes before what its
replacement says, ranks and sides aside. -/
def Step.replacement (s : Step) (steps : List Step) : List Step :=
  let steps := steps.map fun t => { t with guise := s.guise <|> t.guise, role := t.role <|> s.role }
  match steps.getLast? with
  | some l => steps.dropLast ++ [{ l with rank := l.rank <|> s.rank, side := l.side <|> s.side }]
  | none => []

/-- All ways to write out the abbreviations in a production. -/
def Numbering.writeOut (n : Numbering) (readings : Array (List (List Step × Int))) :
    List Step → List (List Step × Int)
  | [] => [([], 0)]
  | s :: ss =>
    let rest := n.writeOut readings ss
    let first : List (List Step × Int) := match s.symbol with
      | .phrase p =>
        if (n.phrases[p]?.map Phrase.isAbbreviation).getD false then
          (readings.getD p []).map fun (steps, w) => (s.replacement steps, w)
        else [([s], 0)]
      | .terminal _ => [([s], 0)]
    first.flatMap fun (a, v) => rest.map fun (b, w) => (a ++ b, heavier v w)

/-! ## Grammars -/

/-- A grammar written out: its tokens and phrases by their numbers, and the productions of each
phrase. -/
structure Grammar where
  terminals : Array Terminal
  phrases : Array Phrase
  productions : Array (List Production)

namespace Grammar

/-- Writes out all rules. -/
def ofRules (rules : List Rule) : Grammar :=
  let forms := withoutRepetitions rules
  let n : Numbering := ⟨tokens rules, (forms.map (·.1)).toArray⟩
  let readings :=
    (forms.map fun (_, f) => (n.readings ⟨.phrase 0, none, none, none, none⟩ true f).eraseDups)
  let table := readings.toArray
  let productions := readings.zipIdx.map fun (rs, p) =>
    (rs.flatMap fun (steps, v) =>
      (n.writeOut table steps).map fun (t, w) => Production.mk p t (heavier v w)).eraseDups
  ⟨n.terminals, n.phrases, productions.toArray⟩

/-- The number of the phrase that stands for a whole text and its end. -/
def start (g : Grammar) : Nat := g.phrases.size

def standing (g : Grammar) (p : Nat) : Standing := (g.phrases[p]?.map (·.standing)).getD .hidden

end Grammar

end PointMutation.Grammar
