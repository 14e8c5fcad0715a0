import PointMutation.Syntax.Kind

/-!
# The notation of the grammar

A grammar is a list of rules. A rule says of a phrase which forms it has, and a form is put
together from tokens and phrases by sequence, choice and repetition. Where two readings of a text
compete, forms can be ranked, lean to a side or carry a weight. A part of a form can have a role in
its phrase, and can be shown as something else than it is.
-/

namespace PointMutation.Grammar

/-- The tokens of the language. -/
inductive Terminal
  /-- A word or a mark, written out. -/
  | written (text : String)
  /-- The star behind `except`, which goes before any other reading of a star. -/
  | exceptStar
  /-- A token that is a node of the tree. -/
  | leaf (kind : Kind)
  /-- Parts of a quotation. -/
  | opening | content | doubledBrace | closing | escape | backslash | conversion | formatText
  /-- Layout. -/
  | newline | indent | dedent
  /-- The end of the text. -/
  | stop
  deriving DecidableEq, Repr

/-- The phrases of the language: a kind of node, or one that only the grammar knows. -/
inductive Phrase
  | node (kind : Kind)
  -- A part of a quotation
  | stringContent | interpolation | formatSpecifier
  -- One of several kinds of node
  | expression | primaryExpression | pattern | parameter
  -- A node that is always shown as one of another kind
  | iterableLambda | keywordName
  -- No node at all
  | statement | simpleStatements | simpleStatement | compoundStatement | importList | boundName
  | expressions | matchBlock | suite | simplePattern | patternAs | patternItems | patternTuple
  | patternEntry | parameterList | targets | iterable | notIn | isNot | leftSide | rightSide
  | comprehensionClauses | elements | interpolated
  /-- One or more of a form, the forms counted through the grammar. -/
  | repetition (n : Nat)
  deriving DecidableEq, Repr

/-- What becomes of a phrase in the tree. -/
inductive Standing
  | node | family | hidden | repetition
  deriving DecidableEq, Repr

/-- What becomes of a phrase in the tree. -/
def Phrase.standing : Phrase → Standing
  | .node _ | .stringContent | .interpolation | .formatSpecifier | .iterableLambda
  | .keywordName => .node
  | .expression | .primaryExpression | .pattern | .parameter => .family
  | .repetition _ => .repetition
  | _ => .hidden

/-- Phrases that are replaced by their forms wherever they occur. -/
def Phrase.isAbbreviation : Phrase → Bool
  | .simpleStatement | .compoundStatement | .suite | .expressions | .leftSide | .keywordName => true
  | _ => false

/-- What a part of a phrase is shown as. -/
inductive Guise
  | kind (k : Kind)
  | name (s : String)
  deriving DecidableEq, Repr

/-- The name under which a part is shown. -/
def Guise.text : Guise → String
  | .kind k => k.name
  | .name s => s

/-- The side to which a form leans when it could take in itself on both. -/
inductive Side
  | left | right
  deriving DecidableEq, Repr

/-- The forms of phrases. -/
inductive Form
  | blank
  | token (t : Terminal)
  | phrase (p : Phrase)
  | seq (a b : Form)
  | either (a b : Form)
  | some (a : Form)
  | ranked (rank : Int) (side : Option Side) (a : Form)
  | weighted (weight : Int) (a : Form)
  | shown (guise : Guise) (a : Form)
  | role (name : String) (a : Form)
  deriving DecidableEq, Repr

/-- A rule of the grammar. -/
inductive Rule
  /-- A phrase has a form. -/
  | phrase (p : Phrase) (form : Form)
  /-- A token is known by what it is made of. -/
  | token (t : Terminal)

/-! ## Writing forms -/

/-- Whether nodes of a kind are single tokens. -/
def isLeaf : Kind → Bool
  | .identifier | .integer | .float | .trueLiteral | .falseLiteral | .noneLiteral | .ellipsis
  | .comment | .lineContinuation => true
  | _ => false

instance : Coe String Form := ⟨fun s => .token (.written s)⟩
instance : Coe Terminal Form := ⟨.token⟩
instance : Coe Phrase Form := ⟨.phrase⟩
instance : Coe Kind Form := ⟨fun k => if isLeaf k then .token (.leaf k) else .phrase (.node k)⟩
instance : Coe Kind Phrase := ⟨.node⟩

/-- Forms one behind the other. -/
def all : List Form → Form
  | [] => .blank
  | [a] => a
  | a :: as => .seq a (all as)

/-- One of several forms. -/
def any : List Form → Form
  | [] => .blank
  | [a] => a
  | a :: as => .either a (any as)

def optional (a : Form) : Form := .either a .blank

def many (a : Form) : Form := .either (.some a) .blank

/-- One or more of a form with a mark between each two. -/
def separated (mark : String) (a : Form) : Form := .seq a (many (.seq mark a))

/-- One or more of a form with commas between them. -/
def commas (a : Form) : Form := separated "," a

def rank (n : Int) (a : Form) : Form := .ranked n none a

def leftward (n : Int) (a : Form) : Form := .ranked n (some .left) a

def rightward (n : Int) (a : Form) : Form := .ranked n (some .right) a

end PointMutation.Grammar
