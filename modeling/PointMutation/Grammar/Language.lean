import PointMutation.Grammar.Form

/-!
# The grammar of the language

All rules, in the order in which their tokens and phrases are counted. The order matters where
repairs of a faulty text cost the same: the one with the earlier token is preferred.
-/

namespace PointMutation.Grammar

open Kind Phrase Terminal

/-! ## How tightly constructs bind -/

def lambdaRank : Int := -2
def conditionalRank : Int := -1
def typedParameterRank : Int := -1
def orRank : Int := 10
def andRank : Int := 11
def notRank : Int := 12
def comparisonRank : Int := 13
def unaryRank : Int := 20
def trailerRank : Int := 22

/-- The operators between operands that group to the left. -/
def leftwardOperators : List (String × Int) :=
  [("+", 18), ("-", 18), ("*", 19), ("@", 19), ("/", 19), ("%", 19), ("//", 19)]

/-- The operators between operands that were not among the first. -/
def furtherOperators : List (String × Int) :=
  [("|", 14), ("&", 15), ("^", 16), ("<<", 17), (">>", 17)]

def powerRank : Int := 21

/-! ## Forms that occur in several rules -/

/-- Items in brackets, possibly none, with commas between them and possibly one at the end. -/
def enclosed (open' close : String) (item : Form) : Form :=
  all [open', optional (all [commas item, optional ","]), close]

/-- The names that can be bound by a star. -/
def bindable : Form := any [identifier, keywordName, subscript, Kind.attribute]

def importedNames : Form := any [importList, all ["(", importList, ")"]]

def operation (binds : Form → Form) (operator : String) : Form :=
  binds (all [.role "left" primaryExpression, .role "operator" operator,
    .role "right" primaryExpression])

def number : Form := any [integer, float]

/-! ## Statements -/

def simpleRules : List Rule := [
  .phrase file (many statement),
  .phrase statement (any [simpleStatements, compoundStatement]),
  .phrase simpleStatements (all [separated ";" simpleStatement, optional ";", newline]),
  .phrase simpleStatement (any [futureImportStatement, importStatement, importFromStatement,
    printStatement, assertStatement, expressionStatement, returnStatement, deleteStatement,
    raiseStatement, passStatement, breakStatement, continueStatement, globalStatement,
    nonlocalStatement, execStatement, typeAliasStatement]),
  .phrase importStatement (all ["import", importList]),
  .phrase importPrefix (.some "."),
  .phrase relativeImport (all [importPrefix, optional dottedName]),
  .phrase futureImportStatement (all ["from", "__future__", "import", importedNames]),
  .phrase importFromStatement (all ["from", .role "module_name" (any [relativeImport, dottedName]),
    "import", .either wildcardImport importedNames]),
  .phrase importList (all [commas (.role "name" (any [dottedName, aliasedImport])), optional ","]),
  .phrase aliasedImport (all [.role "name" dottedName, "as", .role "alias" identifier]),
  .phrase wildcardImport "*",
  .phrase printStatement (any [
    rank 1 (all ["print", chevron, many (all [",", .role "argument" expression]), optional ","]),
    rank (-3) (.weighted (-1)
      (all ["print", commas (.role "argument" expression), optional ","]))]),
  .phrase chevron (all [">>", expression]),
  .phrase assertStatement (all ["assert", commas expression]),
  .phrase expressionStatement (any [expression, all [commas expression, optional ","], assignment,
    augmentedAssignment, Kind.yield]),
  .phrase namedExpression (all [.role "name" boundName, ":=", .role "value" expression]),
  .phrase boundName (any [identifier, keywordName]),
  .phrase returnStatement (all ["return", optional expressions]),
  .phrase deleteStatement (all ["del", expressions]),
  .phrase expressions (any [expression, expressionList]),
  .phrase raiseStatement (all ["raise", optional expressions,
    optional (all ["from", .role "cause" expression])]),
  .phrase passStatement (leftward 0 "pass"),
  .phrase breakStatement (leftward 0 "break"),
  .phrase continueStatement (leftward 0 "continue")]

def compoundRules : List Rule := [
  .phrase compoundStatement (any [ifStatement, forStatement, whileStatement, tryStatement,
    withStatement, functionDefinition, classDefinition, decoratedDefinition, matchStatement]),
  .phrase ifStatement (all ["if", .role "condition" expression, ":", .role "consequence" suite,
    many (.role "alternative" elifClause), optional (.role "alternative" elseClause)]),
  .phrase elifClause (all ["elif", .role "condition" expression, ":", .role "consequence" suite]),
  .phrase elseClause (all ["else", ":", .role "body" suite]),
  .phrase matchStatement (all ["match", commas (.role "subject" expression), optional ",", ":",
    .role "body" (.shown (.kind block) matchBlock)]),
  .phrase matchBlock (any [all [indent, many (.role "alternative" caseClause), dedent], newline]),
  .phrase caseClause (all ["case", commas casePattern, optional ",",
    optional (.role "guard" ifClause), ":", .role "consequence" suite]),
  .phrase forStatement (all [optional "async", "for", .role "left" leftSide, "in",
    .role "right" expressions, ":", .role "body" suite,
    .role "alternative" (optional elseClause)]),
  .phrase whileStatement (all ["while", .role "condition" expression, ":", .role "body" suite,
    optional (.role "alternative" elseClause)]),
  .phrase tryStatement (all ["try", ":", .role "body" suite, many exceptClause,
    optional elseClause, optional finallyClause]),
  .phrase exceptClause (all ["except", optional exceptStar,
    optional (any [
      all [.role "value" expression, optional (all ["as", .role "alias" expression])],
      commas (.role "value" expression)]),
    ":", suite]),
  .phrase finallyClause (all ["finally", ":", suite]),
  .phrase withStatement (all [optional "async", "with", withClause, ":", .role "body" suite]),
  .phrase withClause (any [all [commas withItem, optional ","],
    all ["(", commas withItem, optional ",", ")"]]),
  .phrase withItem (.weighted 1 (.role "value" expression)),
  .phrase functionDefinition (all [optional "async", "def", .role "name" identifier,
    .role "type_parameters" (optional typeParameter), .role "parameters" parameters,
    optional (all ["->", .role "return_type" typeHint]), ":", .role "body" suite]),
  .phrase parameters (all ["(", optional parameterList, ")"]),
  .phrase lambdaParameters parameterList,
  .phrase listSplat (all ["*", expression]),
  .phrase dictionarySplat (all ["**", expression]),
  .phrase globalStatement (all ["global", commas identifier]),
  .phrase nonlocalStatement (all ["nonlocal", commas identifier]),
  .phrase execStatement (all ["exec", .role "code" (any [Kind.string, identifier]),
    optional (all ["in", commas expression])]),
  .phrase typeAliasStatement (.weighted 1
    (all ["type", .role "left" typeHint, "=", .role "right" typeHint])),
  .phrase classDefinition (all ["class", .role "name" identifier,
    .role "type_parameters" (optional typeParameter),
    .role "superclasses" (optional argumentList), ":", .role "body" suite]),
  .phrase typeParameter (all ["[", commas typeHint, optional ",", "]"]),
  .phrase parenthesizedListSplat (rank 1 (all ["(",
    any [.shown (.kind parenthesizedExpression) parenthesizedListSplat, listSplat], ")"])),
  .phrase argumentList (all ["(",
    optional (commas (any [expression, listSplat, dictionarySplat,
      .shown (.kind parenthesizedExpression) parenthesizedListSplat, keywordArgument])),
    optional ",", ")"]),
  .phrase decoratedDefinition (all [.some decorator,
    .role "definition" (any [classDefinition, functionDefinition])]),
  .phrase decorator (all ["@", expression, newline]),
  .phrase suite (any [.shown (.kind block) simpleStatements, all [indent, block],
    .shown (.kind block) newline]),
  .phrase block (all [many statement, dedent]),
  .phrase expressionList (rightward 0 (all [expression,
    any [",", all [.some (all [",", expression]), optional ","]]])),
  .phrase dottedName (rank 1 (separated "." identifier))]

/-! ## Patterns and parameters -/

def patternRules : List Rule := [
  .phrase casePattern (rank 1 (any [.shown (.kind asPattern) patternAs, keywordPattern,
    simplePattern])),
  .phrase simplePattern (rank 1 (any [classPattern, splatPattern, unionPattern,
    .shown (.kind listPattern) patternItems, .shown (.kind tuplePattern) patternTuple,
    dictPattern, Kind.string, concatenatedString, trueLiteral, falseLiteral, noneLiteral,
    all [optional "-", number], complexPattern, dottedName, "_"])),
  .phrase patternAs (all [casePattern, "as", identifier]),
  .phrase unionPattern (rightward 0
    (all [simplePattern, .some (leftward 0 (all ["|", simplePattern]))])),
  .phrase patternItems (enclosed "[" "]" casePattern),
  .phrase patternTuple (enclosed "(" ")" casePattern),
  .phrase dictPattern (enclosed "\x7b" "\x7d" (any [patternEntry, splatPattern])),
  .phrase patternEntry (all [.role "key" simplePattern, ":", .role "value" casePattern]),
  .phrase keywordPattern (all [identifier, "=", simplePattern]),
  .phrase splatPattern (rank 1 (all [any ["*", "**"], any [identifier, "_"]])),
  .phrase classPattern (.seq dottedName (enclosed "(" ")" casePattern)),
  .phrase complexPattern (rank 1 (all [optional "-", number, any ["+", "-"], number])),
  .phrase parameterList (all [commas parameter, optional ","]),
  .phrase targets (all [commas pattern, optional ","]),
  .phrase parameter (any [identifier, typedParameter, defaultParameter, typedDefaultParameter,
    listSplatPattern, tuplePattern, keywordSeparator, positionalSeparator,
    dictionarySplatPattern]),
  .phrase pattern (any [identifier, keywordName, subscript, Kind.attribute, listSplatPattern,
    tuplePattern, listPattern]),
  .phrase tuplePattern (all ["(", optional targets, ")"]),
  .phrase listPattern (all ["[", optional targets, "]"]),
  .phrase defaultParameter (all [.role "name" (any [identifier, tuplePattern]), "=",
    .role "value" expression]),
  .phrase typedDefaultParameter (rank typedParameterRank (all [.role "name" identifier, ":",
    .role "type" typeHint, "=", .role "value" expression])),
  .phrase listSplatPattern (all ["*", bindable]),
  .phrase dictionarySplatPattern (all ["**", bindable]),
  .phrase asPattern (leftward 0 (all [expression, "as",
    .role "alias" (.shown (.kind asPatternTarget) expression)]))]

/-! ## Expressions -/

def expressionRules : List Rule := [
  .phrase iterable (any [expression, .shown (.kind lambda) iterableLambda]),
  .phrase expression (any [comparisonOperator, notOperator, booleanOperator, lambda,
    primaryExpression, conditionalExpression, namedExpression, asPattern]),
  .phrase primaryExpression (any [await, binaryOperator, identifier, keywordName, Kind.string,
    concatenatedString, integer, float, trueLiteral, falseLiteral, noneLiteral, unaryOperator,
    Kind.attribute, subscript, call, list, listComprehension, dictionary, dictionaryComprehension,
    Kind.set, setComprehension, tuple, parenthesizedExpression, generatorExpression, ellipsis,
    .shown (.kind listSplat) listSplatPattern]),
  .phrase notOperator (rank notRank (all ["not", .role "argument" expression])),
  .phrase booleanOperator (any [
    leftward andRank (all [.role "left" expression, .role "operator" "and",
      .role "right" expression]),
    leftward orRank (all [.role "left" expression, .role "operator" "or",
      .role "right" expression])]),
  .phrase binaryOperator (any (
    leftwardOperators.map (fun (o, n) => operation (leftward n) o) ++
    [operation (rightward powerRank) "**"] ++
    furtherOperators.map (fun (o, n) => operation (leftward n) o))),
  .phrase unaryOperator (rank unaryRank (all [.role "operator" (any ["+", "-", "~"]),
    .role "argument" primaryExpression])),
  .phrase notIn (all ["not", "in"]),
  .phrase isNot (all ["is", "not"]),
  .phrase comparisonOperator (leftward comparisonRank (all [primaryExpression,
    .some (all [
      .role "operators" (any ["<", "<=", "==", "!=", ">=", ">", "<>", "in",
        .shown (.name "not in") notIn, "is", .shown (.name "is not") isNot]),
      primaryExpression])])),
  .phrase lambda (rank lambdaRank (all ["lambda",
    .role "parameters" (optional lambdaParameters), ":", .role "body" expression])),
  .phrase iterableLambda (all ["lambda",
    .role "parameters" (optional lambdaParameters), ":", .role "body" iterable]),
  .phrase assignment (all [.role "left" leftSide, any [
    all ["=", .role "right" rightSide],
    all [":", .role "type" typeHint],
    all [":", .role "type" typeHint, "=", .role "right" rightSide]]]),
  .phrase augmentedAssignment (all [.role "left" leftSide,
    .role "operator" (any ["+=", "-=", "*=", "/=", "@=", "//=", "%=", "**=", ">>=", "<<=", "&=",
      "^=", "|="]),
    .role "right" rightSide]),
  .phrase leftSide (any [pattern, patternList]),
  .phrase patternList (all [pattern,
    any [",", all [.some (all [",", pattern]), optional ","]]]),
  .phrase rightSide (any [expression, expressionList, assignment, augmentedAssignment,
    patternList, Kind.yield]),
  .phrase Kind.yield (rightward 0 (all ["yield",
    any [all ["from", expression], optional expressions]])),
  .phrase Kind.attribute (rank trailerRank (all [.role "object" primaryExpression, ".",
    .role "attribute" identifier])),
  .phrase subscript (rank trailerRank (all [.role "value" primaryExpression, "[",
    commas (.role "subscript" (any [expression, slice])), optional ",", "]"])),
  .phrase slice (all [optional expression, ":", optional expression,
    optional (all [":", optional expression])]),
  .token (.leaf ellipsis),
  .phrase call (rank trailerRank (all [.role "function" primaryExpression,
    .role "arguments" (any [generatorExpression, argumentList])]))]

/-! ## Annotations -/

def annotationRules : List Rule := [
  .phrase typedParameter (rank typedParameterRank (all [
    any [identifier, listSplatPattern, dictionarySplatPattern], ":", .role "type" typeHint])),
  .phrase typeHint (any [rank 1 expression, splatType, genericType, unionType, constrainedType,
    memberType]),
  .phrase splatType (rank 1 (all [any ["*", "**"], identifier])),
  .phrase genericType (rank 1 (all [any [identifier, .shown (.kind identifier) "type"],
    typeParameter])),
  .phrase unionType (leftward 0 (all [typeHint, "|", typeHint])),
  .phrase constrainedType (rightward 0 (all [typeHint, ":", typeHint])),
  .phrase memberType (all [typeHint, ".", identifier]),
  .phrase keywordArgument (all [.role "name" (any [identifier, keywordName]), "=",
    .role "value" expression])]

/-! ## Displays -/

def displayRules : List Rule := [
  .phrase list (all ["[", optional elements, "]"]),
  .phrase Kind.set (all ["\x7b", elements, "\x7d"]),
  .phrase tuple (all ["(", optional elements, ")"]),
  .phrase dictionary (all ["\x7b", optional (commas (any [pair, dictionarySplat])),
    optional ",", "\x7d"]),
  .phrase pair (all [.role "key" expression, ":", .role "value" expression]),
  .phrase listComprehension (all ["[", .role "body" expression, comprehensionClauses, "]"]),
  .phrase dictionaryComprehension (all ["\x7b", .role "body" pair, comprehensionClauses,
    "\x7d"]),
  .phrase setComprehension (all ["\x7b", .role "body" expression, comprehensionClauses,
    "\x7d"]),
  .phrase generatorExpression (all ["(", .role "body" expression, comprehensionClauses, ")"]),
  .phrase comprehensionClauses (all [forInClause, many (any [forInClause, ifClause])]),
  .phrase parenthesizedExpression (rank 1 (all ["(", any [expression, Kind.yield], ")"])),
  .phrase elements (all [
    commas (any [expression, Kind.yield, listSplat, parenthesizedListSplat]), optional ","]),
  .phrase forInClause (leftward 0 (all [optional "async", "for", .role "left" leftSide, "in",
    .role "right" (commas iterable), optional ","])),
  .phrase ifClause (all ["if", expression]),
  .phrase conditionalExpression (rightward conditionalRank (all [expression, "if", expression,
    "else", expression]))]

/-! ## Quotations and names -/

def quotationRules : List Rule := [
  .phrase concatenatedString (all [Kind.string, .some Kind.string]),
  .phrase Kind.string (all [opening, many (any [interpolation, stringContent]), closing]),
  .phrase stringContent (rightward 0
    (.some (any [doubledBrace, escape, backslash, content]))),
  .phrase interpolation (all ["\x7b", .role "expression" interpolated, optional "=",
    optional (.role "type_conversion" conversion),
    optional (.role "format_specifier" formatSpecifier), "\x7d"]),
  .phrase interpolated (any [expression, expressionList, patternList, Kind.yield]),
  .token escape,
  .token backslash,
  .phrase formatSpecifier (all [":",
    many (any [formatText, .shown (.name "format_expression") interpolation])]),
  .token conversion,
  .token (.leaf integer),
  .token (.leaf float),
  .token (.leaf identifier),
  .phrase keywordName (any [
    rank (-3) (.shown (.kind identifier) (any ["print", "exec", "async", "await"])),
    .shown (.kind identifier) (any ["type", "match"])]),
  .token (.leaf trueLiteral),
  .token (.leaf falseLiteral),
  .token (.leaf noneLiteral),
  .phrase await (rank unaryRank (all ["await", primaryExpression])),
  .token (.leaf comment),
  .token (.leaf lineContinuation),
  .phrase positionalSeparator "/",
  .phrase keywordSeparator "*"]

/-- All rules of the language. -/
def language : List Rule :=
  simpleRules ++ compoundRules ++ patternRules ++ expressionRules ++ annotationRules ++
    displayRules ++ quotationRules

end PointMutation.Grammar
