/-!
# Kinds of nodes

What a node of a syntax tree is, and the name under which reports show it.
-/

namespace PointMutation

/-- What a node of a syntax tree is. -/
inductive Kind
  -- The whole text, and what may stand between any two tokens
  | file | comment | lineContinuation
  -- Simple statements
  | futureImportStatement | importStatement | importFromStatement | printStatement
  | assertStatement | expressionStatement | returnStatement | deleteStatement | raiseStatement
  | passStatement | breakStatement | continueStatement | globalStatement | nonlocalStatement
  | execStatement | typeAliasStatement
  -- Compound statements, their clauses and their bodies
  | ifStatement | forStatement | whileStatement | tryStatement | withStatement
  | functionDefinition | classDefinition | decoratedDefinition | matchStatement | elifClause
  | elseClause | exceptClause | finallyClause | caseClause | withClause | withItem | decorator
  | block
  -- Parts of imports and of the older statements
  | importPrefix | relativeImport | aliasedImport | wildcardImport | dottedName | chevron
  -- Assignments and the targets they bind
  | assignment | augmentedAssignment | patternList | tuplePattern | listPattern
  | listSplatPattern | dictionarySplatPattern
  -- Parameters and arguments
  | parameters | lambdaParameters | defaultParameter | typedParameter | typedDefaultParameter
  | keywordSeparator | positionalSeparator | argumentList | keywordArgument
  -- Annotations
  | typeHint | typeParameter | splatType | genericType | unionType | constrainedType
  | memberType
  -- Patterns of a case
  | casePattern | asPattern | keywordPattern | classPattern | splatPattern | unionPattern
  | dictPattern | complexPattern
  -- Expressions
  | identifier | integer | float | string | concatenatedString | trueLiteral | falseLiteral
  | noneLiteral | ellipsis | expressionList | namedExpression | asPatternTarget
  | conditionalExpression | lambda | booleanOperator | notOperator | comparisonOperator
  | binaryOperator | unaryOperator | await | attribute | subscript | slice | call | yield
  -- Displays and comprehensions
  | list | set | tuple | dictionary | pair | listSplat | dictionarySplat
  | parenthesizedExpression | parenthesizedListSplat | listComprehension | setComprehension
  | dictionaryComprehension | generatorExpression | forInClause | ifClause
  deriving DecidableEq, Repr

namespace Kind

/-- The name of a kind in reports. -/
def name : Kind → String
  | .file => "module"
  | .comment => "comment"
  | .lineContinuation => "line_continuation"
  | .futureImportStatement => "future_import_statement"
  | .importStatement => "import_statement"
  | .importFromStatement => "import_from_statement"
  | .printStatement => "print_statement"
  | .assertStatement => "assert_statement"
  | .expressionStatement => "expression_statement"
  | .returnStatement => "return_statement"
  | .deleteStatement => "delete_statement"
  | .raiseStatement => "raise_statement"
  | .passStatement => "pass_statement"
  | .breakStatement => "break_statement"
  | .continueStatement => "continue_statement"
  | .globalStatement => "global_statement"
  | .nonlocalStatement => "nonlocal_statement"
  | .execStatement => "exec_statement"
  | .typeAliasStatement => "type_alias_statement"
  | .ifStatement => "if_statement"
  | .forStatement => "for_statement"
  | .whileStatement => "while_statement"
  | .tryStatement => "try_statement"
  | .withStatement => "with_statement"
  | .functionDefinition => "function_definition"
  | .classDefinition => "class_definition"
  | .decoratedDefinition => "decorated_definition"
  | .matchStatement => "match_statement"
  | .elifClause => "elif_clause"
  | .elseClause => "else_clause"
  | .exceptClause => "except_clause"
  | .finallyClause => "finally_clause"
  | .caseClause => "case_clause"
  | .withClause => "with_clause"
  | .withItem => "with_item"
  | .decorator => "decorator"
  | .block => "block"
  | .importPrefix => "import_prefix"
  | .relativeImport => "relative_import"
  | .aliasedImport => "aliased_import"
  | .wildcardImport => "wildcard_import"
  | .dottedName => "dotted_name"
  | .chevron => "chevron"
  | .assignment => "assignment"
  | .augmentedAssignment => "augmented_assignment"
  | .patternList => "pattern_list"
  | .tuplePattern => "tuple_pattern"
  | .listPattern => "list_pattern"
  | .listSplatPattern => "list_splat_pattern"
  | .dictionarySplatPattern => "dictionary_splat_pattern"
  | .parameters => "parameters"
  | .lambdaParameters => "lambda_parameters"
  | .defaultParameter => "default_parameter"
  | .typedParameter => "typed_parameter"
  | .typedDefaultParameter => "typed_default_parameter"
  | .keywordSeparator => "keyword_separator"
  | .positionalSeparator => "positional_separator"
  | .argumentList => "argument_list"
  | .keywordArgument => "keyword_argument"
  | .typeHint => "type"
  | .typeParameter => "type_parameter"
  | .splatType => "splat_type"
  | .genericType => "generic_type"
  | .unionType => "union_type"
  | .constrainedType => "constrained_type"
  | .memberType => "member_type"
  | .casePattern => "case_pattern"
  | .asPattern => "as_pattern"
  | .keywordPattern => "keyword_pattern"
  | .classPattern => "class_pattern"
  | .splatPattern => "splat_pattern"
  | .unionPattern => "union_pattern"
  | .dictPattern => "dict_pattern"
  | .complexPattern => "complex_pattern"
  | .identifier => "identifier"
  | .integer => "integer"
  | .float => "float"
  | .string => "string"
  | .concatenatedString => "concatenated_string"
  | .trueLiteral => "true"
  | .falseLiteral => "false"
  | .noneLiteral => "none"
  | .ellipsis => "ellipsis"
  | .expressionList => "expression_list"
  | .namedExpression => "named_expression"
  | .asPatternTarget => "as_pattern_target"
  | .conditionalExpression => "conditional_expression"
  | .lambda => "lambda"
  | .booleanOperator => "boolean_operator"
  | .notOperator => "not_operator"
  | .comparisonOperator => "comparison_operator"
  | .binaryOperator => "binary_operator"
  | .unaryOperator => "unary_operator"
  | .await => "await"
  | .attribute => "attribute"
  | .subscript => "subscript"
  | .slice => "slice"
  | .call => "call"
  | .yield => "yield"
  | .list => "list"
  | .set => "set"
  | .tuple => "tuple"
  | .dictionary => "dictionary"
  | .pair => "pair"
  | .listSplat => "list_splat"
  | .dictionarySplat => "dictionary_splat"
  | .parenthesizedExpression => "parenthesized_expression"
  | .parenthesizedListSplat => "parenthesized_list_splat"
  | .listComprehension => "list_comprehension"
  | .setComprehension => "set_comprehension"
  | .dictionaryComprehension => "dictionary_comprehension"
  | .generatorExpression => "generator_expression"
  | .forInClause => "for_in_clause"
  | .ifClause => "if_clause"

/-- Statements that can share a physical line with others, separated by semicolons. -/
def isSimple : Kind → Bool
  | .futureImportStatement | .importStatement | .importFromStatement | .printStatement
  | .assertStatement | .expressionStatement | .returnStatement | .deleteStatement
  | .raiseStatement | .passStatement | .breakStatement | .continueStatement
  | .globalStatement | .nonlocalStatement | .execStatement | .typeAliasStatement => true
  | _ => false

/-- Statements with a body of their own. -/
def isCompound : Kind → Bool
  | .ifStatement | .forStatement | .whileStatement | .tryStatement | .withStatement
  | .functionDefinition | .classDefinition | .decoratedDefinition | .matchStatement => true
  | _ => false

/-- Parts of a compound statement that hold expressions and a body of their own. -/
def isClause : Kind → Bool
  | .elifClause | .elseClause | .exceptClause | .finallyClause | .caseClause | .withClause
  | .forInClause | .ifClause => true
  | _ => false

theorem not_isCompound_of_isSimple {k : Kind} (h : k.isSimple = true) : k.isCompound = false := by
  cases k <;> first | rfl | cases h

theorem not_isClause_of_isSimple {k : Kind} (h : k.isSimple = true) : k.isClause = false := by
  cases k <;> first | rfl | cases h

end Kind

end PointMutation
