import CrateAnalysis.Grammar.Basic
import CrateAnalysis.Token.Terminal

/-!
# The rules of the grammar

`RuleName` lists what the grammar names: items, types, statements, patterns and the levels of
expressions. The body of a rule is a regular expression over terminals and rules, and
`Body.sequences` writes it out as plain sequences of symbols: a part that may be absent first
with and then without it, a choice from left to right, and a repetition as one symbol or
nothing. That symbol is a nonterminal of its own, which stands for one or more copies of what
is repeated; two repetitions of the same thing share it.

`Body.Matches` says the same without any such symbol: it relates a body to the sequences of
terminals and rules that it describes, with every repetition written out.
-/

set_option autoImplicit false

namespace CrateAnalysis

/-- The rules of the grammar. -/
inductive RuleName
  | crate | item | visibility | useDeclaration | constantDeclaration | functionDeclaration
  | functionParameters | functionParameter | selfParameter | functionReturnType | genericParams
  | genericParam | traitBound | structDeclaration | structFields | structField | tupleFields
  | tupleField | enumDeclaration | enumVariant | implDeclaration | traitDeclaration
  | typeExpression | referenceType | pathType | genericArgs | tupleType | arrayType | path
  | blockExpression | statement | letStatement | expressionStatement | pattern
  | identifierPattern | wildcardPattern | literalPattern | referencePattern | tuplePattern
  | tupleStructPattern | qualifiedPathPattern | expression | returnExpression | breakExpression
  | continueExpression | assignmentExpression | assignmentOperator | rangeExpression
  | logicalOrExpression | logicalAndExpression | comparisonExpression | comparisonOperator
  | bitwiseOrExpression | bitwiseXorExpression | bitwiseAndExpression | shiftExpression
  | additiveExpression | multiplicativeExpression | castExpression | unaryExpression
  | unaryOperator | postfixExpression | callArguments | primaryExpression | literalExpression
  | pathExpression | pathSegment | macroInvocation | macroArguments | structExpression
  | structExpressionField | groupedExpression | tupleExpression | arrayExpression
  | blockLikeExpression | ifExpression | whileExpression | loopExpression | forExpression
  | matchExpression | matchArm | matchGuard
deriving DecidableEq

namespace RuleName

/-- All rules. -/
def all : List RuleName :=
  [.crate, .item, .visibility, .useDeclaration, .constantDeclaration, .functionDeclaration,
    .functionParameters, .functionParameter, .selfParameter, .functionReturnType, .genericParams,
    .genericParam, .traitBound, .structDeclaration, .structFields, .structField, .tupleFields,
    .tupleField, .enumDeclaration, .enumVariant, .implDeclaration, .traitDeclaration,
    .typeExpression, .referenceType, .pathType, .genericArgs, .tupleType, .arrayType, .path,
    .blockExpression, .statement, .letStatement, .expressionStatement, .pattern,
    .identifierPattern, .wildcardPattern, .literalPattern, .referencePattern, .tuplePattern,
    .tupleStructPattern, .qualifiedPathPattern, .expression, .returnExpression, .breakExpression,
    .continueExpression, .assignmentExpression, .assignmentOperator, .rangeExpression,
    .logicalOrExpression, .logicalAndExpression, .comparisonExpression, .comparisonOperator,
    .bitwiseOrExpression, .bitwiseXorExpression, .bitwiseAndExpression, .shiftExpression,
    .additiveExpression, .multiplicativeExpression, .castExpression, .unaryExpression,
    .unaryOperator, .postfixExpression, .callArguments, .primaryExpression, .literalExpression,
    .pathExpression, .pathSegment, .macroInvocation, .macroArguments, .structExpression,
    .structExpressionField, .groupedExpression, .tupleExpression, .arrayExpression,
    .blockLikeExpression, .ifExpression, .whileExpression, .loopExpression, .forExpression,
    .matchExpression, .matchArm, .matchGuard]

/-- The name of a rule, which is also the name of its nodes in a syntax tree. -/
def name : RuleName → String
  | .crate => "crate"
  | .item => "item"
  | .visibility => "visibility"
  | .useDeclaration => "use_declaration"
  | .constantDeclaration => "constant_declaration"
  | .functionDeclaration => "function_declaration"
  | .functionParameters => "function_parameters"
  | .functionParameter => "function_parameter"
  | .selfParameter => "self_parameter"
  | .functionReturnType => "function_return_type"
  | .genericParams => "generic_params"
  | .genericParam => "generic_param"
  | .traitBound => "trait_bound"
  | .structDeclaration => "struct_declaration"
  | .structFields => "struct_fields"
  | .structField => "struct_field"
  | .tupleFields => "tuple_fields"
  | .tupleField => "tuple_field"
  | .enumDeclaration => "enum_declaration"
  | .enumVariant => "enum_variant"
  | .implDeclaration => "impl_declaration"
  | .traitDeclaration => "trait_declaration"
  | .typeExpression => "type_expression"
  | .referenceType => "reference_type"
  | .pathType => "path_type"
  | .genericArgs => "generic_args"
  | .tupleType => "tuple_type"
  | .arrayType => "array_type"
  | .path => "path"
  | .blockExpression => "block_expression"
  | .statement => "statement"
  | .letStatement => "let_statement"
  | .expressionStatement => "expression_statement"
  | .pattern => "pattern"
  | .identifierPattern => "identifier_pattern"
  | .wildcardPattern => "wildcard_pattern"
  | .literalPattern => "literal_pattern"
  | .referencePattern => "reference_pattern"
  | .tuplePattern => "tuple_pattern"
  | .tupleStructPattern => "tuple_struct_pattern"
  | .qualifiedPathPattern => "qualified_path_pattern"
  | .expression => "expression"
  | .returnExpression => "return_expression"
  | .breakExpression => "break_expression"
  | .continueExpression => "continue_expression"
  | .assignmentExpression => "assignment_expression"
  | .assignmentOperator => "assignment_operator"
  | .rangeExpression => "range_expression"
  | .logicalOrExpression => "logical_or_expression"
  | .logicalAndExpression => "logical_and_expression"
  | .comparisonExpression => "comparison_expression"
  | .comparisonOperator => "comparison_operator"
  | .bitwiseOrExpression => "bitwise_or_expression"
  | .bitwiseXorExpression => "bitwise_xor_expression"
  | .bitwiseAndExpression => "bitwise_and_expression"
  | .shiftExpression => "shift_expression"
  | .additiveExpression => "additive_expression"
  | .multiplicativeExpression => "multiplicative_expression"
  | .castExpression => "cast_expression"
  | .unaryExpression => "unary_expression"
  | .unaryOperator => "unary_operator"
  | .postfixExpression => "postfix_expression"
  | .callArguments => "call_arguments"
  | .primaryExpression => "primary_expression"
  | .literalExpression => "literal_expression"
  | .pathExpression => "path_expression"
  | .pathSegment => "path_segment"
  | .macroInvocation => "macro_invocation"
  | .macroArguments => "macro_arguments"
  | .structExpression => "struct_expression"
  | .structExpressionField => "struct_expression_field"
  | .groupedExpression => "grouped_expression"
  | .tupleExpression => "tuple_expression"
  | .arrayExpression => "array_expression"
  | .blockLikeExpression => "block_like_expression"
  | .ifExpression => "if_expression"
  | .whileExpression => "while_expression"
  | .loopExpression => "loop_expression"
  | .forExpression => "for_expression"
  | .matchExpression => "match_expression"
  | .matchArm => "match_arm"
  | .matchGuard => "match_guard"

end RuleName

/-- A terminal or a rule. -/
inductive Atom
  | terminal (terminal : Terminal)
  | rule (name : RuleName)
deriving DecidableEq

/-- What has alternatives: a rule, or the repetition of a short sequence one or more times. -/
inductive Nonterminal
  | rule (name : RuleName)
  | many (unit : List Atom)
deriving DecidableEq

/-- An atom as a symbol of a production. -/
def Atom.symbol : Atom → Symbol Terminal Nonterminal
  | .terminal t => .terminal t
  | .rule r => .nonterminal (.rule r)

/-- The right-hand side of a rule. -/
inductive Body
  | empty
  | nothing
  | token (terminal : Terminal)
  | rule (name : RuleName)
  | many (unit : List Atom)
  | next (first second : Body)
  | either (left right : Body)
  | optional (part : Body)

namespace Body

/-- The parts one after another. -/
def sequence (parts : List Body) : Body := parts.foldr next empty

/-- One of the parts. -/
def oneOf (parts : List Body) : Body := parts.foldr either nothing

/-- One or more of a rule, separated by commas, with a comma after the last if one likes. -/
def commaSeparated (name : RuleName) : Body :=
  sequence [rule name, many [.terminal .comma, .rule name], optional (token .comma)]

/-- The sequences of symbols that a body stands for, in the order of its alternatives. -/
def sequences : Body → List (List (Symbol Terminal Nonterminal))
  | empty => [[]]
  | nothing => []
  | token t => [[.terminal t]]
  | rule r => [[.nonterminal (.rule r)]]
  | many unit => [[.nonterminal (.many unit)], []]
  | next first second =>
    first.sequences.flatMap fun x => second.sequences.map fun y => x ++ y
  | either left right => left.sequences ++ right.sequences
  | optional part => part.sequences ++ [[]]

/-- The sequences of terminals and rules that a body describes, repetitions written out. -/
inductive Matches : Body → List Atom → Prop
  | empty : Matches .empty []
  | token (t : Terminal) : Matches (.token t) [.terminal t]
  | rule (r : RuleName) : Matches (.rule r) [.rule r]
  | many (unit : List Atom) (n : Nat) :
      Matches (.many unit) (List.replicate n unit).flatten
  | next {first second : Body} {xs ys : List Atom} :
      Matches first xs → Matches second ys → Matches (.next first second) (xs ++ ys)
  | left {left right : Body} {xs : List Atom} : Matches left xs → Matches (.either left right) xs
  | right {left right : Body} {xs : List Atom} :
      Matches right xs → Matches (.either left right) xs
  | present {part : Body} {xs : List Atom} : Matches part xs → Matches (.optional part) xs
  | absent {part : Body} : Matches (.optional part) []

end Body

/-- One choice of a rule: its body, and the name of its node when that is not the rule's. -/
structure Choice where
  body : Body
  label? : Option String

namespace Choice

/-- A choice whose node is named after the rule. -/
def plain (parts : List Body) : Choice := ⟨Body.sequence parts, none⟩

/-- A choice whose node has a name of its own. -/
def labelled (label : String) (parts : List Body) : Choice := ⟨Body.sequence parts, some label⟩

/-- The name of the node that a choice of the rule makes. -/
def nodeName (choice : Choice) (rule : RuleName) : String := choice.label?.getD rule.name

end Choice

end CrateAnalysis
