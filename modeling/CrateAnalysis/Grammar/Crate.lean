import CrateAnalysis.Grammar.Rule

/-!
# The grammar of a crate

A crate is a sequence of items. `choices` gives every rule its choices. Expressions are
written as a ladder of levels, from assignment, which binds least, to the postfix operators;
a level either passes to the next one or makes a node named after the operation, so that an
operation can be told from a mere passage between levels.

`crateGrammar` is the context-free grammar that these rules stand for.
-/

set_option autoImplicit false

namespace CrateAnalysis

open Body (token rule many optional sequence oneOf commaSeparated)
open Choice (plain labelled)

/-- A rule that is one of several others. -/
def oneOfRules (names : List RuleName) : List Choice :=
  names.map fun name => plain [rule name]

/-- A rule that is one of several terminals. -/
def oneOfTokens (terminals : List Terminal) : List Choice :=
  terminals.map fun terminal => plain [token terminal]

/-- A level of binary operators that group to the left: the operand level alone, or the level
itself, an operator and the operand level. -/
def leftAssociative (level operand : RuleName) (operators : List Terminal) : List Choice :=
  [plain [rule operand],
    labelled "binary_operation"
      [rule level, oneOf (operators.map token), rule operand]]

/-- The choices of every rule. -/
def choices : RuleName → List Choice
  -- Items
  | .crate => [plain [many [.rule .item]]]
  | .item => oneOfRules
      [.functionDeclaration, .structDeclaration, .enumDeclaration, .implDeclaration,
        .traitDeclaration, .useDeclaration, .constantDeclaration]
  | .visibility => [plain [token .kwPub]]
  | .useDeclaration =>
      [plain [optional (rule .visibility), token .kwUse, rule .path, token .semicolon]]
  | .constantDeclaration =>
      [plain [optional (rule .visibility), oneOf [token .kwConst, token .kwStatic],
        optional (token .kwMut), token .identifier, token .colon, rule .typeExpression,
        token .equal, rule .expression, token .semicolon]]
  | .functionDeclaration =>
      [plain [optional (rule .visibility), token .kwFn, token .identifier,
        optional (rule .genericParams), token .leftParen, optional (rule .functionParameters),
        token .rightParen, optional (rule .functionReturnType),
        oneOf [rule .blockExpression, token .semicolon]]]
  | .functionParameters => [plain [commaSeparated .functionParameter]]
  | .functionParameter =>
      [plain [rule .selfParameter],
        plain [rule .pattern, token .colon, rule .typeExpression]]
  | .selfParameter =>
      [plain [optional (token .ampersand), optional (token .kwMut), token .kwSelf]]
  | .functionReturnType => [plain [token .arrow, rule .typeExpression]]
  | .genericParams => [plain [token .less, commaSeparated .genericParam, token .greater]]
  | .genericParam =>
      [plain [token .identifier,
        optional (sequence
          [token .colon, rule .traitBound, many [.terminal .plus, .rule .traitBound]])]]
  | .traitBound => [plain [rule .path, optional (rule .genericArgs)]]
  | .structDeclaration =>
      [plain [optional (rule .visibility), token .kwStruct, token .identifier,
        optional (rule .genericParams),
        oneOf [rule .structFields, sequence [rule .tupleFields, token .semicolon],
          token .semicolon]]]
  | .structFields =>
      [plain [token .leftBrace, optional (commaSeparated .structField), token .rightBrace]]
  | .structField =>
      [plain [optional (rule .visibility), token .identifier, token .colon,
        rule .typeExpression]]
  | .tupleFields =>
      [plain [token .leftParen, optional (commaSeparated .tupleField), token .rightParen]]
  | .tupleField => [plain [optional (rule .visibility), rule .typeExpression]]
  | .enumDeclaration =>
      [plain [optional (rule .visibility), token .kwEnum, token .identifier,
        optional (rule .genericParams), token .leftBrace,
        optional (commaSeparated .enumVariant), token .rightBrace]]
  | .enumVariant =>
      [plain [token .identifier, optional (oneOf [rule .structFields, rule .tupleFields])]]
  | .implDeclaration =>
      [plain [token .kwImpl, optional (rule .genericParams), rule .typeExpression,
        optional (sequence [token .kwFor, rule .typeExpression]), token .leftBrace,
        many [.rule .functionDeclaration], token .rightBrace]]
  | .traitDeclaration =>
      [plain [optional (rule .visibility), token .kwTrait, token .identifier,
        optional (rule .genericParams), token .leftBrace, many [.rule .functionDeclaration],
        token .rightBrace]]
  -- Types
  | .typeExpression => oneOfRules [.referenceType, .pathType, .tupleType, .arrayType]
  | .referenceType =>
      [plain [token .ampersand, optional (token .kwMut), rule .typeExpression]]
  | .pathType => [plain [rule .path, optional (rule .genericArgs)]]
  | .genericArgs => [plain [token .less, commaSeparated .typeExpression, token .greater]]
  | .tupleType =>
      [plain [token .leftParen, optional (commaSeparated .typeExpression), token .rightParen]]
  | .arrayType =>
      [plain [token .leftBracket, rule .typeExpression,
        optional (sequence [token .semicolon, rule .expression]), token .rightBracket]]
  | .path =>
      [plain [token .identifier, many [.terminal .pathSeparator, .terminal .identifier]]]
  -- Blocks and statements
  | .blockExpression =>
      [plain [token .leftBrace, many [.rule .statement], optional (rule .expression),
        token .rightBrace]]
  | .statement => oneOfRules [.item, .letStatement, .expressionStatement]
  | .letStatement =>
      [plain [token .kwLet, rule .pattern,
        optional (sequence [token .colon, rule .typeExpression]),
        optional (sequence [token .equal, rule .expression]), token .semicolon]]
  | .expressionStatement =>
      [plain [rule .expression, token .semicolon], plain [rule .blockLikeExpression]]
  -- Patterns
  | .pattern => oneOfRules
      [.identifierPattern, .wildcardPattern, .literalPattern, .referencePattern,
        .tuplePattern, .tupleStructPattern, .qualifiedPathPattern]
  | .identifierPattern =>
      [plain [optional (token .kwRef), optional (token .kwMut), token .identifier]]
  | .wildcardPattern => [plain [token .underscore]]
  | .literalPattern =>
      [plain [optional (token .minus), token .integer],
        plain [optional (token .minus), token .float],
        plain [token .string], plain [token .character], plain [token .kwTrue],
        plain [token .kwFalse]]
  | .referencePattern => [plain [token .ampersand, optional (token .kwMut), rule .pattern]]
  | .tuplePattern =>
      [plain [token .leftParen, optional (commaSeparated .pattern), token .rightParen]]
  | .tupleStructPattern =>
      [plain [rule .path, token .leftParen, optional (commaSeparated .pattern),
        token .rightParen]]
  | .qualifiedPathPattern =>
      [plain [token .identifier, token .pathSeparator, token .identifier,
        many [.terminal .pathSeparator, .terminal .identifier]]]
  -- Expressions, from the level that binds least to the one that binds most
  | .expression => oneOfRules
      [.assignmentExpression, .returnExpression, .breakExpression, .continueExpression]
  | .returnExpression => [plain [token .kwReturn, optional (rule .expression)]]
  | .breakExpression => [plain [token .kwBreak, optional (rule .expression)]]
  | .continueExpression => [plain [token .kwContinue]]
  | .assignmentExpression =>
      [plain [rule .rangeExpression],
        labelled "assignment"
          [rule .rangeExpression, rule .assignmentOperator, rule .assignmentExpression]]
  | .assignmentOperator => oneOfTokens
      [.equal, .plusEqual, .minusEqual, .starEqual, .slashEqual, .percentEqual]
  | .rangeExpression =>
      [plain [rule .logicalOrExpression],
        labelled "range"
          [rule .logicalOrExpression, oneOf [token .dotDot, token .dotDotEqual],
            rule .logicalOrExpression]]
  | .logicalOrExpression =>
      leftAssociative .logicalOrExpression .logicalAndExpression [.orOr]
  | .logicalAndExpression =>
      leftAssociative .logicalAndExpression .comparisonExpression [.andAnd]
  | .comparisonExpression =>
      [plain [rule .bitwiseOrExpression],
        labelled "binary_operation"
          [rule .bitwiseOrExpression, rule .comparisonOperator, rule .bitwiseOrExpression]]
  | .comparisonOperator => oneOfTokens
      [.equalEqual, .notEqual, .less, .greater, .lessEqual, .greaterEqual]
  | .bitwiseOrExpression =>
      leftAssociative .bitwiseOrExpression .bitwiseXorExpression [.bar]
  | .bitwiseXorExpression =>
      leftAssociative .bitwiseXorExpression .bitwiseAndExpression [.caret]
  | .bitwiseAndExpression =>
      leftAssociative .bitwiseAndExpression .shiftExpression [.ampersand]
  | .shiftExpression =>
      leftAssociative .shiftExpression .additiveExpression [.shiftLeft, .shiftRight]
  | .additiveExpression =>
      leftAssociative .additiveExpression .multiplicativeExpression [.plus, .minus]
  | .multiplicativeExpression =>
      leftAssociative .multiplicativeExpression .castExpression [.star, .slash, .percent]
  | .castExpression =>
      [plain [rule .unaryExpression],
        labelled "type_cast" [rule .castExpression, token .kwAs, rule .typeExpression]]
  | .unaryExpression =>
      [plain [rule .postfixExpression],
        labelled "unary_operation" [rule .unaryOperator, rule .unaryExpression]]
  | .unaryOperator =>
      oneOfTokens [.minus, .bang, .star, .ampersand] ++ [plain [token .ampersand, token .kwMut]]
  | .postfixExpression =>
      [plain [rule .primaryExpression],
        labelled "call_expression" [rule .postfixExpression, rule .callArguments],
        labelled "field_expression" [rule .postfixExpression, token .dot, token .identifier],
        labelled "field_expression" [rule .postfixExpression, token .dot, token .integer],
        labelled "index_expression"
          [rule .postfixExpression, token .leftBracket, rule .expression, token .rightBracket],
        labelled "try_expression" [rule .postfixExpression, token .question]]
  | .callArguments =>
      [plain [token .leftParen, optional (commaSeparated .expression), token .rightParen]]
  | .primaryExpression => oneOfRules
      [.literalExpression, .pathExpression, .macroInvocation, .structExpression,
        .groupedExpression, .tupleExpression, .arrayExpression, .blockLikeExpression]
  | .literalExpression => oneOfTokens
      [.integer, .float, .string, .character, .kwTrue, .kwFalse]
  | .pathExpression =>
      [plain [rule .pathSegment, many [.terminal .pathSeparator, .rule .pathSegment]]]
  | .pathSegment => oneOfTokens [.identifier, .kwSelf]
  | .macroInvocation =>
      [plain [rule .pathExpression, token .bang, rule .macroArguments]]
  | .macroArguments =>
      [plain [token .leftParen, optional (commaSeparated .expression), token .rightParen],
        plain [token .leftBracket, optional (commaSeparated .expression),
          token .rightBracket]]
  | .structExpression =>
      [plain [rule .pathExpression, token .leftBrace,
        optional (commaSeparated .structExpressionField), token .rightBrace]]
  | .structExpressionField =>
      [plain [token .identifier, optional (sequence [token .colon, rule .expression])]]
  | .groupedExpression => [plain [token .leftParen, rule .expression, token .rightParen]]
  | .tupleExpression =>
      [plain [token .leftParen, token .rightParen],
        plain [token .leftParen, rule .expression, token .comma,
          optional (commaSeparated .expression), token .rightParen]]
  | .arrayExpression =>
      [plain [token .leftBracket, optional (commaSeparated .expression),
          token .rightBracket],
        plain [token .leftBracket, rule .expression, token .semicolon, rule .expression,
          token .rightBracket]]
  -- Expressions that end with a block
  | .blockLikeExpression => oneOfRules
      [.blockExpression, .ifExpression, .whileExpression, .loopExpression, .forExpression,
        .matchExpression]
  | .ifExpression =>
      [plain [token .kwIf, rule .expression, rule .blockExpression,
        optional (sequence
          [token .kwElse, oneOf [rule .blockExpression, rule .ifExpression]])]]
  | .whileExpression => [plain [token .kwWhile, rule .expression, rule .blockExpression]]
  | .loopExpression => [plain [token .kwLoop, rule .blockExpression]]
  | .forExpression =>
      [plain [token .kwFor, rule .pattern, token .kwIn, rule .expression,
        rule .blockExpression]]
  | .matchExpression =>
      [plain [token .kwMatch, rule .expression, token .leftBrace, many [.rule .matchArm],
        token .rightBrace]]
  | .matchArm =>
      [plain [rule .pattern, optional (rule .matchGuard), token .fatArrow, rule .expression,
        optional (token .comma)]]
  | .matchGuard => [plain [token .kwIf, rule .expression]]

/-- The right-hand sides of a rule with the names of their nodes, in the order of its
choices. -/
def rightHandSides (name : RuleName) : List (List (Symbol Terminal Nonterminal) × String) :=
  (choices name).flatMap fun choice =>
    choice.body.sequences.map fun symbols => (symbols, choice.nodeName name)

/-- The alternatives of a nonterminal. A repetition is one copy of what is repeated, or a
shorter repetition and one more copy; it makes no node. -/
def alternatives : Nonterminal → List (Production Terminal Nonterminal)
  | .rule name =>
    (rightHandSides name).mapIdx fun number (symbols, label) =>
      ⟨.rule name, number, symbols, some label⟩
  | .many unit =>
    [⟨.many unit, 0, unit.map Atom.symbol, none⟩,
      ⟨.many unit, 1, .nonterminal (.many unit) :: unit.map Atom.symbol, none⟩]

/-- What a body repeats. -/
def Body.repetitions : Body → List (List Atom)
  | .many unit => [unit]
  | .next first second => first.repetitions ++ second.repetitions
  | .either left right => left.repetitions ++ right.repetitions
  | .optional part => part.repetitions
  | .empty | .nothing | .token _ | .rule _ => []

/-- All that is repeated anywhere in the grammar, each only once. -/
def repetitions : List (List Atom) :=
  (RuleName.all.flatMap fun name => (choices name).flatMap (·.body.repetitions)).eraseDups

/-- The grammar of a crate. -/
def crateGrammar : Grammar Terminal Nonterminal where
  start := .rule .crate
  nonterminals := RuleName.all.map .rule ++ repetitions.map .many
  alternatives := alternatives

end CrateAnalysis
