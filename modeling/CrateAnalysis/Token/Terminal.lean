/-!
# Terminals

The terminals of the language are its keywords, its operators and punctuation, and five
classes of text: identifiers, the two kinds of number, strings and characters. A keyword or
an operator has one spelling; a class has a symbolic name only.
-/

set_option autoImplicit false

namespace CrateAnalysis

/-- A kind of token that the grammar knows. -/
inductive Terminal
 | kwFn | kwLet | kwMut | kwPub | kwStruct | kwEnum | kwImpl | kwTrait | kwFor | kwIn | kwIf
 | kwElse | kwWhile | kwLoop | kwMatch | kwReturn | kwBreak | kwContinue | kwUse | kwConst
 | kwStatic | kwAs | kwRef | kwSelf | kwTrue | kwFalse | underscore
 | arrow | fatArrow | pathSeparator | dotDotEqual | dotDot | dot | equalEqual | notEqual
 | lessEqual | greaterEqual | shiftLeft | shiftRight | andAnd | orOr | plusEqual | minusEqual
 | starEqual | slashEqual | percentEqual | less | greater | equal | plus | minus | star | slash
 | percent | bang | ampersand | bar | caret | question | colon | semicolon | comma | leftParen
 | rightParen | leftBrace | rightBrace | leftBracket | rightBracket
 | identifier | float | integer | string | character
deriving DecidableEq

namespace Terminal

/-- The keywords; the underscore is one of them. -/
def keywords : List Terminal :=
  [.kwFn, .kwLet, .kwMut, .kwPub, .kwStruct, .kwEnum, .kwImpl, .kwTrait, .kwFor, .kwIn, .kwIf,
    .kwElse, .kwWhile, .kwLoop, .kwMatch, .kwReturn, .kwBreak, .kwContinue, .kwUse, .kwConst,
    .kwStatic, .kwAs, .kwRef, .kwSelf, .kwTrue, .kwFalse, .underscore]

/-- The operators and the punctuation, a longer spelling before a shorter one. -/
def operators : List Terminal :=
  [.dotDotEqual, .arrow, .fatArrow, .pathSeparator, .dotDot, .equalEqual, .notEqual, .lessEqual,
    .greaterEqual, .shiftLeft, .shiftRight, .andAnd, .orOr, .plusEqual, .minusEqual, .starEqual,
    .slashEqual, .percentEqual, .dot, .less, .greater, .equal, .plus, .minus, .star, .slash,
    .percent, .bang, .ampersand, .bar, .caret, .question, .colon, .semicolon, .comma, .leftParen,
    .rightParen, .leftBrace, .rightBrace, .leftBracket, .rightBracket]

/-- The terminals whose text is not fixed. -/
def classes : List Terminal :=
  [.identifier, .float, .integer, .string, .character]

/-- All terminals. -/
def all : List Terminal := keywords ++ operators ++ classes

/-- The symbolic name, by which tokens and messages refer to a terminal. -/
def name : Terminal → String
  | .kwFn => "FN"
  | .kwLet => "LET"
  | .kwMut => "MUT"
  | .kwPub => "PUB"
  | .kwStruct => "STRUCT"
  | .kwEnum => "ENUM"
  | .kwImpl => "IMPL"
  | .kwTrait => "TRAIT"
  | .kwFor => "FOR"
  | .kwIn => "IN"
  | .kwIf => "IF"
  | .kwElse => "ELSE"
  | .kwWhile => "WHILE"
  | .kwLoop => "LOOP"
  | .kwMatch => "MATCH"
  | .kwReturn => "RETURN"
  | .kwBreak => "BREAK"
  | .kwContinue => "CONTINUE"
  | .kwUse => "USE"
  | .kwConst => "CONST"
  | .kwStatic => "STATIC"
  | .kwAs => "AS"
  | .kwRef => "REF"
  | .kwSelf => "SELF"
  | .kwTrue => "TRUE"
  | .kwFalse => "FALSE"
  | .underscore => "UNDERSCORE"
  | .arrow => "ARROW"
  | .fatArrow => "FATARROW"
  | .pathSeparator => "PATHSEP"
  | .dotDotEqual => "DOTDOTEQ"
  | .dotDot => "DOTDOT"
  | .dot => "DOT"
  | .equalEqual => "EQEQ"
  | .notEqual => "NE"
  | .lessEqual => "LE"
  | .greaterEqual => "GE"
  | .shiftLeft => "SHL"
  | .shiftRight => "SHR"
  | .andAnd => "ANDAND"
  | .orOr => "OROR"
  | .plusEqual => "PLUSEQ"
  | .minusEqual => "MINUSEQ"
  | .starEqual => "STAREQ"
  | .slashEqual => "SLASHEQ"
  | .percentEqual => "PERCENTEQ"
  | .less => "LT"
  | .greater => "GT"
  | .equal => "EQ"
  | .plus => "PLUS"
  | .minus => "MINUS"
  | .star => "STAR"
  | .slash => "SLASH"
  | .percent => "PERCENT"
  | .bang => "BANG"
  | .ampersand => "AMP"
  | .bar => "OR"
  | .caret => "CARET"
  | .question => "QUESTION"
  | .colon => "COLON"
  | .semicolon => "SEMI"
  | .comma => "COMMA"
  | .leftParen => "LPAREN"
  | .rightParen => "RPAREN"
  | .leftBrace => "LBRACE"
  | .rightBrace => "RBRACE"
  | .leftBracket => "LBRACKET"
  | .rightBracket => "RBRACKET"
  | .identifier => "IDENT"
  | .float => "FLOAT"
  | .integer => "INTEGER"
  | .string => "STRING"
  | .character => "CHAR"

/-- The only text of a keyword, an operator or a punctuation mark; a class has none. -/
def spelling? : Terminal → Option String
  | .kwFn => some "fn"
  | .kwLet => some "let"
  | .kwMut => some "mut"
  | .kwPub => some "pub"
  | .kwStruct => some "struct"
  | .kwEnum => some "enum"
  | .kwImpl => some "impl"
  | .kwTrait => some "trait"
  | .kwFor => some "for"
  | .kwIn => some "in"
  | .kwIf => some "if"
  | .kwElse => some "else"
  | .kwWhile => some "while"
  | .kwLoop => some "loop"
  | .kwMatch => some "match"
  | .kwReturn => some "return"
  | .kwBreak => some "break"
  | .kwContinue => some "continue"
  | .kwUse => some "use"
  | .kwConst => some "const"
  | .kwStatic => some "static"
  | .kwAs => some "as"
  | .kwRef => some "ref"
  | .kwSelf => some "self"
  | .kwTrue => some "true"
  | .kwFalse => some "false"
  | .underscore => some "_"
  | .arrow => some "->"
  | .fatArrow => some "=>"
  | .pathSeparator => some "::"
  | .dotDotEqual => some "..="
  | .dotDot => some ".."
  | .dot => some "."
  | .equalEqual => some "=="
  | .notEqual => some "!="
  | .lessEqual => some "<="
  | .greaterEqual => some ">="
  | .shiftLeft => some "<<"
  | .shiftRight => some ">>"
  | .andAnd => some "&&"
  | .orOr => some "||"
  | .plusEqual => some "+="
  | .minusEqual => some "-="
  | .starEqual => some "*="
  | .slashEqual => some "/="
  | .percentEqual => some "%="
  | .less => some "<"
  | .greater => some ">"
  | .equal => some "="
  | .plus => some "+"
  | .minus => some "-"
  | .star => some "*"
  | .slash => some "/"
  | .percent => some "%"
  | .bang => some "!"
  | .ampersand => some "&"
  | .bar => some "|"
  | .caret => some "^"
  | .question => some "?"
  | .colon => some ":"
  | .semicolon => some ";"
  | .comma => some ","
  | .leftParen => some "("
  | .rightParen => some ")"
  | .leftBrace => some "\x7b"
  | .rightBrace => some "\x7d"
  | .leftBracket => some "["
  | .rightBracket => some "]"
  | .identifier | .float | .integer | .string | .character => none

/-- The terminal with a symbolic name. -/
def ofName? (name : String) : Option Terminal :=
  all.find? (·.name = name)

/-- The keyword that a word spells. -/
def keyword? (word : List Char) : Option Terminal :=
  keywords.find? (·.spelling?.map String.toList = some word)

/-- The terminal of a word: its keyword, or an identifier. -/
def ofWord (word : List Char) : Terminal :=
  (keyword? word).getD .identifier

end Terminal

end CrateAnalysis
