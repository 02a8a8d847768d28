import Mundart.Text.Basic

/-!
# Tokens

The kinds of lexical tokens and the tokens themselves. A token carries its text and the byte
position where it starts in the source.
-/

namespace Mundart

/-- The kinds of tokens, in the order in which a lexeme is classified. -/
inductive Token.Kind where
  | print | letWord | ifWord | elseWord | falseWord | colon | trueWord | function | andWord | orWord
  | returnWord | comparison | arithmetic | filterArrow | assign | number | string
  | leftBracket | rightBracket | leftBrace | rightBrace | leftParen | rightParen
  | separator | semicolon | forWord | whileWord | forEach | asWord | dot | comment | fetch | identifier
  deriving DecidableEq, Repr

/-- The name of a kind in token listings and in messages. -/
def Token.Kind.name : Token.Kind → Text
  | .print => "PRINT"
  | .letWord => "LET"
  | .ifWord => "IF"
  | .elseWord => "ELSE"
  | .falseWord => "FALSE"
  | .colon => "COLON"
  | .trueWord => "TRUE"
  | .function => "FUNCTION"
  | .andWord => "AND"
  | .orWord => "OR"
  | .returnWord => "RETURN"
  | .comparison => "COMPARISON"
  | .arithmetic => "ARITHMETIC"
  | .filterArrow => "FILTER_ARROW"
  | .assign => "ASSIGN"
  | .number => "NUMBER"
  | .string => "STRING"
  | .leftBracket => "LBRACKET"
  | .rightBracket => "RBRACKET"
  | .leftBrace => "LBRACE"
  | .rightBrace => "RBRACE"
  | .leftParen => "LPAREN"
  | .rightParen => "RPAREN"
  | .separator => "SEPARATOR"
  | .semicolon => "SEMICOLON"
  | .forWord => "FOR"
  | .whileWord => "WHILE"
  | .forEach => "FOREACH"
  | .asWord => "AS"
  | .dot => "DOT"
  | .comment => "COMMENT"
  | .fetch => "FETCH"
  | .identifier => "IDENTIFIER"

/-- A lexical token. The value of a string token is the text between its quotes; every other
token's value is its lexeme. -/
structure Token where
  kind : Token.Kind
  value : Text
  position : Nat
  deriving DecidableEq, Repr

/-- A token on one line of a token listing. -/
def Token.line (t : Token) : Text := t.kind.name ++ " " ++ t.value

end Mundart
