import Mundart.Token.Basic

/-!
# Token rules

Each kind of token has one pattern. A pattern is asked two questions: how many bytes it matches at
the start of a text, given whether a word byte stands just before (`find`), and whether it is
exactly a given lexeme (`fits`). The rules are tried in the order of `rules`, both to find the next
lexeme and to classify it; keywords therefore come before names.
-/

namespace Mundart

/-- The shapes of lexemes. -/
inductive Pattern where
  /-- One of some words, not inside a longer word. -/
  | word (words : List Text)
  /-- Two words of one keyword with blanks between them. -/
  | twoWords (first second : Text)
  /-- One of some sequences of signs. -/
  | signs (choices : List Text)
  /-- A run of digits. -/
  | digits
  /-- A double quote, anything on the same line, and the next double quote. -/
  | quoted
  /-- A letter or underscore and the word bytes after it. -/
  | name

namespace Pattern

/-- Whether no word byte stands at the start of a text. -/
def endsWord : Text → Bool
  | [] => true
  | b :: _ => !Text.isWord b

/-- The length of the first choice that a text starts with and that is followed as required. -/
def findChoice (followed : Text → Bool) (choices : List Text) (t : Text) : Option Nat :=
  (choices.find? fun w => w.isPrefixOf t && followed (t.drop w.length)).map List.length

/-- The length of a quoted text after its opening quote, the closing quote included. -/
def closingQuote (seen : Nat) : Text → Option Nat
  | [] => none
  | b :: t => if b == 34 then some (seen + 1) else if b == 10 then none else closingQuote (seen + 1) t

/-- How many bytes the pattern matches at the start of a text. -/
def find (afterWord : Bool) (p : Pattern) (t : Text) : Option Nat :=
  match p with
  | .word words => if afterWord then none else findChoice endsWord words t
  | .twoWords first second =>
    if afterWord || !first.isPrefixOf t then none
    else
      let rest := t.drop first.length
      let blanks := (rest.takeWhile Text.isSpace).length
      if blanks = 0 then none
      else
        (findChoice endsWord [second] (rest.drop blanks)).map fun n => first.length + blanks + n
  | .signs choices => findChoice (fun _ => true) choices t
  | .digits =>
    let n := (t.takeWhile Text.isDigit).length
    if n = 0 then none else some n
  | .quoted =>
    match t with
    | 34 :: t => closingQuote 1 t
    | _ => none
  | .name =>
    match t with
    | b :: t => if Text.isNameStart b then some (1 + (t.takeWhile Text.isWord).length) else none
    | [] => none

/-- Whether the pattern is exactly the given lexeme, taken by itself. -/
def fits (p : Pattern) (lexeme : Text) : Bool :=
  match p with
  | .word words => words.contains lexeme
  | .signs choices => choices.contains lexeme
  | .quoted =>
    2 ≤ lexeme.length && lexeme.head? == some 34 && lexeme.getLast? == some 34
      && !lexeme.contains 10
  | p => p.find false lexeme == some lexeme.length

end Pattern

namespace Token

/-- The rules in order: signs, keywords, operators and literals, and last of all names. -/
def rules : List (Kind × Pattern) := [
  (.print, .word ["oida.sag"]),
  (.letWord, .word ["heast"]),
  (.ifWord, .word ["wenn"]),
  (.elseWord, .word ["sonst"]),
  (.falseWord, .word ["sichaned"]),
  (.colon, .signs [":"]),
  (.trueWord, .word ["basst"]),
  (.function, .word ["hawara"]),
  (.andWord, .word ["und"]),
  (.orWord, .word ["oda"]),
  (.returnWord, .word ["speicher"]),
  (.comparison, .word ["gleich", "isned", "klanaglei", "größerglei", "gößerglei", "klana", "größer"]),
  (.arithmetic, .word ["plusplus", "minusminus", "mal", "dividier", "plus", "minus"]),
  (.filterArrow, .signs ["=>"]),
  (.assign, .signs ["+=", "-=", "*=", "/=", "="]),
  (.number, .digits),
  (.string, .quoted),
  (.leftBracket, .signs ["["]),
  (.rightBracket, .signs ["]"]),
  (.leftBrace, .signs ["\x7b"]),
  (.rightBrace, .signs ["\x7d"]),
  (.leftParen, .signs ["("]),
  (.rightParen, .signs [")"]),
  (.separator, .signs [","]),
  (.semicolon, .signs [";"]),
  (.forWord, .word ["aufi"]),
  (.whileWord, .twoWords "geh" "weida"),
  (.forEach, .word ["fiaOis"]),
  (.asWord, .word ["als"]),
  (.dot, .signs ["."]),
  (.comment, .word ["kommentar"]),
  (.fetch, .word ["holma"]),
  (.identifier, .name)]

/-- The kinds in the order of their rules. -/
def kinds : List Kind := rules.map Prod.fst

end Token

end Mundart
