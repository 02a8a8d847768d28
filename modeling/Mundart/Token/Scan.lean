import Mundart.Token.Rule

/-!
# From source to tokens

The source is read once from left to right. At each place the first rule with a match gives the
next lexeme; a byte where no rule matches is skipped, so reading never fails. The kind of a lexeme
is then decided by looking at the lexeme alone: a word that could not be a keyword where it stands,
because a digit touches it, still gets the keyword's kind.
-/

namespace Mundart.Token

/-- The length of the lexeme at the start of a text. -/
def lexemeLength? (afterWord : Bool) (t : Text) : Option Nat :=
  rules.findSome? fun r => r.2.find afterWord t

/-- The kind of a lexeme: that of the first rule that it fits. -/
def classify? (lexeme : Text) : Option Kind :=
  (rules.find? fun r => r.2.fits lexeme).map Prod.fst

/-- The value of a token: a string without its quotes, everything else as written. -/
def valueOf (kind : Kind) (lexeme : Text) : Text :=
  match kind with
  | .string => lexeme.tail.dropLast
  | _ => lexeme

/-- The token of a lexeme at a position. -/
def ofLexeme? (position : Nat) (lexeme : Text) : Option Token :=
  (classify? lexeme).map fun kind => ⟨kind, valueOf kind lexeme, position⟩

/-- The tokens of a text after those already found (the last one first). The first `covered` bytes
belong to the lexeme found last. -/
def scanFrom (covered : Nat) (afterWord : Bool) (position : Nat) (found : List Token) :
    Text → List Token
  | [] => found.reverse
  | b :: t =>
    match covered with
    | n + 1 => scanFrom n (Text.isWord b) (position + 1) found t
    | 0 =>
      match lexemeLength? afterWord (b :: t) with
      | none => scanFrom 0 (Text.isWord b) (position + 1) found t
      | some n =>
        let found := match ofLexeme? position ((b :: t).take n) with
          | some token => token :: found
          | none => found
        scanFrom (n - 1) (Text.isWord b) (position + 1) found t

/-- The tokens of a source text. -/
def scan (source : Text) : List Token := scanFrom 0 false 0 [] source

/-- Whether more brackets of any form are opened than closed, so that an interactive reader should
wait for another line. -/
def needsMore (source : Text) : Bool :=
  let depth := (scan source).foldl
    (fun (depth : Int) token =>
      match token.kind with
      | .leftBrace | .leftBracket | .leftParen => depth + 1
      | .rightBrace | .rightBracket | .rightParen => depth - 1
      | _ => depth) 0
  0 < depth

end Mundart.Token
