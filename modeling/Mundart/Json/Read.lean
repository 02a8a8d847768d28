import Mundart.Json.Basic

/-!
# Reading JSON

A reader for one JSON document in a text. Stray bytes inside a string become U+FFFD, an escaped
surrogate without its partner too, and nesting deeper than 10000 levels is refused. Every reading
step consumes at least one byte, so the length of the text bounds the work.
-/

namespace Mundart.Json

/-- The text without the blanks at its start. -/
def skipBlanks (t : Text) : Text := t.dropWhile fun b => b == 32 || b == 9 || b == 10 || b == 13

/-- The value of four hexadecimal digits and the text after them. -/
def hex4? : Text → Option (Nat × Text)
  | a :: b :: c :: d :: t => do
    let a ← Text.hexValue? a
    let b ← Text.hexValue? b
    let c ← Text.hexValue? c
    let d ← Text.hexValue? d
    pure (((a * 16 + b) * 16 + c) * 16 + d, t)
  | _ => none

/-- The character of an escape `\uXXXX` whose first unit is `unit`, with the second half of a
surrogate pair taken from the text behind it. -/
def escapedChar (unit : Nat) (t : Text) : Char × Text :=
  if unit < 0xD800 || 0xDFFF < unit then (Char.ofNat unit, t)
  else
    let low? := match t with
      | 92 :: 117 :: t => hex4? t
      | _ => none
    match low? with
    | some (low, rest) =>
      if unit < 0xDC00 && 0xDC00 ≤ low && low ≤ 0xDFFF then
        (Char.ofNat (0x10000 + (unit - 0xD800) * 0x400 + (low - 0xDC00)), rest)
      else (Rune.replacement, t)
    | none => (Rune.replacement, t)

/-- The bytes of a string up to its closing quote, escapes resolved; `taken` holds what was read so
far, the last byte first. -/
def readString : Nat → Text → Text → Option (Text × Text)
  | 0, _, _ => none
  | _ + 1, _, [] => none
  | fuel + 1, taken, b :: t =>
    if b == 34 then some (taken.reverse, t)
    else if b < 0x20 then none
    else if b == 92 then
      let simple (c : UInt8) (t : Text) := readString fuel (c :: taken) t
      match t with
      | 34 :: t => simple 34 t
      | 92 :: t => simple 92 t
      | 47 :: t => simple 47 t
      | 98 :: t => simple 8 t
      | 102 :: t => simple 12 t
      | 110 :: t => simple 10 t
      | 114 :: t => simple 13 t
      | 116 :: t => simple 9 t
      | 117 :: t =>
        match hex4? t with
        | some (unit, t) =>
          let (c, t) := escapedChar unit t
          readString fuel ((String.utf8EncodeChar c).reverse ++ taken) t
        | none => none
      | _ => none
    else readString fuel (b :: taken) t

/-- A string after its opening quote. -/
def string? (t : Text) : Option (Text × Text) :=
  (readString (t.length + 1) [] t).map fun (s, rest) => (Text.repair s, rest)

/-- A run of at least one digit. -/
def digits? (t : Text) : Option (Text × Text) :=
  match t.span Text.isDigit with
  | ([], _) => none
  | (ds, rest) => some (ds, rest)

/-- The whole part of a number: zero, or digits that do not start with it. -/
def whole? : Text → Option (Text × Text)
  | 48 :: t => some ([48], t)
  | t => digits? t

/-- An optional fraction. -/
def fraction? : Text → Option (Text × Text)
  | 46 :: t => (digits? t).map fun (ds, rest) => (46 :: ds, rest)
  | t => some ([], t)

/-- An optional exponent. -/
def exponent? : Text → Option (Text × Text)
  | b :: t =>
    if b == 101 || b == 69 then
      match t with
      | s :: u =>
        if s == 43 || s == 45 then (digits? u).map fun (ds, rest) => (b :: s :: ds, rest)
        else (digits? t).map fun (ds, rest) => (b :: ds, rest)
      | [] => none
    else some ([], b :: t)
  | [] => some ([], [])

/-- The literal of a number. -/
def number? (t : Text) : Option (Text × Text) := do
  let (sign, t) := match t with
    | 45 :: t => ([45], t)
    | t => (([] : Text), t)
  let (whole, t) ← whole? t
  let (fraction, t) ← fraction? t
  let (exponent, t) ← exponent? t
  pure (sign ++ whole ++ fraction ++ exponent, t)

/-- The deepest nesting of lists and objects that is read. -/
def maxDepth : Nat := 10000

mutual

/-- A value at the start of a text without blanks, and the text after it. -/
def value? (fuel depth : Nat) (t : Text) : Option (Json × Text) :=
  match fuel with
  | 0 => none
  | fuel + 1 =>
    match t with
    | 91 :: t =>
      if depth = 0 then none
      else
        match skipBlanks t with
        | 93 :: t => some (.array [], t)
        | t => items? fuel (depth - 1) [] t
    | 123 :: t =>
      if depth = 0 then none
      else
        match skipBlanks t with
        | 125 :: t => some (.object [], t)
        | t => members? fuel (depth - 1) [] t
    | 34 :: t => (string? t).map fun (s, rest) => (.string s, rest)
    | t =>
      match Text.after? "null" t, Text.after? "true" t, Text.after? "false" t with
      | some t, _, _ => some (.null, t)
      | _, some t, _ => some (.bool true, t)
      | _, _, some t => some (.bool false, t)
      | _, _, _ => (number? t).map fun (n, rest) => (.number n, rest)

/-- The items of a list after those read, the last one first. -/
def items? (fuel depth : Nat) (read : List Json) (t : Text) : Option (Json × Text) :=
  match fuel with
  | 0 => none
  | fuel + 1 =>
    match value? fuel depth t with
    | none => none
    | some (v, t) =>
      match skipBlanks t with
      | 44 :: t => items? fuel depth (v :: read) (skipBlanks t)
      | 93 :: t => some (.array (v :: read).reverse, t)
      | _ => none

/-- The members of an object after those read, the last one first. -/
def members? (fuel depth : Nat) (read : List (Text × Json)) (t : Text) : Option (Json × Text) :=
  match fuel with
  | 0 => none
  | fuel + 1 =>
    match t with
    | 34 :: t =>
      match string? t with
      | none => none
      | some (key, t) =>
        match skipBlanks t with
        | 58 :: t =>
          match value? fuel depth (skipBlanks t) with
          | none => none
          | some (v, t) =>
            match skipBlanks t with
            | 44 :: t => members? fuel depth ((key, v) :: read) (skipBlanks t)
            | 125 :: t => some (.object ((key, v) :: read).reverse, t)
            | _ => none
        | _ => none
    | _ => none

end

/-- The document that a text is, blanks around it allowed. -/
def read? (t : Text) : Option Json :=
  match value? (t.length + 1) maxDepth (skipBlanks t) with
  | some (v, rest) => if (skipBlanks rest).isEmpty then some v else none
  | none => none

end Mundart.Json
