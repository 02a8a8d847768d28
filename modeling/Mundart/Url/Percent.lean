import Mundart.Text.Quoted

/-!
# Percent encoding

Every part of an address has its own set of bytes that may stand for themselves; all others are
written as `%` and two upper-case hexadecimal digits. Reading goes the other way. The host is strict:
there only bytes outside ASCII may be written with a percent sign.
-/

namespace Mundart.Url

/-- The parts of an address that are percent encoded. -/
inductive Part where
  | userinfo | host | zone | path | fragment
  deriving DecidableEq, Repr

/-- Why an address cannot be read. -/
inductive Fault where
  | controlByte
  | noScheme
  | colonInFirstSegment
  | badEscape (text : Text)
  | badHostByte (byte : UInt8)
  | badUserinfo
  | unclosedBracket
  | badPort (text : Text)
  | badAddress (text cause : Text) (rest : Text)
  | notIPv6
  deriving DecidableEq, Repr

def Fault.message : Fault → Text
  | .controlByte => "net/url: invalid control character in URL"
  | .noScheme => "missing protocol scheme"
  | .colonInFirstSegment => "first path segment in URL cannot contain colon"
  | .badEscape text => "invalid URL escape " ++ text.quoted
  | .badHostByte byte => "invalid character " ++ Text.quoted [byte] ++ " in host name"
  | .badUserinfo => "net/url: invalid userinfo"
  | .unclosedBracket => "missing ']' in host"
  | .badPort text => "invalid port " ++ text.quoted ++ " after host"
  | .badAddress text cause rest =>
    let place : Text := if rest.isEmpty then [] else " (at " ++ rest.quoted ++ ")"
    "invalid host: ParseAddr(" ++ text.quoted ++ "): " ++ cause ++ place
  | .notIPv6 => "invalid IP-literal"

/-- Whether a byte is one of some ASCII characters. -/
def isOneOf (chars : String) (b : UInt8) : Bool := chars.any fun c => ascii c == b

/-- Whether a byte stands for itself in a part of an address. -/
def Part.plain (part : Part) (b : UInt8) : Bool :=
  Text.isLetter b || Text.isDigit b || isOneOf "-_.~" b ||
    match part with
    | .host | .zone => isOneOf "!$&'()*+,;=:[]<>\"" b
    | .path => isOneOf "$&+,/:;=@" b
    | .userinfo => isOneOf "$&+,;=" b
    | .fragment => isOneOf "$&+,/:;=?@!()*" b

def upperHexDigit (n : Nat) : UInt8 := (if n < 10 then 48 + n else 55 + n).toUInt8

/-- A text as it is written in a part of an address. -/
def escape (part : Part) (t : Text) : Text :=
  t.flatMap fun b =>
    if part.plain b then [b]
    else [ascii '%', upperHexDigit (b.toNat / 16), upperHexDigit (b.toNat % 16)]

/-- Whether a byte may be written with a percent sign in a part of an address. A zone takes a blank
and whatever a host takes plainly. -/
def Part.escapable (part : Part) (b : UInt8) : Bool :=
  match part with
  | .host => 128 ≤ b || b == ascii '%'
  | .zone => b == ascii '%' || b == ascii ' ' || Part.host.plain b
  | _ => true

/-- Whether a byte may stand in a written part; the host and the zone refuse ASCII that they would
have to encode. -/
def Part.admits (part : Part) (b : UInt8) : Bool :=
  match part with
  | .host | .zone => 128 ≤ b || part.plain b
  | _ => true

/-- The text that a written part stands for. -/
def unescape (part : Part) : Text → Except Fault Text
  | [] => .ok []
  | b :: rest =>
    if b == ascii '%' then
      match rest with
      | h :: l :: more =>
        match Text.hexValue? h, Text.hexValue? l with
        | some high, some low =>
          let byte := (high * 16 + low).toUInt8
          if part.escapable byte then (unescape part more).map (byte :: ·)
          else .error (.badEscape [b, h, l])
        | _, _ => .error (.badEscape [b, h, l])
      | short => .error (.badEscape (b :: short))
    else if part.admits b then (unescape part rest).map (b :: ·)
    else .error (.badHostByte b)

/-- A written path or fragment that may be kept as it is: all its bytes belong there. -/
def Part.wellWritten (part : Part) (t : Text) : Bool :=
  t.all fun b => part.plain b || isOneOf "!$&'()*+,;=:@[]%" b

end Mundart.Url
