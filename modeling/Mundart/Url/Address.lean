import Mundart.Url.Percent

/-!
# Numeric addresses

A host in square brackets has to be an IPv6 address: eight groups of up to four hexadecimal digits,
one run of zero groups written as `::`, the last two groups also as four decimal numbers, and after a
percent sign the name of a zone. Only the form matters here, not the address it stands for.
-/

namespace Mundart.Url.Address

/-- What is wrong with an address and where, if a place can be told. -/
structure Defect where
  cause : Text
  place : Text := []

def refuse (cause place : Text) : Except Defect Unit := .error ⟨cause, place⟩

/-- Checks the digits and points of a dotted address. `value` is the number read so far of the field
`field`, `digits` its length. -/
def checkDotted (field digits value : Nat) (afterPoint : Bool) : Text → Except Defect Unit
  | [] => if field < 3 then refuse "IPv4 address too short" [] else .ok ()
  | b :: rest =>
    if Text.isDigit b then
      let value' := value * 10 + (b.toNat - 48)
      if digits == 1 && value == 0 then refuse "IPv4 field has octet with leading zero" []
      else if 255 < value' then refuse "IPv4 field has value >255" []
      else checkDotted field (digits + 1) value' false rest
    else if b == ascii '.' then
      if afterPoint || rest.isEmpty then refuse "IPv4 field must have at least one digit" (b :: rest)
      else if field == 3 then refuse "IPv4 address too long" []
      else checkDotted (field + 1) 0 0 true rest
    else refuse "unexpected character" (b :: rest)

/-- Checks a dotted address. -/
def checkIPv4 (t : Text) : Except Defect Unit := checkDotted 0 0 0 true t

/-- The end of a colon address after `filled` bytes: the `::` has to stand for something, and without
it nothing may be missing. -/
def checkFilled (filled : Nat) (ellipsis : Bool) (rest : Text) : Except Defect Unit :=
  if !rest.isEmpty then refuse "trailing garbage after address" rest
  else if filled < 16 then
    if ellipsis then .ok () else refuse "address string too short" []
  else if ellipsis then refuse "the :: must expand to at least one field of zeros" []
  else .ok ()

def isHexDigit (b : UInt8) : Bool := (Text.hexValue? b).isSome

/-- Checks the groups of a colon address, of which `groups` more can follow. -/
def checkGroups (ellipsis : Bool) : (groups : Nat) → Text → Except Defect Unit
  | 0, rest => checkFilled 16 ellipsis rest
  | groups + 1, t =>
    let filled := 16 - 2 * (groups + 1)
    let (digits, rest) := t.span isHexDigit
    if 4 < digits.length then refuse "each group must have 4 or less digits" t
    else if digits.isEmpty then
      refuse "each colon-separated field must have at least one digit" t
    else
      match rest with
      | [] => checkFilled (filled + 2) ellipsis []
      | b :: more =>
        if b == ascii '.' then
          if !ellipsis && filled != 12 then
            refuse "embedded IPv4 address must replace the final 2 fields of the address" t
          else if 16 < filled + 4 then
            refuse "too many hex fields to fit an embedded IPv4 at the end of the address" t
          else do
            checkIPv4 t
            checkFilled (filled + 4) ellipsis []
        else if b != ascii ':' then refuse "unexpected character, want colon" rest
        else
          match more with
          | [] => refuse "colon must be followed by more characters" rest
          | c :: tail =>
            if c == ascii ':' then
              if ellipsis then refuse "multiple :: in address" more
              else if tail.isEmpty then checkFilled (filled + 2) true []
              else checkGroups true groups tail
            else checkGroups ellipsis groups more

/-- Checks a colon address with an optional zone. -/
def checkIPv6 (t : Text) : Except Defect Unit :=
  match Text.cut (ascii '%') t with
  | (_, some []) => refuse "zone must be a non-empty string" []
  | (groups, _) =>
    match Text.after? "::" groups with
    | some [] => .ok ()
    | some rest => checkGroups true 8 rest
    | none => checkGroups false 8 groups

/-- Checks a host from between square brackets. A dotted address is an address but not allowed
there. -/
def checkBracketed (t : Text) : Except Fault Unit :=
  let outcome : Except Defect Bool :=
    match t.find? (isOneOf ".:%") with
    | some b =>
      if b == ascii '.' then (checkIPv4 t).map fun _ => false
      else if b == ascii ':' then (checkIPv6 t).map fun _ => true
      else .error ⟨"missing IPv6 address", []⟩
    | none => .error ⟨"unable to parse IP", []⟩
  match outcome with
  | .ok true => .ok ()
  | .ok false => .error .notIPv6
  | .error defect => .error (.badAddress t defect.cause defect.place)

end Mundart.Url.Address
