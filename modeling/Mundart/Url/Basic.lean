import Mundart.Url.Address

/-!
# Addresses

An address is read into its parts and written again in a normal form: the scheme in lower case, and
what must be percent encoded encoded. `Url.parse` takes any reference, also a relative one;
`Url.resolve` finds what a reference means on a page.
-/

namespace Mundart

/-- Who asks, as the address tells it. -/
structure Url.User where
  name : Text
  password : Option Text
  deriving DecidableEq, Repr

/-- An address in parts. Host and user are stored decoded, path and fragment as they are written. -/
structure Url where
  scheme : Text := []
  /-- What follows the scheme of an address that has no path, such as a mail address. -/
  remainder : Text := []
  user : Option Url.User := none
  host : Text := []
  /-- Whether the address has a scheme and a path but no host part at all. -/
  hostless : Bool := false
  path : Text := []
  query : Text := []
  /-- Whether a question mark without a query ends the address. -/
  bareQuery : Bool := false
  fragment : Text := []
  deriving DecidableEq, Repr

namespace Url

def User.text (u : User) : Text :=
  escape .userinfo u.name ++
    match u.password with
    | some word => ":" ++ escape .userinfo word
    | none => []

/-! ### Reading

An address is taken apart from the outside: fragment, scheme, query, and then user, host and path. What
cannot stand in a part makes it no address. -/

def isSchemeByte (b : UInt8) : Bool := Text.isLetter b || Text.isDigit b || isOneOf "+-." b

/-- The scheme in front of the first colon, if there is one, and the rest. -/
def takeScheme (t : Text) : Except Fault (Text × Text) :=
  match t.span isSchemeByte with
  | ([], 58 :: _) => .error .noScheme
  | (b :: scheme, 58 :: rest) =>
    if Text.isLetter b then .ok (b :: scheme, rest) else .ok ([], t)
  | _ => .ok ([], t)

/-- Nothing, or a colon and digits. -/
def isPort : Text → Bool
  | [] => true
  | b :: digits => b == ascii ':' && digits.all Text.isDigit

/-- The text before the last `sep` and the text after it. -/
def cutLast? (sep : UInt8) (t : Text) : Option (Text × Text) :=
  match t.reverse.span (· != sep) with
  | (_, []) => none
  | (after, _ :: before) => some (before.reverse, after.reverse)

/-- The zone of a bracketed host starts at the first encoded percent sign. -/
def splitZone (zonePart : Text) : Text → Text × Text
  | [] => (zonePart.reverse, [])
  | b :: t =>
    if (utf8 "%25").isPrefixOf (b :: t) then (zonePart.reverse, b :: t)
    else splitZone (b :: zonePart) t

/-- The decoded host of a written one, with its port. -/
def readHost (t : Text) : Except Fault Text :=
  if t.contains (ascii '[') then
    match cutLast? (ascii ']') t with
    | none => .error .unclosedBracket
    | some (before, port) =>
      if isPort port then do
        let inner := ((cutLast? (ascii '[') before).map (·.2)).getD []
        let (address, zone) := splitZone [] inner
        let name := (← unescape .host address) ++ (← unescape .zone zone)
        Address.checkBracketed name
        return "[" ++ name ++ "]" ++ port
      else .error (.badPort port)
  else
    match cutLast? (ascii ':') t with
    | some (_, digits) =>
      if digits.all Text.isDigit then unescape .host t else .error (.badPort (ascii ':' :: digits))
    | none => unescape .host t

def isUserinfoByte (b : UInt8) : Bool :=
  Text.isLetter b || Text.isDigit b || isOneOf "-._:~!$&'()*+,;=%@" b

def readUser (t : Text) : Except Fault User :=
  if t.all isUserinfoByte then
    match Text.cut (ascii ':') t with
    | (name, none) => do return ⟨← unescape .userinfo name, none⟩
    | (name, some word) => do
      return ⟨← unescape .userinfo name, some (← unescape .userinfo word)⟩
  else .error .badUserinfo

/-- The user and the host between the two slashes and the path. -/
def readAuthority (t : Text) : Except Fault (Option User × Text) :=
  match cutLast? (ascii '@') t with
  | none => do return (none, ← readHost t)
  | some (user, host) => do
    let host ← readHost host
    return (some (← readUser user), host)

/-- The written form of a path or fragment: as it came if all its bytes belong there, else encoded
anew. -/
def normal (part : Part) (t : Text) : Except Fault Text := do
  let meant ← unescape part t
  return if part.wellWritten t then t else escape part meant

/-- The written form of a path. A lone encoded star is the star. -/
def normalPath (t : Text) : Except Fault Text :=
  if t == utf8 "%2A" then .ok "*" else normal .path t

/-- The query of an address without its fragment: what stands before it, the query, and whether it is
only a question mark. -/
def cutQuery (t : Text) : Text × Text × Bool :=
  match Text.cut (ascii '?') t with
  | (before, some []) => (before, [], true)
  | (before, some query) => (before, query, false)
  | (before, none) => (before, [], false)

/-- Reads an address without a fragment. -/
def parseBare (t : Text) : Except Fault Url := do
  if t.any fun b => b < 32 || b == 127 then .error .controlByte
  else if t == utf8 "*" then return { path := "*" }
  else
    let (scheme, rest) ← takeScheme t
    let (rest, query, bareQuery) := cutQuery rest
    let url : Url := { scheme := scheme.toLower, query := query, bareQuery := bareQuery }
    let slash : Text := "/"
    if !slash.isPrefixOf rest && !url.scheme.isEmpty then return { url with remainder := rest }
    else if !slash.isPrefixOf rest && (Text.cut (ascii '/') rest).1.contains (ascii ':') then
      .error .colonInFirstSegment
    else
      match Text.after? "//" rest with
      | some tail =>
        if !url.scheme.isEmpty || !slash.isPrefixOf tail then
          let (authority, path) := tail.span (· != ascii '/')
          let (user, host) ← readAuthority authority
          return { url with user := user, host := host, path := ← normalPath path }
        else return { url with path := ← normalPath rest }
      | none =>
        return { url with hostless := !url.scheme.isEmpty, path := ← normalPath rest }

/-- An address that cannot be read, with the text that was tried. -/
structure Unreadable where
  text : Text
  fault : Fault
  deriving DecidableEq, Repr

def Unreadable.message (u : Unreadable) : Text :=
  "parse " ++ u.text.quoted ++ ": " ++ u.fault.message

/-- Reads an address or a reference to one. -/
def parse (t : Text) : Except Unreadable Url :=
  let (bare, fragment) := Text.cut (ascii '#') t
  match parseBare bare with
  | .error fault => .error ⟨bare, fault⟩
  | .ok url =>
    match normal .fragment (fragment.getD []) with
    | .error fault => .error ⟨t, fault⟩
    | .ok fragment => .ok { url with fragment := fragment }

/-! ### Writing

What was read is kept in its written form where it was well written, so that most parts are put together as
they are. -/

/-- The part of a written address from the slashes to the path. -/
def authorityText (u : Url) : Text :=
  if u.scheme.isEmpty && u.host.isEmpty && u.user.isNone then []
  else if u.hostless && u.host.isEmpty && u.user.isNone then []
  else
    let slashes : Text := if u.host.isEmpty && u.path.isEmpty && u.user.isNone then [] else "//"
    let user : Text := match u.user with
      | some user => user.text ++ "@"
      | none => []
    slashes ++ user ++ escape .host u.host

/-- A path after what stands before it: behind a host it starts with a slash, and a relative path
whose first segment has a colon is marked as one. -/
def pathText (u : Url) (before : Text) : Text :=
  match u.path with
  | [] => []
  | b :: path =>
    if b != ascii '/' && !u.host.isEmpty then "/" ++ b :: path
    else if before.isEmpty && (Text.cut (ascii '/') (b :: path)).1.contains (ascii ':') then
      "./" ++ b :: path
    else b :: path

/-- The text of an address. -/
def text (u : Url) : Text :=
  let scheme : Text := if u.scheme.isEmpty then [] else u.scheme ++ ":"
  let start := scheme ++ u.authorityText
  let body := if u.remainder.isEmpty then start ++ u.pathText start else scheme ++ u.remainder
  let query : Text := if u.bareQuery || !u.query.isEmpty then "?" ++ u.query else []
  let fragment : Text := if u.fragment.isEmpty then [] else "#" ++ u.fragment
  body ++ query ++ fragment

/-- The text of an address that hides a password. -/
def safeText (u : Url) : Text :=
  match u.user with
  | some ⟨name, some _⟩ =>
    let shown := u.scheme ++ "://" ++ ((u.user.map User.text).getD []) ++ "@"
    u.scheme ++ "://" ++ name ++ ":***@" ++ u.text.drop shown.length
  | _ => u.text

/-! ### References

What an address means on the page of another one. Steps within its path are taken first. -/

/-- One segment taken into a path, whose segments stand last first. A dot in front of all others
leaves an empty segment. -/
def addSegment (done : List Text) (segment : Text) : List Text :=
  if segment == utf8 "." then if done.isEmpty then [[]] else done
  else if segment == utf8 ".." then done.tail
  else segment :: done

/-- A path without dot segments. -/
def withoutDots (t : Text) : Text :=
  let segments := Text.splitOn (ascii '/') t
  let last := segments.getLast?.getD []
  let kept := (segments.foldl addSegment []).reverse
  let path : Text := "/" ++ Text.join "/" kept
  let path := if last == utf8 "." || last == utf8 ".." then path ++ "/" else path
  match path with
  | 47 :: 47 :: rest => 47 :: rest
  | path => path

/-- The path that a reference path means beside a base path. -/
def resolvePath (base ref : Text) : Text :=
  let full := match ref with
    | [] => base
    | b :: _ =>
      if b == ascii '/' then ref
      else
        match cutLast? (ascii '/') base with
        | some (folder, _) => folder ++ "/" ++ ref
        | none => ref
  if full.isEmpty then [] else withoutDots full

/-- What a reference means on the page of an address. -/
def resolve (base ref : Url) : Url :=
  let scheme := if ref.scheme.isEmpty then base.scheme else ref.scheme
  if !ref.scheme.isEmpty || !ref.host.isEmpty || ref.user.isSome then
    { ref with scheme := scheme, path := resolvePath ref.path [] }
  else
    let same := ref.path.isEmpty && !ref.bareQuery && ref.query.isEmpty
    let query := if same then base.query else ref.query
    let fragment := if same && ref.fragment.isEmpty then base.fragment else ref.fragment
    let url := { ref with scheme := scheme, query := query, fragment := fragment }
    if ref.path.isEmpty && !base.remainder.isEmpty then { url with remainder := base.remainder }
    else
      { url with host := base.host, user := base.user, path := resolvePath base.path ref.path }

end Url

end Mundart
