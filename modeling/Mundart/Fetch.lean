import Mundart.Url.Basic
import Mundart.Http.Status
import Mundart.Value.Json
import Mundart.Run.Action
import Mundart.Time.Basic

/-!
# Fetching over HTTP

A fetch asks a network for an address, follows redirects, and turns the body of a good answer into a
value: JSON becomes the value it writes, everything else stays text. The network itself is a
parameter, a function from addresses to what comes back.
-/

namespace Mundart

namespace Fetch

/-- The longest body that is taken, in bytes. -/
def maxBody : Nat := 2 * 1024 * 1024

/-- How many requests one fetch may take. -/
def maxRequests : Nat := 10

/-- How long a fetch may take when nothing else is said. -/
def defaultTimeout : Span := 10 * Span.second

/-- An answer of a server. -/
structure Reply where
  status : Int := 200
  contentType : Text := []
  /-- Where a redirect leads to. -/
  location : Text := []
  body : Text := []
  /-- Why the rest of the body did not arrive, if it broke off. -/
  broken : Option Text := none

/-- What a request for an address leads to. -/
inductive Exchange where
  | answered (reply : Reply)
  | failed (cause : Text)
  /-- Nobody answers before the time is over. -/
  | silent

abbrev Network := Text → Exchange

/-- Why there is no answer to a fetch. -/
inductive Trouble where
  | failed (address cause : Text)
  | timeout

/-- Whether an answer only tells where to ask instead. -/
def Reply.redirects (r : Reply) : Bool :=
  [301, 302, 303, 307, 308].contains r.status && !r.location.isEmpty

/-- Asks for an address and follows redirects, with so many requests left after the first. -/
def request (net : Network) : (left : Nat) → Url → Except Trouble Reply
  | left, url =>
    match net url.text with
    | .failed cause => .error (.failed url.safeText cause)
    | .silent => .error .timeout
    | .answered r =>
      if r.redirects then
        match Url.parse r.location, left with
        | .error e, _ =>
          .error (.failed url.safeText
            ("failed to parse Location header " ++ r.location.quoted ++ ": " ++ e.message))
        | .ok _, 0 =>
          .error (.failed r.location ("stopped after " ++ Text.ofNat maxRequests ++ " redirects"))
        | .ok target, left + 1 => request net left (url.resolve target)
      else .ok r

/-- Whether a body starts like a JSON object, array or string. -/
def looksLikeJson (body : Text) : Bool :=
  match body.dropWhile (Url.isOneOf " \t\n\r") with
  | b :: _ => Url.isOneOf "\x7b[\"" b
  | [] => false

/-- The value of a body. -/
def bodyValue (contentType body : Text) : Value :=
  let json := if Text.hasPart "json" contentType || looksLikeJson body
    then (Json.read? body).bind (Value.ofJson? .rounded) else none
  json.getD (.text body)

/-- The address that is asked for first. A colon without a port after the host is dropped. -/
def firstUrl (raw : Text) : Except Failure Url :=
  let bad := Failure.mismatch (.badUrl raw)
  match Url.parse raw with
  | .error _ => .error bad
  | .ok url =>
    if (url.scheme == utf8 "http" || url.scheme == utf8 "https") && !url.host.isEmpty then
      match Url.parse url.text with
      | .ok url => .ok { url with host := Text.dropEnding ":" url.host }
      | .error e => .error (.fetch 0 ("Anfrage an " ++ raw ++ " ging ned: " ++ e.message))
    else .error bad

/-- Fetches an address. -/
def get (net : Network) (timeout : Span) (raw : Text) : Except Failure Value := do
  let url ← firstUrl raw
  match request net (maxRequests - 1) url with
  | .error .timeout =>
    .error (.fetch 0 ("Zeitüberschreitung bei " ++ raw ++ " nach " ++ timeout.exactText))
  | .error (.failed address cause) =>
    .error (.fetch 0 ("Anfrage an " ++ raw ++ " fehlgeschlagen: Get " ++ address.quoted ++ ": " ++ cause))
  | .ok r =>
    if maxBody < r.body.length then
      .error (.fetch r.status
        ("Antwort von " ++ raw ++ " größer als " ++ Text.ofNat maxBody ++ " Bytes"))
    else
      match r.broken with
      | some cause => .error (.fetch r.status ("Antwort von " ++ raw ++ " ned lesbar: " ++ cause))
      | none =>
        if r.status == 200 then .ok (bodyValue r.contentType r.body)
        else
          .error (.fetch r.status
            ("HTTP " ++ Text.ofInt r.status ++ ": " ++ utf8 (Http.statusPhrase r.status)))

end Fetch

/-- The fetcher of a place with network access. A timeout that is not positive means the usual one. -/
def Fetcher.http (net : Fetch.Network) (timeout : Span) : Fetcher := fun raw =>
  let timeout := if timeout ≤ 0 then Fetch.defaultTimeout else timeout
  { result := Fetch.get net timeout raw }

end Mundart
