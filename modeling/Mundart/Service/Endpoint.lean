import Mundart.Http.Message

/-!
# Endpoints

Every request that the service understands means one endpoint. Paths are compared segment by segment
without regard to case; slashes at the end do not count, and the part of a path that names something
is taken as it is written.
-/

namespace Mundart

/-- What a request asks for. -/
inductive Endpoint where
  | eval
  | createScript
  | listScripts
  | getScript (id : Text)
  | updateScript (id : Text)
  | deleteScript (id : Text)
  | createRun (script : Text)
  | listRuns (script : Text)
  | getRun (script run : Text)
  | cancelRun (script run : Text)
  | dashboard
  | scriptPage (id : Text)
  | runPage (script run : Text)
  | playground
  | tryProgram
  | home
  deriving DecidableEq, Repr

namespace Endpoint

/-- The methods of HTTP. -/
inductive Method where
  | get | head | post | put | delete | connect | options | trace | patch
  deriving DecidableEq, Repr

def Method.all : List Method :=
  [.get, .head, .post, .put, .delete, .connect, .options, .trace, .patch]

def Method.name : Method → Text
  | .get => "GET"
  | .head => "HEAD"
  | .post => "POST"
  | .put => "PUT"
  | .delete => "DELETE"
  | .connect => "CONNECT"
  | .options => "OPTIONS"
  | .trace => "TRACE"
  | .patch => "PATCH"

def Method.ofName? (name : Text) : Option Method := Method.all.find? fun m => m.name == name

/-- A piece of a path: a word, or a name of something, perhaps with a word behind it. -/
inductive Piece where
  | word (w : String)
  | name
  | nameBefore (ending : String)
  deriving DecidableEq, Repr

/-- The text before the first place where a word stands, if the word ends the text there. -/
def beforeEnding? (ending : Text) (done : Text) : Text → Option Text
  | [] => none
  | b :: t =>
    if ending.isPrefixOf (Text.toLower (b :: t)) then
      if ending.length = (b :: t).length && !done.isEmpty then some done.reverse else none
    else beforeEnding? ending (b :: done) t

/-- What a segment names when it fits a piece. -/
def Piece.fit (segment : Text) : Piece → Option (List Text)
  | .word w => if segment.toLower == utf8 w then some [] else none
  | .name => if segment.isEmpty then none else some [segment]
  | .nameBefore ending => (beforeEnding? (utf8 ending) [] segment).map ([·])

/-- What a path names when its segments fit. -/
def fitPath : List Piece → List Text → Option (List Text)
  | [], [] => some []
  | p :: ps, s :: segments => do
    let names ← p.fit s
    let more ← fitPath ps segments
    pure (names ++ more)
  | _, _ => none

structure Route where
  method : Method
  pieces : List Piece
  /-- The endpoint for the names in the path. -/
  endpoint : List Text → Option Endpoint

/-- A route whose path names nothing. -/
def Route.fixed (method : Method) (path : List String) (e : Endpoint) : Route :=
  ⟨method, path.map .word, fun _ => some e⟩

/-- A route whose path names one thing. -/
def Route.one (method : Method) (pieces : List Piece) (e : Text → Endpoint) : Route :=
  ⟨method, pieces, fun
    | [a] => some (e a)
    | _ => none⟩

/-- A route whose path names two things. -/
def Route.two (method : Method) (pieces : List Piece) (e : Text → Text → Endpoint) : Route :=
  ⟨method, pieces, fun
    | [a, b] => some (e a b)
    | _ => none⟩

def routes : List Route :=
  let script : List Piece := [.word "v1", .word "scripts", .name]
  let runs := script ++ [.word "runs"]
  [ .fixed .post ["v1", "eval"] .eval,
    .fixed .post ["v1", "scripts"] .createScript,
    .fixed .get ["v1", "scripts"] .listScripts,
    .one .get script .getScript,
    .one .patch script .updateScript,
    .one .delete script .deleteScript,
    .one .post runs .createRun,
    .one .get runs .listRuns,
    .two .get (runs ++ [.name]) .getRun,
    .two .post (runs ++ [.nameBefore ":cancel"]) .cancelRun,
    .fixed .get ["ui"] .dashboard,
    .one .get [.word "ui", .word "scripts", .name] .scriptPage,
    .two .get [.word "ui", .word "runs", .name, .name] .runPage,
    .fixed .get ["ui", "playground"] .playground,
    .fixed .post ["ui", "playground"] .tryProgram,
    .fixed .get [] .home ]

/-- The segments of a path; none if it does not start with a slash. -/
def segments? (path : Text) : Option (List Text) :=
  match path with
  | [] => none
  | b :: rest =>
    if b != ascii '/' then none
    else if rest.isEmpty then some []
    else
      match (path.reverse.dropWhile (· == ascii '/')).reverse with
      | [] => none
      | trimmed => some ((Text.splitOn (ascii '/') trimmed).drop 1)

/-- The endpoint of a method and a path. A request for the head of something is one for the thing. -/
def find? (method : Method) (path : Text) : Option Endpoint :=
  let method := if method = .head then .get else method
  match segments? path with
  | none => none
  | some segments =>
    routes.findSome? fun r =>
      if r.method = method then (fitPath r.pieces segments).bind r.endpoint else none

/-- Whether some other method would find an endpoint at a path. -/
def existsAt (path : Text) : Bool := Method.all.any fun m => (find? m path).isSome

end Endpoint

end Mundart
