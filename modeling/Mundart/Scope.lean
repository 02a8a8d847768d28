import Mundart.Failure
import Mundart.Node.Basic

/-!
# Scopes

A scope is a chain of frames, the innermost first. Lookups walk the chain; definitions always land
in the innermost frame. Variables and functions are named apart from each other. A function call
runs in a new frame on top of its caller's scope, so names are resolved where a function is called,
not where it is written.

`Scopes` is a collection of named frames that can be linked freely; each of them has a scope, namely
the chain of its ancestors.
-/

namespace Mundart

/-- A function as it was defined. -/
structure Function where
  name : Text
  params : List Text
  body : Program
  deriving Repr, Inhabited

structure Frame where
  vars : Dict Value := []
  funcs : Dict Function := []
  deriving Repr, Inhabited

/-- Frames from the innermost to the outermost. -/
abbrev Scope := List Frame

namespace Scope

/-- The scope of a program that starts. -/
def root : Scope := [{}]

def lookupVar? (s : Scope) (name : Text) : Option Value := s.findSome? fun f => f.vars.get? name

def lookupFunc? (s : Scope) (name : Text) : Option Function :=
  s.findSome? fun f => f.funcs.get? name

def getVar (s : Scope) (name : Text) : Except Failure Value :=
  match s.lookupVar? name with
  | some v => .ok v
  | none => .error (.unknownVariable name)

def getFunc (s : Scope) (name : Text) : Except Failure Function :=
  match s.lookupFunc? name with
  | some f => .ok f
  | none => .error (.unknownFunction name)

/-- Changes the innermost frame. -/
def onTop (s : Scope) (change : Frame → Frame) : Scope :=
  match s with
  | [] => [change {}]
  | f :: fs => change f :: fs

def defineVar (s : Scope) (name : Text) (v : Value) : Scope :=
  s.onTop fun f => { f with vars := f.vars.set name v }

def defineFunc (s : Scope) (fn : Function) : Scope :=
  s.onTop fun f => { f with funcs := f.funcs.set fn.name fn }

/-- All visible variables: inner definitions written over outer ones. -/
def snapshot (s : Scope) : Dict Value :=
  s.reverse.foldl (fun d f => f.vars.foldl (fun d e => d.set e.1 e.2) d) []

/-- The names of all visible functions in ascending order, each once. -/
def functionNames (s : Scope) : List Text :=
  let names := s.flatMap fun f => f.funcs.keys
  names.eraseDups.mergeSort fun a b => !Text.before b a

end Scope

/-- A frame in a collection of linked frames. -/
structure LinkedFrame where
  parent : Option Text := none
  frame : Frame := {}

/-- Frames under names, each perhaps with another one as its parent. -/
abbrev Scopes := Dict LinkedFrame

namespace Scopes

/-- The scope of a named frame: itself and its ancestors. The number of frames bounds the chain. -/
def chain (fs : Scopes) : Nat → Option Text → Scope
  | 0, _ => []
  | _ + 1, none => []
  | n + 1, some name =>
    match fs.get? name with
    | some f => f.frame :: chain fs n f.parent
    | none => []

def scopeOf (fs : Scopes) (name : Text) : Scope := fs.chain fs.length (some name)

/-- A new root frame under a name. -/
def create (fs : Scopes) (name : Text) : Scopes := fs.set name {}

/-- A new frame whose parent is another one. -/
def createChild (fs : Scopes) (parent name : Text) : Scopes := fs.set name { parent := some parent }

/-- Links a frame to a parent, or to none. -/
def setParent (fs : Scopes) (name : Text) (parent : Option Text) : Scopes :=
  match fs.get? name with
  | some f => fs.set name { f with parent := parent }
  | none => fs

/-- Changes the frame under a name. -/
def onFrame (fs : Scopes) (name : Text) (change : Frame → Frame) : Scopes :=
  match fs.get? name with
  | some f => fs.set name { f with frame := change f.frame }
  | none => fs

def defineVar (fs : Scopes) (name var : Text) (v : Value) : Scopes :=
  fs.onFrame name fun f => { f with vars := f.vars.set var v }

def defineFunc (fs : Scopes) (name : Text) (fn : Function) : Scopes :=
  fs.onFrame name fun f => { f with funcs := f.funcs.set fn.name fn }

end Scopes

end Mundart
