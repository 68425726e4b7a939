import LuaAnalysis.Source.Span

/-!
# Registered paths

A `SourceMap` numbers paths in the order in which they are first registered. Two spellings are one
path when they have the same `PathKey`; the first spelling is the one that is kept.
-/

namespace LuaAnalysis

/-- What two spellings of one path have in common. Repeated slashes, a slash at the end, and `.`
between slashes do not matter; a `.` at the very start does, and `..` always does. -/
structure PathKey where
  rooted : Bool
  startsAtDot : Bool
  names : List String
deriving DecidableEq

namespace PathKey

/-- Splits a list of characters at every slash. -/
def pieces : List Char → List (List Char)
  | [] => [[]]
  | c :: rest =>
    match c == '/', pieces rest with
    | true, ps => [] :: ps
    | false, p :: ps => (c :: p) :: ps
    | false, [] => [[c]]

def ofString (path : String) : PathKey :=
  let ps := pieces path.toList
  { rooted := path.toList.head? == some '/'
    startsAtDot := ps.head? == some ['.']
    names := (ps.filter fun p => p != [] && p != ['.']).map String.ofList }

end PathKey

/-- Why a path or a source is refused. -/
inductive SourceError where
  | unknownSource (source : SourceId)
  | unknownPath (path : String)
deriving DecidableEq

def SourceError.message : SourceError → String
  | .unknownSource source => "source " ++ toString source ++ " is not registered"
  | .unknownPath path => "path `" ++ path ++ "` is not registered"

/-- The registered paths; a path's position is its source id. -/
structure SourceMap where
  paths : List String := []

namespace SourceMap

def position? (m : SourceMap) (path : String) : Option SourceId :=
  m.paths.findIdx? fun known => PathKey.ofString known == PathKey.ofString path

/-- Registers a path, or finds the id that a spelling of it already has. -/
def register (m : SourceMap) (path : String) : SourceId × SourceMap :=
  match m.position? path with
  | some id => (id, m)
  | none => (m.paths.length, ⟨m.paths ++ [path]⟩)

def lookup (m : SourceMap) (path : String) : Except SourceError SourceId :=
  match m.position? path with
  | some id => .ok id
  | none => .error (.unknownPath path)

def path (m : SourceMap) (source : SourceId) : Except SourceError String :=
  match m.paths[source]? with
  | some p => .ok p
  | none => .error (.unknownSource source)

def contains (m : SourceMap) (source : SourceId) : Bool :=
  source < m.paths.length

/-- Every id with the spelling it was registered under. -/
def toList (m : SourceMap) : List (SourceId × String) :=
  m.paths.zipIdx.map fun (p, id) => (id, p)

end SourceMap

end LuaAnalysis
