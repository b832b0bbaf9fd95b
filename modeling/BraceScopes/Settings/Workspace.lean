import BraceScopes.Settings.Basic
/-!
Finding the settings of a workspace among its files. Paths are lists of names below the root of the
workspace.
-/
namespace BraceScopes

structure Workspace where
  files : List (List String × String)
  dirs : List (List String)

/-- Where settings are looked for. -/
inductive Location where
  /-- A file or directory of the workspace. -/
  | inside (path : List String)
  /-- A path below the root that leads nowhere, as it was written. -/
  | nowhere (path : String)
  /-- A path outside the workspace, as it was written. -/
  | outside (path : String)
deriving DecidableEq

namespace Location

/-- A location as a path, with the root as given. -/
def toString (root : String) : Location → String
  | .inside path => "/".intercalate (root :: path)
  | .nowhere path => root ++ "/" ++ path
  | .outside path => path

end Location

namespace Workspace

def file? (w : Workspace) (path : List String) : Option String := w.files.lookup path

/-- Whether a path is a directory: the root, one that is listed, or one on the way to what is listed. -/
def isDir (w : Workspace) (path : List String) : Bool :=
  path.isEmpty || w.dirs.any path.isPrefixOf
    || w.files.any fun f => path.isPrefixOf f.1 && path.length < f.1.length

/-- Goes on from a directory by one name. A file leads no further. -/
def enter? (w : Workspace) (path : List String) (name : String) : Option (List String) :=
  if !w.isDir path then none
  else if name = "" ∨ name = "." then some path
  else if name = ".." then if path.isEmpty then none else some path.dropLast
  else if w.isDir (path ++ [name]) ∨ (w.file? (path ++ [name])).isSome then some (path ++ [name])
  else none

def names (path : String) : List String := (path.toList.splitOn '/').map String.ofList

/-- The file or directory that a path below the root leads to. -/
def resolve? (w : Workspace) (path : String) : Option (List String) :=
  (names path).foldlM w.enter? []

def locate (w : Workspace) (path : String) : Location :=
  match w.resolve? path with
  | some found => .inside found
  | none => .nowhere path

/-- What is left after the characters of `front`, if a list begins with them. -/
def dropFront (front cs : List Char) : Option (List Char) :=
  if front.isPrefixOf cs then some (cs.drop front.length) else none

/-- A path that was asked for instead of the usual ones. -/
inductive Override where
  | relative (path : String)
  /-- A path from the root of the workspace. -/
  | fromRoot (path : String)
  /-- Any other absolute path. -/
  | absolute (path : String)
deriving DecidableEq

/-- Reads the path that was asked for, where `root` is the root of the workspace. -/
def Override.ofString (root path : String) : Override :=
  match dropFront root.toList path.toList with
  | some [] => .fromRoot ""
  | some ('/' :: rest) => .fromRoot (String.ofList rest)
  | _ => if path.toList.head? = some '/' then .absolute path else .relative path

/-- The usual places of settings, in the order in which they are tried. -/
def usual : List (List String) := [["jscope.toml"], [".jscope", "config.toml"]]

/-- Where the settings are: at the path asked for, else in the first of the usual places with a file. -/
def discover (w : Workspace) (asked : Option Override) : Option Location :=
  match asked with
  | some (.relative path) => some (w.locate path)
  | some (.fromRoot path) => some (w.locate path)
  | some (.absolute path) => some (.outside path)
  | none => (usual.find? fun path => (w.file? path).isSome).map .inside

def read? (w : Workspace) : Location → Option String
  | .inside path => w.file? path
  | .nowhere _ => none
  | .outside _ => none

/-- The settings and where they are from; the usual ones when there is no file. -/
def load (w : Workspace) (asked : Option Override) : Except SettingsError (Settings × Option Location) :=
  match w.discover asked with
  | none => .ok ({}, none)
  | some location =>
    match w.read? location with
    | none => .error .unreadable
    | some document => (Settings.ofToml document).map fun s => (s, some location)

end Workspace

end BraceScopes
