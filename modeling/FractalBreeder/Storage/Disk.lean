import FractalBreeder.Storage.Fault
import FractalBreeder.Text.Split

/-!
A disk: a tree of directories and files, reached by paths. A path is resolved name by name, and
each name is looked up in what has to be a directory; what a resolved path leads to may exist or
not.
-/
namespace FractalBreeder

/-- The names on the way to a place, the innermost first; the root has none. -/
abbrev Location := List String

inductive Node where
  | file (bytes : ByteArray)
  | directory

structure Disk where
  nodes : List (Location × Node)
  /-- Where relative paths start. -/
  workplace : Location

namespace Disk

/-- The names in a path; repeated slashes count as one. -/
def names (path : String) : List String :=
  ((Text.split (· = '/') path.toList).filter (!·.isEmpty)).map String.ofList

def start (d : Disk) (path : String) : Location :=
  if path.toList.head? = some '/' then [] else d.workplace

def endsWithSlash (path : String) : Bool := path.toList.getLast? == some '/'

def node? (d : Disk) (loc : Location) : Option Node :=
  if loc.isEmpty then some .directory else d.nodes.lookup loc

def put (d : Disk) (loc : Location) (node : Node) : Disk :=
  { d with nodes := (loc, node) :: d.nodes.filter (·.1 != loc) }

def erase (d : Disk) (loc : Location) : Disk :=
  { d with nodes := d.nodes.filter (·.1 != loc) }

/-- One name further. -/
def step (d : Disk) (loc : Location) (name : String) : Except IoFault Location :=
  match d.node? loc with
  | none => .error .notFound
  | some (.file _) => .error .notADirectory
  | some .directory =>
    if name = "." then .ok loc
    else if name = ".." then .ok loc.tail
    else if 255 < name.utf8ByteSize then .error .nameTooLong
    else .ok (name :: loc)

/-- What is wrong with a path whatever the disk holds. -/
def flaw? (path : String) : Option IoFault :=
  if path.toList.contains '\x00' then some .zeroInName
  else if path.isEmpty then some .notFound
  else if 4095 < path.utf8ByteSize then some .nameTooLong
  else none

def resolve (d : Disk) (path : String) : Except IoFault Location :=
  match flaw? path with
  | some fault => .error fault
  | none => (names path).foldlM d.step (d.start path)

/-- What a path leads to. -/
def stat (d : Disk) (path : String) : Except IoFault (Location × Node) := do
  let loc ← d.resolve path
  match d.node? loc with
  | none => .error .notFound
  | some (.file bytes) =>
    if endsWithSlash path then .error .notADirectory else .ok (loc, .file bytes)
  | some .directory => .ok (loc, .directory)

def exists? (d : Disk) (path : String) : Bool := (d.stat path).isOk

/-- The length of a file; a directory takes one block. -/
def size (d : Disk) (path : String) : Except IoFault Nat := do
  match (← d.stat path).2 with
  | .file bytes => .ok bytes.size
  | .directory => .ok 4096

def read (d : Disk) (path : String) : Except IoFault ByteArray := do
  match (← d.stat path).2 with
  | .file bytes => .ok bytes
  | .directory => .error .isADirectory

/-- Makes a file or replaces its content. -/
def write (d : Disk) (path : String) (bytes : ByteArray) : Except IoFault Disk := do
  let loc ← d.resolve path
  if endsWithSlash path then .error .isADirectory
  else match d.node? loc with
    | some .directory => .error .isADirectory
    | _ => .ok (d.put loc (.file bytes))

def remove (d : Disk) (path : String) : Except IoFault Disk := do
  match ← d.stat path with
  | (loc, .file _) => .ok (d.erase loc)
  | (_, .directory) => .error .isADirectory

/-- Makes the place that names lead to a directory. -/
def makePlace (d : Disk) (start : Location) (names : List String) : Except IoFault Disk := do
  let loc ← names.foldlM d.step start
  match d.node? loc with
  | none => .ok (d.put loc .directory)
  | some _ => .error .alreadyExists

def makeDirectory (d : Disk) (path : String) : Except IoFault Disk :=
  match flaw? path with
  | some fault => .error fault
  | none => d.makePlace (d.start path) (names path)

def isDirectory (d : Disk) (start : Location) (names : List String) : Bool :=
  match names.foldlM d.step start with
  | .ok loc => match d.node? loc with
    | some .directory => true
    | _ => false
  | .error _ => false

/-- Makes a directory unless it is there. -/
def ensurePlace (d : Disk) (start : Location) (names : List String) : Disk × Except IoFault Unit :=
  match d.makePlace start names with
  | .ok d => (d, .ok ())
  | .error fault => (d, if d.isDirectory start names then .ok () else .error fault)

/-- Makes a directory, and if there is no way to it, the one before it first; `before` holds the names
on the way to that one, the last of them first. What was made before a fault stays. -/
def makeAlong (d : Disk) (start : Location) (names : List String) :
    List String → Disk × Except IoFault Unit
  | [] => d.ensurePlace start names
  | name :: before =>
    match d.ensurePlace start names with
    | (_, .error .notFound) =>
      match d.makeAlong start (name :: before).reverse before with
      | (d, .ok ()) => d.ensurePlace start names
      | failed => failed
    | done => done

/-- The names in a path that lead somewhere; one for the place itself does so only in front. -/
def properNames : List String → List String
  | [] => []
  | name :: rest => name :: rest.filter (· != ".")

/-- The empty path needs no directory. -/
def makeDirectories (d : Disk) (path : String) : Disk × Except IoFault Unit :=
  if path.isEmpty then (d, .ok ())
  else match flaw? path with
    | some fault => (d, .error fault)
    | none => d.makeAlong (d.start path) (names path) (properNames (names path)).dropLast.reverse

/-- The names and lengths of the files right in a directory. -/
def files (d : Disk) (loc : Location) : List (String × Nat) :=
  d.nodes.filterMap fun
    | (name :: parent, .file bytes) => if parent = loc then some (name, bytes.size) else none
    | _ => none

end Disk

end FractalBreeder
