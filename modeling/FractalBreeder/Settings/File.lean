import FractalBreeder.Failure
import FractalBreeder.Settings.Layers
import FractalBreeder.Storage.Disk
import FractalBreeder.Toml.Reader
import FractalBreeder.Toml.Writer

/-!
Settings in files: loading a file together with the environment, and saving.
-/
namespace FractalBreeder.Settings

def isFile (disk : Disk) (path : String) : Bool :=
  match disk.stat path with
  | .ok (_, .file _) => true
  | _ => false

/-- A name has an extension when there is a point behind its first character. -/
def hasExtension (name : List Char) : Bool := name.tail.contains '.'

/-- The path of what has the same name and an extension. Slashes and points that stand alone at the
end of a path add nothing to its name, unless it has another extension already. The way up has no
name. -/
def withExtension? (path : String) : Option String :=
  let pieces := Text.split (· = '/') path.toList
  match pieces.reverse.dropWhile fun piece => piece = [] ∨ piece = ['.'] with
  | [] => none
  | name :: way =>
    if name = ['.', '.'] || (hasExtension name && way.length + 1 < pieces.length) then none
    else some (String.ofList (['/'].intercalate (name :: way).reverse) ++ ".toml")

/-- The file that is meant by a path; its extension may be left out. -/
def locate? (disk : Disk) (path : String) : Option String :=
  if isFile disk path then some path
  else (withExtension? path).filter (isFile disk ·)

/-- The fields of a file. A mark of the byte order at the beginning of the file is not part of its
text. -/
def readFile? (disk : Disk) (path : String) : Option Fields := do
  let path ← locate? disk path
  let bytes ← (disk.read path).toOption
  let text ← String.fromUTF8? bytes
  Toml.read? (String.ofList (Toml.dropMark text.toList))

def check (s : Settings) : Except Failure Settings :=
  match s.fault? with
  | some fault => .error (.settings fault)
  | none => .ok s

/-- The valid settings of a file and the environment. -/
def load (disk : Disk) (environment : List (String × String)) (path : String) :
    Except Failure Settings :=
  match (do ofLayers? (← readFile? disk path) environment) with
  | some s => s.check
  | none => .error .unreadableSettings

/-- The line of the seed, if there is one, and an empty line behind it. -/
def seedLines? : Option UInt64 → Option (List Char)
  | none => some []
  | some seed => (Toml.writeLine? "seed" (.int seed.toNat)).map (· ++ ['\n'])

/-- The text of a file that holds all settings. -/
def written? (s : Settings) : Option String := do
  let seed ← seedLines? s.seed
  let genetic ← Toml.writeTable? "genetics" s.genetic.toFields
  let render ← Toml.writeTable? "render" s.render.toFields
  pure (String.ofList (seed ++ genetic ++ '\n' :: render))

def save (s : Settings) (disk : Disk) (path : String) : Except Failure Disk :=
  match s.written? with
  | none => .error .unwritableSettings
  | some text => (disk.write path text.toUTF8).mapError .unsaved

end FractalBreeder.Settings
