import FractalBreeder.Console.Basic
import FractalBreeder.Settings.File

/-!
The console as a program. An argument names a file of settings. Pictures are left to be rendered
by others, so every slot waits for its picture.
-/
namespace FractalBreeder

/-- A disk that holds one file, under the given path. -/
def diskWith (path : String) (bytes : ByteArray) : Disk :=
  let disk : Disk := ⟨[(["work"], .directory)], ["work"]⟩
  match disk.write path bytes with
  | .ok disk => disk
  | .error _ => disk

def settingsOf (args : List String) : IO (Except Failure Settings) :=
  match args with
  | [] => pure (.ok {})
  | path :: _ => do
    let bytes ← IO.FS.readBinFile path
    pure (Settings.load (diskWith "settings.toml" bytes) [] "settings.toml")

partial def converse (s : Session) : IO Unit := do
  let (s, shown) := Console.prompt s
  let output ← IO.getStdout
  output.putStr shown
  output.flush
  let line ← (← IO.getStdin).getLine
  if line.isEmpty then return
  match Command.ofLine? line with
  | none => converse s
  | some .quit => return
  | some command =>
    let (s, lines) := Console.execute Console.idleRenderer s command
    output.putStr (Console.unlines lines)
    converse s

end FractalBreeder

open FractalBreeder in
def main (args : List String) : IO UInt32 := do
  match ← settingsOf args with
  | .error fault =>
    IO.eprintln s!"Error: {fault.message}"
    pure 1
  | .ok settings =>
    let seed ← match settings.seed with
      | some seed => pure seed
      | none => do pure (UInt64.ofNat (← IO.rand 0 (UInt64.size - 1)))
    IO.println Console.help
    converse (Session.new settings seed ⟨[(["work"], .directory)], ["work"]⟩)
    pure 0
