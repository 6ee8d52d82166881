import FractalBreeder.Rendering.Renderer
import FractalBreeder.Rendering.StopFlag
import FractalBreeder.Storage.Disk

/-!
The external renderer as a program: its command line, how it is found, and how a run of it is
watched. Times are in milliseconds after the start.
-/
namespace FractalBreeder

inductive ExitStatus where
  | code (n : Nat)
  | signal (n : Nat)
  deriving DecidableEq, Repr

namespace ExitStatus

def signalNames : List (Nat × String) :=
  [(1, "SIGHUP"), (2, "SIGINT"), (3, "SIGQUIT"), (4, "SIGILL"), (5, "SIGTRAP"), (6, "SIGABRT"),
    (7, "SIGBUS"), (8, "SIGFPE"), (9, "SIGKILL"), (10, "SIGUSR1"), (11, "SIGSEGV"),
    (12, "SIGUSR2"), (13, "SIGPIPE"), (14, "SIGALRM"), (15, "SIGTERM")]

def text : ExitStatus → String
  | code n => s!"exit status: {n}"
  | signal n => match signalNames.lookup n with
    | some name => s!"signal: {n} ({name})"
    | none => s!"signal: {n}"

end ExitStatus

inductive Program where
  | ends (after : Nat) (status : ExitStatus)
  | hangs
  deriving DecidableEq, Repr

/-- The programs that can be run, by the names under which they are found. -/
abbrev Programs := List (String × Program)

namespace Program

def hasZero (s : String) : Bool := s.toList.contains '\x00'

/-- A name without a slash is not looked for on the disk, where nothing can be run. -/
def find (programs : Programs) (disk : Disk) (path : String) : Except IoFault Program :=
  match programs.lookup path with
  | some program => .ok program
  | none =>
    if path.toList.contains '/' then
      match disk.stat path with
      | .error fault => .error fault
      | .ok _ => .error .permissionDenied
    else if path = "." ∨ path = ".." then .error .permissionDenied
    else if 255 < path.utf8ByteSize then .error .nameTooLong
    else .error .notFound

/-- Starts a program. Zero characters can stand nowhere on a command line. -/
def launch (programs : Programs) (disk : Disk) (path : String) (arguments : List String) :
    Except Failure Program :=
  let found : Except IoFault Program :=
    if (path :: arguments).any hasZero then .error (.reported "nul byte found in provided data")
    else find programs disk path
  match found with
  | .ok program => .ok program
  | .error fault => .error (.renderer s!"Failed to launch {path}: {fault.text}")

/-- The arguments that ask for a picture of a request. -/
def saveArguments (settings : RenderSettings) (request : Request) : List String :=
  ["-save", "-p", toString settings.points, "-s", toString settings.width, toString settings.height,
    request.stem] ++ request.arguments

/-- The command line for a request as it is shown. -/
def commandLine (settings : RenderSettings) (request : Request) : List String :=
  (settings.rendererPath :: saveArguments settings request).map fun s =>
    if hasZero s then "<string-with-nul>" else s

/-- What is seen of a run at a time, if it is over then: the end of the program comes before a
request to stop, and this before the time limit. -/
def seenAt (settings : RenderSettings) (identity : String) (stopAt : Option Nat) (time : Nat)
    (program : Program) : Option (Except Failure Unit) :=
  let ended := match program with
    | .ends after status => if after ≤ time then some status else none
    | .hangs => none
  match ended with
  | some (.code 0) => some (.ok ())
  | some status => some (.error (.renderer s!"Renderer exited with {status.text} for {identity}"))
  | none =>
    if stopAt.any (· ≤ time) then some (.error .cancelled)
    else if settings.timeoutMs ≤ time then some (.error (.timeout settings.timeoutSecs))
    else none

/-- Looks at a run in regular intervals; the time limit ends every run. -/
def watchFrom (settings : RenderSettings) (identity : String) (stopAt : Option Nat)
    (program : Program) (time : Nat) : Except Failure Unit :=
  match seenAt settings identity stopAt time program with
  | some result => result
  | none =>
    if time < settings.timeoutMs then
      watchFrom settings identity stopAt program (time + max 1 settings.pollIntervalMs.toNat)
    else .error (.timeout settings.timeoutSecs)
termination_by settings.timeoutMs - time

/-- Renders one picture. The flag is looked at before the program is started; `stopAt` is the time
at which it is raised later. -/
def render (programs : Programs) (disk : Disk) (settings : RenderSettings) (request : Request)
    (flag : StopFlag) (stopAt : Option Nat) : Except Failure Unit := do
  flag.check
  let program ← launch programs disk settings.rendererPath (saveArguments settings request)
  watchFrom settings request.identity stopAt program 0

end Program

end FractalBreeder
