import FractalBreeder.Console.Command
import FractalBreeder.Session.Run

/-!
A session on a text console: before each command it reports what was rendered and shows the
generation in the prompt, and every command writes some lines.
-/
namespace FractalBreeder.Console

def help : String := "commands:
  new              breed the next generation from the selection
  select <i>...    replace the selection (slots 0-8)
  toggle <i>       flip one slot in the selection
  back | forward   move through generation history
  show             list the current generation
  draw <i>         request or report the image for a slot
  gl <i>           open a slot in the interactive renderer
  quit"

def eventLine? : RenderEvent → Option String
  | .ready slot _ attempts _ => some s!"slot {slot} ready after {attempts} render(s)"
  | .failed slot _ reason => some s!"slot {slot} failed: {reason}"
  | _ => none

def formulaLines (genome : Genome) : List String :=
  (genome.entries.filter fun (axis, _) => axis = .x ∨ axis = .y ∨ axis = .z).map
    fun (axis, f) => s!"     {axis.label} = {f.text}"

/-- One line for the fractal of a slot, and one for each of its formulas in space. -/
def slotLines (s : Session) (slot : Nat) : List String :=
  match s.fractal? slot with
  | none => []
  | some f =>
    let mark := if s.history.picks.contains slot then "*" else " "
    s!"{mark}{slot} {f.id} {f.state.name} [{f.pedigree.operation.name}]" :: formulaLines f.genome

def drawingLine (slot : Nat) : Drawing → String
  | .image image => s!"{slot}: {image.identity} ({image.size} bytes)"
  | .placeholder => s!"{slot}: not ready"

/-- The session goes on with the renderer until nothing can move. -/
def proceed (renderer : Renderer) (s : Session) : Session := s.run renderer 1000000000

/-- Asks for the pictures of the slots one after another. -/
def drawAll (renderer : Renderer) (s : Session) : List Nat → Session × List String
  | [] => (s, [])
  | slot :: rest =>
    let (s, drawing) := s.draw slot
    let (s, lines) := drawAll renderer (proceed renderer s) rest
    (s, drawingLine slot drawing :: lines)

/-- Does a command and tells the lines that it writes. -/
def execute (renderer : Renderer) (s : Session) : Command → Session × List String
  | .breed => (proceed renderer s.generate, [])
  | .select slots => (s.select (Picks.ofSlots slots), [])
  | .toggle (some slot) => (s.toggle slot, [])
  | .back =>
    let (s, moved) := s.goBack
    (proceed renderer s, if moved then [] else ["already at the first generation"])
  | .forward =>
    let (s, moved) := s.goForward
    (proceed renderer s, if moved then [] else ["already at the latest generation"])
  | .list => (s, (List.range generationSize).flatMap (slotLines s))
  | .draw slots => drawAll renderer s slots
  | .toggle none | .view _ | .quit => (s, [])
  | .unknown => (s, [help])

def unlines (lines : List String) : String := String.join (lines.map (· ++ "\n"))

/-- What is written before a command is read: new events, and the prompt. -/
def prompt (s : Session) : Session × String :=
  let (s, events) := s.report
  (s, unlines (events.filterMap eventLine?)
    ++ s!"gen {s.history.number}/{s.history.total}> ")

/-- What is written for the lines of an input, from a prompt on. -/
def dialogue (renderer : Renderer) (s : Session) : List String → List String
  | [] => [(prompt s).2]
  | line :: rest =>
    let (s, shown) := prompt s
    match Command.ofLine? line with
    | none => shown :: dialogue renderer s rest
    | some .quit => [shown]
    | some command =>
      let (s, lines) := execute renderer s command
      shown :: unlines lines :: dialogue renderer s rest

/-- All that a session on the console writes. -/
def transcript (renderer : Renderer) (s : Session) (lines : List String) : String :=
  help ++ "\n" ++ String.join (dialogue renderer s lines)

/-- A renderer that never finishes a picture. -/
def idleRenderer : Renderer := fun _ _ _ => ⟨true, .returned none (.error .cancelled)⟩

end FractalBreeder.Console
