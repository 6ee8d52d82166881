import FractalBreeder.Rendering.Job
import FractalBreeder.Rendering.Readiness
import FractalBreeder.Population.Picks

/-!
The studio: the fractals of a session, the disk, and the jobs that render. One worker directs the
jobs; it works through an agenda of small tasks, and its tasks may be interleaved with the steps
of the jobs in any way.
-/
namespace FractalBreeder

/-- One task of the director. Fractals and jobs are named by their places in the lists of the
studio. -/
inductive Task where
  | raise (job : Nat)
  /-- Wait until a job is over. -/
  | join (job : Nat)
  /-- Put a fractal that was left in the middle of rendering back to where it started. -/
  | restore (job : Nat)
  | clear
  /-- Render a fractal that still needs a picture. -/
  | visit (slot fractal : Nat)
  /-- Let go of the jobs that are over. -/
  | reap
  | claim (slot fractal : Nat)
  | mark (slot : Nat) (ready : Bool)
  | launch (slot fractal : Nat)
  deriving DecidableEq, Repr

/-- A call of the renderer by a job. -/
structure Call where
  job : Nat
  slot : Nat
  request : Request

structure Studio where
  setup : Setup
  /-- The words that new jobs are seeded with. -/
  source : Source
  disk : Disk
  fractals : List Fractal := []
  /-- Every job ever started, in the order of starting. -/
  jobs : List Job := []
  /-- The jobs that were not let go of yet. -/
  held : List Nat := []
  readiness : Readiness := Readiness.ofSize generationSize
  /-- All events so far, in the order of sending. -/
  events : List RenderEvent := []
  /-- All calls of the renderer so far. -/
  calls : List Call := []
  /-- How often jobs asked for the screen to be painted again. -/
  repaints : Nat := 0
  agenda : List Task := []

namespace Studio

def note (s : Studio) (job slot : Nat) : Notice → Studio
  | .event e => { s with events := s.events ++ [e] }
  | .call request => { s with calls := s.calls ++ [⟨job, slot, request⟩] }
  | .ready => { s with readiness := s.readiness.mark slot true }
  | .repaint => { s with repaints := s.repaints + 1 }

/-- The number of calls for a slot before the latest call of a job. -/
def callsBefore (s : Studio) (job slot : Nat) : Nat :=
  (s.calls.reverse.dropWhile (·.job != job)).tail.countP (·.slot == slot)

/-- One step of one job. -/
def stepJob (s : Studio) (i : Nat) (reply : Reply) : Option Studio := do
  let job ← s.jobs[i]?
  if job.isOver then none
  else
    let fractal ← s.fractals[job.fractal]?
    let (b, notice) := Bench.step s.setup reply ⟨job, fractal, s.disk⟩
    let s := { s with jobs := s.jobs.set i b.job, fractals := s.fractals.set job.fractal b.fractal,
                      disk := b.disk }
    pure (match notice with
      | some notice => s.note i job.slot notice
      | none => s)

def modifyFractal (s : Studio) (f : Nat) (change : Fractal → Fractal) : Studio :=
  { s with fractals := s.fractals.modify f change }

def stateOf? (s : Studio) (f : Nat) : Option RenderState := s.fractals[f]?.map (·.state)

/-- A fractal that is still rendering has lost its job; its picture is dropped. -/
def restore (s : Studio) (f : Nat) : Studio :=
  match s.fractals[f]? with
  | some fractal =>
    if fractal.state = .rendering then
      let (fractal, disk) := fractal.discard s.setup.store s.disk
      { s with fractals := s.fractals.set f { fractal with state := .pending }, disk }
    else s
  | none => s

/-- Drops the picture of a fractal. -/
def discard (s : Studio) (f : Nat) : Studio :=
  match s.fractals[f]? with
  | some fractal =>
    let (fractal, disk) := fractal.discard s.setup.store s.disk
    { s with fractals := s.fractals.set f fractal, disk }
  | none => s

/-- Starts a job, with a seed of its own. -/
def launch (s : Studio) (slot f : Nat) : Option Studio :=
  match s.source.draw Draws.word with
  | .ok (seed, source) =>
    some { s with source, jobs := s.jobs ++ [{ slot, fractal := f, source := Source.ofSeed seed }],
                  held := s.held ++ [s.jobs.length] }
  | .error _ => none

/-- Does a task and tells the tasks that it leads to; waiting for a job that is not over is not
possible now. -/
def perform (s : Studio) : Task → Option (Studio × List Task)
  | .raise j => some ({ s with jobs := s.jobs.modify j fun job => { job with flag := job.flag.raise } }, [])
  | .join j =>
    match s.jobs[j]? with
    | some job => if job.isOver then some (s, []) else none
    | none => some (s, [])
  | .restore j =>
    match s.jobs[j]? with
    | some job => some (s.restore job.fractal, [])
    | none => some (s, [])
  | .clear => some ({ s with readiness := s.readiness.clear }, [])
  | .visit slot f =>
    match s.stateOf? f with
    | some .pending | some .discarded => some (s, [.reap, .claim slot f])
    | some .ready => some (s, [.mark slot true])
    | _ => some (s, [])
  | .reap => some ({ s with held := s.held.filter fun j => !(s.jobs[j]?.all (·.isOver)) }, [])
  | .claim slot f =>
    match s.stateOf? f with
    | none | some .rendering => some (s, [])
    | some .ready => some (s, [.mark slot true])
    | _ => some (s.modifyFractal f ({ · with state := .rendering }), [.mark slot false, .launch slot f])
  | .mark slot ready => some ({ s with readiness := s.readiness.mark slot ready }, [])
  | .launch slot f => (s.launch slot f).map (·, [])

/-- The director does its next task. -/
def stepDirector (s : Studio) : Option Studio :=
  match s.agenda with
  | [] => none
  | task :: rest => (s.perform task).map fun (next, more) => { next with agenda := more ++ rest }

/-- Asks for a job for every fractal that needs a picture; the place in the list is the slot. -/
def renderAll (s : Studio) (fractals : List Nat) : Studio :=
  { s with agenda := s.agenda ++ fractals.zipIdx.map fun (f, slot) => .visit slot f }

/-- Asks for a job for one fractal, unless it is rendering or has its picture. -/
def renderSlot (s : Studio) (slot f : Nat) : Studio :=
  { s with agenda := s.agenda ++ [.reap, .claim slot f] }

/-- Lets go of every job and waits for each. -/
def waitAll (s : Studio) : Studio :=
  { s with held := [], agenda := s.agenda ++ s.held.map .join }

/-- Stops every job, waits for each, and puts back what was left in the middle. -/
def cancelAll (s : Studio) : Studio :=
  { s with held := []
           agenda := s.agenda ++ s.held.map .raise ++ s.held.flatMap (fun j => [.join j, .restore j])
             ++ [.clear] }

end Studio

end FractalBreeder
