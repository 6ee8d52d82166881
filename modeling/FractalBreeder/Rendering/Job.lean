import FractalBreeder.Chance.Source
import FractalBreeder.Rendering.Picture
import FractalBreeder.Rendering.StopFlag
import FractalBreeder.Settings.Render

/-!
A render job as a machine with small steps. It renders its fractal until the picture is dense. A
round tries the genome and a number of mutations of it; after a sparse round the fractal is bred
again from its pedigree, and after the last round the picture is accepted as it is. A failed call
is repeated. Each step uses the fractal or the disk once, so that the steps of several jobs can be
interleaved in every way in which the jobs themselves can.
-/
namespace FractalBreeder

/-- What all jobs have in common. -/
structure Setup where
  store : ImageStore
  render : RenderSettings
  genetic : GeneticSettings

/-- The place in a round: the mutations made before, the request, and the calls made for it. -/
structure Turn where
  retry : Nat
  request : Request
  calls : Nat

inductive Phase where
  | announcing
  | preparing
  /-- Before the picture with the given number of its round. -/
  | opening (retry : Nat)
  | mutating (retry : Nat)
  | requesting (retry : Nat)
  /-- Before a call; `last` is the failure of the call before. -/
  | trying (turn : Turn) (last : Option Failure)
  | calling (turn : Turn)
  | inspecting (turn : Turn)
  | cleaning (turn : Turn) (fault : Failure)
  | measuring (retry : Nat)
  | closing
  | rebreeding
  | taking
  | marking (identity : String)
  | reporting (identity : String)
  | failing (fault : Failure)
  | withdrawing
  | settling (fault : Failure)
  | lamenting (identity : String) (fault : Failure)
  | repainting
  | over
  /-- The job was taken down in the middle of its work. -/
  | dead

structure Job where
  slot : Nat
  /-- The fractal's place in the gallery. -/
  fractal : Nat
  source : Source
  flag : StopFlag := {}
  phase : Phase := .announcing
  /-- Successful renders. -/
  attempts : UInt32 := 0
  regenerations : UInt32 := 0

namespace Job

/-- No step is left. -/
def isOver (job : Job) : Bool :=
  match job.phase with
  | .over | .dead => true
  | _ => false

end Job

/-- What a step of a job tells the others. -/
inductive Notice where
  | event (e : RenderEvent)
  | call (request : Request)
  | ready
  | repaint

/-- A job with what it works on. -/
structure Bench where
  job : Job
  fractal : Fractal
  disk : Disk

namespace Bench

def enter (b : Bench) (phase : Phase) : Bench := { b with job := { b.job with phase } }

/-- Makes a random choice from the words of the job; a choice that cannot be made takes the job
down. -/
def choose (b : Bench) (choice : Draws Fractal) (next : Phase) : Bench :=
  match b.job.source.draw choice with
  | .ok (fractal, source) =>
    { b with fractal := { fractal with state := .rendering }, job := { b.job with source } }.enter next
  | .error _ => b.enter .dead

/-- Drops the picture before the genome changes. -/
def clear (b : Bench) (setup : Setup) : Bench :=
  let (fractal, disk) := b.fractal.discard setup.store b.disk
  { b with fractal, disk }

/-- Goes on in one of two ways, depending on the stop flag. -/
def unlessStopped (b : Bench) (next : Phase) : Bench :=
  match b.job.flag.check with
  | .ok () => b.enter next
  | .error fault => b.enter (.failing fault)

/-- A call returns. A file that cannot be left is a failure of the call. -/
def receive (b : Bench) (turn : Turn) : Reply → Bench
  | .crashed => b.enter .dead
  | .returned left result =>
    let written : Except IoFault Disk := match left with
      | none => .ok b.disk
      | some bytes => b.disk.write turn.request.output bytes
    match written with
    | .error fault => b.enter (.cleaning turn (.io fault))
    | .ok disk =>
      { b with disk }.enter (match result with
        | .ok () => .inspecting turn
        | .error .cancelled => .failing .cancelled
        | .error fault => .cleaning turn fault)

/-- Judges the picture of a successful call. -/
def measure (b : Bench) (setup : Setup) (retry : Nat) : Bench :=
  let b := { b with job := { b.job with attempts := b.job.attempts + 1 } }
  match b.fractal.isSparse setup.store b.disk setup.render.sparseThreshold with
  | .error fault => b.enter (.failing (.io fault))
  | .ok false => b.enter .taking
  | .ok true =>
    b.enter (if retry < setup.render.maxSparseRetries.toNat then .opening (retry + 1) else .closing)

/-- Takes the picture over, unless the job was asked to stop. -/
def take (b : Bench) (setup : Setup) : Bench :=
  match b.job.flag.check with
  | .error fault => b.enter (.failing fault)
  | .ok () =>
    match b.fractal.takePicture setup.store b.disk with
    | .error fault => b.enter (.failing (.io fault))
    | .ok (fractal, disk) => { b with fractal, disk }.enter (.marking fractal.id)

/-- Gives the fractal up as failed. -/
def giveUp (b : Bench) (setup : Setup) : Bench :=
  { b with fractal := { b.fractal with state := .failed },
           disk := setup.store.discard b.disk b.fractal.id }

/-- One step of a job. The reply counts only where the job waits for one. -/
def step (setup : Setup) (reply : Reply) (b : Bench) : Bench × Option Notice :=
  match b.job.phase with
  | .announcing =>
    (b.enter .preparing, some (.event (.started b.job.slot b.fractal.id)))
  | .preparing =>
    let (disk, made) := setup.store.ensureDir b.disk
    ({ b with disk }.enter (match made with
      | .ok () => .opening 0
      | .error fault => .failing (.io fault)), none)
  | .opening retry =>
    (b.unlessStopped (if retry = 0 then .requesting 0 else .mutating retry), none)
  | .mutating retry =>
    let b := b.clear setup
    (b.choose (b.fractal.mutateInPlace setup.genetic) (.requesting retry), none)
  | .requesting retry =>
    (b.enter (.trying ⟨retry, b.fractal.request setup.store, 0⟩ none), none)
  | .trying turn last =>
    if turn.calls < setup.render.attempts.toNat then
      match b.job.flag.check with
      | .ok () => (b.enter (.calling turn), some (.call turn.request))
      | .error fault => (b.enter (.failing fault), none)
    else (b.enter (.failing (last.getD (.renderer "Renderer was never invoked"))), none)
  | .calling turn => (b.receive { turn with calls := turn.calls + 1 } reply, none)
  | .inspecting turn =>
    if b.disk.exists? turn.request.output then (b.enter (.measuring turn.retry), none)
    else
      (b.enter (.cleaning turn
        (.renderer ("Renderer produced no output at " ++ turn.request.output))), none)
  | .cleaning turn fault =>
    ({ b with disk := setup.store.discard b.disk turn.request.identity }.enter
      (.trying turn (some fault)), none)
  | .measuring retry => (b.measure setup retry, none)
  | .closing =>
    (b.unlessStopped (if setup.render.maxRegenerations ≤ b.job.regenerations then .taking
      else .rebreeding), none)
  | .rebreeding =>
    let b := b.clear setup
    let b := b.choose (b.fractal.redo setup.genetic) (.opening 0)
    ({ b with job := { b.job with regenerations := b.job.regenerations + 1 } }, none)
  | .taking => (b.take setup, none)
  | .marking identity => (b.enter (.reporting identity), some .ready)
  | .reporting identity =>
    (b.enter .repainting,
      some (.event (.ready b.job.slot identity b.job.attempts b.job.regenerations)))
  | .failing fault =>
    (b.enter (if fault = .cancelled ∨ b.job.flag.raised then .withdrawing else .settling fault), none)
  | .withdrawing => (b.enter .over, some (.event (.cancelled b.job.slot)))
  | .settling fault => ((b.giveUp setup).enter (.lamenting b.fractal.id fault), none)
  | .lamenting identity fault =>
    (b.enter .repainting, some (.event (.failed b.job.slot identity fault.message)))
  | .repainting => (b.enter .over, some .repaint)
  | .over | .dead => (b, none)

end Bench

end FractalBreeder
