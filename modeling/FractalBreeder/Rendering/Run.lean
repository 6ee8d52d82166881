import FractalBreeder.Rendering.Studio

/-!
One fair schedule of a studio with a given renderer: the director works as long as it can, then
the jobs do in the order of their start, each until it is over or its renderer holds.
-/
namespace FractalBreeder.Studio

/-- The answer that a job waits for. -/
def answer (renderer : Renderer) (s : Studio) (i : Nat) (job : Job) : Answer :=
  match job.phase with
  | .calling turn => renderer job.slot (s.callsBefore i job.slot) turn.request
  | _ => ⟨false, .crashed⟩

/-- The first job that can take a step, with the reply that it gets. -/
def nextJob? (renderer : Renderer) (s : Studio) : Option (Nat × Reply) :=
  s.jobs.zipIdx.findSome? fun (job, i) =>
    if job.isOver then none
    else
      let answer := s.answer renderer i job
      if answer.held && !job.flag.raised then none else some (i, answer.reply)

/-- Runs at most `fuel` steps, and stops when nothing can go on. -/
def run (renderer : Renderer) : Nat → Studio → Studio
  | 0, s => s
  | fuel + 1, s =>
    match s.stepDirector with
    | some s => run renderer fuel s
    | none =>
      match s.nextJob? renderer with
      | none => s
      | some (i, reply) =>
        match s.stepJob i reply with
        | some s => run renderer fuel s
        | none => s

end FractalBreeder.Studio
