import FractalBreeder.Rendering.Run
import FractalBreeder.Session.Basic

/-!
The fair schedule of a session with a given renderer: the director works as long as it can, then
the jobs do.
-/
namespace FractalBreeder.Session

/-- Runs at most `fuel` steps, and stops when nothing can go on. -/
def run (renderer : Renderer) : Nat → Session → Session
  | 0, s => s
  | fuel + 1, s =>
    match s.stepDirector with
    | some s => run renderer fuel s
    | none =>
      match s.studio.nextJob? renderer with
      | none => s
      | some (i, reply) =>
        match s.stepJob i reply with
        | some s => run renderer fuel s
        | none => s

end FractalBreeder.Session
