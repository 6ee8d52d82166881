import FractalBreeder.Population.Basic
import FractalBreeder.Rendering.Studio
import FractalBreeder.Settings.Basic

/-!
A session: the history of a population whose fractals are rendered in a studio. The fractals live
in the studio and the history holds their places, so that a generation shown again has the
pictures it had. Every request that replaces the generation on show stops the jobs first.
-/
namespace FractalBreeder

/-- What the director of a session does when the agenda of the studio is empty. -/
inductive Duty where
  | breed
  | back
  | forward
  /-- Render what is on show. -/
  | start
  | repaint
  deriving DecidableEq, Repr

structure Session where
  settings : Settings
  /-- The words for breeding. -/
  source : Source
  studio : Studio
  history : History Nat := {}
  duties : List Duty := []
  /-- How often the session asked for the screen to be painted again. -/
  repaints : Nat := 0
  /-- The number of events that were reported. -/
  reported : Nat := 0

/-- What is painted for a slot. -/
inductive Drawing where
  | image (image : Image)
  | placeholder

namespace Session

/-- Breeding uses the given seed, and rendering the next one. -/
def new (settings : Settings) (seed : UInt64) (disk : Disk) : Session where
  settings := settings
  source := Source.ofSeed seed
  studio := {
    setup := {
      store := ⟨settings.render.imageDir, settings.render.extension⟩
      render := settings.render
      genetic := settings.genetic }
    source := Source.ofSeed (seed + 1)
    disk }

/-- The fractal of a slot of the generation on show. -/
def fractal? (s : Session) (slot : Nat) : Option Fractal := do
  s.studio.fractals[← s.history.current[slot]?]?

/-- The fractals on show, as a population. -/
def parents (s : Session) : List Fractal := s.history.picked.filterMap (s.studio.fractals[·]?)

/-- The children join the gallery behind all others. -/
def breed (s : Session) : Option Session :=
  match s.source.draw (Litter.breed s.settings.genetic s.parents) with
  | .ok (children, source) =>
    let first := s.studio.fractals.length
    some { s with source
                  studio := { s.studio with fractals := s.studio.fractals ++ children }
                  history := s.history.advance (List.range' first children.length) }
  | .error _ => none

def perform (s : Session) : Duty → Option Session
  | .breed => s.breed
  | .back => some { s with history := s.history.back?.getD s.history }
  | .forward => some { s with history := s.history.forward?.getD s.history }
  | .start => some { s with studio := s.studio.renderAll s.history.current }
  | .repaint => some { s with repaints := s.repaints + 1 }

/-- The director does the next thing: a task of the studio, or else a duty. -/
def stepDirector (s : Session) : Option Session :=
  if s.studio.agenda.isEmpty then
    match s.duties with
    | [] => none
    | duty :: rest => ({ s with duties := rest } : Session).perform duty
  else s.studio.stepDirector.map fun studio => { s with studio }

def stepJob (s : Session) (i : Nat) (reply : Reply) : Option Session :=
  (s.studio.stepJob i reply).map fun studio => { s with studio }

/-- Stops the jobs, and then changes the generation on show and renders it. -/
def replace (s : Session) (duty : Duty) : Session :=
  { s with studio := s.studio.cancelAll, duties := s.duties ++ [duty, .start, .repaint] }

/-- Breeds the next generation from the picked fractals. -/
def generate (s : Session) : Session := s.replace .breed

/-- Shows the generation before; nothing happens where there is none. -/
def goBack (s : Session) : Session × Bool :=
  if s.history.canGoBack then (s.replace .back, true) else (s, false)

def goForward (s : Session) : Session × Bool :=
  if s.history.canGoForward then (s.replace .forward, true) else (s, false)

def select (s : Session) (picks : Picks) : Session :=
  { s with history := { s.history with picks } }

def toggle (s : Session) (slot : Nat) : Session :=
  { s with history := { s.history with picks := s.history.picks.toggle slot }
           repaints := s.repaints + 1 }

/-- The picture of a slot. Where there is none yet and nobody works on it, it is asked for; a
failed fractal is not tried again. -/
def draw (s : Session) (slot : Nat) : Session × Drawing :=
  match s.history.current[slot]? with
  | none => (s, .placeholder)
  | some f =>
    match s.studio.fractals[f]? with
    | none => (s, .placeholder)
    | some fractal =>
      match fractal.state, fractal.image with
      | .ready, some image => (s, .image image)
      | .pending, _ | .discarded, _ => ({ s with studio := s.studio.renderSlot slot f }, .placeholder)
      | _, _ => (s, .placeholder)

def isReady (s : Session) (slot : Nat) : Bool := s.studio.readiness.isReady slot

/-- The arguments for the viewer of a slot. -/
def viewerArguments (s : Session) (slot : Nat) : Option (List String) :=
  (s.fractal? slot).map (·.genome.arguments)

/-- The events that were not reported before. -/
def report (s : Session) : Session × List RenderEvent :=
  ({ s with reported := s.studio.events.length }, s.studio.events.drop s.reported)

end Session

end FractalBreeder
