import FractalBreeder.Proofs.Population.Breeding
import FractalBreeder.Session.Run

/-!
Everything that can happen to a session, as single moves: the user asks for something while the
director rests, the director does its next thing, a job takes a step, or a renderer that was called
touches its file. A list of moves fixes a sequence of requests together with one interleaving of
all that goes on behind them.
-/
namespace FractalBreeder

/-- What a user can ask for. -/
inductive Gesture where
  | generate
  | back
  | forward
  | select (picks : Picks)
  | toggle (slot : Nat)
  | draw (slot : Nat)

inductive Move where
  | ask (gesture : Gesture)
  | direct
  | work (job : Nat) (reply : Reply)
  /-- A renderer at work writes its file, or removes it. -/
  | scribble (job : Nat) (left : Option ByteArray)

namespace Studio

def phase? (s : Studio) (i : Nat) : Option Phase := s.jobs[i]?.map (·.phase)

/-- The renderer of a job that waits for it touches the file it was asked for, and nothing else. -/
def scribble (s : Studio) (i : Nat) (left : Option ByteArray) : Option Studio :=
  match s.phase? i with
  | some (.calling turn) =>
    let touched : Except IoFault Disk := match left with
      | some bytes => s.disk.write turn.request.output bytes
      | none => s.disk.remove turn.request.output
    match touched with
    | .ok disk => some { s with disk }
    | .error _ => none
  | _ => none

end Studio

namespace Session

/-- The last request is done, apart from the jobs it started. -/
def isIdle (s : Session) : Bool := s.studio.agenda.isEmpty && s.duties.isEmpty

def obey (s : Session) : Gesture → Session
  | .generate => s.generate
  | .back => s.goBack.1
  | .forward => s.goForward.1
  | .select picks => s.select picks
  | .toggle slot => s.toggle slot
  | .draw slot => (s.draw slot).1

def move? (s : Session) : Move → Option Session
  | .ask gesture => if s.isIdle then some (s.obey gesture) else none
  | .direct => s.stepDirector
  | .work i reply => s.stepJob i reply
  | .scribble i left => (s.studio.scribble i left).map fun studio => { s with studio }

def follow? (s : Session) : List Move → Option Session
  | [] => some s
  | move :: rest => (s.move? move).bind (·.follow? rest)

theorem follow?_append (s : Session) (first second : List Move) :
    s.follow? (first ++ second) = (s.follow? first).bind (·.follow? second) := by
  induction first generalizing s with
  | nil => rfl
  | cons move rest ih =>
      rw [List.cons_append, follow?, follow?]
      cases s.move? move with
      | none => rfl
      | some t => exact ih t

/-- Every move of a run is made in a session where it may be. -/
def Each (may : Session → Move → Prop) : Session → List Move → Prop
  | _, [] => True
  | s, move :: rest => may s move ∧ ∀ t, s.move? move = some t → Each may t rest

theorem Each.mono {may may' : Session → Move → Prop} (weaker : ∀ s move, may s move → may' s move)
    {s : Session} {moves : List Move} (each : s.Each may moves) : s.Each may' moves := by
  induction moves generalizing s with
  | nil => trivial
  | cons move rest ih => exact ⟨weaker s move each.1, fun t moved => ih (each.2 t moved)⟩

theorem Each.and {may may' : Session → Move → Prop} {s : Session} {moves : List Move}
    (each : s.Each may moves) (each' : s.Each may' moves) :
    s.Each (fun s move => may s move ∧ may' s move) moves := by
  induction moves generalizing s with
  | nil => trivial
  | cons move rest ih =>
      exact ⟨⟨each.1, each'.1⟩, fun t moved => ih (each.2 t moved) (each'.2 t moved)⟩

theorem each_of_forall {may : Session → Move → Prop} {moves : List Move}
    (allowed : ∀ move ∈ moves, ∀ s, may s move) (s : Session) : s.Each may moves := by
  induction moves generalizing s with
  | nil => trivial
  | cons move rest ih =>
      refine ⟨allowed move List.mem_cons_self s, fun t _ => ih ?_ t⟩
      exact fun move member => allowed move (List.mem_cons_of_mem _ member)

/-- A run in which every move passes a test. -/
def followIf? (test : Session → Move → Bool) (s : Session) : List Move → Option Session
  | [] => some s
  | move :: rest => if test s move then (s.move? move).bind (followIf? test · rest) else none

theorem follow?_of_followIf? {test : Session → Move → Bool} {s t : Session} {moves : List Move}
    (followed : s.followIf? test moves = some t) :
    s.follow? moves = some t ∧ s.Each (fun s move => test s move = true) moves := by
  induction moves generalizing s with
  | nil => exact ⟨followed, trivial⟩
  | cons move rest ih =>
      rw [followIf?] at followed
      split at followed
      next passed =>
        obtain ⟨between, moved, followed⟩ := Option.bind_eq_some_iff.mp followed
        obtain ⟨followed, each⟩ := ih followed
        refine ⟨?_, passed, fun next moves => ?_⟩
        · rw [follow?, moved]
          exact followed
        · obtain rfl := Option.some.inj (moved.symm.trans moves)
          exact each
      next => cases followed

/-- The fair schedule is made of moves. -/
theorem exists_follow?_run (renderer : Renderer) (fuel : Nat) (s : Session) :
    ∃ moves, s.follow? moves = some (run renderer fuel s) := by
  induction fuel generalizing s with
  | zero => exact ⟨[], rfl⟩
  | succ fuel ih =>
      unfold run
      split
      next next directed =>
        obtain ⟨moves, followed⟩ := ih next
        refine ⟨.direct :: moves, ?_⟩
        rw [follow?, move?, directed]
        exact followed
      next =>
        split
        next => exact ⟨[], rfl⟩
        next i reply _ =>
          split
          next next worked =>
            obtain ⟨moves, followed⟩ := ih next
            refine ⟨.work i reply :: moves, ?_⟩
            rw [follow?, move?, worked]
            exact followed
          next => exact ⟨[], rfl⟩

/-- A session before its first request, whatever the words that it draws from. -/
def fresh (settings : Settings) (breeding rendering : Source) (disk : Disk) : Session where
  settings := settings
  source := breeding
  studio := {
    setup := {
      store := ⟨settings.render.imageDir, settings.render.extension⟩
      render := settings.render
      genetic := settings.genetic }
    source := rendering
    disk }

theorem new_eq_fresh (settings : Settings) (seed : UInt64) (disk : Disk) :
    new settings seed disk =
      fresh settings (Source.ofSeed seed) (Source.ofSeed (seed + 1)) disk := rfl

/-- The words at the quarters of their range. -/
def quarters (digits : List UInt64) : List UInt64 := digits.map (· * 0x4000000000000000)

/-- A session on an empty disk in which the fractals of the first generation differ in two constants,
and every picture is dense. -/
def small : Session :=
  fresh { genetic := { constantMin := 0, constantMax := 4 }, render := { sparseThresholdKb := 0 } }
    (.ofWords (quarters ((List.range 9).flatMap fun i =>
      [0, 0, 0, 0, UInt64.ofNat (i / 4), UInt64.ofNat (i % 4)])) 0)
    (.ofWords [] 0) ⟨[], []⟩

/-- A picture of one byte. -/
def dot : Reply := .returned (some ⟨#[7]⟩) (.ok ())

/-- The first generation is bred, and the job of its first slot starts. -/
def opening : List Move := .ask .generate :: List.replicate 8 .direct

/-- The other slots get their jobs. -/
def remainder : List Move := List.replicate 41 .direct

section Prelude

/-- The jobs are stopped, although there is none, and the first generation is bred. -/
def prelude : List Move := [.ask .generate, .direct, .direct]

variable {settings : Settings} {children : List Fractal}

/-- The session when the first generation is about to be bred. -/
def courtship (settings : Settings) : Session :=
  let s := fresh settings small.source small.studio.source ⟨[], []⟩
  { s with
    studio := { s.studio with readiness := s.studio.readiness.clear }
    duties := [.breed, .start, .repaint] }

theorem breed_of_draw {s : Session} {source : Source}
    (drawn : s.source.draw (Litter.breed s.settings.genetic s.parents) = .ok (children, source)) :
    s.breed = some { s with
      source
      studio := { s.studio with fractals := s.studio.fractals ++ children }
      history := s.history.advance (List.range' s.studio.fractals.length children.length) } := by
  rw [breed, drawn]

/-- The session once it has its first generation, which is about to be rendered. -/
def premiere (settings : Settings) (children : List Fractal) : Session :=
  let s := fresh settings (.ofWords [] 0) small.studio.source ⟨[], []⟩
  { s with
    studio := { s.studio with fractals := children, readiness := s.studio.readiness.clear }
    history := s.history.advance (List.range' 0 children.length)
    duties := [.start, .repaint] }

theorem follow?_courtship (moves : List Move) :
    (fresh settings small.source small.studio.source ⟨[], []⟩).follow?
      (.ask .generate :: .direct :: moves) = (courtship settings).follow? moves := rfl

variable (bred : Litter.breed settings.genetic [] small.source.ready = .ok (children, []))
include bred

theorem move?_courtship : (courtship settings).move? .direct = some (premiere settings children) := by
  have unpicked : Picks.none.slots = [] := by decide
  have parents : ({ courtship settings with duties := [.start, .repaint] } : Session).parents = [] := by
    change (Picks.none.slots.filterMap _).filterMap _ = _
    rw [unpicked]
    rfl
  have drawn : small.source.draw (Litter.breed settings.genetic []) =
      .ok (children, .ofWords [] 0) := by
    rw [Source.draw, Source.drawWithin, bred]
    rfl
  change ({ courtship settings with duties := [.start, .repaint] } : Session).breed = _
  apply breed_of_draw
  rw [parents]
  exact drawn

theorem follow?_prelude (moves : List Move) :
    (fresh settings small.source small.studio.source ⟨[], []⟩).follow? (prelude ++ moves) =
      (premiere settings children).follow? moves := by
  change ((courtship settings).move? .direct).bind (follow? · moves) = _
  rw [move?_courtship bred]
  rfl

omit bred in
theorem small_eq : small = fresh small.settings small.source small.studio.source ⟨[], []⟩ := rfl

end Prelude

end Session

end FractalBreeder
