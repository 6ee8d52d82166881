import FractalBreeder.Proofs.Rendering.Direction

/-!
What a job tells of itself: that it started, and, with its last event, how it left its fractal.
-/
namespace FractalBreeder

open Bench (Steps)

namespace RenderEvent

/-- The state in which a job leaves its fractal by its last event, once what it left in the middle is
put back. -/
def outcome : RenderEvent → Option RenderState
  | started _ _ => none
  | ready _ _ _ _ => some .ready
  | failed _ _ _ => some .failed
  | cancelled _ => some .pending

theorem isTerminal_of_outcome {e : RenderEvent} {state : RenderState}
    (outcome : e.outcome = some state) :
    e.isTerminal = true := by
  cases e with
  | started _ _ => cases outcome
  | _ => rfl

end RenderEvent

/-- The state that a fractal is in once it is put back. -/
def RenderState.settled : RenderState → RenderState
  | .rendering => .pending
  | state => state

def Notice.events : Option Notice → List RenderEvent
  | some (.event e) => [e]
  | some (.call _) | some .ready | some .repaint | none => []

theorem Studio.settle_events (s : Studio) (i : Nat) (job : Job) (after : Bench)
    (notice : Option Notice) :
    (s.settle i job after notice).events = s.events ++ Notice.events notice := by
  rcases notice with _ | _ | _ | _ | _
  · exact (List.append_nil _).symm
  · rfl
  · exact (List.append_nil _).symm
  · exact (List.append_nil _).symm
  · exact (List.append_nil _).symm

theorem Studio.drop_settle_events (s : Studio) (i : Nat) (job : Job) (after : Bench)
    (notice : Option Notice) :
    (s.settle i job after notice).events.drop s.events.length = Notice.events notice := by
  rw [settle_events, List.drop_left]

namespace Job

/-- The events of a job that told of its end: the last one says how it left its fractal. -/
def Ended (slot : Nat) (state : RenderState) (sent : List RenderEvent) : Prop :=
  ∃ identity e, sent = [.started slot identity, e] ∧ e.slot = slot ∧ e.outcome = some state

/-- The events of a job so far. -/
def Told (job : Job) (f : Fractal) (sent : List RenderEvent) : Prop :=
  match job.phase with
  | .announcing => sent = []
  | .repainting | .over => Ended job.slot f.state.settled sent
  | .dead => True
  | _ => ∃ identity, sent = [.started job.slot identity]

end Job

/-- A job tells only of its own slot. -/
theorem Bench.Steps.slot_of_event {setup : Setup} {reply : Reply} {b after : Bench}
    {notice : Option Notice} (steps : Steps setup reply b after notice) {e : RenderEvent}
    (told : e ∈ Notice.events notice) : e.slot = b.job.slot := by
  cases steps with
  | announced _ | reported _ | withdrawn _ | lamented _ =>
      obtain rfl := List.mem_singleton.mp told
      rfl
  | _ => cases told

/-- A step tells what is missing, and nothing else. -/
theorem Bench.Steps.told {rogue : Prop} {setup : Setup} {reply : Reply} {b after : Bench}
    {notice : Option Notice} {sent : List RenderEvent} (steps : Steps setup reply b after notice)
    (fits : b.job.Fits rogue setup.store b.fractal) (told : b.job.Told b.fractal sent) :
    after.job.Told after.fractal (sent ++ Notice.events notice) := by
  unfold Job.Told at told
  cases steps with
  | announced phase =>
      rw [phase] at told
      subst told
      exact ⟨_, rfl⟩
  | prepared phase next =>
      rw [phase] at told
      rw [Notice.events, List.append_nil]
      rcases next with rfl | ⟨_, rfl⟩
      · exact told
      · exact told
  | stopped phase _ =>
      rw [Notice.events, List.append_nil]
      rcases phase with ⟨_, phase⟩ | ⟨_, _, phase⟩ | phase | phase
      · rw [phase] at told
        exact told
      · rw [phase] at told
        exact told
      · rw [phase] at told
        exact told
      · rw [phase] at told
        exact told
  | opened phase next =>
      rw [phase] at told
      rw [Notice.events, List.append_nil]
      rcases next with rfl | rfl
      · exact told
      · exact told
  | varied _ _ _ varies next =>
      rw [Notice.events, List.append_nil]
      have told : ∃ identity, sent = [.started b.job.slot identity] := by
        cases phase : b.job.phase with
        | mutating _ | rebreeding =>
            rw [phase] at told
            exact told
        | _ =>
            rw [phase] at varies
            cases varies
      obtain ⟨_, rfl | rfl⟩ := next
      · exact told
      · exact told
  | spoiled _ _ => trivial
  | crashed _ _ => trivial
  | returned _ phase _ _ next =>
      rw [phase] at told
      rw [Notice.events, List.append_nil]
      rcases next with rfl | ⟨_, _, rfl⟩
      · exact told
      · exact told
  | inspected phase next =>
      rw [phase] at told
      rw [Notice.events, List.append_nil]
      rcases next with rfl | ⟨_, rfl⟩
      · exact told
      · exact told
  | measured _ phase next =>
      rw [phase] at told
      rw [Notice.events, List.append_nil]
      rcases next with rfl | rfl | rfl | ⟨_, rfl⟩
      · exact told
      · exact told
      · exact told
      · exact told
  | closed phase next =>
      rw [phase] at told
      rw [Notice.events, List.append_nil]
      rcases next with rfl | rfl
      · exact told
      · exact told
  | requested phase | called phase _ | exhausted phase | ceased phase _ _ | cleaned phase
  | taken phase _ _ | missed _ phase | marked phase | yielded phase _ | failed phase
  | givenUp phase =>
      rw [phase] at told
      rw [Notice.events, List.append_nil]
      exact told
  | @reported identity phase =>
      rw [phase] at told
      rw [Job.Fits, phase] at fits
      obtain ⟨first, rfl⟩ := told
      refine ⟨first, _, rfl, rfl, ?_⟩
      rw [Bench.enter_fractal, show b.fractal.state = .ready from fits.1]
      rfl
  | withdrawn phase =>
      rw [phase] at told
      rw [Job.Fits, phase] at fits
      obtain ⟨first, rfl⟩ := told
      refine ⟨first, _, rfl, rfl, ?_⟩
      rw [Bench.enter_fractal, show b.fractal.state = .rendering from fits.1]
      rfl
  | lamented phase =>
      rw [phase] at told
      rw [Job.Fits, phase] at fits
      obtain ⟨first, rfl⟩ := told
      refine ⟨first, _, rfl, rfl, ?_⟩
      rw [Bench.enter_fractal, show b.fractal.state = .failed from fits.1]
      rfl
  | repainted phase =>
      rw [phase] at told
      rw [Notice.events, List.append_nil]
      exact told
  | rested halted =>
      rw [Notice.events, List.append_nil]
      exact told

/-- A job that is over and was not taken down has told how it left its fractal. -/
theorem Job.Told.ended {job : Job} {f : Fractal} {sent : List RenderEvent} (told : job.Told f sent)
    (halted : job.isOver = true) (alive : job.phase ≠ .dead) :
    Job.Ended job.slot f.state.settled sent := by
  unfold Job.Told at told
  cases phase : job.phase with
  | «over» =>
      rw [phase] at told
      exact told
  | dead => exact absurd phase alive
  | _ =>
      rw [Job.isOver, phase] at halted
      cases halted

end FractalBreeder
