import FractalBreeder.Proofs.Rendering.Effects

/-!
What holds between a job and its fractal in each phase, whatever the renderer does. A job that
stops without being asked, or that a call takes down, leaves its fractal in the middle; the
statements below are about a proposition `rogue`, which has to hold for that to happen.
-/
namespace FractalBreeder

/-- Calls of a renderer that keeps its word return, and report a stop only to a job that was asked
to stop. -/
def Reply.Lawful (flag : StopFlag) : Reply → Prop
  | .returned _ (.error .cancelled) => flag.raised = true
  | .returned _ _ => True
  | .crashed => False

namespace RenderState

/-- What waits for a job is neither worked on nor finished. -/
theorem ne_of_waiting {state : RenderState} (waiting : state = .pending ∨ state = .discarded) :
    state ≠ .rendering ∧ state ≠ .ready ∧ state ≠ .failed := by
  rcases waiting with rfl | rfl
  · exact ⟨nofun, nofun, nofun⟩
  · exact ⟨nofun, nofun, nofun⟩

/-- A fractal that is claimed for a job has no picture, and no other job. -/
theorem ne_of_claimed {state : RenderState}
    (claimed : state = .pending ∨ state = .discarded ∨ state = .failed) :
    state ≠ .rendering ∧ state ≠ .ready := by
  rcases claimed with rfl | rfl | rfl
  · exact ⟨nofun, nofun⟩
  · exact ⟨nofun, nofun⟩
  · exact ⟨nofun, nofun⟩

end RenderState

namespace Fractal

/-- The identity is that of the genome, and a picture is there exactly when the fractal is ready. -/
structure Sound (f : Fractal) : Prop where
  identity : f.id = f.genome.identity
  shown : f.state = .ready ↔ f.image.isSome
  own : ∀ image ∈ f.image, image.identity = f.id

variable {f : Fractal}

theorem Sound.blank (sound : f.Sound) (unready : f.state ≠ .ready) : f.image = none := by
  cases image : f.image with
  | none => rfl
  | some _ => exact absurd (sound.shown.mpr (by rw [image]; rfl)) unready

theorem Sound.of_blank (identity : f.id = f.genome.identity) (unready : f.state ≠ .ready)
    (blank : f.image = none) : f.Sound where
  identity := identity
  shown := ⟨fun ready => absurd ready unready, fun some => by rw [blank] at some; cases some⟩
  own image member := by rw [blank] at member; cases member

/-- A change of the state alone, away from a fractal without a picture. -/
theorem Sound.enter (sound : f.Sound) {state : RenderState} (before : f.state ≠ .ready)
    (after : state ≠ .ready) : ({ f with state } : Fractal).Sound :=
  .of_blank sound.identity after (sound.blank before)

end Fractal

namespace Job

/-- What a job may rely on: its fractal is rendering until it is ready, failed or spoiled, and the
request and the identity that the job remembers are those of the fractal. -/
def Fits (rogue : Prop) (store : ImageStore) (job : Job) (f : Fractal) : Prop :=
  match job.phase with
  | .announcing | .preparing | .opening _ | .mutating _ | .requesting _ | .measuring _ | .closing
  | .rebreeding | .taking | .settling _ => f.state = .rendering
  | .trying turn last =>
    f.state = .rendering ∧ turn.request = f.request store ∧ last ≠ some .cancelled
  | .calling turn | .inspecting turn => f.state = .rendering ∧ turn.request = f.request store
  | .cleaning turn fault =>
    f.state = .rendering ∧ turn.request = f.request store ∧ fault ≠ .cancelled
  | .failing fault => f.state = .rendering ∧ (fault = .cancelled → job.flag.raised = true ∨ rogue)
  | .withdrawing => f.state = .rendering ∧ (job.flag.raised = true ∨ rogue)
  | .marking identity | .reporting identity => f.state = .ready ∧ identity = f.id
  | .lamenting identity _ => f.state = .failed ∧ identity = f.id
  | .repainting => f.state = .ready ∨ f.state = .failed
  | .over =>
    f.state = .ready ∨ f.state = .failed ∨ f.state = .rendering ∧ (job.flag.raised = true ∨ rogue)
  | .dead => f.state = .discarded ∨ f.state = .rendering ∧ rogue

variable {rogue : Prop} {store : ImageStore} {job : Job} {f : Fractal}

/-- A new job fits the fractal that was marked for it. -/
theorem fits_new {slot place : Nat} {source : Source} (rendering : f.state = .rendering) :
    Fits rogue store { slot, fractal := place, source } f := rendering

/-- Raising the flag excuses more. -/
theorem Fits.raise (fits : job.Fits rogue store f) :
    ({ job with flag := job.flag.raise } : Job).Fits rogue store f := by
  unfold Fits at fits ⊢
  dsimp only
  cases phase : job.phase with
  | failing fault =>
      rw [phase] at fits
      exact ⟨fits.1, fun _ => .inl rfl⟩
  | withdrawing =>
      rw [phase] at fits
      exact ⟨fits.1, .inl rfl⟩
  | «over» =>
      rw [phase] at fits
      exact fits.imp id (.imp id fun left => ⟨left.1, .inl rfl⟩)
  | _ =>
      rw [phase] at fits
      exact fits

/-- The states of a fractal while its job is there. -/
theorem Fits.state (fits : job.Fits rogue store f) :
    f.state = .rendering ∨ f.state = .ready ∨ f.state = .failed ∨
      f.state = .discarded ∧ job.phase = .dead := by
  unfold Fits at fits
  cases phase : job.phase with
  | trying _ _ | calling _ | inspecting _ | cleaning _ _ | failing _ | withdrawing =>
      rw [phase] at fits
      exact .inl fits.1
  | marking _ | reporting _ =>
      rw [phase] at fits
      exact .inr (.inl fits.1)
  | lamenting _ _ =>
      rw [phase] at fits
      exact .inr (.inr (.inl fits.1))
  | repainting =>
      rw [phase] at fits
      exact .inr (fits.imp id .inl)
  | «over» =>
      rw [phase] at fits
      rcases fits with ready | failed | left
      · exact .inr (.inl ready)
      · exact .inr (.inr (.inl failed))
      · exact .inl left.1
  | dead =>
      rw [phase] at fits
      rcases fits with discarded | left
      · exact .inr (.inr (.inr ⟨discarded, rfl⟩))
      · exact .inl left.1
  | _ =>
      rw [phase] at fits
      exact .inl fits

/-- Only a job that was asked to stop, or a rogue renderer, ends in the middle of rendering. -/
theorem Fits.excused (fits : job.Fits rogue store f) (halted : job.isOver = true)
    (rendering : f.state = .rendering) : job.flag.raised = true ∨ rogue := by
  unfold Fits at fits
  unfold isOver at halted
  cases phase : job.phase with
  | «over» =>
      rw [phase, rendering] at fits
      rcases fits with impossible | impossible | left
      · cases impossible
      · cases impossible
      · exact left.2
  | dead =>
      rw [phase, rendering] at fits
      rcases fits with impossible | left
      · cases impossible
      · exact .inr left.2
  | _ =>
      rw [phase] at halted
      cases halted

/-- A request is made in the middle of rendering. -/
theorem Fits.request (fits : job.Fits rogue store f) {turn : Turn}
    (phase : (∃ last, job.phase = .trying turn last) ∨ job.phase = .calling turn ∨
      job.phase = .inspecting turn ∨ ∃ fault, job.phase = .cleaning turn fault) :
    f.state = .rendering ∧ turn.request = f.request store := by
  unfold Fits at fits
  rcases phase with ⟨last, phase⟩ | phase | phase | ⟨fault, phase⟩
  · rw [phase] at fits
    exact ⟨fits.1, fits.2.1⟩
  · rw [phase] at fits
    exact fits
  · rw [phase] at fits
    exact fits
  · rw [phase] at fits
    exact ⟨fits.1, fits.2.1⟩

theorem Fits.rendering_of_varies (fits : job.Fits rogue store f) (varies : job.phase.varies = true) :
    f.state = .rendering := by
  unfold Fits at fits
  cases phase : job.phase with
  | mutating _ | rebreeding =>
      rw [phase] at fits
      exact fits
  | _ =>
      rw [phase] at varies
      cases varies

end Job

namespace Bench.Steps

variable {rogue : Prop} {setup : Setup} {reply : Reply} {b after : Bench} {notice : Option Notice}

/-- A step of a job whose renderer keeps its word, or else is rogue, leads to a phase that fits. -/
theorem fits (steps : Steps setup reply b after notice)
    (fits : b.job.Fits rogue setup.store b.fractal)
    (lawful : ∀ turn, b.job.phase = .calling turn → reply.Lawful b.job.flag ∨ rogue) :
    after.job.Fits rogue setup.store after.fractal := by
  cases steps with
  | announced phase =>
      rw [Job.Fits, phase] at fits
      exact fits
  | prepared phase next =>
      rw [Job.Fits, phase] at fits
      rcases next with rfl | ⟨fault, rfl⟩
      · exact fits
      · exact ⟨fits, nofun⟩
  | stopped phase raised =>
      have rendering : b.fractal.state = .rendering := by
        rcases phase with ⟨_, phase⟩ | ⟨_, _, phase⟩ | phase | phase
        · rwa [Job.Fits, phase] at fits
        · rw [Job.Fits, phase] at fits
          exact fits.1
        · rwa [Job.Fits, phase] at fits
        · rwa [Job.Fits, phase] at fits
      exact ⟨rendering, fun _ => .inl raised⟩
  | opened phase next =>
      rw [Job.Fits, phase] at fits
      rcases next with rfl | rfl
      · exact fits
      · exact fits
  | varied genome source regenerations varies next =>
      obtain ⟨retry, rfl | rfl⟩ := next
      · rfl
      · rfl
  | spoiled _ varies => exact .inl rfl
  | requested phase =>
      rw [Job.Fits, phase] at fits
      exact ⟨fits, rfl, nofun⟩
  | called phase _ =>
      rw [Job.Fits, phase] at fits
      exact ⟨fits.1, fits.2.1⟩
  | @exhausted turn last phase =>
      rw [Job.Fits, phase] at fits
      refine ⟨fits.1, fun stopped => ?_⟩
      cases last with
      | none => cases stopped
      | some fault => exact absurd (congrArg some stopped) fits.2.2
  | crashed phase crashed =>
      subst crashed
      rcases lawful _ phase with impossible | rogue
      · cases impossible
      · rw [Job.Fits, phase] at fits
        exact .inr ⟨fits.1, rogue⟩
  | returned counted phase same _ next =>
      rw [Job.Fits, phase] at fits
      rcases next with rfl | ⟨fault, other, rfl⟩
      · exact ⟨fits.1, same.trans fits.2⟩
      · exact ⟨fits.1, same.trans fits.2, other⟩
  | ceased phase ceased _ =>
      subst ceased
      rw [Job.Fits, phase] at fits
      exact ⟨fits.1, fun _ => lawful _ phase⟩
  | inspected phase next =>
      rw [Job.Fits, phase] at fits
      rcases next with rfl | ⟨reason, rfl⟩
      · exact fits.1
      · exact ⟨fits.1, fits.2, nofun⟩
  | cleaned phase =>
      rw [Job.Fits, phase] at fits
      exact ⟨fits.1, fits.2.1, fun same => fits.2.2 (Option.some.inj same)⟩
  | measured attempts phase next =>
      rw [Job.Fits, phase] at fits
      rcases next with rfl | rfl | rfl | ⟨fault, rfl⟩
      · exact fits
      · exact fits
      · exact fits
      · exact ⟨fits, nofun⟩
  | closed phase next =>
      rw [Job.Fits, phase] at fits
      rcases next with rfl | rfl
      · exact fits
      · exact fits
  | taken phase _ _ => exact ⟨rfl, rfl⟩
  | missed fault phase =>
      rw [Job.Fits, phase] at fits
      exact ⟨fits, nofun⟩
  | marked phase =>
      rw [Job.Fits, phase] at fits
      exact fits
  | reported phase =>
      rw [Job.Fits, phase] at fits
      exact .inl fits.1
  | yielded phase stops =>
      rw [Job.Fits, phase] at fits
      exact ⟨fits.1, stops.elim fits.2 .inl⟩
  | failed phase =>
      rw [Job.Fits, phase] at fits
      exact fits.1
  | withdrawn phase =>
      rw [Job.Fits, phase] at fits
      exact .inr (.inr fits)
  | givenUp phase => exact ⟨rfl, rfl⟩
  | lamented phase =>
      rw [Job.Fits, phase] at fits
      exact .inr fits.1
  | repainted phase =>
      rw [Job.Fits, phase] at fits
      exact fits.elim .inl (.inr ∘ .inl)
  | rested _ => exact fits

/-- A step keeps a fractal sound. -/
theorem sound (steps : Steps setup reply b after notice)
    (fits : b.job.Fits rogue setup.store b.fractal) (sound : b.fractal.Sound) :
    after.fractal.Sound := by
  cases steps with
  | varied genome _ _ varies next => exact .of_blank rfl nofun rfl
  | spoiled _ varies => exact .of_blank sound.identity nofun rfl
  | taken phase raised read =>
      refine ⟨sound.identity, ⟨fun _ => rfl, fun _ => rfl⟩, fun image member => ?_⟩
      obtain rfl := Option.some.inj member
      rfl
  | givenUp phase =>
      rw [Job.Fits, phase] at fits
      exact sound.enter (by rw [fits]; nofun) nofun
  | _ => exact sound

end Bench.Steps

end FractalBreeder
