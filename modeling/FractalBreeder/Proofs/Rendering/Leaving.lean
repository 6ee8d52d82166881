import FractalBreeder.Proofs.Rendering.Renditions
import FractalBreeder.Proofs.Storage.Isolation

/-!
What a step of a job leaves behind. A job is told of a stop only when it was asked to stop, its
requests are for its fractal as it is, and it lets go of its fractal, or of its fractal's genome, with
the file of it gone, unless it was asked to stop.
-/
namespace FractalBreeder

open Bench (Steps)
open Disk (HasFile Leads Keeps)

/-- The job ends in the middle of its work only if it was asked to. -/
def Job.Excused (job : Job) : Prop :=
  match job.phase with
  | .trying _ last => last ≠ some .cancelled
  | .cleaning _ fault => fault ≠ .cancelled
  | .failing fault => fault = .cancelled → job.flag.raised = true
  | .withdrawing => job.flag.raised = true
  | _ => True

theorem Job.Excused.asked {job : Job} (excused : job.Excused) : job.asked.Excused := by
  unfold Job.Excused at excused ⊢
  cases phase : job.phase with
  | trying _ _ | cleaning _ _ =>
      rw [phase] at excused
      simpa [Job.asked, phase] using excused
  | failing _ | withdrawing => simp [Job.asked, phase, StopFlag.raise]
  | _ => simp [Job.asked, phase]

theorem Phase.paints_of_turn {phase : Phase} {turn : Turn} (at_turn : phase.turn? = some turn) :
    phase.paints = true := by
  cases phase with
  | trying _ _ | calling _ | inspecting _ | cleaning _ _ => rfl
  | _ => cases at_turn

namespace Bench.Steps

variable {setup : Setup} {reply : Reply} {b after : Bench} {notice : Option Notice}

theorem excused (steps : Steps setup reply b after notice) (excused : b.job.Excused)
    (honest : ∀ turn, b.job.phase = .calling turn → reply = .crashed ∨ reply.Lawful b.job.flag) :
    after.job.Excused := by
  unfold Job.Excused at excused ⊢
  cases steps with
  | prepared _ next =>
      rcases next with rfl | ⟨fault, rfl⟩
      · trivial
      · nofun
  | stopped _ raised => exact fun _ => raised
  | opened _ next =>
      rcases next with rfl | rfl
      · trivial
      · trivial
  | varied _ _ _ _ next =>
      obtain ⟨_, rfl | rfl⟩ := next
      · trivial
      · trivial
  | requested _ => nofun
  | @exhausted turn last phase =>
      rw [phase] at excused
      intro stopped
      cases last with
      | none => cases stopped
      | some fault => exact absurd (congrArg some stopped) excused
  | returned counted phase _ _ next =>
      rcases next with rfl | ⟨fault, other, rfl⟩
      · trivial
      · exact other
  | ceased phase ceased _ =>
      subst ceased
      exact fun _ => (honest _ phase).resolve_left nofun
  | inspected _ next =>
      rcases next with rfl | ⟨_, rfl⟩
      · trivial
      · nofun
  | cleaned phase =>
      rw [phase] at excused
      exact fun same => excused (Option.some.inj same)
  | measured _ _ next =>
      rcases next with rfl | rfl | rfl | ⟨_, rfl⟩
      · trivial
      · trivial
      · trivial
      · nofun
  | closed _ next =>
      rcases next with rfl | rfl
      · trivial
      · trivial
  | missed _ _ => nofun
  | yielded phase stops =>
      rw [phase] at excused
      exact stops.elim excused id
  | rested _ => exact excused
  | _ => trivial

/-- A request is for the fractal as it is. -/
theorem asks (steps : Steps setup reply b after notice)
    (before : ∀ turn, b.job.phase.turn? = some turn → turn.request = b.fractal.request setup.store)
    {turn : Turn} (at_ : after.job.phase.turn? = some turn) :
    turn.request = after.fractal.request setup.store := by
  have same : after.fractal = b.fractal := by
    cases steps with
    | varied _ _ _ _ next =>
        obtain ⟨_, rfl | rfl⟩ := next
        · cases at_
        · cases at_
    | spoiled _ _ | taken _ _ _ | givenUp _ => cases at_
    | _ => rfl
  rw [same]
  rcases steps.turn at_ with ⟨turn', at', same⟩ | asked
  · exact same.trans (before turn' at')
  · exact asked

theorem keeps (steps : Steps setup reply b after notice) : Keeps b.disk after.disk := by
  have effect := steps.effect
  generalize after.fractal = fractal at effect
  generalize after.disk = disk at effect
  cases effect with
  | still => exact .refl _
  | prepared _ => exact (Disk.extends_makeDirectories b.disk setup.store.dir).keeps
  | received _ written => exact Disk.keeps_write written
  | cleaned _ | varied _ _ | spoiled _ | taken _ _ _ | givenUp _ =>
      exact setup.store.keeps_discard b.disk _

/-- A call that returns is followed by a look at what it left. -/
theorem paints_of_calling (steps : Steps setup reply b after notice) {turn : Turn}
    (calling : b.job.phase = .calling turn) (returned : reply ≠ .crashed) :
    after.job.phase.paints = true ∧ after.fractal = b.fractal := by
  have steady : b.job.isOver = false := by rw [Job.isOver, calling]
  cases steps with
  | crashed _ crashed => exact absurd crashed returned
  | returned _ _ _ _ next =>
      rcases next with rfl | ⟨_, _, rfl⟩
      · exact ⟨rfl, rfl⟩
      · exact ⟨rfl, rfl⟩
  | ceased _ _ _ => exact ⟨rfl, rfl⟩
  | varied _ _ _ varies _ | spoiled _ varies =>
      rw [calling] at varies
      cases varies
  | stopped phase _ =>
      rcases phase with ⟨_, phase⟩ | ⟨_, _, phase⟩ | phase | phase
      · rw [calling] at phase
        cases phase
      · rw [calling] at phase
        cases phase
      · rw [calling] at phase
        cases phase
      · rw [calling] at phase
        cases phase
  | rested ended =>
      rw [steady] at ended
      cases ended
  | announced phase | prepared phase _ | opened phase _ | requested phase | called phase _
  | exhausted phase | inspected phase _ | cleaned phase | measured _ phase _ | closed phase _
  | taken phase _ _ | missed _ phase | marked phase | reported phase | yielded phase _ | failed phase
  | withdrawn phase | givenUp phase | lamented phase | repainted phase =>
      rw [calling] at phase
      cases phase

/-- New files are those of calls that return. -/
theorem files (steps : Steps setup reply b after notice) {loc : Location}
    (held : after.disk.HasFile loc) : b.disk.HasFile loc ∨
      ∃ turn bytes, b.job.phase = .calling turn ∧
        b.disk.write turn.request.output bytes = .ok after.disk ∧
        loc = b.disk.place turn.request.output ∧
        after.job.phase.paints = true ∧ after.fractal = b.fractal := by
  cases steps with
  | prepared _ _ => exact .inl ((Disk.grows_makeDirectories b.disk setup.store.dir).files loc held)
  | varied _ _ _ _ _ | spoiled _ _ | taken _ _ _ | givenUp _ | cleaned _ =>
      exact .inl ((setup.store.discard_cases b.disk _).2 loc held)
  | @returned turn _ _ _ phase _ touched next =>
      rcases touched with rfl | ⟨bytes, written⟩
      · exact .inl held
      · rcases (Disk.write_cases written).2 loc held with here | before
        · refine .inr ⟨turn, bytes, phase, written, here, ?_, rfl⟩
          rcases next with rfl | ⟨_, _, rfl⟩
          · rfl
          · rfl
        · exact .inl before
  | @ceased turn _ _ phase _ touched =>
      rcases touched with rfl | ⟨bytes, written⟩
      · exact .inl held
      · rcases (Disk.write_cases written).2 loc held with here | before
        · exact .inr ⟨turn, bytes, phase, written, here, rfl, rfl⟩
        · exact .inl before
  | _ => exact .inl held

/-- A job lets go of its fractal with the file of it gone, unless it was asked to stop. -/
theorem sweeps (steps : Steps setup reply b after notice) (painting : b.job.phase.paints = true)
    {loc : Location} (leads : b.disk.Leads (setup.store.path b.fractal.id) loc)
    (unspoiled : reply = .crashed → ∀ turn, b.job.phase = .calling turn → ¬ b.disk.HasFile loc)
    (held : after.disk.HasFile loc) : after.fractal = b.fractal ∧
      (after.job.phase.paints = true ∨ b.job.phase = .withdrawing) := by
  have gone : ∀ {job : Job} {f : Fractal},
      after = ⟨job, f, setup.store.discard b.disk b.fractal.id⟩ → False := by
    rintro job f rfl
    exact ImageStore.not_hasFile_of_leads leads held
  cases steps with
  | varied _ _ _ _ _ | spoiled _ _ | taken _ _ _ | givenUp _ => exact (gone rfl).elim
  | crashed phase crashed => exact absurd held (unspoiled crashed _ phase)
  | withdrawn phase => exact ⟨rfl, .inr phase⟩
  | marked phase | reported phase | lamented phase | repainted phase =>
      rw [phase] at painting
      cases painting
  | prepared _ next =>
      rcases next with rfl | ⟨_, rfl⟩
      · exact ⟨rfl, .inl rfl⟩
      · exact ⟨rfl, .inl rfl⟩
  | opened _ next =>
      rcases next with rfl | rfl
      · exact ⟨rfl, .inl rfl⟩
      · exact ⟨rfl, .inl rfl⟩
  | returned _ _ _ _ next =>
      rcases next with rfl | ⟨_, _, rfl⟩
      · exact ⟨rfl, .inl rfl⟩
      · exact ⟨rfl, .inl rfl⟩
  | inspected _ next =>
      rcases next with rfl | ⟨_, rfl⟩
      · exact ⟨rfl, .inl rfl⟩
      · exact ⟨rfl, .inl rfl⟩
  | measured _ _ next =>
      rcases next with rfl | rfl | rfl | ⟨_, rfl⟩
      · exact ⟨rfl, .inl rfl⟩
      · exact ⟨rfl, .inl rfl⟩
      · exact ⟨rfl, .inl rfl⟩
      · exact ⟨rfl, .inl rfl⟩
  | closed _ next =>
      rcases next with rfl | rfl
      · exact ⟨rfl, .inl rfl⟩
      · exact ⟨rfl, .inl rfl⟩
  | rested _ => exact ⟨rfl, .inl painting⟩
  | _ => exact ⟨rfl, .inl rfl⟩

end Bench.Steps

end FractalBreeder
