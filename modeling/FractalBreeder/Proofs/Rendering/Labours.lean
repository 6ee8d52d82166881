import Mathlib.Algebra.Group.Nat.Defs
import FractalBreeder.Proofs.Rendering.Deeds
import FractalBreeder.Proofs.Rendering.Renditions
import FractalBreeder.Proofs.Rendering.Telling
import FractalBreeder.Proofs.Storage.Directories

/-!
A job at work among others. Between its steps the others may do to the disk what they like, and a
renderer answers where the job waits for it. What is done for the picture is written down, call by
call and change by change. In a job that nobody asks to stop each step but the judging of a picture
lowers a rank, so between two judgements there are only so many steps.
-/
namespace FractalBreeder

/-- What a job meets at one step: what the others did to the disk since its last one, and the reply if
it waits for one. -/
structure Occasion where
  others : Disk → Disk := id
  reply : Reply := .crashed

theorem RenderSettings.toNat_attempts (s : RenderSettings) :
    s.attempts.toNat = (s.ioRetries.toNat + 1) % 2 ^ 32 :=
  UInt32.toNat_add _ _

theorem RenderSettings.toNat_attempts_of_lt {s : RenderSettings}
    (countable : s.ioRetries.toNat + 1 < 2 ^ 32) : s.attempts.toNat = s.ioRetries.toNat + 1 := by
  rw [toNat_attempts, Nat.mod_eq_of_lt countable]

/-- The picture of an identity on the disk, if there is a file. -/
def ImageStore.picture? (store : ImageStore) (disk : Disk) (identity : String) : Option ByteArray :=
  (disk.read (store.path identity)).toOption

namespace ImageStore

variable {store : ImageStore} {disk : Disk} {identity : String} {bytes : ByteArray}

theorem read_of_picture? (picture : store.picture? disk identity = some bytes) :
    disk.read (store.path identity) = .ok bytes := by
  unfold picture? at picture
  cases read : disk.read (store.path identity) with
  | error fault =>
    rw [read] at picture
    cases picture
  | ok held =>
    rw [read] at picture
    exact congrArg Except.ok (Option.some.inj picture)

theorem stat_of_picture? (picture : store.picture? disk identity = some bytes) :
    ∃ loc, disk.stat (store.path identity) = .ok (loc, .file bytes) := by
  have read := read_of_picture? picture
  unfold Disk.read at read
  cases found : disk.stat (store.path identity) with
  | error fault =>
    rw [found] at read
    cases read
  | ok result =>
    obtain ⟨loc, node⟩ := result
    rw [found] at read
    cases node with
    | file held =>
      cases read
      exact ⟨loc, rfl⟩
    | directory => cases read

end ImageStore

namespace Bench

/-- What came of a call: a file that cannot be left, and a success without a file, are failures. -/
def outcome (b : Bench) (turn : Turn) : Reply → Deed
  | .returned left (.ok ()) =>
    match left.elim (.ok b.disk) (b.disk.write turn.request.output) with
    | .ok disk => (disk.read turn.request.output).toOption.elim .failed (.rendered ·.size)
    | .error _ => .failed
  | .returned _ (.error _) | .crashed => .failed

theorem outcome_cases (b : Bench) (turn : Turn) (reply : Reply) :
    b.outcome turn reply = .failed ∨ ∃ size, b.outcome turn reply = .rendered size := by
  unfold outcome
  split
  · split
    next disk _ =>
      cases (disk.read turn.request.output).toOption with
      | none => exact .inl rfl
      | some bytes => exact .inr ⟨bytes.size, rfl⟩
    next => exact .inl rfl
  · exact .inl rfl
  · exact .inl rfl

/-- What one step does for the picture. -/
def deed? (b : Bench) (reply : Reply) : Option Deed :=
  match b.job.phase with
  | .calling turn => some (b.outcome turn reply)
  | .mutating _ => some .mutated
  | .rebreeding => some .rebred
  | _ => none

end Bench

/-- A job with what it has told, called for and done so far. -/
structure Labour where
  bench : Bench
  events : List RenderEvent := []
  calls : List Request := []
  deeds : List Deed := []

namespace Labour

/-- The bench as the others have left it. -/
def met (p : Labour) (o : Occasion) : Bench := { p.bench with disk := o.others p.bench.disk }

def step (setup : Setup) (p : Labour) (o : Occasion) : Labour where
  bench := ((p.met o).step setup o.reply).1
  events := p.events ++ Notice.events ((p.met o).step setup o.reply).2
  calls := p.calls ++ (Notice.request? ((p.met o).step setup o.reply).2).toList
  deeds := p.deeds ++ ((p.met o).deed? o.reply).toList

def run (setup : Setup) : Labour → List Occasion → Labour := List.foldl (step setup)

/-- A condition on every step of a run. -/
def Always (setup : Setup) (condition : Labour → Occasion → Prop) : Labour → List Occasion → Prop
  | _, [] => True
  | p, o :: rest => condition p o ∧ Always setup condition (p.step setup o) rest

variable {setup : Setup} {condition : Labour → Occasion → Prop} {invariant : Labour → Prop}

/-- What every step keeps, a run keeps. -/
theorem run_keeps (keeps : ∀ p o, condition p o → invariant p → invariant (p.step setup o))
    {p : Labour} {occasions : List Occasion} (always : p.Always setup condition occasions)
    (holds : invariant p) : invariant (p.run setup occasions) := by
  induction occasions generalizing p with
  | nil => exact holds
  | cons o rest ih => exact ih always.2 (keeps p o always.1 holds)

theorem step_of_isOver (setup : Setup) {p : Labour} (halted : p.bench.job.isOver = true) (o : Occasion) :
    (p.step setup o).bench.job = p.bench.job := by
  have phase : p.bench.job.phase = .over ∨ p.bench.job.phase = .dead := by
    unfold Job.isOver at halted
    cases phase : p.bench.job.phase with
    | «over» => exact .inl rfl
    | dead => exact .inr rfl
    | _ =>
      rw [phase] at halted
      cases halted
  change ((p.met o).step setup o.reply).1.job = (p.met o).job
  have phase : (p.met o).job.phase = .over ∨ (p.met o).job.phase = .dead := phase
  rcases phase with phase | phase
  · rw [Bench.step, phase]
  · rw [Bench.step, phase]

theorem run_of_isOver {p : Labour} (halted : p.bench.job.isOver = true) (occasions : List Occasion) :
    (p.run setup occasions).bench.job = p.bench.job := by
  induction occasions generalizing p with
  | nil => rfl
  | cons o rest ih =>
    have same := step_of_isOver setup halted o
    exact (ih (same ▸ halted)).trans same

/-- No step raises the flag. -/
theorem calm_step {p : Labour} (calm : p.bench.job.flag.raised = false) (o : Occasion) :
    (p.step setup o).bench.job.flag.raised = false := by
  have steps := Bench.steps_step setup o.reply (p.met o)
  exact (congrArg StopFlag.raised steps.flag_eq).trans calm

/-- A measure that each step lowers bounds the steps. -/
theorem isOver_run (measure : Labour → Nat)
    (keeps : ∀ p o, condition p o → invariant p → invariant (p.step setup o))
    (lowers : ∀ p o, condition p o → invariant p → p.bench.job.isOver = false →
      measure (p.step setup o) < measure p)
    {p : Labour} {occasions : List Occasion} (always : p.Always setup condition occasions)
    (holds : invariant p) (enough : measure p < occasions.length) :
    (p.run setup occasions).bench.job.isOver = true := by
  induction occasions generalizing p with
  | nil => cases enough
  | cons o rest ih =>
    cases halted : p.bench.job.isOver with
    | true =>
      rw [run_of_isOver halted]
      exact halted
    | false =>
      have less := lowers p o always.1 holds halted
      rw [List.length_cons] at enough
      exact ih always.2 (keeps p o always.1 holds) (by omega)

end Labour

/-! ### Steps between two judgements -/

/-- How far a job is from its end or its next judgement, when so many calls are made for a picture. -/
def Phase.rank (budget : Nat) : Phase → Nat
  | .over | .dead => 0
  | .repainting => 1
  | .reporting _ | .lamenting _ _ | .withdrawing => 2
  | .marking _ | .settling _ => 3
  | .failing _ => 4
  | .taking => 5
  | .measuring _ => 6
  | .trying turn _ => 4 * (budget - turn.calls) + 8
  | .calling turn => 4 * (budget - turn.calls) + 7
  | .cleaning turn _ => 4 * (budget - turn.calls) + 9
  | .inspecting turn => 4 * (budget - turn.calls) + 10
  | .requesting _ => 4 * budget + 9
  | .mutating _ => 4 * budget + 10
  | .opening _ => 4 * budget + 11
  | .rebreeding | .preparing => 4 * budget + 12
  | .closing | .announcing => 4 * budget + 13

theorem Phase.rank_le (budget : Nat) (phase : Phase) : phase.rank budget ≤ 4 * budget + 13 := by
  cases phase <;> simp only [rank] <;> omega

namespace Bench

variable {setup : Setup} {b : Bench} {budget : Nat}

theorem rank_step (reply : Reply) (enough : setup.render.attempts.toNat = budget)
    (within : ∀ turn, b.job.phase = .calling turn → turn.calls < budget)
    (judging : ∀ retry, b.job.phase ≠ .measuring retry) (working : b.job.isOver = false) :
    (b.step setup reply).1.job.phase.rank budget < b.job.phase.rank budget := by
  subst enough
  cases phase : b.job.phase with
  | announcing | preparing | opening _ | requesting _ | trying _ _ | inspecting _ | cleaning _ _
  | closing | marking _ | reporting _ | failing _ | withdrawing | settling _ | lamenting _ _
  | repainting =>
    simp only [step, phase, unlessStopped_eq]
    repeat' split
    all_goals
      simp only [enter, Phase.rank]
      omega
  | mutating retry =>
    simp only [step, phase]
    rcases choose_cases b (.requesting retry) (ensures_mutating b) with ⟨genome, source, made⟩ | made
    all_goals
      rw [made]
      simp only [Phase.rank]
      omega
  | rebreeding =>
    simp only [step, phase]
    rcases choose_cases b (.opening 0) (ensures_rebreeding b) with ⟨genome, source, made⟩ | made
    all_goals
      rw [made]
      simp only [Phase.rank]
      omega
  | calling turn =>
    have more := within turn phase
    simp only [step, phase]
    rcases receive_cases b { turn with calls := turn.calls + 1 } reply with
      ⟨-, made⟩ | ⟨disk, next, made, -, rfl | ⟨fault, -, rfl⟩ | ⟨rfl, -⟩⟩
    all_goals
      rw [made]
      simp only [enter, Phase.rank]
      omega
  | measuring retry => exact absurd phase (judging retry)
  | taking =>
    simp only [step, phase]
    rcases take_cases setup b with ⟨bytes, -, -, made⟩ | ⟨-, made⟩ | ⟨fault, made⟩
    all_goals
      rw [made]
      simp only [enter, Phase.rank]
      omega
  | «over» | dead =>
    rw [Job.isOver, phase] at working
    cases working

end Bench

end FractalBreeder
