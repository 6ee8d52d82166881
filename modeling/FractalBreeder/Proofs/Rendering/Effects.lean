import FractalBreeder.Proofs.Chance.Ensures
import FractalBreeder.Rendering.Studio

/-!
What one step of a job can do to its fractal and to the disk, and what it leaves alone.
-/
namespace FractalBreeder

open Draws (Ensures ensures_any)

theorem Source.draw_of_ensures {α : Type} {choice : Draws α} {post : α → Prop} {source left : Source}
    {a : α} (ensures : Ensures choice post) (drawn : source.draw choice = .ok (a, left)) : post a := by
  suffices within : ∀ fuel (source : Source),
      source.drawWithin choice fuel = .ok (a, left) → post a from within 60 source drawn
  intro fuel
  induction fuel with
  | zero =>
      intro source drawn
      unfold drawWithin at drawn
      split at drawn
      next value rest chosen =>
        cases drawn
        exact ensures _ _ _ chosen
      all_goals cases drawn
  | succ fuel ih =>
      intro source drawn
      unfold drawWithin at drawn
      split at drawn
      next value rest chosen =>
        cases drawn
        exact ensures _ _ _ chosen
      next => cases drawn
      next => exact ih _ drawn

/-- The phases in which a job gives its fractal another genome. -/
def Phase.varies : Phase → Bool
  | .mutating _ | .rebreeding => true
  | _ => false

namespace Fractal

/-- The fractal with another genome, to be rendered. -/
def varied (f : Fractal) (genome : Genome) : Fractal :=
  { f.withGenome genome with state := .rendering, image := none }

theorem ensures_mutateInPlace (settings : GeneticSettings) (f : Fractal) :
    Ensures (f.mutateInPlace settings) (fun g => ∃ genome, g = f.withGenome genome) := by
  apply Ensures.map
  exact (ensures_any _).mono fun genome _ => ⟨genome, rfl⟩

theorem ensures_redone (settings : GeneticSettings) (f : Fractal) :
    Ensures (f.redo settings) (fun g => ∃ genome, g = f.withGenome genome) := by
  apply Ensures.map
  exact (ensures_any _).mono fun genome _ => ⟨genome, rfl⟩

end Fractal

namespace Bench

/-- How a step can leave the fractal and the disk. -/
inductive Effect (setup : Setup) (b : Bench) : Fractal → Disk → Prop where
  | still : Effect setup b b.fractal b.disk
  | prepared : b.job.phase = .preparing →
      Effect setup b b.fractal (setup.store.ensureDir b.disk).1
  | received {turn : Turn} {bytes : ByteArray} {disk : Disk} : b.job.phase = .calling turn →
      b.disk.write turn.request.output bytes = .ok disk → Effect setup b b.fractal disk
  | cleaned {turn : Turn} {fault : Failure} : b.job.phase = .cleaning turn fault →
      Effect setup b b.fractal (setup.store.discard b.disk turn.request.identity)
  | varied (genome : Genome) : b.job.phase.varies →
      Effect setup b (b.fractal.varied genome) (setup.store.discard b.disk b.fractal.id)
  /-- No choice could be made. -/
  | spoiled : b.job.phase.varies →
      Effect setup b { b.fractal with state := .discarded, image := none }
        (setup.store.discard b.disk b.fractal.id)
  | taken {bytes : ByteArray} : b.job.phase = .taking → b.job.flag.raised = false →
      b.disk.read (setup.store.path b.fractal.id) = .ok bytes →
      Effect setup b
        { b.fractal with
          state := .ready
          image := some ⟨b.fractal.id, setup.store.extension, bytes⟩ }
        (setup.store.discard b.disk b.fractal.id)
  | givenUp {fault : Failure} : b.job.phase = .settling fault →
      Effect setup b { b.fractal with state := .failed } (setup.store.discard b.disk b.fractal.id)

variable {setup : Setup} {b : Bench}

@[simp] theorem enter_fractal (b : Bench) (phase : Phase) :
    (b.enter phase).fractal = b.fractal := rfl

theorem unlessStopped_eq (b : Bench) (next : Phase) :
    b.unlessStopped next =
      b.enter (if b.job.flag.raised then .failing .cancelled else next) := by
  unfold unlessStopped StopFlag.check
  cases b.job.flag.raised with
  | true => rfl
  | false => rfl

/-- A change of the genome, which starts with dropping the picture, succeeds or takes the job down. -/
theorem choose_cases (b : Bench) {choice : Draws Fractal} (next : Phase)
    (ensures : Ensures choice fun g => ∃ genome, g = (b.clear setup).fractal.withGenome genome) :
    (∃ genome source, (b.clear setup).choose choice next =
        ⟨{ b.job with source, phase := next }, b.fractal.varied genome,
          setup.store.discard b.disk b.fractal.id⟩) ∨
      (b.clear setup).choose choice next =
        ⟨{ b.job with phase := .dead }, { b.fractal with state := .discarded, image := none },
          setup.store.discard b.disk b.fractal.id⟩ := by
  unfold choose
  cases drawn : (b.clear setup).job.source.draw choice with
  | ok result =>
      rcases result with ⟨f, source⟩
      rcases Source.draw_of_ensures ensures drawn with ⟨genome, rfl⟩
      exact .inl ⟨genome, source, rfl⟩
  | error halt => exact .inr rfl

theorem take_cases (setup : Setup) (b : Bench) :
    (∃ bytes, b.job.flag.raised = false ∧
        b.disk.read (setup.store.path b.fractal.id) = .ok bytes ∧
        b.take setup =
          ⟨{ b.job with phase := .marking b.fractal.id },
            { b.fractal with
              state := .ready
              image := some ⟨b.fractal.id, setup.store.extension, bytes⟩ },
            setup.store.discard b.disk b.fractal.id⟩) ∨
      (b.job.flag.raised = true ∧ b.take setup = b.enter (.failing .cancelled)) ∨
      ∃ fault, b.take setup = b.enter (.failing (.io fault)) := by
  unfold take StopFlag.check
  cases raised : b.job.flag.raised with
  | true => exact .inr (.inl ⟨rfl, rfl⟩)
  | false =>
      cases read : b.disk.read (setup.store.path b.fractal.id) with
      | error fault =>
          refine .inr (.inr ⟨fault, ?_⟩)
          simp [Fractal.takePicture, ImageStore.load, read, bind, Except.bind]
      | ok bytes =>
          refine .inl ⟨bytes, rfl, rfl, ?_⟩
          simp [Fractal.takePicture, ImageStore.load, read, bind, Except.bind, pure, Except.pure]
          rfl

/-- What follows a call by what it returned, unless its file could not be written. -/
def verdict (turn : Turn) : Except Failure Unit → Phase
  | .ok () => .inspecting turn
  | .error .cancelled => .failing .cancelled
  | .error fault => .cleaning turn fault

theorem verdict_error (turn : Turn) {fault : Failure} (other : fault ≠ .cancelled) :
    verdict turn (.error fault) = .cleaning turn fault := by
  cases fault <;> first | rfl | exact absurd rfl other

/-- The file of a call is written before its result is looked at. -/
theorem receive_returned (b : Bench) (turn : Turn) (left : Option ByteArray)
    (result : Except Failure Unit) :
    b.receive turn (.returned left result) =
      match left.elim (.ok b.disk) (b.disk.write turn.request.output) with
      | .error fault => b.enter (.cleaning turn (.io fault))
      | .ok disk => ({ b with disk } : Bench).enter (verdict turn result) := by
  cases left <;> rfl

/-- A call that returns leaves at most its file, and a failure of it is never a silent stop. -/
theorem receive_cases (b : Bench) (turn : Turn) (reply : Reply) :
    (reply = .crashed ∧ b.receive turn reply = b.enter .dead) ∨
      ∃ disk phase, b.receive turn reply = ({ b with disk } : Bench).enter phase ∧
        (disk = b.disk ∨ ∃ bytes, b.disk.write turn.request.output bytes = .ok disk) ∧
        (phase = .inspecting turn ∨ (∃ fault, fault ≠ .cancelled ∧ phase = .cleaning turn fault) ∨
          (phase = .failing .cancelled ∧ ∃ left, reply = .returned left (.error .cancelled))) := by
  have judged : ∀ left (result : Except Failure Unit), ∃ phase : Phase,
      verdict turn result = phase ∧
      (phase = .inspecting turn ∨ (∃ fault, fault ≠ .cancelled ∧ phase = .cleaning turn fault) ∨
        (phase = .failing .cancelled ∧
          ∃ left', Reply.returned left result = .returned left' (.error .cancelled))) := by
    intro left result
    cases result with
    | ok _ => exact ⟨_, rfl, .inl rfl⟩
    | error fault =>
        by_cases stopped : fault = .cancelled
        · subst stopped
          exact ⟨_, rfl, .inr (.inr ⟨rfl, left, rfl⟩)⟩
        · exact ⟨.cleaning turn fault, verdict_error turn stopped, .inr (.inl ⟨fault, stopped, rfl⟩)⟩
  cases reply with
  | crashed => exact .inl ⟨rfl, rfl⟩
  | returned left result =>
      right
      rw [receive_returned]
      cases written : left.elim (.ok b.disk) (b.disk.write turn.request.output) with
      | error fault => exact ⟨b.disk, _, rfl, .inl rfl, .inr (.inl ⟨.io fault, nofun, rfl⟩)⟩
      | ok disk =>
          obtain ⟨phase, rfl, outcome⟩ := judged left result
          refine ⟨disk, _, rfl, ?_, outcome⟩
          cases left with
          | none =>
              cases written
              exact .inl rfl
          | some bytes => exact .inr ⟨bytes, written⟩

theorem measure_cases (setup : Setup) (b : Bench) (retry : Nat) :
    ∃ phase, (phase = .opening (retry + 1) ∨ phase = .closing ∨ phase = .taking ∨
        ∃ fault, phase = .failing (.io fault)) ∧
      b.measure setup retry =
        { b with job := { b.job with attempts := b.job.attempts + 1, phase } } := by
  unfold measure
  dsimp only
  split
  next fault _ => exact ⟨_, .inr (.inr (.inr ⟨fault, rfl⟩)), rfl⟩
  next => exact ⟨_, .inr (.inr (.inl rfl)), rfl⟩
  next =>
    split
    · exact ⟨_, .inl rfl, rfl⟩
    · exact ⟨_, .inr (.inl rfl), rfl⟩

theorem ensures_mutating (b : Bench) :
    Ensures ((b.clear setup).fractal.mutateInPlace setup.genetic)
      fun g => ∃ genome, g = (b.clear setup).fractal.withGenome genome :=
  Fractal.ensures_mutateInPlace _ _

theorem ensures_rebreeding (b : Bench) :
    Ensures ((b.clear setup).fractal.redo setup.genetic)
      fun g => ∃ genome, g = (b.clear setup).fractal.withGenome genome :=
  Fractal.ensures_redone _ _

/-- Everything that one step can do. -/
inductive Steps (setup : Setup) (reply : Reply) (b : Bench) : Bench → Option Notice → Prop where
  | announced : b.job.phase = .announcing →
      Steps setup reply b (b.enter .preparing) (some (.event (.started b.job.slot b.fractal.id)))
  | prepared {next : Phase} : b.job.phase = .preparing →
      (next = .opening 0 ∨ ∃ fault, next = .failing (.io fault)) →
      Steps setup reply b
        (({ b with disk := (setup.store.ensureDir b.disk).1 } : Bench).enter next) none
  /-- The flag is looked at before each picture, each call, the last picture and its taking over. -/
  | stopped : (∃ retry, b.job.phase = .opening retry) ∨ (∃ turn last, b.job.phase = .trying turn last) ∨
        b.job.phase = .closing ∨ b.job.phase = .taking →
      b.job.flag.raised = true → Steps setup reply b (b.enter (.failing .cancelled)) none
  | opened {retry : Nat} {next : Phase} : b.job.phase = .opening retry →
      (next = .requesting 0 ∨ next = .mutating retry) → Steps setup reply b (b.enter next) none
  | varied {next : Phase} (genome : Genome) (source : Source) (regenerations : UInt32) :
      b.job.phase.varies → (∃ retry, next = .requesting retry ∨ next = .opening retry) →
      Steps setup reply b
        ⟨{ b.job with source, regenerations, phase := next }, b.fractal.varied genome,
          setup.store.discard b.disk b.fractal.id⟩ none
  | spoiled (regenerations : UInt32) : b.job.phase.varies →
      Steps setup reply b
        ⟨{ b.job with regenerations, phase := .dead },
          { b.fractal with state := .discarded, image := none },
          setup.store.discard b.disk b.fractal.id⟩ none
  | requested {retry : Nat} : b.job.phase = .requesting retry →
      Steps setup reply b (b.enter (.trying ⟨retry, b.fractal.request setup.store, 0⟩ none)) none
  | called {turn : Turn} {last : Option Failure} : b.job.phase = .trying turn last →
      b.job.flag.raised = false →
      Steps setup reply b (b.enter (.calling turn)) (some (.call turn.request))
  | exhausted {turn : Turn} {last : Option Failure} : b.job.phase = .trying turn last →
      Steps setup reply b
        (b.enter (.failing (last.getD (.renderer "Renderer was never invoked")))) none
  | crashed {turn : Turn} : b.job.phase = .calling turn → reply = .crashed →
      Steps setup reply b (b.enter .dead) none
  | returned {turn : Turn} (counted : Turn) {next : Phase} {disk : Disk} :
      b.job.phase = .calling turn → counted.request = turn.request →
      (disk = b.disk ∨ ∃ bytes, b.disk.write turn.request.output bytes = .ok disk) →
      (next = .inspecting counted ∨ ∃ fault, fault ≠ .cancelled ∧ next = .cleaning counted fault) →
      Steps setup reply b (({ b with disk } : Bench).enter next) none
  | ceased {turn : Turn} {left : Option ByteArray} {disk : Disk} : b.job.phase = .calling turn →
      reply = .returned left (.error .cancelled) →
      (disk = b.disk ∨ ∃ bytes, b.disk.write turn.request.output bytes = .ok disk) →
      Steps setup reply b (({ b with disk } : Bench).enter (.failing .cancelled)) none
  | inspected {turn : Turn} {next : Phase} : b.job.phase = .inspecting turn →
      (next = .measuring turn.retry ∨ ∃ reason, next = .cleaning turn (.renderer reason)) →
      Steps setup reply b (b.enter next) none
  | cleaned {turn : Turn} {fault : Failure} : b.job.phase = .cleaning turn fault →
      Steps setup reply b
        (({ b with disk := setup.store.discard b.disk turn.request.identity } : Bench).enter
          (.trying turn (some fault))) none
  | measured {retry : Nat} {next : Phase} (attempts : UInt32) : b.job.phase = .measuring retry →
      (next = .opening (retry + 1) ∨ next = .closing ∨ next = .taking ∨
        ∃ fault, next = .failing (.io fault)) →
      Steps setup reply b { b with job := { b.job with attempts, phase := next } } none
  | closed {next : Phase} : b.job.phase = .closing → (next = .taking ∨ next = .rebreeding) →
      Steps setup reply b (b.enter next) none
  | taken {bytes : ByteArray} : b.job.phase = .taking → b.job.flag.raised = false →
      b.disk.read (setup.store.path b.fractal.id) = .ok bytes →
      Steps setup reply b
        ⟨{ b.job with phase := .marking b.fractal.id },
          { b.fractal with
            state := .ready
            image := some ⟨b.fractal.id, setup.store.extension, bytes⟩ },
          setup.store.discard b.disk b.fractal.id⟩ none
  | missed (fault : IoFault) : b.job.phase = .taking →
      Steps setup reply b (b.enter (.failing (.io fault))) none
  | marked {identity : String} : b.job.phase = .marking identity →
      Steps setup reply b (b.enter (.reporting identity)) (some .ready)
  | reported {identity : String} : b.job.phase = .reporting identity →
      Steps setup reply b (b.enter .repainting)
        (some (.event (.ready b.job.slot identity b.job.attempts b.job.regenerations)))
  | yielded {fault : Failure} : b.job.phase = .failing fault →
      (fault = .cancelled ∨ b.job.flag.raised = true) → Steps setup reply b (b.enter .withdrawing) none
  | failed {fault : Failure} : b.job.phase = .failing fault →
      Steps setup reply b (b.enter (.settling fault)) none
  | withdrawn : b.job.phase = .withdrawing →
      Steps setup reply b (b.enter .over) (some (.event (.cancelled b.job.slot)))
  | givenUp {fault : Failure} : b.job.phase = .settling fault →
      Steps setup reply b
        ⟨{ b.job with phase := .lamenting b.fractal.id fault }, { b.fractal with state := .failed },
          setup.store.discard b.disk b.fractal.id⟩ none
  | lamented {identity : String} {fault : Failure} : b.job.phase = .lamenting identity fault →
      Steps setup reply b (b.enter .repainting)
        (some (.event (.failed b.job.slot identity fault.message)))
  | repainted : b.job.phase = .repainting → Steps setup reply b (b.enter .over) (some .repaint)
  | rested : b.job.isOver = true → Steps setup reply b b none

theorem steps_unlessStopped {reply : Reply} {next : Phase}
    (checked : (∃ retry, b.job.phase = .opening retry) ∨ (∃ turn last, b.job.phase = .trying turn last) ∨
      b.job.phase = .closing ∨ b.job.phase = .taking)
    (going : Steps setup reply b (b.enter next) none) :
    Steps setup reply b (b.unlessStopped next) none := by
  rw [unlessStopped_eq]
  cases raised : b.job.flag.raised with
  | true => exact .stopped checked raised
  | false => exact going

theorem steps_step (setup : Setup) (reply : Reply) (b : Bench) :
    Steps setup reply b (b.step setup reply).1 (b.step setup reply).2 := by
  cases phase : b.job.phase with
  | announcing =>
      simp only [step, phase]
      exact .announced phase
  | preparing =>
      simp only [step, phase]
      apply Steps.prepared phase
      cases (setup.store.ensureDir b.disk).2 with
      | ok _ => exact .inl rfl
      | error fault => exact .inr ⟨fault, rfl⟩
  | opening retry =>
      simp only [step, phase]
      apply steps_unlessStopped (.inl ⟨retry, phase⟩)
      apply Steps.opened phase
      split
      · exact .inl rfl
      · exact .inr rfl
  | mutating retry =>
      simp only [step, phase]
      have varies : b.job.phase.varies := by rw [phase]; rfl
      rcases choose_cases b (.requesting retry) (ensures_mutating b) with ⟨genome, source, made⟩ | made
      · rw [made]
        exact .varied genome source _ varies ⟨retry, .inl rfl⟩
      · rw [made]
        exact .spoiled _ varies
  | requesting retry =>
      simp only [step, phase]
      exact .requested phase
  | trying turn last =>
      simp only [step, phase, StopFlag.check]
      split
      · cases raised : b.job.flag.raised with
        | true => exact .stopped (.inr (.inl ⟨turn, last, phase⟩)) raised
        | false => exact .called phase raised
      · exact .exhausted phase
  | calling turn =>
      simp only [step, phase]
      rcases receive_cases b { turn with calls := turn.calls + 1 } reply with
        ⟨crashed, made⟩ | ⟨disk, next, made, written, outcome⟩
      · rw [made]
        exact .crashed phase crashed
      · rw [made]
        rcases outcome with rfl | ⟨fault, other, rfl⟩ | ⟨rfl, left, ceased⟩
        · exact .returned { turn with calls := turn.calls + 1 } phase rfl written (.inl rfl)
        · exact .returned { turn with calls := turn.calls + 1 } phase rfl written
            (.inr ⟨fault, other, rfl⟩)
        · exact .ceased phase ceased written
  | inspecting turn =>
      simp only [step, phase]
      split
      · exact .inspected phase (.inl rfl)
      · exact .inspected phase (.inr ⟨_, rfl⟩)
  | cleaning turn fault =>
      simp only [step, phase]
      exact .cleaned phase
  | measuring retry =>
      simp only [step, phase]
      obtain ⟨next, outcome, made⟩ := measure_cases setup b retry
      rw [made]
      exact .measured _ phase outcome
  | closing =>
      simp only [step, phase]
      apply steps_unlessStopped (.inr (.inr (.inl phase)))
      apply Steps.closed phase
      split
      · exact .inl rfl
      · exact .inr rfl
  | rebreeding =>
      simp only [step, phase]
      have varies : b.job.phase.varies := by rw [phase]; rfl
      rcases choose_cases b (.opening 0) (ensures_rebreeding b) with ⟨genome, source, made⟩ | made
      · rw [made]
        exact .varied genome source _ varies ⟨0, .inr rfl⟩
      · rw [made]
        exact .spoiled _ varies
  | taking =>
      simp only [step, phase]
      rcases take_cases setup b with
        ⟨bytes, raised, read, made⟩ | ⟨raised, made⟩ | ⟨fault, made⟩
      · rw [made]
        exact .taken phase raised read
      · rw [made]
        exact .stopped (.inr (.inr (.inr phase))) raised
      · rw [made]
        exact .missed fault phase
  | marking identity =>
      simp only [step, phase]
      exact .marked phase
  | reporting identity =>
      simp only [step, phase]
      exact .reported phase
  | failing fault =>
      simp only [step, phase]
      split
      next stops => exact .yielded phase stops
      next => exact .failed phase
  | withdrawing =>
      simp only [step, phase]
      exact .withdrawn phase
  | settling fault =>
      simp only [step, phase]
      exact .givenUp phase
  | lamenting identity fault =>
      simp only [step, phase]
      exact .lamented phase
  | repainting =>
      simp only [step, phase]
      exact .repainted phase
  | «over» =>
      simp only [step, phase]
      exact .rested (by simp [Job.isOver, phase])
  | dead =>
      simp only [step, phase]
      exact .rested (by simp [Job.isOver, phase])

variable {reply : Reply} {after : Bench} {notice : Option Notice}

theorem Steps.effect (steps : Steps setup reply b after notice) :
    Effect setup b after.fractal after.disk := by
  cases steps with
  | prepared phase _ => exact .prepared phase
  | varied genome _ _ varies _ => exact .varied genome varies
  | spoiled _ varies => exact .spoiled varies
  | returned _ phase _ written _ =>
      rcases written with rfl | ⟨bytes, written⟩
      · exact .still
      · exact .received phase written
  | ceased phase _ written =>
      rcases written with rfl | ⟨bytes, written⟩
      · exact .still
      · exact .received phase written
  | cleaned phase => exact .cleaned phase
  | taken phase raised read => exact .taken phase raised read
  | givenUp phase => exact .givenUp phase
  | _ => exact .still

/-- A job keeps its slot, its fractal and its flag. -/
theorem Steps.slot_eq (steps : Steps setup reply b after notice) : after.job.slot = b.job.slot := by
  cases steps <;> rfl

theorem Steps.fractal_eq (steps : Steps setup reply b after notice) :
    after.job.fractal = b.job.fractal := by
  cases steps <;> rfl

theorem Steps.flag_eq (steps : Steps setup reply b after notice) : after.job.flag = b.job.flag := by
  cases steps <;> rfl

end Bench

end FractalBreeder
