import FractalBreeder.Proofs.Rendering.Labours
import FractalBreeder.Proofs.Rendering.Leaving

/-!
The repeated calls for one picture. Before each call that is due the job looks at its flag; a call
returns with what the renderer did, and the job looks for the file. What was seen and what came of
each call is written down, up to the step on which the job leaves the calls behind.
-/
namespace FractalBreeder

/-- What came of a call: its file is there, it succeeded without one, or it failed. -/
inductive CallResult where
  | made
  | missing
  | failed (fault : Failure)
  deriving DecidableEq, Repr

namespace CallResult

/-- What a call without a file is told as. -/
def fault? (request : Request) : CallResult → Option Failure
  | made => none
  | missing => some (.renderer ("Renderer produced no output at " ++ request.output))
  | failed fault => some fault

/-- The call may be repeated after this. -/
def Fails (result : CallResult) : Prop := result ≠ .made ∧ result ≠ .failed .cancelled

instance (result : CallResult) : Decidable result.Fails := inferInstanceAs (Decidable (_ ∧ _))

theorem fails_missing : missing.Fails := by decide

theorem fails_failed {fault : Failure} (other : fault ≠ .cancelled) : (failed fault).Fails :=
  ⟨nofun, fun same => other (failed.inj same)⟩

theorem Fails.fault {result : CallResult} (fails : result.Fails) (request : Request) :
    ∃ fault, fault ≠ .cancelled ∧ result.fault? request = some fault := by
  cases result with
  | made => exact absurd rfl fails.1
  | missing => exact ⟨_, Failure.noConfusion, rfl⟩
  | failed fault => exact ⟨fault, fun same => fails.2 (congrArg failed same), rfl⟩

end CallResult

/-- How the calls for a picture end, by what was seen of the flag before each, and by what came of
each. -/
inductive Concludes (request : Request) (budget : Nat) :
    List Bool → List CallResult → Except Failure Unit → Prop where
  | made (before : List CallResult) (fails : ∀ result ∈ before, result.Fails)
      (within : before.length < budget) :
      Concludes request budget (List.replicate (before.length + 1) false) (before ++ [.made]) (.ok ())
  | cancelled (before : List CallResult) (fails : ∀ result ∈ before, result.Fails)
      (within : before.length < budget) :
      Concludes request budget (List.replicate (before.length + 1) false)
        (before ++ [.failed .cancelled]) (.error .cancelled)
  | stopped (results : List CallResult) (fails : ∀ result ∈ results, result.Fails)
      (within : results.length < budget) :
      Concludes request budget (List.replicate results.length false ++ [true]) results
        (.error .cancelled)
  | exhausted (before : List CallResult) (last : CallResult) (fault : Failure)
      (fails : ∀ result ∈ before ++ [last], result.Fails) (full : before.length + 1 = budget)
      (told : last.fault? request = some fault) :
      Concludes request budget (List.replicate budget false) (before ++ [last]) (.error fault)

namespace Concludes

variable {request : Request} {budget : Nat} {checks : List Bool} {results : List CallResult}
  {outcome : Except Failure Unit}

/-- A picture comes of the calls exactly when the last of them made it. -/
theorem ok_iff (concludes : Concludes request budget checks results outcome) :
    outcome = .ok () ↔ .made ∈ results := by
  cases concludes with
  | made before fails within =>
    exact ⟨fun _ => List.mem_concat_self, fun _ => rfl⟩
  | cancelled before fails within =>
    refine ⟨nofun, fun made => ?_⟩
    rcases List.mem_append.mp made with made | made
    · exact absurd rfl (fails _ made).1
    · cases List.mem_singleton.mp made
  | stopped results fails within => exact ⟨nofun, fun made => absurd rfl (fails _ made).1⟩
  | exhausted before last fault fails full told =>
    exact ⟨nofun, fun made => absurd rfl (fails _ made).1⟩

/-- A stop comes of the calls exactly when one of them was stopped or the flag was seen raised. -/
theorem cancelled_iff (concludes : Concludes request budget checks results outcome) :
    outcome = .error .cancelled ↔ .failed .cancelled ∈ results ∨ true ∈ checks := by
  cases concludes with
  | made before fails within =>
    refine ⟨nofun, ?_⟩
    rintro (stopped | seen)
    · rcases List.mem_append.mp stopped with stopped | stopped
      · exact absurd rfl (fails _ stopped).2
      · cases List.mem_singleton.mp stopped
    · cases List.eq_of_mem_replicate seen
  | cancelled before fails within =>
    exact ⟨fun _ => .inl List.mem_concat_self, fun _ => rfl⟩
  | stopped results fails within =>
    exact ⟨fun _ => .inr List.mem_concat_self, fun _ => rfl⟩
  | exhausted before last fault fails full told =>
    have lastFails := fails last List.mem_concat_self
    obtain ⟨_, other, told'⟩ := lastFails.fault request
    obtain rfl := Option.some.inj (told.symm.trans told')
    refine ⟨fun same => absurd (Except.error.inj same) other, ?_⟩
    rintro (stopped | seen)
    · exact absurd rfl (fails _ stopped).2
    · cases List.eq_of_mem_replicate seen

/-- After the last call that is due, the last failure is told. -/
theorem of_full (fails : ∀ result ∈ results, result.Fails) (full : results.length = budget)
    (due : 0 < budget) (default : Failure) :
    Concludes request budget (List.replicate results.length false) results
      (.error ((results.getLast?.bind (·.fault? request)).getD default)) := by
  rcases List.eq_nil_or_concat results with rfl | ⟨before, last, rfl⟩
  · rw [List.length_nil] at full
    omega
  · rw [List.concat_eq_append] at fails full ⊢
    have lastFails := fails last List.mem_concat_self
    obtain ⟨fault, -, told⟩ := lastFails.fault request
    rw [List.getLast?_concat, Option.bind_some, told, full]
    exact .exhausted before last fault fails (by simpa using full) told

end Concludes

/-- What a job meets at one step of its calls: whether it was asked to stop since the last, what the
others did to the disk, and what a call leaves and returns if one returns now. -/
structure Moment where
  stopped : Bool := false
  others : Disk → Disk := id
  left : Option ByteArray := none
  result : Except Failure Unit := .ok ()

/-- What follows the calls for a picture. -/
def Phase.after (retry : Nat) : Except Failure Unit → Phase
  | .ok () => .measuring retry
  | .error fault => .failing fault

/-- In the middle of the calls for a picture. -/
def Phase.isCalling : Phase → Bool
  | .trying _ _ | .calling _ | .inspecting _ | .cleaning _ _ => true
  | _ => false

namespace Bench

def meet (b : Bench) (m : Moment) : Bench :=
  { b with job := if m.stopped then b.job.asked else b.job, disk := m.others b.disk }

theorem meet_phase (b : Bench) (m : Moment) : (b.meet m).job.phase = b.job.phase := by
  unfold meet
  split <;> rfl

/-- What is seen of the flag before a call that is due. -/
def check? (setup : Setup) (b : Bench) : Option Bool :=
  match b.job.phase with
  | .trying turn _ =>
    if turn.calls < setup.render.attempts.toNat then some b.job.flag.raised else none
  | _ => none

/-- The disk once a call has left its file. -/
def written (b : Bench) (request : Request) : Option ByteArray → Except IoFault Disk
  | none => .ok b.disk
  | some bytes => b.disk.write request.output bytes

/-- What came of a call, at the step that tells. -/
def result? (b : Bench) (left : Option ByteArray) (result : Except Failure Unit) : Option CallResult :=
  match b.job.phase with
  | .calling turn =>
    match b.written turn.request left, result with
    | .error fault, _ => some (.failed (.io fault))
    | .ok _, .error fault => some (.failed fault)
    | .ok _, .ok () => none
  | .inspecting turn => some (if b.disk.exists? turn.request.output then .made else .missing)
  | _ => none

theorem written_eq (b : Bench) (request : Request) (left : Option ByteArray) :
    left.elim (.ok b.disk) (b.disk.write request.output) = b.written request left := by
  cases left <;> rfl

end Bench

/-- A job at the calls for a picture, with what it saw, called for and got so far. -/
structure Pursuit where
  bench : Bench
  checks : List Bool := []
  calls : List Request := []
  results : List CallResult := []

namespace Pursuit

/-- One step of the job; behind the calls there is none. -/
def step (setup : Setup) (p : Pursuit) (m : Moment) : Pursuit :=
  if p.bench.job.phase.isCalling then
    { bench := ((p.bench.meet m).step setup (.returned m.left m.result)).1
      checks := p.checks ++ ((p.bench.meet m).check? setup).toList
      calls := p.calls ++
        (Notice.request? ((p.bench.meet m).step setup (.returned m.left m.result)).2).toList
      results := p.results ++ ((p.bench.meet m).result? m.left m.result).toList }
  else p

def run (setup : Setup) : Pursuit → List Moment → Pursuit := List.foldl (step setup)

/-- A condition on every step of a run. -/
def Always (setup : Setup) (condition : Pursuit → Moment → Prop) : Pursuit → List Moment → Prop
  | _, [] => True
  | p, m :: rest => condition p m ∧ Always setup condition (p.step setup m) rest

/-- What one step does. -/
inductive Goes (setup : Setup) (m : Moment) (p : Pursuit) : Pursuit → Prop where
  | seen {turn : Turn} {last : Option Failure} (phase : p.bench.job.phase = .trying turn last)
      (due : turn.calls < setup.render.attempts.toNat) :
      Goes setup m p
        { p with bench := (p.bench.meet m).enter (.failing .cancelled), checks := p.checks ++ [true] }
  | called {turn : Turn} {last : Option Failure} (phase : p.bench.job.phase = .trying turn last)
      (due : turn.calls < setup.render.attempts.toNat) :
      Goes setup m p
        { p with bench := (p.bench.meet m).enter (.calling turn), checks := p.checks ++ [false],
                 calls := p.calls ++ [turn.request] }
  | spent {turn : Turn} {last : Option Failure} (phase : p.bench.job.phase = .trying turn last)
      (full : setup.render.attempts.toNat ≤ turn.calls) :
      Goes setup m p
        { p with bench := (p.bench.meet m).enter
                   (.failing (last.getD (.renderer "Renderer was never invoked"))) }
  | returned {turn : Turn} {disk : Disk} (phase : p.bench.job.phase = .calling turn) :
      Goes setup m p
        { p with bench := ({ p.bench.meet m with disk } : Bench).enter
                   (.inspecting { turn with calls := turn.calls + 1 }) }
  | ceased {turn : Turn} {disk : Disk} (phase : p.bench.job.phase = .calling turn) :
      Goes setup m p
        { p with bench := ({ p.bench.meet m with disk } : Bench).enter (.failing .cancelled),
                 results := p.results ++ [.failed .cancelled] }
  | failed {turn : Turn} {disk : Disk} {fault : Failure} (phase : p.bench.job.phase = .calling turn)
      (other : fault ≠ .cancelled) :
      Goes setup m p
        { p with bench := ({ p.bench.meet m with disk } : Bench).enter
                   (.cleaning { turn with calls := turn.calls + 1 } fault),
                 results := p.results ++ [.failed fault] }
  | made {turn : Turn} (phase : p.bench.job.phase = .inspecting turn) :
      Goes setup m p
        { p with bench := (p.bench.meet m).enter (.measuring turn.retry),
                 results := p.results ++ [.made] }
  | missed {turn : Turn} (phase : p.bench.job.phase = .inspecting turn) :
      Goes setup m p
        { p with bench := (p.bench.meet m).enter (.cleaning turn
                   (.renderer ("Renderer produced no output at " ++ turn.request.output))),
                 results := p.results ++ [.missing] }
  | cleaned {turn : Turn} {fault : Failure} (phase : p.bench.job.phase = .cleaning turn fault) :
      Goes setup m p
        { p with bench := ({ p.bench.meet m with
                   disk := setup.store.discard (m.others p.bench.disk) turn.request.identity } :
                     Bench).enter (.trying turn (some fault)) }
  | rested (phase : p.bench.job.phase.isCalling = false) : Goes setup m p p

variable {setup : Setup} {retry budget : Nat} {request : Request} {p q : Pursuit} {m : Moment}

theorem step_of_isCalling (calling : p.bench.job.phase.isCalling = true) :
    p.step setup m =
      { bench := ((p.bench.meet m).step setup (.returned m.left m.result)).1
        checks := p.checks ++ ((p.bench.meet m).check? setup).toList
        calls := p.calls ++
          (Notice.request? ((p.bench.meet m).step setup (.returned m.left m.result)).2).toList
        results := p.results ++ ((p.bench.meet m).result? m.left m.result).toList } :=
  if_pos calling

theorem goes_trying {turn : Turn} {last : Option Failure}
    (phase : p.bench.job.phase = .trying turn last) : p.Goes setup m (p.step setup m) := by
  have met := (p.bench.meet_phase m).trans phase
  rw [step_of_isCalling (by rw [phase]; rfl)]
  simp only [Bench.step, Bench.check?, Bench.result?, met, StopFlag.check, Option.toList,
    List.append_nil]
  by_cases due : turn.calls < setup.render.attempts.toNat
  · simp only [if_pos due]
    cases (p.bench.meet m).job.flag.raised with
    | true =>
      simp only [if_true, Notice.request?, List.append_nil]
      exact .seen phase due
    | false =>
      simp only [Bool.false_eq_true, if_false, Notice.request?]
      exact .called phase due
  · simp only [if_neg due, Notice.request?, List.append_nil]
    exact .spent phase (Nat.le_of_not_lt due)

theorem goes_calling {turn : Turn} (phase : p.bench.job.phase = .calling turn) :
    p.Goes setup m (p.step setup m) := by
  have met := (p.bench.meet_phase m).trans phase
  rw [step_of_isCalling (by rw [phase]; rfl)]
  simp only [Bench.step, Bench.check?, Bench.result?, met, Bench.receive_returned, Bench.written_eq,
    Notice.request?, Option.toList, List.append_nil]
  cases (p.bench.meet m).written turn.request m.left with
  | error fault => exact .failed phase (by rintro ⟨⟩)
  | ok disk =>
    cases m.result with
    | ok _ =>
      simp only [List.append_nil]
      exact .returned phase
    | error fault =>
      by_cases stopped : fault = .cancelled
      · subst stopped
        exact .ceased phase
      · simp only [Bench.verdict_error _ stopped]
        exact .failed phase stopped

theorem goes_inspecting {turn : Turn} (phase : p.bench.job.phase = .inspecting turn) :
    p.Goes setup m (p.step setup m) := by
  have met := (p.bench.meet_phase m).trans phase
  rw [step_of_isCalling (by rw [phase]; rfl)]
  simp only [Bench.step, Bench.check?, Bench.result?, met, Option.toList, List.append_nil]
  cases (p.bench.meet m).disk.exists? turn.request.output with
  | true =>
    simp only [if_true, Notice.request?, List.append_nil]
    exact .made phase
  | false =>
    simp only [Bool.false_eq_true, if_false, Notice.request?, List.append_nil]
    exact .missed phase

theorem goes_cleaning {turn : Turn} {fault : Failure}
    (phase : p.bench.job.phase = .cleaning turn fault) : p.Goes setup m (p.step setup m) := by
  have met := (p.bench.meet_phase m).trans phase
  rw [step_of_isCalling (by rw [phase]; rfl)]
  simp only [Bench.step, Bench.check?, Bench.result?, met, Notice.request?, Option.toList,
    List.append_nil]
  exact .cleaned phase

theorem goes_step (setup : Setup) (p : Pursuit) (m : Moment) : p.Goes setup m (p.step setup m) := by
  cases phase : p.bench.job.phase with
  | trying turn last => exact goes_trying phase
  | calling turn => exact goes_calling phase
  | inspecting turn => exact goes_inspecting phase
  | cleaning turn fault => exact goes_cleaning phase
  | _ =>
    have still : p.bench.job.phase.isCalling = false := by rw [phase]; rfl
    rw [step, still]
    exact .rested still

/-- So many calls were made; each of those that returned has failed. -/
structure Counted (request : Request) (n : Nat) (p : Pursuit) : Prop where
  fails : ∀ result ∈ p.results, result.Fails
  checks : p.checks = List.replicate n false
  calls : p.calls = List.replicate n request

/-- The calls have ended: all were for the request, and something came of each. -/
structure Ended (request : Request) (budget : Nat) (outcome : Except Failure Unit) (p : Pursuit) :
    Prop where
  concludes : Concludes request budget p.checks p.results outcome
  calls : p.calls = List.replicate p.results.length request

/-- Where a job is in its calls, and what it has noted. -/
def Stage (retry : Nat) (request : Request) (budget : Nat) (p : Pursuit) : Prop :=
  match p.bench.job.phase with
  | .trying turn last =>
    turn = ⟨retry, request, p.results.length⟩ ∧ p.Counted request p.results.length ∧
      p.results.length ≤ budget ∧ last = p.results.getLast?.bind (·.fault? request)
  | .calling turn =>
    turn = ⟨retry, request, p.results.length⟩ ∧ p.Counted request (p.results.length + 1) ∧
      p.results.length < budget
  | .inspecting turn =>
    turn = ⟨retry, request, p.results.length + 1⟩ ∧ p.Counted request (p.results.length + 1) ∧
      p.results.length < budget
  | .cleaning turn fault =>
    turn = ⟨retry, request, p.results.length⟩ ∧ p.Counted request p.results.length ∧
      p.results.length ≤ budget ∧ p.results.getLast?.bind (·.fault? request) = some fault
  | phase => ∃ outcome, phase = .after retry outcome ∧ p.Ended request budget outcome

/-- The result of a call that fails is noted. -/
theorem Counted.fail {result : CallResult} {b : Bench}
    (counted : p.Counted request (p.results.length + 1)) (fails : result.Fails) :
    ({ p with bench := b, results := p.results ++ [result] } : Pursuit).Counted request
      (p.results ++ [result]).length where
  fails r member := by
    rcases List.mem_append.mp member with member | member
    · exact counted.fails r member
    · exact List.mem_singleton.mp member ▸ fails
  checks := by
    rw [List.length_append]
    exact counted.checks
  calls := by
    rw [List.length_append]
    exact counted.calls

theorem stage_of_fails {result : CallResult} {fault : Failure} {b : Bench}
    (counted : p.Counted request (p.results.length + 1)) (within : p.results.length < budget)
    (fails : result.Fails) (told : result.fault? request = some fault)
    (phase : b.job.phase = .cleaning ⟨retry, request, p.results.length + 1⟩ fault) :
    ({ p with bench := b, results := p.results ++ [result] } : Pursuit).Stage retry request budget := by
  unfold Stage
  simp only [phase]
  refine ⟨?_, counted.fail fails, ?_, ?_⟩
  · rw [List.length_append, List.length_singleton]
  · rw [List.length_append]
    exact within
  · rw [List.getLast?_concat]
    exact told

theorem stage_of_goes (budget_eq : setup.render.attempts.toNat = budget) (due : 0 < budget)
    (stage : p.Stage retry request budget) (goes : p.Goes setup m q) :
    q.Stage retry request budget := by
  subst budget_eq
  have before := stage
  unfold Stage at stage
  cases goes with
  | seen phase more =>
    rw [phase] at stage
    obtain ⟨rfl, counted, -, -⟩ := stage
    refine ⟨.error .cancelled, rfl, ?_, counted.calls⟩
    have stopped : Concludes request _ _ _ _ := .stopped p.results counted.fails more
    rwa [← counted.checks] at stopped
  | called phase more =>
    rw [phase] at stage
    obtain ⟨rfl, counted, -, -⟩ := stage
    refine ⟨rfl, ⟨counted.fails, ?_, ?_⟩, more⟩
    · rw [List.replicate_succ', ← counted.checks]
    · rw [List.replicate_succ', ← counted.calls]
  | spent phase full =>
    rw [phase] at stage
    obtain ⟨rfl, counted, within, rfl⟩ := stage
    refine ⟨.error _, rfl, ?_, counted.calls⟩
    -- at least one call was due, so there is a last failure and the default is never told
    have exhausted : Concludes request _ _ _ _ := .of_full counted.fails
      (Nat.le_antisymm within full) due (.renderer "Renderer was never invoked")
    rwa [← counted.checks] at exhausted
  | returned phase =>
    rw [phase] at stage
    obtain ⟨rfl, counted, within⟩ := stage
    exact ⟨rfl, ⟨counted.fails, counted.checks, counted.calls⟩, within⟩
  | ceased phase =>
    rw [phase] at stage
    obtain ⟨rfl, counted, within⟩ := stage
    refine ⟨.error .cancelled, rfl, ?_, ?_⟩
    · have cancelled : Concludes request _ _ _ _ := .cancelled p.results counted.fails within
      rwa [← counted.checks] at cancelled
    · rw [List.length_append]
      exact counted.calls
  | failed phase other =>
    rw [phase] at stage
    obtain ⟨rfl, counted, within⟩ := stage
    exact stage_of_fails counted within (CallResult.fails_failed other) rfl rfl
  | made phase =>
    rw [phase] at stage
    obtain ⟨rfl, counted, within⟩ := stage
    refine ⟨.ok (), rfl, ?_, ?_⟩
    · have made : Concludes request _ _ _ _ := .made p.results counted.fails within
      rwa [← counted.checks] at made
    · rw [List.length_append]
      exact counted.calls
  | missed phase =>
    rw [phase] at stage
    obtain ⟨rfl, counted, within⟩ := stage
    exact stage_of_fails counted within CallResult.fails_missing rfl rfl
  | cleaned phase =>
    rw [phase] at stage
    obtain ⟨rfl, counted, within, told⟩ := stage
    exact ⟨rfl, ⟨counted.fails, counted.checks, counted.calls⟩, within, told.symm⟩
  | rested phase => exact before

section Runs

variable {moments : List Moment} {condition : Pursuit → Moment → Prop} {invariant : Pursuit → Prop}

/-- What every step keeps, a run keeps. -/
theorem run_keeps (keeps : ∀ p m, condition p m → invariant p → invariant (p.step setup m))
    (always : p.Always setup condition moments) (holds : invariant p) :
    invariant (p.run setup moments) := by
  induction moments generalizing p with
  | nil => exact holds
  | cons m rest ih => exact ih always.2 (keeps p m always.1 holds)

theorem stage_run (budget_eq : setup.render.attempts.toNat = budget) (due : 0 < budget)
    (stage : p.Stage retry request budget) (moments : List Moment) :
    (p.run setup moments).Stage retry request budget := by
  induction moments generalizing p with
  | nil => exact stage
  | cons m rest ih => exact ih (stage_of_goes budget_eq due stage (goes_step setup p m))

theorem run_of_rested (rested : p.bench.job.phase.isCalling = false) (moments : List Moment) :
    p.run setup moments = p := by
  induction moments with
  | nil => rfl
  | cons m rest ih =>
    have still : p.step setup m = p := by rw [step, rested]; rfl
    rw [run, List.foldl_cons, still]
    exact ih

theorem lt_rank_of_isCalling {phase : Phase} (calling : phase.isCalling = true) :
    6 < phase.rank budget := by
  cases phase with
  | trying _ _ | calling _ | inspecting _ | cleaning _ _ =>
    simp only [Phase.rank]
    omega
  | _ => cases calling

theorem rank_step (budget_eq : setup.render.attempts.toNat = budget)
    (stage : p.Stage retry request budget) (calling : p.bench.job.phase.isCalling = true)
    (m : Moment) : (p.step setup m).bench.job.phase.rank budget < p.bench.job.phase.rank budget := by
  have met := p.bench.meet_phase m
  rw [step_of_isCalling calling, ← met]
  refine Bench.rank_step _ budget_eq (fun turn phase => ?_) (fun retry phase => ?_) ?_
  · rw [met] at phase
    unfold Stage at stage
    rw [phase] at stage
    obtain ⟨rfl, -, within⟩ := stage
    exact within
  · rw [met] at phase
    rw [phase] at calling
    cases calling
  · unfold Job.isOver
    rw [met]
    cases phase : p.bench.job.phase with
    | «over» | dead =>
      rw [phase] at calling
      cases calling
    | _ => rfl

/-- The rank goes down while the calls last, so they end. -/
theorem isCalling_run (budget_eq : setup.render.attempts.toNat = budget) (due : 0 < budget)
    (stage : p.Stage retry request budget)
    (enough : p.bench.job.phase.rank budget ≤ moments.length + 6) :
    (p.run setup moments).bench.job.phase.isCalling = false := by
  induction moments generalizing p with
  | nil =>
    cases calling : p.bench.job.phase.isCalling with
    | true => exact absurd (lt_rank_of_isCalling calling) (Nat.not_lt.mpr (by simpa using enough))
    | false => exact calling
  | cons m rest ih =>
    cases calling : p.bench.job.phase.isCalling with
    | true =>
      have less := rank_step budget_eq stage calling m
      rw [List.length_cons] at enough
      exact ih (stage_of_goes budget_eq due stage (goes_step setup p m)) (by omega)
    | false =>
      rw [run_of_rested calling]
      exact calling

end Runs

section Files

open Disk (HasFile Removable Leads Keeps)

variable {store : ImageStore} {identity : String}

/-- The others leave the place of a picture alone, and where a failed call is cleaned up after, a file
there can be removed. -/
structure Undisturbed (store : ImageStore) (identity : String) (p : Pursuit) (m : Moment) : Prop where
  workplace : (m.others p.bench.disk).workplace = p.bench.disk.workplace
  files : (m.others p.bench.disk).HasFile (store.spot p.bench.disk identity) →
    p.bench.disk.HasFile (store.spot p.bench.disk identity)
  removable : (∃ turn fault, p.bench.job.phase = .cleaning turn fault) →
    (m.others p.bench.disk).Removable (store.path identity)

/-- All calls were made, and each has failed. -/
structure GivenUp (budget : Nat) (p : Pursuit) : Prop where
  all : p.results.length = budget
  fails : ∀ result ∈ p.results, result.Fails

def Bare (store : ImageStore) (identity : String) (disk : Disk) : Prop :=
  ¬ disk.HasFile (store.spot disk identity)

/-- No file of a failed call is left before the next, or once there is none. -/
def Cleared (store : ImageStore) (identity : String) (budget : Nat) (p : Pursuit) : Prop :=
  match p.bench.job.phase with
  | .trying turn _ => 0 < turn.calls → Bare store identity p.bench.disk
  | .failing _ => p.GivenUp budget → Bare store identity p.bench.disk
  | _ => True

theorem Undisturbed.bare (undisturbed : p.Undisturbed store identity m)
    (bare : Bare store identity p.bench.disk) : Bare store identity (m.others p.bench.disk) := by
  unfold Bare
  rw [store.spot_congr undisturbed.workplace]
  exact fun held => bare (undisturbed.files held)

theorem bare_discard {disk : Disk} (removable : disk.Removable (store.path identity)) :
    Bare store identity (store.discard disk identity) := by
  unfold Bare
  rw [store.spot_congr (store.discard_cases disk identity).1]
  exact ImageStore.not_hasFile_discard removable

theorem cleared_of_goes (budget_eq : setup.render.attempts.toNat = budget) (due : 0 < budget)
    (stage : p.Stage retry request budget)
    (undisturbed : p.Undisturbed setup.store request.identity m)
    (cleared : p.Cleared setup.store request.identity budget) (goes : p.Goes setup m q) :
    q.Cleared setup.store request.identity budget := by
  subst budget_eq
  have before := cleared
  unfold Stage at stage
  unfold Cleared at cleared
  cases goes with
  | seen phase more =>
    rw [phase] at stage
    obtain ⟨rfl, -, -, -⟩ := stage
    exact fun givenUp => absurd givenUp.all (Nat.ne_of_lt more)
  | spent phase full =>
    rw [phase] at cleared
    exact fun _ => undisturbed.bare (cleared (Nat.lt_of_lt_of_le due full))
  | ceased phase =>
    intro givenUp
    exact absurd rfl (givenUp.fails (.failed .cancelled) List.mem_concat_self).2
  | cleaned phase =>
    rw [phase] at stage
    obtain ⟨rfl, -, -, -⟩ := stage
    exact fun _ => bare_discard (undisturbed.removable ⟨_, _, phase⟩)
  | called _ _ | returned _ | failed _ _ | made _ | missed _ => trivial
  | rested phase => exact before

theorem cleared_run {moments : List Moment} (budget_eq : setup.render.attempts.toNat = budget)
    (due : 0 < budget)
    (always : p.Always setup (Undisturbed setup.store request.identity) moments)
    (stage : p.Stage retry request budget)
    (cleared : p.Cleared setup.store request.identity budget) :
    (p.run setup moments).Cleared setup.store request.identity budget := by
  have keeps : ∀ (q : Pursuit) (m : Moment), q.Undisturbed setup.store request.identity m →
      q.Stage retry request budget ∧ q.Cleared setup.store request.identity budget →
        (q.step setup m).Stage retry request budget ∧
          (q.step setup m).Cleared setup.store request.identity budget := by
    intro q m undisturbed ⟨stage, cleared⟩
    have goes := goes_step setup q m
    exact ⟨stage_of_goes budget_eq due stage goes,
      cleared_of_goes budget_eq due stage undisturbed cleared goes⟩
  exact (run_keeps keeps always ⟨stage, cleared⟩).2

/-- What the others may do without being in the way of the picture of an identity. -/
structure Minds (store : ImageStore) (identity : String) (m : Moment) : Prop where
  keeps (disk : Disk) : Keeps disk (m.others disk)
  files (disk : Disk) : (m.others disk).HasFile (store.spot disk identity) →
    disk.HasFile (store.spot disk identity)

/-- Where there is a way to the picture at the beginning, the file can always be removed. -/
theorem always_undisturbed {moments : List Moment} {loc : Location}
    (minds : ∀ m ∈ moments, Minds store identity m)
    (leads : p.bench.disk.Leads (store.path identity) loc) :
    p.Always setup (Undisturbed store identity) moments := by
  induction moments generalizing p with
  | nil => trivial
  | cons m rest ih =>
    have minded := minds m List.mem_cons_self
    have led := (minded.keeps p.bench.disk).leads leads
    refine ⟨⟨(minded.keeps _).workplace, minded.files _, fun _ => led.removable⟩,
      ih (fun m member => minds m (List.mem_cons_of_mem _ member)) ?_⟩
    cases calling : p.bench.job.phase.isCalling with
    | true =>
      rw [step_of_isCalling calling]
      exact (Bench.steps_step setup _ (p.bench.meet m)).keeps.leads led
    | false =>
      rw [step, calling]
      exact leads

end Files

/-- How a job leaves the calls for a picture. -/
structure Settles (setup : Setup) (retry : Nat) (request : Request) (moments : List Moment)
    (p : Pursuit) (outcome : Except Failure Unit) : Prop where
  phase : (p.run setup moments).bench.job.phase = .after retry outcome
  ended : (p.run setup moments).Ended request (setup.render.ioRetries.toNat + 1) outcome
  made : outcome = .ok () ↔ .made ∈ (p.run setup moments).results
  cancelled : outcome = .error .cancelled ↔
    .failed .cancelled ∈ (p.run setup moments).results ∨ true ∈ (p.run setup moments).checks
  /-- Nothing is left of the picture when all calls have failed. -/
  bare : p.Always setup (Undisturbed setup.store request.identity) moments →
    (p.run setup moments).GivenUp (setup.render.ioRetries.toNat + 1) →
      Bare setup.store request.identity (p.run setup moments).bench.disk

theorem ended_of_stage (stage : p.Stage retry request budget)
    (rested : p.bench.job.phase.isCalling = false) :
    ∃ outcome, p.bench.job.phase = .after retry outcome ∧ p.Ended request budget outcome := by
  unfold Stage at stage
  cases phase : p.bench.job.phase with
  | trying _ _ | calling _ | inspecting _ | cleaning _ _ =>
    rw [phase] at rested
    cases rested
  | _ =>
    rw [phase] at stage
    exact stage

theorem bare_of_givenUp {store : ImageStore} {identity : String} {outcome : Except Failure Unit}
    (cleared : p.Cleared store identity budget) (phase : p.bench.job.phase = .after retry outcome)
    (ended : p.Ended request budget outcome) (givenUp : p.GivenUp budget) :
    Bare store identity p.bench.disk := by
  cases outcome with
  | ok _ => exact absurd rfl (givenUp.fails .made (ended.concludes.ok_iff.mp rfl)).1
  | error fault =>
    unfold Cleared at cleared
    rw [phase] at cleared
    exact cleared givenUp

/-- The calls for a picture end with the first that made it, the first that was stopped, when the flag
is seen raised, or with one call more than the retries, and tell the last failure then. -/
theorem run_settles (setup : Setup) (b : Bench) (retry : Nat) (request : Request)
    (moments : List Moment) (countable : setup.render.ioRetries.toNat + 1 < 2 ^ 32)
    (starts : b.job.phase = .trying ⟨retry, request, 0⟩ none)
    (enough : 4 * (setup.render.ioRetries.toNat + 1) + 2 ≤ moments.length) :
    ∃ outcome, Settles setup retry request moments { bench := b } outcome := by
  have budget_eq := RenderSettings.toNat_attempts_of_lt countable
  have due : 0 < setup.render.ioRetries.toNat + 1 := Nat.succ_pos _
  have stage : ({ bench := b } : Pursuit).Stage retry request (setup.render.ioRetries.toNat + 1) := by
    unfold Stage
    rw [starts]
    exact ⟨rfl, ⟨nofun, rfl, rfl⟩, Nat.zero_le _, rfl⟩
  have cleared : ({ bench := b } : Pursuit).Cleared setup.store request.identity
      (setup.render.ioRetries.toNat + 1) := by
    unfold Cleared
    rw [starts]
    exact fun called => absurd called (Nat.lt_irrefl 0)
  have rank : ({ bench := b } : Pursuit).bench.job.phase.rank (setup.render.ioRetries.toNat + 1) ≤
      moments.length + 6 := by
    rw [starts]
    simp only [Phase.rank]
    omega
  have rested := isCalling_run budget_eq due stage rank
  obtain ⟨outcome, phase, ended⟩ := ended_of_stage (stage_run budget_eq due stage moments) rested
  refine ⟨outcome, phase, ended, ended.concludes.ok_iff, ended.concludes.cancelled_iff, ?_⟩
  intro always givenUp
  exact bare_of_givenUp (cleared_run budget_eq due always stage cleared) phase ended givenUp

section Broken

def onceMore : Setup := ⟨⟨"images", "png"⟩, { ioRetries := 1 }, {}⟩

def dotted : Request := ⟨"dot", "images/dot", "images/dot.png", []⟩

/-- A job before its first call for a picture. -/
def atFirst : Bench where
  job := { slot := 0, fractal := 0, source := .ofWords [] 0, phase := .trying ⟨0, dotted, 0⟩ none }
  fractal := .new {} ⟨.random, []⟩
  disk := ⟨[(["images"], .directory)], []⟩

/-- A call that returns has left half a picture and fails. -/
def spoiling : Moment := { left := some ⟨#[7]⟩, result := .error (.renderer "out of ink") }

def spoiled : Pursuit := ({ bench := atFirst } : Pursuit).run onceMore (List.replicate 10 spoiling)

theorem spoiled_results : spoiled.results = List.replicate 2 (.failed (.renderer "out of ink")) := by
  decide +kernel

theorem spoiled_phase : spoiled.bench.job.phase = .failing (.renderer "out of ink") := rfl

theorem leads_dotted :
    atFirst.disk.Leads (onceMore.store.path dotted.identity) ["dot.png", "images"] :=
  ⟨rfl, rfl⟩

/-- Both calls leave half a picture, and nothing is left of it. -/
theorem run_settles_spoiled :
    onceMore.render.ioRetries.toNat + 1 < 2 ^ 32 ∧ atFirst.job.phase = .trying ⟨0, dotted, 0⟩ none ∧
      Settles onceMore 0 dotted (List.replicate 10 spoiling) { bench := atFirst }
        (.error (.renderer "out of ink")) ∧
      Bare onceMore.store dotted.identity spoiled.bench.disk := by
  obtain ⟨outcome, settles⟩ := run_settles onceMore atFirst 0 dotted (List.replicate 10 spoiling)
    (by decide) rfl (by decide)
  have told : outcome = .error (.renderer "out of ink") := by
    have phase := settles.phase.symm.trans spoiled_phase
    cases outcome with
    | ok _ => cases phase
    | error fault => exact congrArg Except.error (Phase.failing.inj phase)
  subst told
  have minds : ∀ m ∈ List.replicate 10 spoiling, Minds onceMore.store dotted.identity m := by
    intro m member
    rw [List.eq_of_mem_replicate member]
    exact ⟨fun _ => .refl _, fun _ => id⟩
  have givenUp : spoiled.GivenUp 2 := by
    constructor
    · rw [spoiled_results, List.length_replicate]
    · rw [spoiled_results]
      decide
  exact ⟨by decide, rfl, settles, settles.bare (always_undisturbed minds leads_dotted) givenUp⟩

end Broken

end Pursuit

end FractalBreeder
