import Mathlib.Tactic.ByContra
import FractalBreeder.Proofs.Rendering.Labours
import FractalBreeder.Settings.Render

/-!
The threshold of sparse pictures and the number of calls for one picture are computed in words. They
are the numbers that the settings name as long as these are small enough, and no longer; valid
settings need not be.
-/
namespace FractalBreeder

namespace Labour

variable {setup : Setup} {base : Nat} {p : Labour} {o : Occasion}

/-- The call that a job waits for fails: it returns with a failure, or else no file is there. -/
def Fails (p : Labour) (o : Occasion) : Prop :=
  match p.bench.job.phase with
  | .calling _ => ∃ left result, o.reply = .returned left result ∧ result ≠ .error .cancelled
  | .inspecting turn => (p.met o).disk.exists? turn.request.output = false
  | _ => True

/-- A job in the middle of a render whose calls fail, with the calls counted from `base`. -/
structure Fruitless (setup : Setup) (base : Nat) (p : Labour) : Prop where
  calm : p.bench.job.flag.raised = false
  counted :
    match p.bench.job.phase with
    | .requesting _ => p.calls.length = base
    | .trying turn last =>
      p.calls.length = base + turn.calls ∧ turn.calls ≤ setup.render.attempts.toNat ∧
        last ≠ some .cancelled
    | .calling turn =>
      p.calls.length = base + (turn.calls + 1) ∧ turn.calls < setup.render.attempts.toNat
    | .inspecting turn =>
      p.calls.length = base + turn.calls ∧ 0 < turn.calls ∧
        turn.calls ≤ setup.render.attempts.toNat
    | .cleaning turn fault =>
      p.calls.length = base + turn.calls ∧ turn.calls ≤ setup.render.attempts.toNat ∧
        fault ≠ .cancelled
    | .failing fault =>
      p.calls.length = base + setup.render.attempts.toNat ∧ fault ≠ .cancelled
    | .settling _ | .lamenting _ _ | .repainting | .over =>
      p.calls.length = base + setup.render.attempts.toNat
    | _ => False

theorem Fruitless.step (fruitless : p.Fruitless setup base) (fails : p.Fails o) :
    (p.step setup o).Fruitless setup base := by
  obtain ⟨calm, counted⟩ := fruitless
  refine ⟨calm_step calm o, ?_⟩
  have flag : (p.met o).job.flag.raised = false := calm
  have job : (p.met o).job.phase = p.bench.job.phase := rfl
  unfold Fails at fails
  cases phase : p.bench.job.phase with
  | requesting retry =>
    rw [phase] at counted job
    simp only [Labour.step, Bench.step, job, Bench.enter]
    exact ⟨by simpa [Notice.request?] using counted, Nat.zero_le _, by intro same; cases same⟩
  | trying turn last =>
    rw [phase] at counted job
    obtain ⟨count, within, other⟩ := counted
    simp only [Labour.step, Bench.step, job]
    by_cases more : turn.calls < setup.render.attempts.toNat
    · simp only [if_pos more, StopFlag.check, flag, Bool.false_eq_true, if_false, Bench.enter]
      refine ⟨?_, more⟩
      rw [List.length_append, count]
      rfl
    · simp only [if_neg more, Bench.enter]
      refine ⟨?_, ?_⟩
      · simp only [Notice.request?, Option.toList_none, List.append_nil]
        omega
      · cases last with
        | none => intro same; cases same
        | some fault => exact fun same => other (congrArg some same)
  | calling turn =>
    rw [phase] at counted job fails
    obtain ⟨left, result, reply, other⟩ := fails
    simp only [Labour.step, Bench.step, job]
    have count : (p.calls ++ (Notice.request? none).toList).length = base + (turn.calls + 1) := by
      simpa [Notice.request?] using counted.1
    rcases Bench.receive_cases (p.met o) { turn with calls := turn.calls + 1 } o.reply with
      ⟨crashed, -⟩ | ⟨disk, next, made, -, outcome⟩
    · rw [reply] at crashed
      cases crashed
    · rw [made]
      rcases outcome with rfl | ⟨fault, failure, rfl⟩ | ⟨rfl, stopped⟩
      · exact ⟨count, Nat.succ_pos _, counted.2⟩
      · exact ⟨count, counted.2, failure⟩
      · obtain ⟨left', stopped⟩ := stopped
        rw [reply] at stopped
        injection stopped with _ same
        exact absurd same other
  | inspecting turn =>
    rw [phase] at counted job fails
    obtain ⟨count, -, within⟩ := counted
    simp only [Labour.step, Bench.step, job, fails, Bool.false_eq_true, if_false, Bench.enter]
    exact ⟨by simpa [Notice.request?] using count, within, by intro same; cases same⟩
  | cleaning turn fault =>
    rw [phase] at counted job
    obtain ⟨count, within, other⟩ := counted
    simp only [Labour.step, Bench.step, job, Bench.enter]
    exact ⟨by simpa [Notice.request?] using count, within, fun same => other (Option.some.inj same)⟩
  | failing fault =>
    rw [phase] at counted job
    obtain ⟨count, other⟩ := counted
    simp only [Labour.step, Bench.step, job, flag, other, Bool.false_eq_true, or_self, if_false,
      Bench.enter]
    simpa [Notice.request?] using count
  | settling fault | lamenting identity fault | repainting | «over» =>
    rw [phase] at counted job
    simp only [Labour.step, Bench.step, job, Bench.enter]
    simpa [Notice.request?, Bench.giveUp] using counted
  | announcing | preparing | opening _ | mutating _ | measuring _ | closing | rebreeding | taking
  | marking _ | reporting _ | withdrawing | dead =>
    rw [phase] at counted
    exact counted.elim

theorem Fruitless.rank_step (fruitless : p.Fruitless setup base) (working : p.bench.job.isOver = false)
    (o : Occasion) : (p.step setup o).bench.job.phase.rank setup.render.attempts.toNat <
      p.bench.job.phase.rank setup.render.attempts.toNat := by
  have counted := fruitless.counted
  refine Bench.rank_step (b := p.met o) o.reply rfl (fun turn phase => ?_) (fun retry phase => ?_) working
  · rw [show p.bench.job.phase = _ from phase] at counted
    exact counted.2
  · rw [show p.bench.job.phase = _ from phase] at counted
    exact counted

/-- A render whose calls fail makes so many calls, and the job is over soon after. -/
theorem Fruitless.run {occasions : List Occasion} (fruitless : p.Fruitless setup base)
    (fails : p.Always setup Fails occasions)
    (enough : 4 * setup.render.attempts.toNat + 13 < occasions.length) :
    (p.run setup occasions).bench.job.phase = .over ∧
      (p.run setup occasions).calls.length = base + setup.render.attempts.toNat := by
  have halted := isOver_run (fun q => q.bench.job.phase.rank setup.render.attempts.toNat)
    (fun q o fails fruitless => Fruitless.step fruitless fails)
    (fun q o _ fruitless working => Fruitless.rank_step fruitless working o) fails fruitless
    (Nat.lt_of_le_of_lt (Phase.rank_le _ _) enough)
  have after := run_keeps (fun q o fails fruitless => Fruitless.step fruitless fails) fails fruitless
  have counted := after.counted
  cases phase : (p.run setup occasions).bench.job.phase with
  | «over» =>
    rw [phase] at counted
    exact ⟨rfl, counted⟩
  | dead =>
    rw [phase] at counted
    exact counted.elim
  | _ =>
    rw [Job.isOver, phase] at halted
    cases halted

/-- A condition that an invariant entails holds always. -/
theorem always_of {condition : Labour → Occasion → Prop} {invariant : Labour → Prop}
    (entails : ∀ q o, invariant q → condition q o)
    (keeps : ∀ q o, condition q o → invariant q → invariant (q.step setup o)) (holds : invariant p)
    (occasions : List Occasion) : p.Always setup condition occasions := by
  induction occasions generalizing p with
  | nil => trivial
  | cons o rest ih => exact ⟨entails p o holds, ih (keeps p o (entails p o holds) holds)⟩

/-- Where no call is allowed none can fail. -/
theorem Fruitless.fails (idle : setup.render.attempts.toNat = 0) (fruitless : p.Fruitless setup base)
    (o : Occasion) : p.Fails o := by
  have counted := fruitless.counted
  unfold Fails
  cases phase : p.bench.job.phase with
  | calling turn =>
    rw [phase] at counted
    have impossible := counted.2
    omega
  | inspecting turn =>
    rw [phase] at counted
    have impossible := counted.2
    omega
  | _ => trivial

end Labour

namespace RenderSettings

/-- A job that is about to ask for a picture and is not asked to stop. -/
def Starting (p : Labour) : Prop :=
  (∃ retry, p.bench.job.phase = .requesting retry) ∧ p.bench.job.flag.raised = false

/-- The numbers that the settings name are those that the renders go by. -/
structure Exact (s : RenderSettings) : Prop where
  threshold : s.sparseThreshold.toNat = s.sparseThresholdKb.toNat * 1024
  /-- A picture is sparse exactly when its file is shorter. -/
  judged : ∀ (f : Fractal) (store : ImageStore) (disk : Disk) (size : Nat),
    store.size disk f.id = .ok size →
      f.isSparse store disk s.sparseThreshold = .ok (decide (size < s.sparseThresholdKb.toNat * 1024))
  /-- A render whose calls fail makes one call more than the retries, and its job ends. -/
  calls : ∀ (setup : Setup) (p : Labour) (occasions : List Occasion), setup.render = s →
    Starting p → p.Always setup Labour.Fails occasions →
      4 * (s.ioRetries.toNat + 1) + 13 < occasions.length →
        (p.run setup occasions).bench.job.phase = .over ∧
          (p.run setup occasions).calls.length = p.calls.length + (s.ioRetries.toNat + 1)

/-- Small enough for the words that are computed with. -/
def Countable (s : RenderSettings) : Prop :=
  s.sparseThresholdKb.toNat * 1024 < 2 ^ 64 ∧ s.ioRetries.toNat + 1 < 2 ^ 32

theorem toNat_sparseThreshold (s : RenderSettings) :
    s.sparseThreshold.toNat = s.sparseThresholdKb.toNat * 1024 % 2 ^ 64 :=
  UInt64.toNat_mul _ _

theorem fruitless_of_starting (setup : Setup) {p : Labour} (starting : Starting p) :
    p.Fruitless setup p.calls.length := by
  obtain ⟨⟨retry, phase⟩, calm⟩ := starting
  refine ⟨calm, ?_⟩
  rw [phase]

theorem exact_of_countable {s : RenderSettings} (countable : s.Countable) : s.Exact := by
  have threshold : s.sparseThreshold.toNat = s.sparseThresholdKb.toNat * 1024 := by
    rw [toNat_sparseThreshold, Nat.mod_eq_of_lt countable.1]
  have attempts := toNat_attempts_of_lt countable.2
  exact {
    threshold := threshold
    judged := by
      intro f store disk size length
      rw [Fractal.isSparse, length, threshold]
      rfl
    calls := by
      intro setup p occasions render starting fails enough
      subst render
      rw [← attempts] at enough ⊢
      exact (fruitless_of_starting setup starting).run fails enough }

/-- A job that is about to ask for a picture of nothing. -/
def beginning : Labour where
  bench :=
    { job := { slot := 0, fractal := 0, source := .ofWords [] 0, phase := .requesting 0 }
      fractal := .new {} ⟨.random, []⟩
      disk := ⟨[], []⟩ }

theorem countable_of_exact {s : RenderSettings} (precise : s.Exact) : s.Countable := by
  constructor
  · have threshold := precise.threshold
    rw [toNat_sparseThreshold] at threshold
    omega
  · by_contra wraps
    have most : s.ioRetries.toNat < 2 ^ 32 := s.ioRetries.toNat_lt
    have idle : s.attempts.toNat = 0 := by
      rw [toNat_attempts]
      omega
    let setup : Setup := ⟨⟨"images", "png"⟩, s, {}⟩
    have starting : Starting beginning := ⟨⟨0, rfl⟩, rfl⟩
    have fruitless := fruitless_of_starting setup starting
    have keeps : ∀ q o, Labour.Fails q o → q.Fruitless setup 0 → (q.step setup o).Fruitless setup 0 :=
      fun _ _ fails fruitless => fruitless.step fails
    have fails := Labour.always_of (fun _ o fruitless => Labour.Fruitless.fails idle fruitless o)
      keeps fruitless (List.replicate (4 * (s.ioRetries.toNat + 1) + 14) {})
    have enough : 4 * (s.ioRetries.toNat + 1) + 13 <
        (List.replicate (4 * (s.ioRetries.toNat + 1) + 14) ({} : Occasion)).length := by
      rw [List.length_replicate]
      omega
    have expected := (precise.calls setup beginning _ rfl starting fails enough).2
    have budget : setup.render.attempts.toNat = 0 := idle
    have made := (fruitless.run fails (by rw [budget, List.length_replicate]; omega)).2
    rw [expected, budget] at made
    omega

/-- The numbers are those of the settings exactly as long as the words hold them. -/
theorem exact_iff_countable (s : RenderSettings) : s.Exact ↔ s.Countable :=
  ⟨countable_of_exact, exact_of_countable⟩

/-- The largest numbers that the words hold. -/
theorem exact_largest :
    let s : RenderSettings := { sparseThresholdKb := 0x3fffffffffffff, ioRetries := 0xfffffffe }
    s.fault? = none ∧ s.Exact := by
  intro s
  have countable : s.Countable := by
    unfold Countable
    decide
  exact ⟨by decide, (exact_iff_countable s).mpr countable⟩

/-- Settings are valid with numbers that the words do not hold: then no picture is sparse, or the
renderer is never called. -/
theorem not_always_exact : ¬ ∀ s : RenderSettings, s.fault? = none → s.Exact := by
  intro always
  have counted := countable_of_exact (always { ioRetries := 0xffffffff } (by decide))
  exact absurd counted.2 (by decide)

example : ({ sparseThresholdKb := 0x40000000000000 } : RenderSettings).fault? = none ∧
    ({ sparseThresholdKb := 0x40000000000000 } : RenderSettings).sparseThreshold = 0 := by decide

end RenderSettings

end FractalBreeder
