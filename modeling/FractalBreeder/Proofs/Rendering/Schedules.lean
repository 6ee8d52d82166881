import FractalBreeder.Proofs.Rendering.Projections

/-!
Schedules: lists that say who goes next, the director or one of the jobs, with a renderer that answers
each call by its slot, its request and the number of calls before it.
-/
namespace FractalBreeder.Studio

/-- The director, or the job with the given number, takes a step. A call that is held does not return
to a job that was not asked to stop. -/
def go? (renderer : Renderer) (s : Studio) : Option Nat → Option Studio
  | none => s.stepDirector
  | some i => do
    let job ← s.jobs[i]?
    let answer := s.answer renderer i job
    if answer.held && !job.flag.raised then none else s.stepJob i answer.reply

def pursue? (renderer : Renderer) (s : Studio) (schedule : List (Option Nat)) : Option Studio :=
  schedule.foldlM (go? renderer) s

/-- Nobody can go on. -/
def Settled (renderer : Renderer) (s : Studio) : Prop := ∀ turn, s.go? renderer turn = none

variable {renderer : Renderer} {s t : Studio}

theorem go?_eq_some {i : Nat} (went : s.go? renderer (some i) = some t) : ∃ job,
    s.jobs[i]? = some job ∧ ((s.answer renderer i job).held && !job.flag.raised) = false ∧
      s.stepJob i (s.answer renderer i job).reply = some t := by
  obtain ⟨job, at_, went⟩ := Option.bind_eq_some_iff.mp went
  dsimp only at went
  split at went
  next => cases went
  next free => exact ⟨job, at_, by simpa using free, went⟩

theorem exists_stepJob {i : Nat} {job : Job} {f : Fractal} (at_ : s.jobs[i]? = some job)
    (working : job.isOver = false) (found : s.fractals[job.fractal]? = some f) (reply : Reply) :
    ∃ t, s.stepJob i reply = some t := by
  unfold stepJob
  simp [at_, working, found]

theorem go?_of_stepJob {i : Nat} {job : Job} (at_ : s.jobs[i]? = some job)
    (free : ((s.answer renderer i job).held && !job.flag.raised) = false)
    (worked : s.stepJob i (s.answer renderer i job).reply = some t) :
    s.go? renderer (some i) = some t := by
  rw [go?, at_]
  exact (if_neg (by rw [free]; nofun)).trans worked

/-- What is seen of a job in a settled studio cannot go on by itself. -/
theorem Shows.stuck {e : Studio} {i : Nat} {start : Job} {p : Solo} (shows : Shows e i start s p)
    (own : ∀ call ∈ s.calls, (call.slot == start.slot) = (call.job == i))
    (settled : s.Settled renderer) (setup : Setup) : p.step? renderer setup = none := by
  unfold Solo.step?
  split
  next => rfl
  next going =>
    obtain ⟨working, free⟩ := Bool.or_eq_false_iff.mp (Bool.eq_false_iff.mpr going)
    have found := shows.fractal
    rw [← shows.place] at found
    obtain ⟨t, worked⟩ := exists_stepJob shows.job working found (p.answer renderer).reply
    rw [← shows.answer own renderer] at free worked
    have went := go?_of_stepJob shows.job free worked
    rw [settled] at went
    cases went

theorem go?_of_nextJob? {i : Nat} {reply : Reply} (next : s.nextJob? renderer = some (i, reply))
    (worked : s.stepJob i reply = some t) : s.go? renderer (some i) = some t := by
  unfold nextJob? at next
  obtain ⟨⟨job, j⟩, member, chosen⟩ := List.exists_of_findSome?_eq_some next
  have at_ : s.jobs[j]? = some job := List.mk_mem_zipIdx_iff_getElem?.mp member
  dsimp only at chosen
  split at chosen
  next => cases chosen
  next =>
    split at chosen
    next => cases chosen
    next free =>
      cases chosen
      exact go?_of_stepJob at_ (by simpa using free) worked

/-- The program's own run is one of the schedules. -/
theorem exists_pursue_run (renderer : Renderer) (fuel : Nat) (s : Studio) :
    ∃ schedule, s.pursue? renderer schedule = some (run renderer fuel s) := by
  induction fuel generalizing s with
  | zero => exact ⟨[], rfl⟩
  | succ fuel ih =>
      rw [run]
      cases directed : s.stepDirector with
      | some t =>
          obtain ⟨schedule, pursued⟩ := ih t
          refine ⟨none :: schedule, ?_⟩
          rw [pursue?, List.foldlM_cons, go?, directed]
          exact pursued
      | none =>
          dsimp only
          cases next : s.nextJob? renderer with
          | none => exact ⟨[], rfl⟩
          | some turn =>
              obtain ⟨i, reply⟩ := turn
              dsimp only
              cases worked : s.stepJob i reply with
              | none => exact ⟨[], rfl⟩
              | some t =>
                  obtain ⟨schedule, pursued⟩ := ih t
                  refine ⟨some i :: schedule, ?_⟩
                  rw [pursue?, List.foldlM_cons, go?_of_nextJob? next worked]
                  exact pursued

/-- The director makes no calls. -/
theorem calls_perform {task : Task} {more : List Task} (performed : s.perform task = some (t, more)) :
    t.calls = s.calls := by
  cases task with
  | raise j | clear | reap | mark slot ready =>
      cases performed
      rfl
  | join j =>
      simp only [perform] at performed
      split at performed
      · split at performed
        · cases performed
          rfl
        · cases performed
      · cases performed
        rfl
  | restore j =>
      simp only [perform] at performed
      split at performed
      · cases performed
        exact restore_calls ..
      · cases performed
        rfl
  | visit slot f =>
      simp only [perform] at performed
      split at performed <;> cases performed <;> rfl
  | claim slot f =>
      simp only [perform] at performed
      split at performed <;> cases performed <;> rfl
  | launch slot f =>
      simp only [perform, launch] at performed
      split at performed
      · cases performed
        rfl
      · cases performed

/-- No call is forgotten. -/
theorem calls_prefix_go? {turn : Option Nat} (went : s.go? renderer turn = some t) :
    s.calls <+: t.calls := by
  cases turn with
  | none =>
      change s.stepDirector = some t at went
      unfold stepDirector at went
      split at went
      next => cases went
      next =>
        obtain ⟨⟨next, more⟩, performed, rfl⟩ := Option.map_eq_some_iff.mp went
        exact (calls_perform performed).symm ▸ List.prefix_refl _
  | some i =>
      obtain ⟨_, -, -, worked⟩ := go?_eq_some went
      obtain ⟨_, _, -, -, -, rfl⟩ := stepJob_eq_some worked
      rw [settle_calls]
      exact List.prefix_append _ _

theorem calls_prefix_pursue? {schedule : List (Option Nat)}
    (pursued : s.pursue? renderer schedule = some t) : s.calls <+: t.calls := by
  induction schedule generalizing s with
  | nil =>
      obtain rfl := Option.some.inj pursued
      exact List.prefix_refl _
  | cons turn rest ih =>
      rw [pursue?, List.foldlM_cons] at pursued
      obtain ⟨between, went, pursued⟩ := Option.bind_eq_some_iff.mp pursued
      exact (calls_prefix_go? went).trans (ih pursued)

end FractalBreeder.Studio
