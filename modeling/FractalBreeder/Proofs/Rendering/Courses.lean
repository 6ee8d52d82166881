import FractalBreeder.Rendering.Studio

/-!
The courses that the director of a studio follows. Every agenda is what is left of one of two: going
through slots and giving jobs to those without a picture, or stopping all jobs.
-/
namespace FractalBreeder.Studio

/-- What is left to do for the slot at work. -/
inductive Errand where
  | rest
  | reaping (slot fractal : Nat)
  | claiming (slot fractal : Nat)
  /-- The fractal is marked as rendering, and its job is not there yet. -/
  | clearing (slot fractal : Nat)
  | launching (slot fractal : Nat)
  | showing (slot fractal : Nat)

namespace Errand

def tasks : Errand → List Task
  | rest => []
  | reaping slot f => [.reap, .claim slot f]
  | claiming slot f => [.claim slot f]
  | clearing slot f => [.mark slot false, .launch slot f]
  | launching slot f => [.launch slot f]
  | showing slot _ => [.mark slot true]

/-- The fractal that was promised a job. -/
def pledge : Errand → Option Nat
  | clearing _ f | launching _ f => some f
  | _ => none

end Errand

inductive Course where
  /-- The slot at work and the fractals still to visit, with their slots. -/
  | render (errand : Errand) (visits : List (Nat × Nat))
  /-- The jobs still to ask to stop, and those still to wait for. -/
  | stop (raises joins : List Nat)
  /-- A job is over, and its fractal may have to be put back. -/
  | restore (job : Nat) (joins : List Nat)

namespace Course

def rest : Course := .render .rest []

/-- Waiting for each job and putting its fractal back, and then clearing the flags. -/
def farewell (joins : List Nat) : List Task :=
  joins.flatMap (fun j => [.join j, .restore j]) ++ [.clear]

def tasks : Course → List Task
  | render errand visits => errand.tasks ++ visits.map fun (f, slot) => .visit slot f
  | stop raises joins => raises.map .raise ++ farewell joins
  | restore j joins => .restore j :: farewell joins

def pledge : Course → Option Nat
  | render errand _ => errand.pledge
  | _ => none

/-- The jobs whose fractals nobody else touches: those held, or those that are still waited for. -/
def wards (held : List Nat) : Course → List Nat
  | render _ _ => held
  | stop _ joins => joins
  | restore j joins => j :: joins

theorem eq_rest {c : Course} (done : c.tasks = []) : c = rest := by
  cases c with
  | render errand visits =>
      cases errand <;> cases visits <;> first | rfl | cases done
  | stop raises joins =>
      have length := congrArg List.length done
      simp [tasks, farewell] at length
  | restore j joins => cases done

end Course

/-- One task of each course: where it is possible, how the course goes on, and the studio afterwards,
apart from its agenda. -/
inductive Directs (s : Studio) : Course → Course → Studio → Prop where
  | pass {slot f : Nat} {visits : List (Nat × Nat)} :
      s.stateOf? f = none ∨ s.stateOf? f = some .rendering ∨ s.stateOf? f = some .failed →
      Directs s (.render .rest ((f, slot) :: visits)) (.render .rest visits) s
  | find {slot f : Nat} {visits : List (Nat × Nat)} :
      s.stateOf? f = some .pending ∨ s.stateOf? f = some .discarded →
      Directs s (.render .rest ((f, slot) :: visits)) (.render (.reaping slot f) visits) s
  | meet {slot f : Nat} {visits : List (Nat × Nat)} : s.stateOf? f = some .ready →
      Directs s (.render .rest ((f, slot) :: visits)) (.render (.showing slot f) visits) s
  | reap {slot f : Nat} {visits : List (Nat × Nat)} :
      Directs s (.render (.reaping slot f) visits) (.render (.claiming slot f) visits)
        { s with held := s.held.filter fun j => !(s.jobs[j]?.all (·.isOver)) }
  | decline {slot f : Nat} {visits : List (Nat × Nat)} :
      s.stateOf? f = none ∨ s.stateOf? f = some .rendering →
      Directs s (.render (.claiming slot f) visits) (.render .rest visits) s
  | greet {slot f : Nat} {visits : List (Nat × Nat)} : s.stateOf? f = some .ready →
      Directs s (.render (.claiming slot f) visits) (.render (.showing slot f) visits) s
  | claim {slot f : Nat} {visits : List (Nat × Nat)} {fractal : Fractal} :
      s.fractals[f]? = some fractal →
      fractal.state = .pending ∨ fractal.state = .discarded ∨ fractal.state = .failed →
      Directs s (.render (.claiming slot f) visits) (.render (.clearing slot f) visits)
        (s.modifyFractal f ({ · with state := .rendering }))
  | unmark {slot f : Nat} {visits : List (Nat × Nat)} :
      Directs s (.render (.clearing slot f) visits) (.render (.launching slot f) visits)
        { s with readiness := s.readiness.mark slot false }
  | launch {slot f : Nat} {visits : List (Nat × Nat)} {seed : UInt64} {source : Source} :
      s.source.draw Draws.word = .ok (seed, source) →
      Directs s (.render (.launching slot f) visits) (.render .rest visits)
        { s with source, jobs := s.jobs ++ [{ slot, fractal := f, source := Source.ofSeed seed }],
                 held := s.held ++ [s.jobs.length] }
  | mark {slot f : Nat} {visits : List (Nat × Nat)} :
      Directs s (.render (.showing slot f) visits) (.render .rest visits)
        { s with readiness := s.readiness.mark slot true }
  | raise {j : Nat} {raises joins : List Nat} :
      Directs s (.stop (j :: raises) joins) (.stop raises joins)
        { s with jobs := s.jobs.modify j fun job => { job with flag := job.flag.raise } }
  | join {j : Nat} {joins : List Nat} : (∀ job, s.jobs[j]? = some job → job.isOver = true) →
      Directs s (.stop [] (j :: joins)) (.restore j joins) s
  | restore {j : Nat} {joins : List Nat} {job : Job} : s.jobs[j]? = some job →
      Directs s (.restore j joins) (.stop [] joins) (s.restore job.fractal)
  | forget {j : Nat} {joins : List Nat} : s.jobs[j]? = none →
      Directs s (.restore j joins) (.stop [] joins) s
  | clear : Directs s (.stop [] []) Course.rest { s with readiness := s.readiness.clear }

theorem perform_of_stepDirector {s t : Studio} {task : Task} {rest : List Task}
    (agenda : s.agenda = task :: rest) (step : s.stepDirector = some t) :
    ∃ u more, s.perform task = some (u, more) ∧ t = { u with agenda := more ++ rest } := by
  rw [stepDirector, agenda] at step
  obtain ⟨⟨u, more⟩, done, same⟩ := Option.map_eq_some_iff.mp step
  exact ⟨u, more, done, same.symm⟩

section Perform

variable {s u : Studio} {more : List Task} {slot f j : Nat} {visits : List (Nat × Nat)}
  {joins : List Nat}

theorem stateOf?_of_found {fractal : Fractal} (found : s.fractals[f]? = some fractal) :
    s.stateOf? f = some fractal.state := by
  rw [stateOf?, found]
  rfl

theorem directs_visit (done : s.perform (.visit slot f) = some (u, more)) :
    ∃ errand : Errand, Directs s (.render .rest ((f, slot) :: visits)) (.render errand visits) u ∧
      more = errand.tasks := by
  simp only [perform] at done
  split at done
  next fresh =>
    cases done
    exact ⟨.reaping slot f, .find (.inl fresh), rfl⟩
  next spoiled =>
    cases done
    exact ⟨.reaping slot f, .find (.inr spoiled), rfl⟩
  next ready =>
    cases done
    exact ⟨.showing slot f, .meet ready, rfl⟩
  next pending discarded ready =>
    cases done
    refine ⟨.rest, .pass ?_, rfl⟩
    cases state : s.stateOf? f with
    | none => exact .inl rfl
    | some entered =>
        cases entered with
        | pending => exact absurd state pending
        | rendering => exact .inr (.inl rfl)
        | ready => exact absurd state ready
        | discarded => exact absurd state discarded
        | failed => exact .inr (.inr rfl)

theorem directs_claim (done : s.perform (.claim slot f) = some (u, more)) :
    ∃ errand : Errand, Directs s (.render (.claiming slot f) visits) (.render errand visits) u ∧
      more = errand.tasks := by
  simp only [perform] at done
  cases found : s.fractals[f]? with
  | none =>
      have state : s.stateOf? f = none := by rw [stateOf?, found]; rfl
      rw [state] at done
      cases done
      exact ⟨.rest, .decline (.inl state), rfl⟩
  | some fractal =>
      have state := stateOf?_of_found found
      rw [state] at done
      cases entered : fractal.state with
      | rendering =>
          rw [entered] at done state
          cases done
          exact ⟨.rest, .decline (.inr state), rfl⟩
      | ready =>
          rw [entered] at done state
          cases done
          exact ⟨.showing slot f, .greet state, rfl⟩
      | pending =>
          rw [entered] at done
          cases done
          exact ⟨.clearing slot f, .claim found (.inl entered), rfl⟩
      | discarded =>
          rw [entered] at done
          cases done
          exact ⟨.clearing slot f, .claim found (.inr (.inl entered)), rfl⟩
      | failed =>
          rw [entered] at done
          cases done
          exact ⟨.clearing slot f, .claim found (.inr (.inr entered)), rfl⟩

theorem directs_launch (done : s.perform (.launch slot f) = some (u, more)) :
    Directs s (.render (.launching slot f) visits) (.render .rest visits) u ∧ more = [] := by
  simp only [perform, Studio.launch] at done
  cases drawn : s.source.draw Draws.word with
  | error halt =>
      rw [drawn] at done
      cases done
  | ok result =>
      obtain ⟨seed, source⟩ := result
      rw [drawn] at done
      cases done
      exact ⟨.launch drawn, rfl⟩

theorem directs_join (done : s.perform (.join j) = some (u, more)) :
    Directs s (.stop [] (j :: joins)) (.restore j joins) u ∧ more = [] := by
  simp only [perform] at done
  cases found : s.jobs[j]? with
  | none =>
      rw [found] at done
      cases done
      exact ⟨.join (by simp [found]), rfl⟩
  | some job =>
      rw [found] at done
      cases halted : job.isOver with
      | false => simp [halted] at done
      | true =>
          simp only [halted, if_true, Option.some.injEq, Prod.mk.injEq] at done
          obtain ⟨rfl, rfl⟩ := done
          refine ⟨.join fun other same => ?_, rfl⟩
          obtain rfl := Option.some.inj (found.symm.trans same)
          exact halted

theorem directs_restore (done : s.perform (.restore j) = some (u, more)) :
    Directs s (.restore j joins) (.stop [] joins) u ∧ more = [] := by
  simp only [perform] at done
  cases found : s.jobs[j]? with
  | none =>
      rw [found] at done
      cases done
      exact ⟨.forget found, rfl⟩
  | some job =>
      rw [found] at done
      cases done
      exact ⟨.restore found, rfl⟩

end Perform

theorem directs_of_stepDirector {s t : Studio} {c : Course} (agenda : s.agenda = c.tasks)
    (step : s.stepDirector = some t) :
    ∃ c' u, Directs s c c' u ∧ t = { u with agenda := c'.tasks } := by
  cases c with
  | render errand visits =>
      cases errand with
      | rest =>
          cases visits with
          | nil =>
              rw [stepDirector, agenda] at step
              cases step
          | cons visit visits =>
              obtain ⟨u, more, done, rfl⟩ := perform_of_stepDirector agenda step
              obtain ⟨errand, directs, rfl⟩ := directs_visit done
              exact ⟨_, u, directs, rfl⟩
      | reaping slot f =>
          obtain ⟨u, more, done, rfl⟩ := perform_of_stepDirector agenda step
          cases done
          exact ⟨_, _, .reap, rfl⟩
      | claiming slot f =>
          obtain ⟨u, more, done, rfl⟩ := perform_of_stepDirector agenda step
          obtain ⟨errand, directs, rfl⟩ := directs_claim done
          exact ⟨_, u, directs, rfl⟩
      | clearing slot f =>
          obtain ⟨u, more, done, rfl⟩ := perform_of_stepDirector agenda step
          cases done
          exact ⟨_, _, .unmark, rfl⟩
      | launching slot f =>
          obtain ⟨u, more, done, rfl⟩ := perform_of_stepDirector agenda step
          obtain ⟨directs, rfl⟩ := directs_launch done
          exact ⟨_, u, directs, rfl⟩
      | showing slot f =>
          obtain ⟨u, more, done, rfl⟩ := perform_of_stepDirector agenda step
          cases done
          exact ⟨_, _, .mark, rfl⟩
  | stop raises joins =>
      cases raises with
      | cons j raises =>
          obtain ⟨u, more, done, rfl⟩ := perform_of_stepDirector agenda step
          cases done
          exact ⟨_, _, .raise, rfl⟩
      | nil =>
          cases joins with
          | nil =>
              obtain ⟨u, more, done, rfl⟩ := perform_of_stepDirector agenda step
              cases done
              exact ⟨_, _, .clear, rfl⟩
          | cons j joins =>
              obtain ⟨u, more, done, rfl⟩ := perform_of_stepDirector agenda step
              obtain ⟨directs, rfl⟩ := directs_join done
              exact ⟨_, u, directs, rfl⟩
  | restore j joins =>
      obtain ⟨u, more, done, rfl⟩ := perform_of_stepDirector agenda step
      obtain ⟨directs, rfl⟩ := directs_restore done
      exact ⟨_, u, directs, rfl⟩

theorem renderAll_agenda {s : Studio} (idle : s.agenda = []) (fractals : List Nat) :
    (s.renderAll fractals).agenda = (Course.render .rest fractals.zipIdx).tasks := by
  rw [renderAll, idle]
  rfl

theorem renderSlot_agenda {s : Studio} (idle : s.agenda = []) (slot f : Nat) :
    (s.renderSlot slot f).agenda = (Course.render (.reaping slot f) []).tasks := by
  rw [renderSlot, idle]
  rfl

theorem cancelAll_agenda {s : Studio} (idle : s.agenda = []) :
    s.cancelAll.agenda = (Course.stop s.held s.held).tasks := by
  simp [cancelAll, idle, Course.tasks, Course.farewell]

end FractalBreeder.Studio
