import FractalBreeder.Proofs.Rendering.Direction

/-!
Everything that can happen to a studio, as single actions: something is asked for while the director
rests, the director does its next task, a job takes a step, or a renderer that was called touches its
file. Whatever is asked for, a fractal has at most one painter at a time, and nobody else changes it.
-/
namespace FractalBreeder

open Bench (Steps)

namespace Studio

/-- A studio before its first job; the identities of its fractals are those of their genomes. -/
structure New (s : Studio) : Prop where
  jobs : s.jobs = []
  calls : s.calls = []
  agenda : s.agenda = []
  named : ∀ f ∈ s.fractals, f.id = f.genome.identity

/-- What can be asked of the director. -/
inductive Demand where
  | renderAll (fractals : List Nat)
  | renderSlot (slot fractal : Nat)
  | waitAll
  | cancelAll

inductive Action where
  | ask (demand : Demand)
  | direct
  | work (job : Nat) (reply : Reply)
  /-- A renderer at work writes its file, or removes it. -/
  | scribble (job : Nat) (left : Option ByteArray)

def obey (s : Studio) : Demand → Studio
  | .renderAll fractals => s.renderAll fractals
  | .renderSlot slot f => s.renderSlot slot f
  | .waitAll => s.waitAll
  | .cancelAll => s.cancelAll

def act? (s : Studio) : Action → Option Studio
  | .ask demand => if s.agenda.isEmpty then some (s.obey demand) else none
  | .direct => s.stepDirector
  | .work i reply => s.stepJob i reply
  | .scribble i left => s.scribble i left

def follow? (s : Studio) (actions : List Action) : Option Studio := actions.foldlM act? s

/-- Every studio of a run has a property. -/
def Throughout (p : Studio → Prop) : Studio → List Action → Prop
  | s, [] => p s
  | s, action :: rest => p s ∧ ∀ t, s.act? action = some t → Throughout p t rest

/-- A test for `Throughout`. -/
def isThroughout (test : Studio → Bool) : Studio → List Action → Bool
  | s, [] => test s
  | s, action :: rest => test s && (s.act? action).all (isThroughout test · rest)

theorem throughout_of_isThroughout {p : Studio → Prop} {test : Studio → Bool}
    (sound : ∀ s, test s = true → p s) {s : Studio} {actions : List Action}
    (passed : isThroughout test s actions = true) : Throughout p s actions := by
  induction actions generalizing s with
  | nil => exact sound s passed
  | cons action rest ih =>
      obtain ⟨here, later⟩ := Bool.and_eq_true_iff.mp passed
      refine ⟨sound s here, fun t acted => ih ?_⟩
      rw [acted] at later
      exact later

/-- Every action of a run is taken in a studio where it may be. -/
def Each (may : Studio → Action → Prop) : Studio → List Action → Prop
  | _, [] => True
  | s, action :: rest => may s action ∧ ∀ t, s.act? action = some t → Each may t rest

theorem follow?_cons {s t : Studio} {action : Action} {rest : List Action} :
    s.follow? (action :: rest) = some t ↔ ∃ u, s.act? action = some u ∧ u.follow? rest = some t := by
  rw [follow?, List.foldlM_cons]
  exact Option.bind_eq_some_iff

theorem follow?_append (s : Studio) (first second : List Action) :
    s.follow? (first ++ second) = (s.follow? first).bind (·.follow? second) := by
  rw [follow?, List.foldlM_append]
  rfl

theorem Each.append {may : Studio → Action → Prop} {s t : Studio} {first second : List Action}
    (each : s.Each may (first ++ second)) (followed : s.follow? first = some t) :
    s.Each may first ∧ t.Each may second := by
  induction first generalizing s with
  | nil =>
      obtain rfl := Option.some.inj followed
      exact ⟨trivial, each⟩
  | cons action rest ih =>
      obtain ⟨between, acts, followed⟩ := follow?_cons.mp followed
      obtain ⟨first, second⟩ := ih (each.2 between acts) followed
      refine ⟨⟨each.1, fun t acts' => ?_⟩, second⟩
      obtain rfl := Option.some.inj (acts.symm.trans acts')
      exact first

/-- A test for `Each`. -/
def isEach (test : Studio → Action → Bool) : Studio → List Action → Bool
  | _, [] => true
  | s, action :: rest => test s action && (s.act? action).all (isEach test · rest)

theorem each_of_isEach {may : Studio → Action → Prop} {test : Studio → Action → Bool}
    (sound : ∀ s action, test s action = true → may s action) {s : Studio} {actions : List Action}
    (passed : isEach test s actions = true) : s.Each may actions := by
  induction actions generalizing s with
  | nil => trivial
  | cons action rest ih =>
      obtain ⟨here, later⟩ := Bool.and_eq_true_iff.mp passed
      refine ⟨sound s action here, fun t acts => ih ?_⟩
      rw [acts] at later
      exact later

end Studio

/-- A job that is about to render its fractal, or does. -/
def Phase.paints : Phase → Bool
  | .marking _ | .reporting _ | .lamenting _ _ | .repainting | .over | .dead => false
  | _ => true

namespace Bench.Steps

variable {setup : Setup} {reply : Reply} {b after : Bench} {notice : Option Notice}

theorem paints_of_varies {phase : Phase} (varies : phase.varies = true) : phase.paints = true := by
  cases phase with
  | mutating _ | rebreeding => rfl
  | _ => cases varies

/-- Only a job that paints changes its fractal. -/
theorem fractal_of_done (steps : Steps setup reply b after notice)
    (done : b.job.phase.paints = false) : after.fractal = b.fractal := by
  cases steps with
  | varied _ _ _ varies _ | spoiled _ varies =>
      rw [paints_of_varies varies] at done
      cases done
  | taken phase _ _ | givenUp phase =>
      rw [phase] at done
      cases done
  | _ => rfl

/-- A job that has painted does not begin again, and one that goes on keeps its fractal as it is or
has it rendering. -/
theorem paints (steps : Steps setup reply b after notice) (painting : after.job.phase.paints = true) :
    b.job.phase.paints = true ∧
      (after.fractal.state = b.fractal.state ∨ after.fractal.state = .rendering) := by
  cases steps with
  | varied _ _ _ varies _ => exact ⟨paints_of_varies varies, .inr rfl⟩
  | spoiled _ _ | taken _ _ _ | givenUp _ => cases painting
  | stopped phase _ =>
      refine ⟨?_, .inl rfl⟩
      rcases phase with ⟨_, phase⟩ | ⟨_, _, phase⟩ | phase | phase
      · rw [phase]
        rfl
      · rw [phase]
        rfl
      · rw [phase]
        rfl
      · rw [phase]
        rfl
  | rested _ => exact ⟨painting, .inl rfl⟩
  | marked _ | reported _ | withdrawn _ | lamented _ | repainted _ | crashed _ _ => cases painting
  | announced phase | prepared phase _ | opened phase _ | requested phase | called phase _
  | exhausted phase | returned _ phase _ _ _ | ceased phase _ _ | inspected phase _ | cleaned phase
  | measured _ phase _ | closed phase _ | missed _ phase | yielded phase _ | failed phase =>
      refine ⟨?_, .inl rfl⟩
      rw [phase]
      rfl

end Bench.Steps

namespace Studio

/-- What the director is at: a course, or waiting for jobs that it let go of. -/
inductive Plan where
  | course (c : Course)
  | wait (joins : List Nat)

namespace Plan

def tasks : Plan → List Task
  | course c => c.tasks
  | wait joins => joins.map .join

/-- The fractal that was promised a job. -/
def pledge : Plan → Option Nat
  | course c => c.pledge
  | wait _ => none

def stops : Plan → Bool
  | course (.stop _ _) | course (.restore _ _) => true
  | _ => false

/-- The jobs that may be at work. -/
def wards (held : List Nat) : Plan → List Nat
  | course (.render _ _) => held
  | course (.stop _ joins) | course (.restore _ joins) => joins
  | wait joins => joins ++ held

/-- Nothing is left to do. -/
structure Idle (plan : Plan) : Prop where
  wards : ∀ held, plan.wards held = held
  pledge : plan.pledge = none
  stops : plan.stops = false

theorem idle_of_tasks {plan : Plan} (done : plan.tasks = []) : plan.Idle := by
  cases plan with
  | course c =>
      obtain rfl := Course.eq_rest done
      exact ⟨fun _ => rfl, rfl, rfl⟩
  | wait joins =>
      obtain rfl := List.map_eq_nil_iff.mp done
      exact ⟨fun _ => rfl, rfl, rfl⟩

end Plan

/-- What the director is at once something is asked for. -/
def planFor (s : Studio) : Demand → Plan
  | .renderAll fractals => .course (.render .rest fractals.zipIdx)
  | .renderSlot slot f => .course (.render (.reaping slot f) [])
  | .waitAll => .wait s.held
  | .cancelAll => .course (.stop s.held s.held)

/-- One painter for a fractal, which is rendering as long as the jobs are not stopped. -/
structure Sole (plan : Plan) (s : Studio) : Prop where
  agenda : s.agenda = plan.tasks
  guarded : ∀ {j : Nat} {job : Job}, s.jobs[j]? = some job → job.isOver = false →
    j ∈ plan.wards s.held
  alone : ∀ {i j : Nat} {job other : Job}, s.jobs[i]? = some job → s.jobs[j]? = some other →
    job.phase.paints = true → other.phase.paints = true → job.fractal = other.fractal → i = j
  busy : ∀ {j : Nat} {job : Job} {f : Fractal}, s.jobs[j]? = some job → job.phase.paints = true →
    s.fractals[job.fractal]? = some f →
    f.state = .rendering ∨ plan.stops = true ∧ f.state = .pending
  pledged : ∀ {n : Nat}, plan.pledge = some n →
    (∀ f, s.fractals[n]? = some f → f.state = .rendering) ∧
      ∀ {j : Nat} {job : Job}, s.jobs[j]? = some job → job.phase.paints = true → job.fractal ≠ n

/-- Waiting changes nothing, and ends when the job is over. -/
theorem stepDirector_join {s t : Studio} {j : Nat} {rest : List Task}
    (agenda : s.agenda = .join j :: rest) (step : s.stepDirector = some t) :
    (∀ job, s.jobs[j]? = some job → job.isOver = true) ∧ t = { s with agenda := rest } := by
  unfold stepDirector at step
  rw [agenda] at step
  simp only [perform] at step
  cases at_ : s.jobs[j]? with
  | none =>
      rw [at_] at step
      cases step
      exact ⟨by rintro _ ⟨⟩, rfl⟩
  | some job =>
      rw [at_] at step
      cases halted : job.isOver with
      | false => simp [halted] at step
      | true =>
          simp only [halted, if_true, Option.map_some, Option.some.injEq] at step
          refine ⟨fun other same => ?_, step.symm⟩
          obtain rfl := Option.some.inj same
          exact halted

end Studio

theorem Job.isOver_of_paints {job : Job} (painting : job.phase.paints = true) :
    job.isOver = false := by
  unfold Job.isOver
  cases phase : job.phase with
  | «over» | dead =>
      rw [phase] at painting
      cases painting
  | _ => rfl

namespace Studio.Sole

variable {plan : Plan} {s t : Studio}

/-- A studio without jobs. -/
theorem new (nobody : s.jobs = []) (idle : s.agenda = []) : Sole (.course .rest) s where
  agenda := idle
  guarded at_ := by
    rw [nobody] at at_
    cases at_
  alone at_ := by
    rw [nobody] at at_
    cases at_
  busy at_ := by
    rw [nobody] at at_
    cases at_
  pledged pledge := by cases pledge

/-- A change of the plan, and of what is held, while the jobs go on. -/
theorem replan {plan' : Plan} (sole : Sole plan s) {held : List Nat} {agenda : List Task}
    {readiness : Readiness} (tasks : agenda = plan'.tasks)
    (wards : ∀ {j : Nat} {job : Job}, s.jobs[j]? = some job → job.isOver = false →
      j ∈ plan.wards s.held → j ∈ plan'.wards held)
    (stops : plan.stops = true → plan'.stops = true ∨ plan.wards s.held = [])
    (pledged : plan'.pledge = none ∨ plan'.pledge = plan.pledge) :
    Sole plan' { s with held, readiness, agenda } where
  agenda := tasks
  guarded at_ working := wards at_ working (sole.guarded at_ working)
  alone := sole.alone
  busy {j job f} at_ painting found := by
    rcases sole.busy at_ painting found with rendering | ⟨stopping, pending⟩
    · exact .inl rendering
    · rcases stops stopping with stopping | nobody
      · exact .inr ⟨stopping, pending⟩
      · have ward := sole.guarded at_ (Job.isOver_of_paints painting)
        rw [nobody] at ward
        exact absurd ward List.not_mem_nil
  pledged {n} pledge := by
    rcases pledged with none | same
    · rw [none] at pledge
      cases pledge
    · exact sole.pledged (same.symm.trans pledge)

/-- A fractal without a painter is promised one. -/
theorem claim {slot n : Nat} {visits : List (Nat × Nat)} {f : Fractal}
    (sole : Sole (.course (.render (.claiming slot n) visits)) s) (found : s.fractals[n]? = some f)
    (waiting : f.state = .pending ∨ f.state = .discarded ∨ f.state = .failed) :
    Sole (.course (.render (.clearing slot n) visits))
      { s.modifyFractal n ({ · with state := .rendering }) with
        agenda := (Course.render (.clearing slot n) visits).tasks } := by
  have set := fractals_modifyFractal found ({ · with state := .rendering })
  have free : ∀ {j : Nat} {job : Job}, s.jobs[j]? = some job → job.phase.paints = true →
      job.fractal ≠ n := by
    rintro j job at_ painting rfl
    rcases sole.busy at_ painting found with rendering | ⟨stopping, -⟩
    · exact (RenderState.ne_of_claimed waiting).1 rendering
    · cases stopping
  exact {
    agenda := rfl
    guarded := sole.guarded
    alone := sole.alone
    busy {j job g} at_ painting found' := by
      dsimp only at found'
      rw [set, List.getElem?_set_ne (Ne.symm (free at_ painting))] at found'
      exact sole.busy at_ painting found'
    pledged {m} pledge := by
      obtain rfl := Option.some.inj pledge
      refine ⟨fun g found' => ?_, free⟩
      dsimp only at found'
      rw [set, List.getElem?_set_self (List.getElem?_eq_some_iff.mp found).1] at found'
      obtain rfl := Option.some.inj found'
      rfl }

/-- The promised job starts. -/
theorem launch {slot n : Nat} {visits : List (Nat × Nat)} {source : Source} {seed : UInt64}
    (sole : Sole (.course (.render (.launching slot n) visits)) s) :
    Sole (.course (.render .rest visits))
      { s with
        source
        jobs := s.jobs ++ [{ slot, fractal := n, source := Source.ofSeed seed }]
        held := s.held ++ [s.jobs.length]
        agenda := (Course.render .rest visits).tasks } := by
  obtain ⟨rendering, free⟩ := sole.pledged rfl
  exact {
    agenda := rfl
    guarded at_ working := by
      rcases getElem?_concat_cases at_ with at_ | ⟨rfl, -⟩
      · exact List.mem_append_left _ (sole.guarded at_ working)
      · exact List.mem_append_right _ (List.mem_singleton.mpr rfl)
    alone at_ at' painting painting' same := by
      rcases getElem?_concat_cases at_ with at_ | ⟨rfl, rfl⟩
      · rcases getElem?_concat_cases at' with at' | ⟨rfl, rfl⟩
        · exact sole.alone at_ at' painting painting' same
        · exact absurd same (free at_ painting)
      · rcases getElem?_concat_cases at' with at' | ⟨rfl, -⟩
        · exact absurd same.symm (free at' painting')
        · rfl
    busy at_ painting found := by
      rcases getElem?_concat_cases at_ with at_ | ⟨-, rfl⟩
      · rcases sole.busy at_ painting found with rendering | ⟨stopping, -⟩
        · exact .inl rendering
        · cases stopping
      · exact .inl (rendering _ found)
    pledged pledge := by cases pledge }

/-- Asking a job to stop. -/
theorem raise {j : Nat} {raises joins : List Nat}
    (sole : Sole (.course (.stop (j :: raises) joins)) s) :
    Sole (.course (.stop raises joins))
      { s with jobs := s.jobs.modify j Job.asked, agenda := (Course.stop raises joins).tasks } := by
  exact {
    agenda := rfl
    guarded at_ working := by
      obtain ⟨before, origin, rfl⟩ := exists_askedAt at_
      exact sole.guarded origin ((Job.askedAt_isOver ..).symm.trans working)
    alone at_ at' painting painting' same := by
      obtain ⟨before, origin, rfl⟩ := exists_askedAt at_
      obtain ⟨before', origin', rfl⟩ := exists_askedAt at'
      rw [Job.askedAt_phase] at painting painting'
      rw [Job.askedAt_fractal, Job.askedAt_fractal] at same
      exact sole.alone origin origin' painting painting' same
    busy at_ painting found := by
      obtain ⟨before, origin, rfl⟩ := exists_askedAt at_
      rw [Job.askedAt_phase] at painting
      rw [Job.askedAt_fractal] at found
      exact sole.busy origin painting found
    pledged pledge := by cases pledge }

/-- What a job left in the middle starts again as pending. -/
theorem restore {j : Nat} {joins : List Nat} (sole : Sole (.course (.restore j joins)) s) (n : Nat) :
    Sole (.course (.stop [] joins)) { s.restore n with agenda := (Course.stop [] joins).tasks } where
  agenda := rfl
  guarded at_ := sole.guarded ((restore_jobs s n) ▸ at_)
  alone at_ at' := sole.alone ((restore_jobs s n) ▸ at_) ((restore_jobs s n) ▸ at')
  busy {i job g} at_ painting found := by
    rw [restore_jobs] at at_
    dsimp only at found
    cases at' : s.fractals[n]? with
    | none =>
        rw [Studio.restore, at'] at found
        exact sole.busy at_ painting found
    | some f =>
        by_cases rendering : f.state = .rendering
        · rw [restore_of_rendering at' rendering] at found
          rcases getElem?_set_cases found with ⟨-, rfl⟩ | ⟨-, found⟩
          · exact .inr ⟨rfl, rfl⟩
          · exact sole.busy at_ painting found
        · rw [restore_of_settled at' rendering] at found
          exact sole.busy at_ painting found
  pledged pledge := by cases pledge

/-- A task of a course. -/
theorem directs {c c' : Course} {u : Studio} (sole : Sole (.course c) s) (directs : Directs s c c' u) :
    Sole (.course c') { u with agenda := c'.tasks } := by
  cases directs with
  | pass _ | find _ | meet _ | decline _ | greet _ | mark =>
      exact sole.replan rfl (fun _ _ => id) nofun (.inl rfl)
  | reap =>
      refine sole.replan rfl (fun {j job} at_ working ward => ?_) nofun (.inl rfl)
      exact List.mem_filter.mpr ⟨ward, by simp [at_, working]⟩
  | claim found waiting => exact sole.claim found waiting
  | unmark => exact sole.replan rfl (fun _ _ => id) nofun (.inr rfl)
  | launch _ => exact sole.launch
  | raise => exact sole.raise
  | @join j joins halted =>
      refine sole.replan rfl (fun {i job} at_ working ward => ?_) (fun _ => .inl rfl) (.inl rfl)
      rcases List.mem_cons.mp ward with rfl | ward
      · rw [halted job at_] at working
        cases working
      · exact ward
  | restore _ => exact sole.restore _
  | forget _ => exact sole.replan rfl (fun _ _ => id) (fun _ => .inl rfl) (.inl rfl)
  | clear =>
      exact sole.replan rfl (fun _ _ ward => absurd ward List.not_mem_nil) (fun _ => .inr rfl) (.inl rfl)

/-- The director lets go of a job that is over. -/
theorem join {j : Nat} {joins : List Nat} (sole : Sole (.wait (j :: joins)) s)
    (halted : ∀ job, s.jobs[j]? = some job → job.isOver = true) :
    Sole (.wait joins) { s with agenda := joins.map .join } := by
  refine sole.replan rfl (fun {i job} at_ working ward => ?_) nofun (.inl rfl)
  rcases List.mem_cons.mp ward with rfl | ward
  · rw [halted job at_] at working
    cases working
  · exact ward

theorem obey_planned (sole : Sole plan s) (idle : s.agenda = []) (demand : Demand) :
    Sole (s.planFor demand) (s.obey demand) := by
  have rest := Plan.idle_of_tasks (sole.agenda.symm.trans idle)
  have stops : ∀ {p : Prop}, plan.stops = true → p := fun stopping => by
    rw [rest.stops] at stopping
    cases stopping
  have wards := rest.wards s.held
  cases demand with
  | renderAll fractals =>
      refine sole.replan (renderAll_agenda idle fractals) (fun _ _ ward => ?_) stops (.inl rfl)
      rwa [wards] at ward
  | renderSlot slot f =>
      refine sole.replan (renderSlot_agenda idle slot f) (fun _ _ ward => ?_) stops (.inl rfl)
      rwa [wards] at ward
  | waitAll =>
      refine sole.replan ?_ (fun _ _ ward => ?_) stops (.inl rfl)
      · rw [idle]
        rfl
      · rw [wards] at ward
        exact List.mem_append_left _ ward
  | cancelAll =>
      refine sole.replan (cancelAll_agenda idle) (fun _ _ ward => ?_) stops (.inl rfl)
      rwa [wards] at ward

theorem obey (sole : Sole plan s) (idle : s.agenda = []) (demand : Demand) :
    ∃ plan', Sole plan' (s.obey demand) :=
  ⟨_, sole.obey_planned idle demand⟩

theorem work {i : Nat} {reply : Reply} (sole : Sole plan s) (works : Works s i reply t) :
    Sole plan t := by
  obtain @⟨job, f, after, notice, at_, working, found, steps⟩ := works
  have place : after.job.fractal = job.fractal := steps.fractal_eq
  have done : job.phase.paints = false → after.fractal = f := steps.fractal_of_done
  -- A job paints only what it painted before.
  have old : ∀ {j : Nat} {other : Job}, (s.jobs.set i after.job)[j]? = some other →
      other.phase.paints = true → ∃ before, s.jobs[j]? = some before ∧
        before.phase.paints = true ∧ before.fractal = other.fractal := by
    intro j other at' painting
    rcases getElem?_set_cases at' with ⟨rfl, rfl⟩ | ⟨-, at'⟩
    · exact ⟨job, at_, (steps.paints painting).1, place.symm⟩
    · exact ⟨other, at', painting, rfl⟩
  exact {
    agenda := by rw [settle_agenda, sole.agenda]
    guarded {j other} at' working' := by
      rw [settle_jobs] at at'
      rw [settle_held]
      rcases getElem?_set_cases at' with ⟨rfl, rfl⟩ | ⟨-, at'⟩
      · exact sole.guarded at_ working
      · exact sole.guarded at' working'
    alone at₁ at₂ painting painting' same := by
      rw [settle_jobs] at at₁ at₂
      obtain ⟨before, origin, painted, here⟩ := old at₁ painting
      obtain ⟨before', origin', painted', there⟩ := old at₂ painting'
      exact sole.alone origin origin' painted painted' (here.trans (same.trans there.symm))
    busy {j other g} at' painting found' := by
      rw [settle_jobs] at at'
      rw [settle_fractals] at found'
      rcases getElem?_set_cases at' with ⟨rfl, rfl⟩ | ⟨apart, at'⟩
      · rw [place, List.getElem?_set_self (List.getElem?_eq_some_iff.mp found).1] at found'
        obtain rfl := Option.some.inj found'
        obtain ⟨painted, same | rendering⟩ := steps.paints painting
        · rw [same]
          exact sole.busy at_ painted found
        · exact .inl rendering
      · rcases getElem?_set_cases found' with ⟨same, rfl⟩ | ⟨-, found'⟩
        · have resting : job.phase.paints = false := by
            by_contra busy
            exact apart (sole.alone at' at_ painting (by simpa using busy) same)
          rw [done resting]
          exact sole.busy at' painting (same ▸ found)
        · exact sole.busy at' painting found'
    pledged {n} pledge := by
      obtain ⟨rendering, free⟩ := sole.pledged pledge
      refine ⟨fun g found' => ?_, fun {j other} at' painting => ?_⟩
      · rw [settle_fractals] at found'
        rcases getElem?_set_cases found' with ⟨rfl, rfl⟩ | ⟨-, found'⟩
        · have resting : job.phase.paints = false := by
            by_contra busy
            exact free at_ (by simpa using busy) rfl
          rw [done resting]
          exact rendering f found
        · exact rendering g found'
      · rw [settle_jobs] at at'
        obtain ⟨before, origin, painted, here⟩ := old at' painting
        rw [← here]
        exact free origin painted }

theorem act {action : Action} (sole : Sole plan s) (acts : s.act? action = some t) :
    ∃ plan', Sole plan' t := by
  cases action with
  | ask demand =>
      simp only [act?] at acts
      split at acts
      next idle =>
        cases acts
        exact sole.obey (List.isEmpty_iff.mp idle) demand
      next => cases acts
  | direct =>
      cases plan with
      | course c =>
          obtain ⟨c', u, directs, rfl⟩ := directs_of_stepDirector sole.agenda acts
          exact ⟨_, sole.directs directs⟩
      | wait joins =>
          cases joins with
          | nil =>
              change s.stepDirector = some t at acts
              rw [stepDirector, sole.agenda] at acts
              cases acts
          | cons j joins =>
              obtain ⟨halted, rfl⟩ := stepDirector_join sole.agenda acts
              exact ⟨_, sole.join halted⟩
  | work i reply => exact ⟨plan, sole.work (works_of_stepJob acts)⟩
  | scribble i left =>
      obtain ⟨_, _, disk, -, -, rfl, -⟩ := scribble_cases acts
      exact ⟨plan, { sole with }⟩

end Studio.Sole

end FractalBreeder
