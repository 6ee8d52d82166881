import FractalBreeder.Proofs.Rendering.Custody
import FractalBreeder.Proofs.Session.Moves

/-!
The director and the jobs keep custody. A studio is governed when its agenda is the rest of a course
that suits what the jobs and the fractals are at.
-/
namespace FractalBreeder

open Bench (Steps)

namespace Bench.Steps

variable {rogue : Prop} {setup : Setup} {reply : Reply} {b after : Bench} {notice : Option Notice}

/-- A job changes its fractal only while that is rendering. -/
theorem fractal_same (steps : Steps setup reply b after notice)
    (fits : b.job.Fits rogue setup.store b.fractal) (settled : b.fractal.state ≠ .rendering) :
    after.fractal = b.fractal := by
  cases steps with
  | varied _ _ _ varies _ => exact absurd (fits.rendering_of_varies varies) settled
  | spoiled _ varies => exact absurd (fits.rendering_of_varies varies) settled
  | taken phase _ _ =>
      rw [Job.Fits, phase] at fits
      exact absurd fits settled
  | givenUp phase =>
      rw [Job.Fits, phase] at fits
      exact absurd fits settled
  | _ => rfl

/-- A step leaves every fractal alone that is not rendering. -/
theorem getElem?_set (steps : Steps setup reply b after notice)
    (fits : b.job.Fits rogue setup.store b.fractal) {fractals : List Fractal} {place n : Nat}
    {f : Fractal} (own : fractals[place]? = some b.fractal) (found : fractals[n]? = some f)
    (settled : f.state ≠ .rendering) : (fractals.set place after.fractal)[n]? = some f := by
  by_cases same : place = n
  · subst same
    obtain rfl := Option.some.inj (own.symm.trans found)
    rw [steps.fractal_same fits settled]
    exact List.getElem?_set_self (List.getElem?_eq_some_iff.mp found).1
  · rwa [List.getElem?_set_ne same]

end Bench.Steps

namespace Studio

/-- The studio after a step of the job at a place. -/
def settle (s : Studio) (i : Nat) (job : Job) (after : Bench) (notice : Option Notice) : Studio :=
  let s := { s with
    jobs := s.jobs.set i after.job
    fractals := s.fractals.set job.fractal after.fractal
    disk := after.disk }
  match notice with
  | some notice => s.note i job.slot notice
  | none => s

section Settle

variable (s : Studio) (i : Nat) (job : Job) (after : Bench) (notice : Option Notice)

@[simp] theorem settle_jobs : (s.settle i job after notice).jobs = s.jobs.set i after.job := by
  rcases notice with _ | _ | _ | _ | _ <;> rfl

@[simp] theorem settle_fractals :
    (s.settle i job after notice).fractals = s.fractals.set job.fractal after.fractal := by
  rcases notice with _ | _ | _ | _ | _ <;> rfl

@[simp] theorem settle_disk : (s.settle i job after notice).disk = after.disk := by
  rcases notice with _ | _ | _ | _ | _ <;> rfl

@[simp] theorem settle_held : (s.settle i job after notice).held = s.held := by
  rcases notice with _ | _ | _ | _ | _ <;> rfl

@[simp] theorem settle_setup : (s.settle i job after notice).setup = s.setup := by
  rcases notice with _ | _ | _ | _ | _ <;> rfl

@[simp] theorem settle_agenda : (s.settle i job after notice).agenda = s.agenda := by
  rcases notice with _ | _ | _ | _ | _ <;> rfl

/-- A step marks no slot but that of its job. -/
theorem readiness_settle : (s.settle i job after notice).readiness = s.readiness ∨
    notice = some .ready ∧
      (s.settle i job after notice).readiness = s.readiness.mark job.slot true := by
  rcases notice with _ | _ | _ | _ | _
  · exact .inl rfl
  · exact .inl rfl
  · exact .inl rfl
  · exact .inr ⟨rfl, rfl⟩
  · exact .inl rfl

end Settle

/-- One step of one job. -/
inductive Works (s : Studio) (i : Nat) (reply : Reply) : Studio → Prop where
  | intro {job : Job} {f : Fractal} {after : Bench} {notice : Option Notice} :
      s.jobs[i]? = some job → job.isOver = false → s.fractals[job.fractal]? = some f →
      Steps s.setup reply ⟨job, f, s.disk⟩ after notice →
      Works s i reply (s.settle i job after notice)

theorem stepJob_eq_some {s t : Studio} {i : Nat} {reply : Reply} (step : s.stepJob i reply = some t) :
    ∃ job f, s.jobs[i]? = some job ∧ job.isOver = false ∧ s.fractals[job.fractal]? = some f ∧
      t = s.settle i job (Bench.step s.setup reply ⟨job, f, s.disk⟩).1
        (Bench.step s.setup reply ⟨job, f, s.disk⟩).2 := by
  unfold stepJob at step
  cases at_ : s.jobs[i]? with
  | none =>
      rw [at_] at step
      cases step
  | some job =>
      rw [at_] at step
      cases working : job.isOver with
      | true => simp [bind, working] at step
      | false =>
          cases found : s.fractals[job.fractal]? with
          | none => simp [bind, working, found] at step
          | some f =>
              simp only [bind, Option.bind_some, working, Bool.false_eq_true, if_false, found, pure,
                Option.some.injEq] at step
              exact ⟨job, f, rfl, working, found, step.symm⟩

theorem works_of_stepJob {s t : Studio} {i : Nat} {reply : Reply}
    (step : s.stepJob i reply = some t) : Works s i reply t := by
  obtain ⟨job, f, at_, working, found, rfl⟩ := stepJob_eq_some step
  exact .intro at_ working found (Bench.steps_step s.setup reply ⟨job, f, s.disk⟩)

section Restore

variable (s : Studio) (n : Nat)

@[simp] theorem restore_jobs : (s.restore n).jobs = s.jobs := by
  unfold restore
  split
  · split <;> rfl
  · rfl

@[simp] theorem restore_held : (s.restore n).held = s.held := by
  unfold restore
  split
  · split <;> rfl
  · rfl

@[simp] theorem restore_setup : (s.restore n).setup = s.setup := by
  unfold restore
  split
  · split <;> rfl
  · rfl

@[simp] theorem restore_calls : (s.restore n).calls = s.calls := by
  unfold restore
  split
  · split <;> rfl
  · rfl

@[simp] theorem length_restore : (s.restore n).fractals.length = s.fractals.length := by
  unfold restore
  split
  · split
    · exact List.length_set
    · rfl
  · rfl

variable {s : Studio} {n : Nat} {f : Fractal}

theorem restore_of_rendering (found : s.fractals[n]? = some f) (rendering : f.state = .rendering) :
    s.restore n =
      { s with fractals := s.fractals.set n { f with state := .pending, image := none }
               disk := s.setup.store.discard s.disk f.id } := by
  simp [restore, found, rendering, Fractal.discard]

theorem restore_of_settled (found : s.fractals[n]? = some f) (settled : f.state ≠ .rendering) :
    s.restore n = s := by
  simp [restore, found, settled]

theorem fractals_modifyFractal (found : s.fractals[n]? = some f) (change : Fractal → Fractal) :
    (s.modifyFractal n change).fractals = s.fractals.set n (change f) := by
  rw [modifyFractal, List.modify_eq_set_getElem?, found]
  rfl

end Restore

/-- A renderer that touches its file changes nothing but the disk. -/
theorem scribble_eq_some {s t : Studio} {i : Nat} {left : Option ByteArray}
    (scribbled : s.scribble i left = some t) :
    ∃ job turn disk, s.jobs[i]? = some job ∧ job.phase = .calling turn ∧ t = { s with disk } ∧
      (match left with
        | some bytes => s.disk.write turn.request.output bytes
        | none => s.disk.remove turn.request.output) = .ok disk := by
  unfold Studio.scribble at scribbled
  split at scribbled
  next turn phase =>
    obtain ⟨job, at_, calling⟩ := Option.map_eq_some_iff.mp phase
    dsimp only at scribbled
    split at scribbled
    next disk touched =>
      cases scribbled
      exact ⟨job, turn, disk, at_, calling, rfl, touched⟩
    next => cases scribbled
  next => cases scribbled

theorem scribble_cases {s t : Studio} {i : Nat} {left : Option ByteArray}
    (scribbled : s.scribble i left = some t) :
    ∃ job turn disk, s.jobs[i]? = some job ∧ job.phase = .calling turn ∧ t = { s with disk } ∧
      ((∃ bytes, s.disk.write turn.request.output bytes = .ok disk) ∨
        s.disk.remove turn.request.output = .ok disk) := by
  obtain ⟨job, turn, disk, at_, calling, same, touched⟩ := scribble_eq_some scribbled
  refine ⟨job, turn, disk, at_, calling, same, ?_⟩
  cases left with
  | some bytes => exact .inl ⟨bytes, touched⟩
  | none => exact .inr touched

theorem Works.length_fractals {s t : Studio} {i : Nat} {reply : Reply} (works : Works s i reply t) :
    t.fractals.length = s.fractals.length := by
  cases works with
  | intro _ _ _ _ => rw [settle_fractals, List.length_set]

theorem Works.held {s t : Studio} {i : Nat} {reply : Reply} (works : Works s i reply t) :
    t.held = s.held := by
  cases works with
  | intro _ _ _ _ => rw [settle_held]

theorem Directs.length_fractals {s t : Studio} {c c' : Course} (directs : Directs s c c' t) :
    t.fractals.length = s.fractals.length := by
  cases directs with
  | claim _ _ => exact List.length_modify ..
  | restore _ => exact length_restore ..
  | _ => rfl

/-- A job of a course is one of before, or has just started. -/
theorem Directs.job_cases {s t : Studio} {c c' : Course} (directs : Directs s c c' t) {j : Nat}
    {job : Job} (at_ : t.jobs[j]? = some job) :
    (∃ before, s.jobs[j]? = some before ∧ job.phase = before.phase ∧ job.fractal = before.fractal) ∨
      job.phase = .announcing := by
  cases directs with
  | launch _ =>
      rcases getElem?_concat_cases at_ with at_ | ⟨-, rfl⟩
      · exact .inl ⟨job, at_, rfl, rfl⟩
      · exact .inr rfl
  | @raise k _ _ =>
      obtain ⟨before, origin, rfl⟩ := exists_askedAt at_
      exact .inl ⟨before, origin, Job.askedAt_phase .., Job.askedAt_fractal ..⟩
  | restore _ =>
      rw [restore_jobs] at at_
      exact .inl ⟨job, at_, rfl, rfl⟩
  | _ => exact .inl ⟨job, at_, rfl, rfl⟩

theorem Directs.setup_eq {s t : Studio} {c c' : Course} (directs : Directs s c c' t) :
    t.setup = s.setup := by
  cases directs with
  | restore _ => exact restore_setup ..
  | _ => rfl

theorem Directs.calls_eq {s t : Studio} {c c' : Course} (directs : Directs s c c' t) :
    t.calls = s.calls := by
  cases directs with
  | restore _ => exact restore_calls ..
  | _ => rfl

/-- A reply that counts is one of a renderer that keeps its word. -/
def Answers (s : Studio) (i : Nat) (reply : Reply) : Prop :=
  ∀ job turn, s.jobs[i]? = some job → job.phase = .calling turn → reply.Lawful job.flag

def Errand.Sound (current wards : List Nat) (jobs : List Job) (fractals : List Fractal) :
    Errand → Prop
  | .rest => True
  | .reaping slot n =>
    current[slot]? = some n ∧
      ∃ f, fractals[n]? = some f ∧ (f.state = .pending ∨ f.state = .discarded)
  | .claiming slot n =>
    current[slot]? = some n ∧
      (∃ f, fractals[n]? = some f ∧ (f.state = .pending ∨ f.state = .discarded)) ∧
      ∀ {j : Nat} {job : Job}, j ∈ wards → jobs[j]? = some job → job.fractal ≠ n
  | .clearing slot n | .launching slot n => current[slot]? = some n
  | .showing slot n =>
    current[slot]? = some n ∧ ∃ f, fractals[n]? = some f ∧ f.state = .ready

/-- Only slots on show are visited, jobs are not asked to stop without being waited for, and what is
put back was a job's that is over. -/
def Course.Sound (current held : List Nat) (jobs : List Job) (fractals : List Fractal) :
    Course → Prop
  | .render errand visits =>
    errand.Sound current held jobs fractals ∧ (∀ visit ∈ visits, current[visit.2]? = some visit.1) ∧
      ∀ {j : Nat} {job : Job}, j ∈ held → jobs[j]? = some job → job.flag.raised = false
  | .stop raises joins =>
    held = [] ∧ ∀ {j : Nat} {job : Job}, j ∈ joins → jobs[j]? = some job →
      j ∈ raises ∨ job.flag.raised = true
  | .restore j joins =>
    held = [] ∧ (∀ {job : Job}, jobs[j]? = some job → job.isOver = true) ∧
      ∀ {i : Nat} {job : Job}, i ∈ j :: joins → jobs[i]? = some job → job.flag.raised = true

structure Governed (rogue : Prop) (current : List Nat) (course : Course) (s : Studio) : Prop where
  agenda : s.agenda = course.tasks
  sound : course.Sound current s.held s.jobs s.fractals
  custody : Custody rogue s.setup.store current (course.wards s.held) course.pledge s.jobs s.fractals

namespace Governed

variable {rogue : Prop} {current : List Nat} {course : Course} {s t : Studio}

theorem work {i : Nat} {reply : Reply} (governed : Governed rogue current course s)
    (works : Works s i reply t) (lawful : s.Answers i reply ∨ rogue) :
    Governed rogue current course t := by
  obtain @⟨job, f, after, notice, at_, working, found, steps⟩ := works
  have custody := governed.custody
  have ward := custody.guarded at_ working
  have fits : job.Fits rogue s.setup.store f := custody.fits ward at_ found
  have flag : after.job.flag = job.flag := steps.flag_eq
  have place : after.job.fractal = job.fractal := steps.fractal_eq
  -- A fractal that is not rendering stays as it is.
  have still : ∀ {n : Nat} {g : Fractal}, s.fractals[n]? = some g → g.state ≠ .rendering →
      (s.fractals.set job.fractal after.fractal)[n]? = some g :=
    fun found' settled => steps.getElem?_set fits found found' settled
  -- Flags and fractals of jobs are as before.
  have old : ∀ {j : Nat} {other : Job}, (s.jobs.set i after.job)[j]? = some other →
      ∃ before, s.jobs[j]? = some before ∧ other.flag = before.flag ∧
        other.fractal = before.fractal ∧ (before.isOver = true → other.isOver = true) := by
    intro j other at'
    rcases getElem?_set_cases at' with ⟨rfl, rfl⟩ | ⟨-, at'⟩
    · exact ⟨job, at_, flag, place, fun halted => by rw [working] at halted; cases halted⟩
    · exact ⟨other, at', rfl, rfl, id⟩
  have sound := governed.sound
  refine ⟨by rw [settle_agenda]; exact governed.agenda, ?_, ?_⟩
  · rw [settle_held, settle_jobs, settle_fractals]
    cases course with
    | render errand visits =>
        obtain ⟨errandSound, visitsSound, unraised⟩ := sound
        refine ⟨?_, visitsSound, fun member at' => ?_⟩
        · cases errand with
          | rest => trivial
          | reaping slot n =>
              obtain ⟨shown, g, found', waiting⟩ := errandSound
              exact ⟨shown, g, still found' (RenderState.ne_of_waiting waiting).1, waiting⟩
          | claiming slot n =>
              obtain ⟨shown, ⟨g, found', waiting⟩, free⟩ := errandSound
              have settled := (RenderState.ne_of_waiting waiting).1
              refine ⟨shown, ⟨g, still found' settled, waiting⟩, fun member at' => ?_⟩
              obtain ⟨before, origin, -, same, -⟩ := old at'
              rw [same]
              exact free member origin
          | clearing slot n => exact errandSound
          | launching slot n => exact errandSound
          | showing slot n =>
              obtain ⟨shown, g, found', ready⟩ := errandSound
              exact ⟨shown, g, still found' (by rw [ready]; nofun), ready⟩
        · obtain ⟨before, origin, same, -, -⟩ := old at'
          rw [same]
          exact unraised member origin
    | stop raises joins =>
        refine ⟨sound.1, fun member at' => ?_⟩
        obtain ⟨before, origin, same, -, -⟩ := old at'
        rw [same]
        exact sound.2 member origin
    | restore j joins =>
        refine ⟨sound.1, fun at' => ?_, fun member at' => ?_⟩
        · obtain ⟨before, origin, -, -, halted⟩ := old at'
          exact halted (sound.2.1 origin)
        · obtain ⟨before, origin, same, -, -⟩ := old at'
          rw [same]
          exact sound.2.2 member origin
  · rw [settle_setup, settle_held, settle_jobs, settle_fractals]
    exact custody.work at_ working found steps fun turn calling =>
      lawful.imp (fun answers => answers job turn at_ calling) id

theorem scribble {i : Nat} {left : Option ByteArray} (governed : Governed rogue current course s)
    (scribbled : s.scribble i left = some t) : Governed rogue current course t := by
  obtain ⟨job, turn, disk, -, -, rfl, -⟩ := scribble_cases scribbled
  exact ⟨governed.agenda, governed.sound, governed.custody⟩

/-- Jobs that the director lets go of between two tasks are over and left nothing in the middle. -/
theorem reaped (governed : Governed rogue current course s) {slot n : Nat} {visits : List (Nat × Nat)}
    (at_ : course = .render (.reaping slot n) visits) :
    Governed rogue current (.render (.claiming slot n) visits)
      { s with held := s.held.filter fun j => !(s.jobs[j]?.all (·.isOver))
               agenda := (Course.render (.claiming slot n) visits).tasks } := by
  subst at_
  have custody := governed.custody
  obtain ⟨⟨shown, f, found, waiting⟩, visitsSound, unraised⟩ := governed.sound
  have over_of_dropped : ∀ {j : Nat} {job : Job}, j ∈ s.held →
      j ∉ s.held.filter (fun j => !(s.jobs[j]?.all (·.isOver))) → s.jobs[j]? = some job →
      job.isOver = true := by
    intro j job member dropped at_
    by_contra working
    apply dropped
    rw [List.mem_filter]
    exact ⟨member, by simpa [at_] using working⟩
  have working_of_kept : ∀ {j : Nat} {job : Job},
      j ∈ s.held.filter (fun j => !(s.jobs[j]?.all (·.isOver))) → s.jobs[j]? = some job →
      job.isOver = false := by
    intro j job member at_
    simpa [at_] using (List.mem_filter.mp member).2
  refine ⟨rfl, ⟨⟨shown, ⟨f, found, waiting⟩, fun member at_ same => ?_⟩, visitsSound,
    fun member => ?_⟩, ?_⟩
  · have halted := custody.unattended (List.mem_of_mem_filter member) at_ found waiting same
    rw [working_of_kept member at_] at halted
    cases halted
  · exact unraised (List.mem_of_mem_filter member)
  · apply custody.release List.filter_sublist
    intro j job member dropped at_
    have halted := over_of_dropped member dropped at_
    refine ⟨halted, fun f found rendering => ?_⟩
    rcases (custody.fits member at_ found).excused halted rendering with raised | rogue
    · rw [unraised member at_] at raised
      cases raised
    · exact rogue

/-- A fractal that waits for a job is marked before the job starts. -/
theorem claimed (governed : Governed rogue current course s) {slot n : Nat} {visits : List (Nat × Nat)}
    {f : Fractal} (at_ : course = .render (.claiming slot n) visits) (found : s.fractals[n]? = some f)
    (waiting : f.state = .pending ∨ f.state = .discarded ∨ f.state = .failed) :
    Governed rogue current (.render (.clearing slot n) visits)
      { s.modifyFractal n ({ · with state := .rendering }) with
        agenda := (Course.render (.clearing slot n) visits).tasks } := by
  subst at_
  have custody := governed.custody
  obtain ⟨⟨shown, -, free⟩, visitsSound, unraised⟩ := governed.sound
  have unready : f.state ≠ .ready := (RenderState.ne_of_claimed waiting).2
  have set : (s.modifyFractal n ({ · with state := .rendering })).fractals =
      s.fractals.set n { f with state := .rendering } := fractals_modifyFractal found _
  refine ⟨rfl, ⟨shown, visitsSound, unraised⟩, ?_⟩
  simp only [Course.wards, Course.pledge, Errand.pledge, set]
  have before : f.Sound := custody.sound f (List.mem_of_getElem? found)
  have after : ({ f with state := .rendering } : Fractal).Sound := before.enter unready nofun
  exact custody.change (.inl rfl) free found after rfl

theorem launched (governed : Governed rogue current course s) {slot n : Nat}
    {visits : List (Nat × Nat)} {source : Source} {seed : UInt64}
    (at_ : course = .render (.launching slot n) visits) :
    Governed rogue current (.render .rest visits)
      { s with source
               jobs := s.jobs ++ [{ slot, fractal := n, source := Source.ofSeed seed }]
               held := s.held ++ [s.jobs.length]
               agenda := (Course.render .rest visits).tasks } := by
  subst at_
  have custody := governed.custody
  obtain ⟨shown, visitsSound, unraised⟩ := governed.sound
  refine ⟨rfl, ⟨trivial, visitsSound, fun {j job} member at_ => ?_⟩, custody.launch shown⟩
  rcases getElem?_concat_cases at_ with at_ | ⟨-, rfl⟩
  · rcases List.mem_append.mp member with member | member
    · exact unraised member at_
    · rw [List.mem_singleton.mp member] at at_
      exact absurd (List.getElem?_eq_some_iff.mp at_).1 (Nat.lt_irrefl _)
  · rfl

/-- What a job left in the middle starts again as pending. -/
theorem restored (governed : Governed rogue current course s) {j : Nat} {joins : List Nat} {job : Job}
    (at_ : course = .restore j joins) (found : s.jobs[j]? = some job) :
    Governed rogue current (.stop [] joins)
      { s.restore job.fractal with agenda := (Course.stop [] joins).tasks } := by
  subst at_
  have custody := governed.custody
  obtain ⟨idle, halted, raised⟩ := governed.sound
  obtain ⟨f, housed⟩ := custody.housed found
  have handed := custody.handOver found (halted found) housed
  have free : ∀ {i : Nat} {other : Job}, i ∈ joins → s.jobs[i]? = some other →
      other.fractal ≠ job.fractal := by
    intro i other member at' same
    have equal := custody.alone List.mem_cons_self (List.mem_cons_of_mem _ member) found at' same
    subst equal
    exact (List.nodup_cons.mp custody.once).1 member
  by_cases rendering : f.state = .rendering
  · rw [restore_of_rendering housed rendering]
    rw [if_pos rendering] at handed
    refine ⟨rfl, ⟨idle, fun member at' => .inr (raised (List.mem_cons_of_mem _ member) at')⟩, ?_⟩
    have sound : f.Sound := custody.sound f (List.mem_of_getElem? housed)
    have after : ({ f with state := .pending, image := none } : Fractal).Sound :=
      .of_blank sound.identity nofun rfl
    exact handed.change (.inr rfl) free housed after rfl
  · rw [restore_of_settled housed rendering]
    rw [if_neg rendering] at handed
    exact ⟨rfl, ⟨idle, fun member at' => .inr (raised (List.mem_cons_of_mem _ member) at')⟩, handed⟩

/-- A task of the director, under the course that it belongs to. -/
theorem direct {after : Course} (governed : Governed rogue current course s)
    (directs : Directs s course after t) :
    Governed rogue current after { t with agenda := after.tasks } := by
  have custody := governed.custody
  have sound := governed.sound
  have stateOf : ∀ {n : Nat} {state : RenderState}, s.stateOf? n = some state →
      ∃ f, s.fractals[n]? = some f ∧ f.state = state := fun at_ => Option.map_eq_some_iff.mp at_
  cases directs with
  | pass _ =>
      obtain ⟨-, visits, unraised⟩ := sound
      exact ⟨rfl, ⟨trivial, fun visit member => visits visit (List.mem_cons_of_mem _ member), unraised⟩,
        custody⟩
  | @find slot n _ waiting =>
      obtain ⟨-, visits, unraised⟩ := sound
      have waiting : ∃ f, s.fractals[n]? = some f ∧ (f.state = .pending ∨ f.state = .discarded) := by
        rcases waiting with at_ | at_
        · obtain ⟨f, found, pending⟩ := stateOf at_
          exact ⟨f, found, .inl pending⟩
        · obtain ⟨f, found, discarded⟩ := stateOf at_
          exact ⟨f, found, .inr discarded⟩
      exact ⟨rfl, ⟨⟨visits _ List.mem_cons_self, waiting⟩,
        fun visit member => visits visit (List.mem_cons_of_mem _ member), unraised⟩, custody⟩
  | meet ready =>
      obtain ⟨-, visits, unraised⟩ := sound
      exact ⟨rfl, ⟨⟨visits _ List.mem_cons_self, stateOf ready⟩,
        fun visit member => visits visit (List.mem_cons_of_mem _ member), unraised⟩, custody⟩
  | reap => exact governed.reaped rfl
  | decline _ => exact ⟨rfl, ⟨trivial, sound.2⟩, custody⟩
  | greet ready => exact ⟨rfl, ⟨⟨sound.1.1, stateOf ready⟩, sound.2⟩, custody⟩
  | claim found waiting => exact governed.claimed rfl found waiting
  | unmark => exact ⟨rfl, sound, custody⟩
  | launch _ => exact governed.launched rfl
  | mark => exact ⟨rfl, ⟨trivial, sound.2⟩, custody⟩
  | @raise j raises joins =>
      refine ⟨rfl, ⟨sound.1, fun {i job} member at_ => ?_⟩, custody.raise j⟩
      obtain ⟨before, origin, rfl⟩ := exists_askedAt at_
      by_cases same : j = i
      · exact .inr (by simp [Job.askedAt, same, Job.asked, StopFlag.raise])
      · rcases sound.2 member origin with member | raised
        · exact .inl ((List.mem_cons.mp member).resolve_left (Ne.symm same))
        · exact .inr (by simpa [Job.askedAt, same] using raised)
  | join halted =>
      refine ⟨rfl, ⟨sound.1, fun at_ => halted _ at_, fun member at_ => ?_⟩, custody⟩
      exact (sound.2 member at_).resolve_left List.not_mem_nil
  | restore found => exact governed.restored rfl found
  | forget missing =>
      obtain ⟨job, found⟩ := custody.staffed _ List.mem_cons_self
      rw [missing] at found
      cases found
  | clear => exact ⟨rfl, ⟨trivial, nofun, by rw [sound.1]; nofun⟩, by rw [sound.1]; exact custody⟩

end Governed

end Studio

end FractalBreeder
