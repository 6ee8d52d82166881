import FractalBreeder.Proofs.Rendering.Leaving
import FractalBreeder.Proofs.Rendering.Provenance

/-!
What renderers leave on the disk, and who removes it. A file that was left has a keeper: a job that
still paints the fractal of that file, or one that was stopped and that the director is about to put
back. No keeper lets go before the file is gone, so once all jobs were waited for, or stopped, nothing
is left. A stopped job is put back by the state of its fractal, which is right only as long as no
other job has that fractal.
-/
namespace FractalBreeder

open Bench (Steps)
open Disk (HasFile Leads Keeps)

/-- A call returns, and reports a stop only to a job that was asked to stop. -/
def Reply.isLawful (flag : StopFlag) : Reply → Bool
  | .returned _ (.error .cancelled) => flag.raised
  | .returned _ _ => true
  | .crashed => false

theorem Reply.lawful_of_isLawful {flag : StopFlag} {reply : Reply}
    (passed : Reply.isLawful flag reply = true) : reply.Lawful flag := by
  cases reply with
  | crashed => cases passed
  | returned left result =>
      cases result with
      | ok _ => trivial
      | error fault =>
          cases fault with
          | cancelled => exact passed
          | _ => trivial

namespace Studio

/-- The jobs whose fractals the director is about to put back. -/
def Plan.restores : Plan → List Nat
  | .course (.stop _ joins) => joins
  | .course (.restore j joins) => j :: joins
  | _ => []

theorem Plan.restores_of_wards {plan : Plan} (stopping : plan.stops = true) {held : List Nat} {j : Nat}
    (ward : j ∈ plan.wards held) : j ∈ plan.restores := by
  cases plan with
  | course c =>
      cases c with
      | render _ _ => cases stopping
      | stop _ _ => exact ward
      | restore _ _ => exact List.mem_cons_of_mem _ ward
  | wait _ => cases stopping

theorem Plan.restores_of_idle {plan : Plan} (idle : plan.Idle) : plan.restores = [] := by
  cases plan with
  | course c =>
      cases c with
      | render _ _ => rfl
      | stop _ _ | restore _ _ => cases idle.stops
  | wait _ => rfl

/-- Nothing is going on but the waiting for jobs that were let go of. -/
structure Plan.Ends (plan : Plan) (held : List Nat) : Prop where
  held : held = []
  kind : plan = .course .rest ∨ plan.stops = true ∨ ∃ joins, plan = .wait joins

theorem Plan.Ends.directs {s u : Studio} {c c' : Course} (ends : (Plan.course c).Ends s.held)
    (directs : Directs s c c' u) : (Plan.course c').Ends u.held := by
  obtain ⟨held, kind⟩ := ends
  cases directs with
  | raise | join _ | forget _ => exact ⟨held, .inr (.inl rfl)⟩
  | restore _ => exact ⟨(restore_held ..).trans held, .inr (.inl rfl)⟩
  | clear => exact ⟨held, .inl rfl⟩
  | _ =>
      rcases kind with kind | kind | ⟨_, kind⟩
      · cases kind
      · cases kind
      · cases kind

/-- Somebody is going to remove the file in a place. -/
def Kept (plan : Plan) (s : Studio) (loc : Location) : Prop :=
  ∃ (j : Nat) (job : Job) (f : Fractal), s.jobs[j]? = some job ∧ s.fractals[job.fractal]? = some f ∧
    s.disk.Leads (s.setup.store.path f.id) loc ∧
    (job.phase.paints = true ∨ j ∈ plan.restores ∧ f.state = .rendering)

/-- The files that renderers left have keepers. -/
structure Swept (plan : Plan) (s : Studio) (left : List Location) : Prop where
  sole : Sole plan s
  excused : ∀ {j : Nat} {job : Job}, s.jobs[j]? = some job → job.Excused
  asked : ∀ {j : Nat} {job : Job} {turn : Turn}, s.jobs[j]? = some job →
    job.phase.turn? = some turn →
    ∃ f, s.fractals[job.fractal]? = some f ∧ turn.request = f.request s.setup.store
  /-- Nobody is asked to stop but by the director when it stops all. -/
  calm : ∀ {j : Nat} {job : Job}, s.jobs[j]? = some job → job.phase.paints = true →
    job.flag.raised = true → plan.stops = true
  rendering : ∀ {j : Nat} {job : Job} {f : Fractal}, s.jobs[j]? = some job →
    job.phase.paints = true → s.fractals[job.fractal]? = some f → f.state = .rendering
  apart : ∀ {i j : Nat} {job other : Job}, i ∈ plan.restores → j ∈ plan.restores →
    s.jobs[i]? = some job → s.jobs[j]? = some other → job.fractal = other.fractal → i = j
  halted : ∀ {j : Nat} {joins : List Nat} {job : Job}, plan = .course (.restore j joins) →
    s.jobs[j]? = some job → job.isOver = true
  kept : ∀ loc ∈ left, s.disk.HasFile loc → s.Kept plan loc

/-- No two of the jobs that were not let go of have one fractal. -/
def Separate (s : Studio) : Prop :=
  ∀ i ∈ s.held, ∀ j ∈ s.held, ∀ job other, s.jobs[i]? = some job → s.jobs[j]? = some other →
    job.fractal = other.fractal → i = j

/-- A renderer reports a stop only to a job that was asked to stop, and a call that takes its job down
leaves no file. -/
def Honest (s : Studio) (i : Nat) (reply : Reply) : Prop :=
  ∀ job turn, s.jobs[i]? = some job → job.phase = .calling turn →
    reply.Lawful job.flag ∨ reply = .crashed ∧ ¬ s.disk.HasFile (s.disk.place turn.request.output)

/-- What may happen: renderers are honest, and when all jobs are to be stopped no two of them have one
fractal. -/
def Careful (s : Studio) : Action → Prop
  | .ask .cancelAll => s.Separate
  | .work i reply => s.Honest i reply
  | _ => True

/-- Where a renderer leaves a file by an action. -/
def leaves? (s : Studio) : Action → Option Location
  | .work i (.returned (some bytes) _) | .scribble i (some bytes) =>
    match s.phase? i with
    | some (.calling turn) =>
      (s.disk.write turn.request.output bytes).toOption.map fun _ => s.disk.place turn.request.output
    | _ => none
  | _ => none

/-- Where renderers leave files in a run. -/
def left : Studio → List Action → List Location
  | _, [] => []
  | s, action :: rest => (s.leaves? action).toList ++ (s.act? action).elim [] (left · rest)

theorem left_append {s t : Studio} {first : List Action} (followed : s.follow? first = some t)
    (second : List Action) : s.left (first ++ second) = s.left first ++ t.left second := by
  induction first generalizing s with
  | nil =>
      obtain rfl := Option.some.inj followed
      rfl
  | cons action rest ih =>
      obtain ⟨between, acts, followed⟩ := follow?_cons.mp followed
      rw [List.cons_append, left, left, acts, Option.elim_some, Option.elim_some, ih followed,
        List.append_assoc]

theorem leaves?_work {s : Studio} {i : Nat} {reply : Reply} {loc : Location}
    (leaves : s.leaves? (.work i reply) = some loc) : ∃ job turn bytes after, s.jobs[i]? = some job ∧
      job.phase = .calling turn ∧ reply ≠ .crashed ∧
      s.disk.write turn.request.output bytes = .ok after ∧ loc = s.disk.place turn.request.output := by
  unfold leaves? at leaves
  split at leaves
  next j bytes result same =>
    cases same
    split at leaves
    next turn calling =>
      obtain ⟨job, at_, phase⟩ := Option.map_eq_some_iff.mp calling
      obtain ⟨after, written, here⟩ := Option.map_eq_some_iff.mp leaves
      refine ⟨job, turn, bytes, after, at_, phase, nofun, ?_, here.symm⟩
      cases wrote : s.disk.write turn.request.output bytes with
      | ok disk =>
          rw [wrote] at written
          exact congrArg _ (Option.some.inj written)
      | error fault =>
          rw [wrote] at written
          cases written
    next => cases leaves
  next same => cases same
  next => cases leaves

namespace Swept

variable {plan plan' : Plan} {s t : Studio} {left : List Location}

theorem new (new : s.New) : Swept (.course .rest) s [] where
  sole := .new new.jobs new.agenda
  excused at_ := by
    rw [new.jobs] at at_
    cases at_
  asked at_ := by
    rw [new.jobs] at at_
    cases at_
  calm at_ := by
    rw [new.jobs] at at_
    cases at_
  rendering at_ := by
    rw [new.jobs] at at_
    cases at_
  apart member := absurd member List.not_mem_nil
  halted same := by cases same
  kept loc member := absurd member List.not_mem_nil

/-- A change of the plan while jobs, fractals and the disk are as before. -/
theorem replan (swept : Swept plan s left) (sole : Sole plan' t) (jobs : t.jobs = s.jobs)
    (fractals : t.fractals = s.fractals) (disk : t.disk = s.disk) (setup : t.setup = s.setup)
    (stops : plan.stops = true → plan'.stops = true ∨ plan.wards s.held = [])
    (apart : ∀ {i j : Nat} {job other : Job}, i ∈ plan'.restores → j ∈ plan'.restores →
      s.jobs[i]? = some job → s.jobs[j]? = some other → job.fractal = other.fractal → i = j)
    (halted : ∀ {j : Nat} {joins : List Nat} {job : Job}, plan' = .course (.restore j joins) →
      s.jobs[j]? = some job → job.isOver = true)
    (owed : ∀ {j : Nat} {job : Job} {f : Fractal}, j ∈ plan.restores → s.jobs[j]? = some job →
      s.fractals[job.fractal]? = some f → f.state = .rendering → j ∈ plan'.restores) :
    Swept plan' t left where
  sole := sole
  excused at_ := swept.excused (jobs ▸ at_)
  asked at_ at_turn := by
    rw [jobs] at at_
    rw [fractals, setup]
    exact swept.asked at_ at_turn
  calm {j job} at_ painting raised := by
    rw [jobs] at at_
    refine (stops (swept.calm at_ painting raised)).resolve_right fun nobody => ?_
    have ward := swept.sole.guarded at_ (Job.isOver_of_paints painting)
    rw [nobody] at ward
    cases ward
  rendering at_ painting found := swept.rendering (jobs ▸ at_) painting (fractals ▸ found)
  apart member member' at_ at' := apart member member' (jobs ▸ at_) (jobs ▸ at')
  halted same at_ := halted same (jobs ▸ at_)
  kept loc member held := by
    rw [disk] at held
    obtain ⟨j, job, f, at_, found, leads, keeps⟩ := swept.kept loc member held
    refine ⟨j, job, f, jobs ▸ at_, fractals ▸ found, ?_, keeps.imp id fun ⟨member, rendering⟩ => ?_⟩
    · rw [disk, setup]
      exact leads
    · exact ⟨owed member at_ found rendering, rendering⟩

/-- A fractal without a painter is promised one. -/
theorem claim {slot n : Nat} {visits : List (Nat × Nat)} {f : Fractal}
    (swept : Swept (.course (.render (.claiming slot n) visits)) s left)
    (found : s.fractals[n]? = some f)
    (waiting : f.state = .pending ∨ f.state = .discarded ∨ f.state = .failed) :
    Swept (.course (.render (.clearing slot n) visits))
      { s.modifyFractal n ({ · with state := .rendering }) with
        agenda := (Course.render (.clearing slot n) visits).tasks } left := by
  have set := fractals_modifyFractal found ({ · with state := .rendering })
  have inside := (List.getElem?_eq_some_iff.mp found).1
  have old : ∀ {m : Nat} {g : Fractal},
      (s.modifyFractal n ({ · with state := .rendering })).fractals[m]? = some g →
      ∃ h, s.fractals[m]? = some h ∧ (h.state = .rendering → g.state = .rendering) := by
    intro m g found'
    rw [set] at found'
    rcases getElem?_set_cases found' with ⟨rfl, rfl⟩ | ⟨-, found'⟩
    · exact ⟨f, found, fun _ => rfl⟩
    · exact ⟨g, found', id⟩
  have new : ∀ {m : Nat} {g : Fractal}, s.fractals[m]? = some g →
      ∃ h, (s.modifyFractal n ({ · with state := .rendering })).fractals[m]? = some h ∧
        h.id = g.id ∧ h.request s.setup.store = g.request s.setup.store := by
    intro m g found'
    rw [set]
    by_cases same : n = m
    · subst same
      obtain rfl := Option.some.inj (found.symm.trans found')
      exact ⟨_, List.getElem?_set_self inside, rfl, rfl⟩
    · exact ⟨g, by rw [List.getElem?_set_ne same, found'], rfl, rfl⟩
  exact {
    sole := swept.sole.claim found waiting
    excused := swept.excused
    asked at_ at_turn := by
      obtain ⟨g, found', request⟩ := swept.asked at_ at_turn
      obtain ⟨h, there, -, same⟩ := new found'
      exact ⟨h, there, request.trans same.symm⟩
    calm := swept.calm
    rendering at_ painting found' := by
      obtain ⟨h, origin, rendering⟩ := old found'
      exact rendering (swept.rendering at_ painting origin)
    apart := swept.apart
    halted same := by cases same
    kept loc member held := by
      obtain ⟨j, job, g, at_, found', leads, keeps⟩ := swept.kept loc member held
      have painting := keeps.resolve_right fun ⟨member, _⟩ => absurd member List.not_mem_nil
      obtain ⟨h, there, same, -⟩ := new found'
      exact ⟨j, job, h, at_, there, same ▸ leads, .inl painting⟩ }

/-- The promised job starts. -/
theorem launch {slot n : Nat} {visits : List (Nat × Nat)} {source : Source} {seed : UInt64}
    (swept : Swept (.course (.render (.launching slot n) visits)) s left) :
    Swept (.course (.render .rest visits))
      { s with
        source
        jobs := s.jobs ++ [{ slot, fractal := n, source := Source.ofSeed seed }]
        held := s.held ++ [s.jobs.length]
        agenda := (Course.render .rest visits).tasks } left := by
  have promised := (swept.sole.pledged rfl).1
  exact {
    sole := swept.sole.launch
    excused at_ := by
      rcases getElem?_concat_cases at_ with at_ | ⟨-, rfl⟩
      · exact swept.excused at_
      · trivial
    asked at_ at_turn := by
      rcases getElem?_concat_cases at_ with at_ | ⟨-, rfl⟩
      · exact swept.asked at_ at_turn
      · cases at_turn
    calm at_ painting raised := by
      rcases getElem?_concat_cases at_ with at_ | ⟨-, rfl⟩
      · exact swept.calm at_ painting raised
      · cases raised
    rendering at_ painting found := by
      rcases getElem?_concat_cases at_ with at_ | ⟨-, rfl⟩
      · exact swept.rendering at_ painting found
      · exact promised _ found
    apart member := absurd member List.not_mem_nil
    halted same := by cases same
    kept loc member held := by
      obtain ⟨j, job, f, at_, found, leads, keeps⟩ := swept.kept loc member held
      refine ⟨j, job, f, ?_, found, leads, keeps⟩
      dsimp only
      rw [List.getElem?_append_left (List.getElem?_eq_some_iff.mp at_).1, at_] }

/-- Asking a job to stop. -/
theorem raise {j : Nat} {raises joins : List Nat}
    (swept : Swept (.course (.stop (j :: raises) joins)) s left) :
    Swept (.course (.stop raises joins))
      { s with jobs := s.jobs.modify j Job.asked, agenda := (Course.stop raises joins).tasks }
      left := by
  exact {
    sole := swept.sole.raise
    excused at_ := by
      obtain ⟨before, origin, rfl⟩ := exists_askedAt at_
      unfold Job.askedAt
      split
      · exact (swept.excused origin).asked
      · exact swept.excused origin
    asked at_ at_turn := by
      obtain ⟨before, origin, rfl⟩ := exists_askedAt at_
      rw [Job.askedAt_phase] at at_turn
      rw [Job.askedAt_fractal]
      exact swept.asked origin at_turn
    calm _ _ _ := rfl
    rendering at_ painting found := by
      obtain ⟨before, origin, rfl⟩ := exists_askedAt at_
      rw [Job.askedAt_phase] at painting
      rw [Job.askedAt_fractal] at found
      exact swept.rendering origin painting found
    apart member member' at_ at' same := by
      obtain ⟨before, origin, rfl⟩ := exists_askedAt at_
      obtain ⟨before', origin', rfl⟩ := exists_askedAt at'
      rw [Job.askedAt_fractal, Job.askedAt_fractal] at same
      exact swept.apart member member' origin origin' same
    halted same := by cases same
    kept loc member held := by
      obtain ⟨i, job, f, at_, found, leads, keeps⟩ := swept.kept loc member held
      refine ⟨i, job.askedAt j i, f, ?_, ?_, leads, ?_⟩
      · rw [getElem?_modify_asked, at_]
        rfl
      · rwa [Job.askedAt_fractal]
      · rwa [Job.askedAt_phase] }

/-- A fractal that was left in the middle is put back, and its file is gone. -/
theorem restore {j : Nat} {joins : List Nat} {job : Job}
    (swept : Swept (.course (.restore j joins)) s left) (at_ : s.jobs[j]? = some job) :
    Swept (.course (.stop [] joins))
      { s.restore job.fractal with agenda := (Course.stop [] joins).tasks } left := by
  have ended := swept.halted rfl at_
  -- No job at work has the fractal: it would be one of those still waited for.
  have free : ∀ {i : Nat} {other : Job}, s.jobs[i]? = some other → other.phase.paints = true →
      other.fractal ≠ job.fractal := by
    intro i other at' painting same
    have working := Job.isOver_of_paints painting
    have ward := List.mem_cons_of_mem j (swept.sole.guarded at' working)
    obtain rfl := swept.apart ward List.mem_cons_self at' at_ same
    obtain rfl := Option.some.inj (at_.symm.trans at')
    rw [ended] at working
    cases working
  have sole := swept.sole.restore job.fractal
  by_cases abandoned : ∃ f, s.fractals[job.fractal]? = some f ∧ f.state = .rendering
  · obtain ⟨f, found, rendering⟩ := abandoned
    have inside := (List.getElem?_eq_some_iff.mp found).1
    rw [restore_of_rendering found rendering] at sole ⊢
    have old : ∀ {m : Nat} {g : Fractal},
        (s.fractals.set job.fractal { f with state := .pending, image := none })[m]? = some g →
        m ≠ job.fractal → s.fractals[m]? = some g := by
      intro m g found' apart
      rwa [List.getElem?_set_ne apart.symm] at found'
    exact {
      sole := sole
      excused := swept.excused
      asked at' at_turn := by
        obtain ⟨g, found', request⟩ := swept.asked at' at_turn
        refine ⟨g, ?_, request⟩
        dsimp only
        rw [List.getElem?_set_ne (free at' (Phase.paints_of_turn at_turn)).symm, found']
      calm _ _ _ := rfl
      rendering at' painting found' := swept.rendering at' painting (old found' (free at' painting))
      apart member member' :=
        swept.apart (List.mem_cons_of_mem _ member) (List.mem_cons_of_mem _ member')
      halted same := by cases same
      kept loc member held := by
        have before := (s.setup.store.discard_cases s.disk f.id).2 loc held
        obtain ⟨i, other, g, at', found', leads, keeps⟩ := swept.kept loc member before
        have elsewhere : other.fractal ≠ job.fractal := by
          intro same
          obtain rfl := Option.some.inj (found.symm.trans (same ▸ found'))
          exact ImageStore.not_hasFile_of_leads leads held
        refine ⟨i, other, g, at', ?_, (s.setup.store.keeps_discard s.disk f.id).leads leads,
          keeps.imp id fun owed => ⟨?_, owed.2⟩⟩
        · dsimp only
          rw [List.getElem?_set_ne elsewhere.symm, found']
        · rcases List.mem_cons.mp owed.1 with rfl | member
          · obtain rfl := Option.some.inj (at_.symm.trans at')
            exact absurd rfl elsewhere
          · exact member }
  · have still : s.restore job.fractal = s := by
      cases found : s.fractals[job.fractal]? with
      | none => rw [Studio.restore, found]
      | some f => exact restore_of_settled found fun rendering => abandoned ⟨f, found, rendering⟩
    rw [still] at sole ⊢
    refine swept.replan sole rfl rfl rfl rfl (fun _ => .inl rfl)
      (fun member member' => swept.apart (List.mem_cons_of_mem _ member)
        (List.mem_cons_of_mem _ member')) (fun same => by cases same)
      fun {i other f} member at' found rendering => ?_
    rcases List.mem_cons.mp member with rfl | member
    · obtain rfl := Option.some.inj (at_.symm.trans at')
      exact absurd ⟨f, found, rendering⟩ abandoned
    · exact member

/-- A task of a course. -/
theorem directs {c c' : Course} {u : Studio} (swept : Swept (.course c) s left)
    (directs : Directs s c c' u) : Swept (.course c') { u with agenda := c'.tasks } left := by
  have sole := swept.sole.directs directs
  cases directs with
  | pass _ | find _ | meet _ | decline _ | greet _ | mark | unmark | reap =>
      exact swept.replan sole rfl rfl rfl rfl nofun (fun member => absurd member List.not_mem_nil) nofun
        fun member => absurd member List.not_mem_nil
  | claim found waiting => exact swept.claim found waiting
  | launch _ => exact swept.launch
  | raise => exact swept.raise
  | @join j joins halted =>
      refine swept.replan sole rfl rfl rfl rfl (fun _ => .inl rfl) swept.apart ?_
        fun member _ _ _ => member
      rintro k joins' job ⟨⟩ at_
      exact halted job at_
  | restore at_ => exact swept.restore at_
  | @forget j joins missing =>
      refine swept.replan sole rfl rfl rfl rfl (fun _ => .inl rfl)
        (fun member member' => swept.apart (List.mem_cons_of_mem _ member)
          (List.mem_cons_of_mem _ member')) nofun fun {i other f} member at_ _ _ => ?_
      rcases List.mem_cons.mp member with rfl | member
      · rw [missing] at at_
        cases at_
      · exact member
  | clear =>
      exact swept.replan sole rfl rfl rfl rfl (fun _ => .inr rfl)
        (fun member => absurd member List.not_mem_nil) nofun
        fun member => absurd member List.not_mem_nil

/-- The request of a job is for its fractal as it is. -/
theorem request (swept : Swept plan s left) {i : Nat} {job : Job} {f : Fractal} {turn : Turn}
    (at_ : s.jobs[i]? = some job) (found : s.fractals[job.fractal]? = some f)
    (at_turn : job.phase.turn? = some turn) : turn.request = f.request s.setup.store := by
  obtain ⟨g, found', request⟩ := swept.asked at_ at_turn
  obtain rfl := Option.some.inj (found.symm.trans found')
  exact request

section Work

variable {i : Nat} {reply : Reply} {job : Job} {f : Fractal} {after : Bench} {notice : Option Notice}
  (swept : Swept plan s left) (at_ : s.jobs[i]? = some job) (working : job.isOver = false)
  (found : s.fractals[job.fractal]? = some f)
  (steps : Steps s.setup reply ⟨job, f, s.disk⟩ after notice) (honest : s.Honest i reply)

include found steps in
/-- A job that has painted leaves all fractals alone. -/
theorem set_of_done (done : job.phase.paints = false) :
    s.fractals.set job.fractal after.fractal = s.fractals := by
  have same : after.fractal = f := steps.fractal_of_done done
  obtain ⟨_, held⟩ := List.getElem?_eq_some_iff.mp found
  rw [same, ← held, List.set_getElem_self]

include swept at_ found steps in
/-- What another painter has for its fractal is as before. -/
theorem getElem?_of_painter {j : Nat} {other : Job} (differ : j ≠ i) (at' : s.jobs[j]? = some other)
    (painting : other.phase.paints = true) :
    (s.fractals.set job.fractal after.fractal)[other.fractal]? = s.fractals[other.fractal]? := by
  cases painted : job.phase.paints with
  | false => rw [set_of_done found steps painted]
  | true =>
      have apart : other.fractal ≠ job.fractal := fun same =>
        differ (swept.sole.alone at' at_ painting painted same)
      rw [List.getElem?_set_ne apart.symm]

include steps in
theorem kept_settle {j : Nat} {other : Job} {g : Fractal} {loc : Location}
    (at' : (s.jobs.set i after.job)[j]? = some other)
    (found' : (s.fractals.set job.fractal after.fractal)[other.fractal]? = some g)
    (leads : s.disk.Leads (s.setup.store.path g.id) loc)
    (keeps : other.phase.paints = true ∨ j ∈ plan.restores ∧ g.state = .rendering) :
    (s.settle i job after notice).Kept plan loc := by
  have onwards : Keeps s.disk after.disk := steps.keeps
  refine ⟨j, other, g, ?_, ?_, ?_, keeps⟩
  · rwa [settle_jobs]
  · rwa [settle_fractals]
  · rw [settle_setup, settle_disk]
    exact onwards.leads leads

include at_ found steps in
/-- The job of the step keeps the file of its fractal. -/
theorem kept_own {loc : Location} (same : after.fractal = f)
    (leads : s.disk.Leads (s.setup.store.path f.id) loc)
    (keeps : after.job.phase.paints = true ∨ i ∈ plan.restores ∧ f.state = .rendering) :
    (s.settle i job after notice).Kept plan loc := by
  have place : after.job.fractal = job.fractal := steps.fractal_eq
  refine kept_settle steps (g := f) (List.getElem?_set_self (List.getElem?_eq_some_iff.mp at_).1) ?_
    leads keeps
  rw [place, same]
  exact List.getElem?_set_self (List.getElem?_eq_some_iff.mp found).1

include swept at_ found steps in
/-- A job keeps the file that its renderer has just left. -/
theorem kept_written {turn : Turn} {bytes : ByteArray} {disk : Disk} {loc : Location}
    (calling : job.phase = .calling turn)
    (written : s.disk.write turn.request.output bytes = .ok disk)
    (here : loc = s.disk.place turn.request.output)
    (goesOn : after.job.phase.paints = true ∧ after.fractal = f) :
    (s.settle i job after notice).Kept plan loc := by
  have leads := Disk.leads_of_write written
  rw [← here, swept.request at_ found (congrArg Phase.turn? calling)] at leads
  exact kept_own at_ found steps goesOn.2 leads (.inl goesOn.1)

include swept at_ working found steps honest in
/-- A painter keeps the file of its fractal, or leaves it to the director. -/
theorem kept_sweeping {loc : Location} (painted : job.phase.paints = true)
    (leads : s.disk.Leads (s.setup.store.path f.id) loc) (held : after.disk.HasFile loc) :
    (s.settle i job after notice).Kept plan loc := by
  have unspoiled : reply = .crashed → ∀ turn, job.phase = .calling turn →
      ¬ s.disk.HasFile loc := by
    intro crashed turn calling
    have spared := (honest job turn at_ calling).resolve_left (by rw [crashed]; exact id)
    rw [swept.request at_ found (congrArg Phase.turn? calling)] at spared
    have here : s.disk.place (s.setup.store.path f.id) = loc := leads.place
    exact here ▸ spared.2
  obtain ⟨same, ends⟩ := steps.sweeps painted leads unspoiled held
  refine kept_own at_ found steps same leads (ends.imp id fun withdrawing => ?_)
  have raised : job.flag.raised = true := by
    have excused := swept.excused at_
    rw [Job.Excused, withdrawing] at excused
    exact excused
  have stopping := swept.calm at_ painted raised
  exact ⟨Plan.restores_of_wards stopping (swept.sole.guarded at_ working),
    swept.rendering at_ painted found⟩

include swept at_ working found steps honest in
/-- A file that had a keeper before the step has one after it. -/
theorem kept_before {loc : Location} (kept : s.Kept plan loc) (held : after.disk.HasFile loc) :
    (s.settle i job after notice).Kept plan loc := by
  obtain ⟨j, other, g, at', found', leads, keeps⟩ := kept
  by_cases same : other.fractal = job.fractal
  · obtain rfl := Option.some.inj (found.symm.trans (same ▸ found'))
    cases painted : job.phase.paints with
    | true => exact kept_sweeping swept at_ working found steps honest painted leads held
    | false =>
        have unchanged : after.fractal = f := steps.fractal_of_done painted
        by_cases own : j = i
        · subst own
          obtain rfl := Option.some.inj (at_.symm.trans at')
          have owed := keeps.resolve_left (by rw [painted]; nofun)
          exact kept_own at_ found steps unchanged leads (.inr owed)
        · refine kept_settle steps (?_ : (s.jobs.set i after.job)[j]? = some other) ?_ leads keeps
          · rwa [List.getElem?_set_ne (Ne.symm own)]
          · rwa [set_of_done found steps painted]
  · have differ : j ≠ i := by
      rintro rfl
      obtain rfl := Option.some.inj (at_.symm.trans at')
      exact same rfl
    refine kept_settle steps (?_ : (s.jobs.set i after.job)[j]? = some other) ?_ leads keeps
    · rwa [List.getElem?_set_ne differ.symm]
    · rwa [List.getElem?_set_ne (Ne.symm same)]

include swept at_ working found steps honest in
theorem kept_work {loc : Location} (member : loc ∈ left ++ (s.leaves? (.work i reply)).toList)
    (held : after.disk.HasFile loc) : (s.settle i job after notice).Kept plan loc := by
  rcases steps.files held with before | ⟨turn, bytes, calling, written, here, goesOn⟩
  · rcases List.mem_append.mp member with old | new
    · exact kept_before swept at_ working found steps honest (swept.kept loc old before) held
    · obtain ⟨other, turn, bytes, disk, at', calling, returned, written, here⟩ :=
        leaves?_work (Option.mem_toList.mp new)
      obtain rfl := Option.some.inj (at_.symm.trans at')
      exact kept_written swept at_ found steps calling written here
        (steps.paints_of_calling calling returned)
  · exact kept_written swept at_ found steps calling written here goesOn

end Work

/-- What a step of a job preserves. -/
theorem work {i : Nat} {reply : Reply} (swept : Swept plan s left) (works : Works s i reply t)
    (honest : s.Honest i reply) : Swept plan t (left ++ (s.leaves? (.work i reply)).toList) := by
  have sole := swept.sole.work works
  obtain @⟨job, f, after, notice, at_, working, found, steps⟩ := works
  have place : after.job.fractal = job.fractal := steps.fractal_eq
  have setup : (s.settle i job after notice).setup = s.setup := settle_setup ..
  have own : (s.fractals.set job.fractal after.fractal)[after.job.fractal]? = some after.fractal := by
    rw [place]
    exact List.getElem?_set_self (List.getElem?_eq_some_iff.mp found).1
  have unchanged {j : Nat} {other : Job} (differ : j ≠ i) (at' : s.jobs[j]? = some other) :=
    swept.getElem?_of_painter at_ found steps differ at'
  exact {
    sole := sole
    excused {j other} at' := by
      rw [settle_jobs] at at'
      rcases getElem?_set_cases at' with ⟨rfl, rfl⟩ | ⟨-, at'⟩
      · exact steps.excused (swept.excused at_) fun turn calling =>
          (honest job turn at_ calling).symm.imp And.left id
      · exact swept.excused at'
    asked {j other turn} at' at_turn := by
      rw [settle_jobs] at at'
      rw [settle_fractals, setup]
      rcases getElem?_set_cases at' with ⟨rfl, rfl⟩ | ⟨differ, at'⟩
      · exact ⟨after.fractal, own, steps.asks (fun turn => swept.request at_ found) at_turn⟩
      · obtain ⟨g, found', request⟩ := swept.asked at' at_turn
        refine ⟨g, ?_, request⟩
        rwa [unchanged differ at' (Phase.paints_of_turn at_turn)]
    calm {j other} at' painting raised := by
      rw [settle_jobs] at at'
      rcases getElem?_set_cases at' with ⟨rfl, rfl⟩ | ⟨-, at'⟩
      · rw [steps.flag_eq] at raised
        exact swept.calm at_ (steps.paints painting).1 raised
      · exact swept.calm at' painting raised
    rendering {j other g} at' painting found' := by
      rw [settle_jobs] at at'
      rw [settle_fractals] at found'
      rcases getElem?_set_cases at' with ⟨rfl, rfl⟩ | ⟨differ, at'⟩
      · obtain rfl := Option.some.inj (own.symm.trans found')
        obtain ⟨painted, same | rendering⟩ := steps.paints painting
        · exact same.trans (swept.rendering at_ painted found)
        · exact rendering
      · rw [unchanged differ at' painting] at found'
        exact swept.rendering at' painting found'
    apart {k j first second} member member' at' at'' same := by
      have old : ∀ {j : Nat} {other : Job}, (s.jobs.set i after.job)[j]? = some other →
          ∃ before, s.jobs[j]? = some before ∧ before.fractal = other.fractal := by
        intro j other at'
        rcases getElem?_set_cases at' with ⟨rfl, rfl⟩ | ⟨-, at'⟩
        · exact ⟨job, at_, place.symm⟩
        · exact ⟨other, at', rfl⟩
      rw [settle_jobs] at at' at''
      obtain ⟨before, origin, here⟩ := old at'
      obtain ⟨before', origin', there⟩ := old at''
      exact swept.apart member member' origin origin' (here.trans (same.trans there.symm))
    halted {j joins other} same at' := by
      rw [settle_jobs] at at'
      rcases getElem?_set_cases at' with ⟨rfl, rfl⟩ | ⟨-, at'⟩
      · have ended := swept.halted same at_
        rw [working] at ended
        cases ended
      · exact swept.halted same at'
    kept loc member held := by
      rw [settle_disk] at held
      exact kept_work swept at_ working found steps honest member held }


theorem scribble {i : Nat} {bytes? : Option ByteArray} (swept : Swept plan s left)
    (scribbled : s.scribble i bytes? = some t) :
    Swept plan t (left ++ (s.leaves? (.scribble i bytes?)).toList) := by
  obtain ⟨job, turn, disk, at_, calling, rfl, touched⟩ := scribble_eq_some scribbled
  have working : job.isOver = false := by rw [Job.isOver, calling]
  have phase : s.phase? i = some (.calling turn) := by rw [phase?, at_, Option.map_some, calling]
  have still : ∀ {left' : List Location}, Keeps s.disk disk →
      (∀ loc ∈ left', disk.HasFile loc → s.Kept plan loc) → Swept plan { s with disk } left' :=
    fun keeps kept => {
      sole := { swept.sole with }
      excused := swept.excused
      asked := swept.asked
      calm := swept.calm
      rendering := swept.rendering
      apart := swept.apart
      halted := swept.halted
      kept loc member held := by
        obtain ⟨j, other, g, at', found, leads, kept⟩ := kept loc member held
        exact ⟨j, other, g, at', found, keeps.leads leads, kept⟩ }
  cases bytes? with
  | none =>
      refine still (Disk.keeps_remove touched) fun loc member held => ?_
      have member : loc ∈ left := by simpa [leaves?] using member
      exact swept.kept loc member ((Disk.remove_cases touched).2 loc held).2
  | some bytes =>
      have leaves : s.leaves? (.scribble i (some bytes)) =
          some (s.disk.place turn.request.output) := by
        simp only [leaves?, phase, touched]
        rfl
      rw [leaves]
      refine still (Disk.keeps_write touched) fun loc member held => ?_
      by_cases here : loc = s.disk.place turn.request.output
      · -- The renderer's own job keeps what it has written.
        subst here
        obtain ⟨f, found, request⟩ := swept.asked at_ (congrArg Phase.turn? calling)
        have leads := Disk.leads_of_write touched
        rw [request] at leads ⊢
        exact ⟨i, job, f, at_, found, leads, .inl (by rw [calling]; rfl)⟩
      · have old : loc ∈ left := by simpa [here] using member
        rcases (Disk.write_cases touched).2 loc held with same | before
        · exact absurd same here
        · exact swept.kept loc old before

theorem obey (swept : Swept plan s left) (idle : s.agenda = []) (demand : Demand)
    (careful : s.Careful (.ask demand)) : Swept (s.planFor demand) (s.obey demand) left := by
  have rest := Plan.idle_of_tasks (swept.sole.agenda.symm.trans idle)
  have sole := swept.sole.obey_planned idle demand
  have stops : ∀ {p : Prop}, plan.stops = true → p := fun stopping => by
    rw [rest.stops] at stopping
    cases stopping
  have nothing : plan.restores = [] := Plan.restores_of_idle rest
  cases demand with
  | cancelAll =>
      refine swept.replan sole rfl rfl rfl rfl stops ?_ nofun fun member => ?_
      · intro i j job other member member' at_ at' same
        exact careful i member j member' job other at_ at' same
      · rw [nothing] at member
        exact absurd member List.not_mem_nil
  | renderAll _ | renderSlot _ _ | waitAll =>
      refine swept.replan sole rfl rfl rfl rfl stops (fun member => absurd member List.not_mem_nil)
        nofun fun member => ?_
      rw [nothing] at member
      exact absurd member List.not_mem_nil

/-- What one action preserves. -/
theorem act {action : Action} (swept : Swept plan s left) (careful : s.Careful action)
    (acts : s.act? action = some t) :
    ∃ plan', Swept plan' t (left ++ (s.leaves? action).toList) ∧
      ((∀ demand, action ≠ .ask demand) → plan.Ends s.held → plan'.Ends t.held) := by
  cases action with
  | ask demand =>
      simp only [act?] at acts
      split at acts
      next idle =>
        cases acts
        have left_ : left ++ (s.leaves? (.ask demand)).toList = left := List.append_nil left
        rw [left_]
        exact ⟨_, swept.obey (List.isEmpty_iff.mp idle) demand careful,
          fun unasked => absurd rfl (unasked demand)⟩
      next => cases acts
  | direct =>
      have left_ : left ++ (s.leaves? .direct).toList = left := List.append_nil left
      rw [left_]
      cases plan with
      | course c =>
          obtain ⟨c', u, directs, rfl⟩ := directs_of_stepDirector swept.sole.agenda acts
          refine ⟨_, swept.directs directs, fun _ ends => ?_⟩
          have after := ends.directs directs
          exact after
      | wait joins =>
          cases joins with
          | nil =>
              change s.stepDirector = some t at acts
              rw [stepDirector, swept.sole.agenda] at acts
              cases acts
          | cons j joins =>
              obtain ⟨halted, rfl⟩ := stepDirector_join swept.sole.agenda acts
              refine ⟨.wait joins, swept.replan (swept.sole.join halted) rfl rfl rfl rfl
                (fun stopping => by cases stopping) (fun member => absurd member List.not_mem_nil)
                (fun same => by cases same) fun member => absurd member List.not_mem_nil,
                fun _ ends => ⟨ends.held, ?_⟩⟩
              exact .inr (.inr ⟨joins, rfl⟩)
  | work i reply =>
      have works := works_of_stepJob acts
      refine ⟨plan, swept.work works careful, fun _ ends => ?_⟩
      rwa [works.held]
  | scribble i bytes? =>
      refine ⟨plan, swept.scribble acts, fun _ ends => ?_⟩
      obtain ⟨_, _, _, -, -, rfl, -⟩ := scribble_cases acts
      exact ends

/-- What a run preserves. -/
theorem follow {actions : List Action} (swept : Swept plan s left) (careful : s.Each Careful actions)
    (followed : s.follow? actions = some t) :
    ∃ plan', Swept plan' t (left ++ s.left actions) ∧
      ((∀ demand, Action.ask demand ∉ actions) → plan.Ends s.held → plan'.Ends t.held) := by
  induction actions generalizing s plan left with
  | nil =>
      obtain rfl := Option.some.inj followed
      rw [Studio.left, List.append_nil]
      exact ⟨plan, swept, fun _ => id⟩
  | cons action rest ih =>
      obtain ⟨between, acts, followed⟩ := follow?_cons.mp followed
      obtain ⟨plan', swept, ends⟩ := swept.act careful.1 acts
      obtain ⟨plan'', swept, ends'⟩ := ih swept (careful.2 between acts) followed
      rw [Studio.left, acts, Option.elim_some, ← List.append_assoc]
      refine ⟨plan'', swept, fun unasked before => ?_⟩
      refine ends' (fun demand member => unasked demand (List.mem_cons_of_mem _ member)) ?_
      exact ends (fun demand same => unasked demand (same ▸ List.mem_cons_self)) before

/-- Nothing is left once the director has let go of all jobs and waited for each. -/
theorem nothing_left (swept : Swept plan s left) (ends : plan.Ends s.held) (done : s.agenda = [])
    {loc : Location} (member : loc ∈ left) : ¬ s.disk.HasFile loc := by
  intro held
  have rest := Plan.idle_of_tasks (swept.sole.agenda.symm.trans done)
  obtain ⟨j, job, f, at_, -, -, painting | ⟨owed, -⟩⟩ := swept.kept loc member held
  · have ward := swept.sole.guarded at_ (Job.isOver_of_paints painting)
    rw [rest.wards, ends.held] at ward
    cases ward
  · rw [Plan.restores_of_idle rest] at owed
    cases owed

end Swept

theorem planFor_ends (s : Studio) {demand : Demand} (ending : demand = .waitAll ∨ demand = .cancelAll) :
    (s.planFor demand).Ends (s.obey demand).held := by
  rcases ending with rfl | rfl
  · exact ⟨rfl, .inr (.inr ⟨_, rfl⟩)⟩
  · exact ⟨rfl, .inr (.inl rfl)⟩

/-- Once all jobs were waited for, or stopped, nothing is left of the files that renderers wrote,
whatever was asked for before and in whatever way the jobs took turns. -/
theorem not_hasFile_left {s t : Studio} {before rest : List Action} {demand : Demand} (new : s.New)
    (ending : demand = .waitAll ∨ demand = .cancelAll) (unasked : ∀ other, Action.ask other ∉ rest)
    (careful : s.Each Careful (before ++ .ask demand :: rest))
    (followed : s.follow? (before ++ .ask demand :: rest) = some t) (done : t.agenda = []) :
    ∀ loc ∈ s.left (before ++ .ask demand :: rest), ¬ t.disk.HasFile loc := by
  rw [follow?_append] at followed
  obtain ⟨between, reached, followed⟩ := Option.bind_eq_some_iff.mp followed
  obtain ⟨carefulBefore, carefulAfter⟩ := careful.append reached
  obtain ⟨plan, swept, -⟩ := (Swept.new new).follow carefulBefore reached
  obtain ⟨asked, acts, followed⟩ := follow?_cons.mp followed
  have idle : between.agenda = [] ∧ asked = between.obey demand := by
    simp only [act?] at acts
    split at acts
    next idle => exact ⟨List.isEmpty_iff.mp idle, (Option.some.inj acts).symm⟩
    next => cases acts
  obtain ⟨idle, rfl⟩ := idle
  have swept := swept.obey idle demand carefulAfter.1
  obtain ⟨plan', swept, ends⟩ := swept.follow (carefulAfter.2 _ acts) followed
  intro loc member
  rw [left_append reached, left, acts, Option.elim_some] at member
  exact swept.nothing_left (ends unasked (planFor_ends between ending)) done member

section Tests
/-- A reply that counts is lawful. -/
def Lawful (s : Studio) : Action → Prop
  | .work i reply => s.Answers i reply
  | _ => True

def isLawful (s : Studio) : Action → Bool
  | .work i reply => s.jobs[i]?.all fun job =>
    match job.phase with
    | .calling _ => Reply.isLawful job.flag reply
    | _ => true
  | _ => true

theorem lawful_of_passed (s : Studio) (action : Action) (passed : s.isLawful action = true) :
    s.Lawful action := by
  cases action with
  | work i reply =>
      intro job turn at_ calling
      rw [isLawful, at_, Option.all_some, calling] at passed
      exact Reply.lawful_of_isLawful passed
  | _ => trivial

/-- The place of no picture holds a file that cannot be removed. -/
def Disposable (s : Studio) : Prop :=
  ∀ f ∈ s.fractals, s.disk.Removable (s.setup.store.path f.id)

def isDisposable (s : Studio) : Bool :=
  s.disk.nodes.all (·.2.content?.isNone) || s.fractals.all fun f =>
    (s.disk.file? (s.setup.store.spot s.disk f.id)).isNone ||
      (s.disk.remove (s.setup.store.path f.id)).isOk

theorem disposable_of_passed (s : Studio) (passed : s.isDisposable = true) : s.Disposable := by
  rintro f member ⟨bytes, at_⟩
  have found := Disk.file?_eq_some_iff.mpr at_
  rcases Bool.or_eq_true_iff.mp passed with bare | each
  · have nodes : s.disk.nodes.lookup (s.disk.place (s.setup.store.path f.id)) = some (.file bytes) := by
      rw [Disk.node?] at at_
      split at at_
      next => cases at_
      next => exact at_
    obtain ⟨before, after, same, -⟩ := List.lookup_eq_some_iff.mp nodes
    have free := List.all_eq_true.mp bare _
      (same ▸ List.mem_append_right before List.mem_cons_self)
    cases free
  · have passed := List.all_eq_true.mp each f member
    rw [ImageStore.spot, found] at passed
    cases removed : s.disk.remove (s.setup.store.path f.id) with
    | ok after => exact ⟨after, rfl⟩
    | error fault =>
        rw [removed] at passed
        cases passed

def isSeparate (s : Studio) : Bool :=
  s.held.all fun i => s.held.all fun j =>
    i == j || s.jobs[i]?.map (·.fractal) != s.jobs[j]?.map (·.fractal)

theorem separate_of_passed {s : Studio} (passed : s.isSeparate = true) : s.Separate := by
  intro i held j held' job other at_ at' same
  have passed := List.all_eq_true.mp (List.all_eq_true.mp passed i held) j held'
  rw [at_, at', Option.map_some, Option.map_some, same] at passed
  simpa using passed

def isCareful (s : Studio) (action : Action) : Bool :=
  s.isLawful action &&
    match action with
    | .ask .cancelAll => s.isSeparate
    | _ => true

theorem careful_of_passed (s : Studio) (action : Action) (passed : s.isCareful action = true) :
    s.Careful action := by
  obtain ⟨lawful, separate⟩ := Bool.and_eq_true_iff.mp passed
  cases action with
  | ask demand =>
      cases demand with
      | cancelAll => exact separate_of_passed separate
      | _ => trivial
  | work i reply =>
      have lawful := lawful_of_passed s (.work i reply) lawful
      exact fun job turn at_ calling => .inl (lawful job turn at_ calling)
  | _ => trivial

end Tests

section Runs

/-- One job leaves a part of its picture and another one gets its own; then both are stopped. -/
def interrupting : List Action :=
  starting ++ working 5 0 ++ working 5 1 ++
    [.scribble 0 (picture [1]), .work 1 (.returned (picture [2]) (.ok ()))] ++ working 7 1

/-- The call returns, and the director waits for the jobs. -/
def interrupted : List Action :=
  [.direct, .direct, .work 0 (.returned none (.error .cancelled))] ++ working 2 0 ++
    List.replicate 5 .direct

theorem interrupting_passes :
    (isEach isCareful (pair 0 []) (interrupting ++ .ask .cancelAll :: interrupted) &&
      ((pair 0 []).left (interrupting ++ .ask .cancelAll :: interrupted)).length == 2 &&
      ((pair 0 []).follow? (interrupting ++ .ask .cancelAll :: interrupted)).any
        (·.agenda.isEmpty)) = true := by
  decide +kernel

/-- Two files were left, and none is there at the end. -/
theorem not_hasFile_left_interrupting : ∃ t,
    (pair 0 []).follow? (interrupting ++ .ask .cancelAll :: interrupted) = some t ∧
    t.agenda = [] ∧
    ((pair 0 []).left (interrupting ++ .ask .cancelAll :: interrupted)).length = 2 ∧
    ∀ loc ∈ (pair 0 []).left (interrupting ++ .ask .cancelAll :: interrupted),
      ¬ t.disk.HasFile loc := by
  obtain ⟨passed, ended⟩ := Bool.and_eq_true_iff.mp interrupting_passes
  obtain ⟨passed, two⟩ := Bool.and_eq_true_iff.mp passed
  have careful := each_of_isEach careful_of_passed passed
  obtain ⟨t, followed, ended⟩ := (Option.any_eq_true _ _).mp ended
  have done := List.isEmpty_iff.mp ended
  have unasked : ∀ other, Action.ask other ∉ interrupted := by
    intro other member
    simp [interrupted, working] at member
  exact ⟨t, followed, done, beq_iff_eq.mp two,
    not_hasFile_left (new_pair 0 []) (.inr rfl) unasked careful followed done⟩

/-- The first job fails, and before it is over a second one is at work on its fractal. -/
def overlapping : List Action :=
  let asking : List Action := .ask (.renderSlot 0 0) :: List.replicate 4 .direct
  let failing : List Action := .work 0 (.returned none (.error (.timeout 60))) :: working 2 0
  asking ++ working 5 0 ++ failing ++ failing ++ failing ++ failing ++ working 2 0 ++ asking ++
    working 5 1

/-- The fractal is put back for the first job before the second one writes its picture. -/
def overlapped : List Action :=
  [.direct, .direct] ++ working 2 0 ++
    [.direct, .direct, .work 1 (.returned (picture [1]) (.ok ()))] ++ working 5 1 ++
    List.replicate 3 .direct

theorem overlapping_leaves :
    (isEach isLawful (pair 0 []) (overlapping ++ .ask .cancelAll :: overlapped) &&
      isThroughout isDisposable (pair 0 []) (overlapping ++ .ask .cancelAll :: overlapped) &&
      ((pair 0 []).follow? (overlapping ++ .ask .cancelAll :: overlapped)).any fun t =>
        t.agenda.isEmpty &&
          ((pair 0 []).left (overlapping ++ .ask .cancelAll :: overlapped)).any fun loc =>
            (t.disk.file? loc).isSome) = true := by
  decide +kernel

/-- When a fractal has two jobs that were not let go of, one of which has failed, stopping them all
may leave a file. -/
theorem not_always_swept : ¬ ∀ (s t : Studio) (before rest : List Action) (demand : Demand), s.New →
    demand = .waitAll ∨ demand = .cancelAll → (∀ other, Action.ask other ∉ rest) →
    s.Each Lawful (before ++ .ask demand :: rest) →
    s.Throughout Disposable (before ++ .ask demand :: rest) →
    s.follow? (before ++ .ask demand :: rest) = some t → t.agenda = [] →
    ∀ loc ∈ s.left (before ++ .ask demand :: rest), ¬ t.disk.HasFile loc := by
  intro always
  obtain ⟨passed, ended⟩ := Bool.and_eq_true_iff.mp overlapping_leaves
  obtain ⟨lawful, disposable⟩ := Bool.and_eq_true_iff.mp passed
  obtain ⟨t, followed, ended⟩ := (Option.any_eq_true _ _).mp ended
  obtain ⟨done, held⟩ := Bool.and_eq_true_iff.mp ended
  obtain ⟨loc, member, held⟩ := List.any_eq_true.mp held
  obtain ⟨bytes, held⟩ := Option.isSome_iff_exists.mp held
  have unasked : ∀ other, Action.ask other ∉ overlapped := by
    intro other member
    simp [overlapped, working] at member
  exact always (pair 0 []) t overlapping overlapped .cancelAll (new_pair 0 []) (.inr rfl) unasked
    (each_of_isEach lawful_of_passed lawful)
    (throughout_of_isThroughout disposable_of_passed disposable) followed (List.isEmpty_iff.mp done)
    loc member ⟨bytes, Disk.file?_eq_some_iff.mp held⟩

end Runs

end Studio

end FractalBreeder