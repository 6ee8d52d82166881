import FractalBreeder.Proofs.Rendering.Renditions

/-!
Where the picture of a ready fractal comes from: the last call of its job, which was for its genome.
What counts is the file as that call left it. A call that reports success without touching the file
leaves what was there before.
-/
namespace FractalBreeder

open Bench (Steps)

namespace Studio

open Rendition (Serves Spares)

/-- What is known of a job and of its latest call. -/
structure Traced (i : Nat) (s : Studio) (last : Option Rendition) : Prop where
  sole : ∃ plan, Sole plan s
  named : ∀ f ∈ s.fractals, f.id = f.genome.identity
  /-- Calls are for the files of genomes. -/
  asked : ∀ {j : Nat} {job : Job} {turn : Turn}, s.jobs[j]? = some job →
    job.phase.turn? = some turn → ∃ genome : Genome, turn.request.identity = genome.identity ∧
      turn.request.output = s.setup.store.path genome.identity
  logged : s.lastRequest? i = last.map (·.request)
  serves : ∀ {job : Job} {f : Fractal}, s.jobs[i]? = some job →
    s.fractals[job.fractal]? = some f → Serves s.setup.store s.disk f last job.phase

namespace Traced

variable {i j : Nat} {s t : Studio} {last : Option Rendition} {job other : Job} {f : Fractal}

/-- A renderer that another job has at work is at work on another file. -/
theorem apart (traced : Traced i s last) (unmet : s.Unmet i) (at_ : s.jobs[i]? = some job)
    (working : job.isOver = false) (found : s.fractals[job.fractal]? = some f)
    (differ : j ≠ i) (at' : s.jobs[j]? = some other) {turn : Turn}
    (calling : other.phase = .calling turn) :
    s.disk.place turn.request.output ≠ s.setup.store.spot s.disk f.id := by
  obtain ⟨unasked, plain | apart⟩ := unmet job f at_ working found j other turn differ at' calling
  · obtain ⟨genome, named, output⟩ := traced.asked at' (congrArg Phase.turn? calling)
    have own := traced.named f (List.mem_of_getElem? found)
    intro same
    rw [output, own] at same
    rw [named, own] at unasked
    exact unasked (ImageStore.identity_eq_of_spot plain same)
  · exact apart

/-- A step of another job leaves the fractal alone. -/
theorem fractal_work (traced : Traced i s last) {after : Bench} {notice : Option Notice}
    {reply : Reply} {g : Fractal} {disk : Disk} (at_ : s.jobs[i]? = some job)
    (live : job.phase.paints = true ∨ f.state = .ready) (found : s.fractals[job.fractal]? = some f)
    (differ : j ≠ i) (at' : s.jobs[j]? = some other) (found' : s.fractals[other.fractal]? = some g)
    (steps : Steps s.setup reply ⟨other, g, disk⟩ after notice) :
    (s.fractals.set other.fractal after.fractal)[job.fractal]? = some f := by
  by_cases same : other.fractal = job.fractal
  · rw [same] at found'
    obtain rfl := Option.some.inj (found.symm.trans found')
    have resting : other.phase.paints = false := by
      obtain ⟨plan, sole⟩ := traced.sole
      by_contra busy
      have painting : other.phase.paints = true := by simpa using busy
      rcases live with paints | ready
      · exact differ (sole.alone at' at_ painting paints same)
      · rcases sole.busy at' painting (same ▸ found) with state | ⟨-, state⟩
        · rw [ready] at state
          cases state
        · rw [ready] at state
          cases state
    rw [show after.fractal = f from steps.fractal_of_done resting, same]
    exact List.getElem?_set_self (List.getElem?_eq_some_iff.mp found).1
  · rwa [List.getElem?_set_ne same]

/-- What the other jobs and the requests of all jobs keep in any step. -/
theorem frame_work (traced : Traced i s last) {reply : Reply} (works : Works s j reply t) :
    (∃ plan, Sole plan t) ∧ (∀ f ∈ t.fractals, f.id = f.genome.identity) ∧
      ∀ {k : Nat} {job : Job} {turn : Turn}, t.jobs[k]? = some job → job.phase.turn? = some turn →
        ∃ genome : Genome, turn.request.identity = genome.identity ∧
          turn.request.output = t.setup.store.path genome.identity := by
  obtain ⟨plan, sole⟩ := traced.sole
  refine ⟨⟨plan, sole.work works⟩, ?_⟩
  obtain @⟨other, g, after, notice, at_, working, found, steps⟩ := works
  have named := traced.named g (List.mem_of_getElem? found)
  rw [settle_fractals, settle_jobs, settle_setup]
  constructor
  · intro h member
    rcases List.mem_or_eq_of_mem_set member with member | rfl
    · exact traced.named h member
    · exact steps.identity named
  · intro k job turn at' turn_
    rcases getElem?_set_cases at' with ⟨-, rfl⟩ | ⟨-, at'⟩
    · rcases steps.turn turn_ with ⟨before, asked, same⟩ | same
      · rw [same]
        exact traced.asked at_ asked
      · rw [same]
        exact ⟨g.genome, named, congrArg s.setup.store.path named⟩
    · exact traced.asked at' turn_

/-- A step of the job. -/
theorem work (traced : Traced i s last) {reply : Reply} (worked : s.stepJob i reply = some t) :
    Traced i t (s.attend i t last (.work i reply)) := by
  obtain ⟨sole, named, asked⟩ := traced.frame_work (works_of_stepJob worked)
  obtain ⟨job, f, at_, working, found, rfl⟩ := stepJob_eq_some worked
  have place := (Bench.steps_step s.setup reply ⟨job, f, s.disk⟩).fractal_eq
  have request := (Bench.steps_step s.setup reply ⟨job, f, s.disk⟩).request_next s.disk last
  have serves := Bench.serves_step s.setup reply ⟨job, f, s.disk⟩ (traced.serves at_ found)
  generalize Bench.step s.setup reply ⟨job, f, s.disk⟩ = result at *
  obtain ⟨after, notice⟩ := result
  have own : (s.settle i job after notice).jobs[i]? = some after.job := by
    rw [settle_jobs]
    exact List.getElem?_set_self (List.getElem?_eq_some_iff.mp at_).1
  have next : s.attend i (s.settle i job after notice) last (.work i reply) =
      Rendition.next s.disk reply last job.phase after.job.phase := by
    simp only [attend, phase?, at_, own, Option.map_some, if_true]
  rw [next]
  refine ⟨sole, named, asked, ?_, fun {job' g} at' found' => ?_⟩
  · rw [lastRequest?_settle, if_pos rfl, traced.logged]
    exact request.symm
  · obtain rfl := Option.some.inj (own.symm.trans at')
    rw [settle_fractals, place, List.getElem?_set_self (List.getElem?_eq_some_iff.mp found).1] at found'
    obtain rfl := Option.some.inj found'
    rw [settle_setup, settle_disk]
    exact serves

/-- A step of another job. -/
theorem work_other (traced : Traced i s last) (unmet : s.Unmet i) {reply : Reply} (differ : j ≠ i)
    (works : Works s j reply t) : Traced i t last := by
  obtain ⟨sole, named, asked⟩ := traced.frame_work works
  obtain @⟨other, g, after, notice, at', working', found', steps⟩ := works
  refine ⟨sole, named, asked, ?_, fun {job f'} at_ found => ?_⟩
  · rw [lastRequest?_settle, if_neg differ]
    exact traced.logged
  rw [settle_jobs, List.getElem?_set_ne differ] at at_
  rw [settle_fractals] at found
  rw [settle_setup, settle_disk]
  have inside : job.fractal < s.fractals.length := by
    simpa using (List.getElem?_eq_some_iff.mp found).1
  have before := List.getElem?_eq_getElem inside
  rcases (traced.serves at_ before).cases with ⟨working, live⟩ | idle
  · have same := traced.fractal_work at_ live before differ at' found' steps
    obtain rfl := Option.some.inj (same.symm.trans found)
    obtain ⟨workplace, files⟩ := steps.effect.file?
    have spares : Spares s.setup.store s.disk s.fractals[job.fractal] after.disk
        s.fractals[job.fractal] := by
      refine ⟨rfl, rfl, fun _ => rfl, workplace, fun bytes held => ?_⟩
      rcases files (s.setup.store.spot s.disk s.fractals[job.fractal].id) with kept | ⟨turn, calling, here⟩
      · exact kept bytes held
      · exact absurd here.symm (traced.apart unmet at_ working before differ at' calling)
    exact spares.serves (traced.serves at_ before)
  · exact idle _ _

/-- A renderer touches its file. -/
theorem scribble (traced : Traced i s last) (unmet : s.Unmet i) {left : Option ByteArray}
    (scribbled : s.scribble j left = some t) : Traced i t (s.attend i t last (.scribble j left)) := by
  obtain ⟨plan, sole⟩ := traced.sole
  obtain ⟨other, turn, disk, at', calling, rfl, workplace, files⟩ := scribble_files scribbled
  have sole : Sole plan { s with disk } := { sole with }
  have file : ∀ {f : Fractal} {bytes : ByteArray},
      s.setup.store.spot s.disk f.id ≠ s.disk.place turn.request.output →
      disk.file? (s.setup.store.spot s.disk f.id) = some bytes →
      s.disk.file? (s.setup.store.spot s.disk f.id) = some bytes := by
    intro f bytes apart held
    rwa [files, if_neg apart] at held
  by_cases own : j = i
  · subst own
    have attended : s.attend j { s with disk } last (.scribble j left) =
        last.map ({ · with made := some left }) := if_pos rfl
    rw [attended]
    refine ⟨⟨plan, sole⟩, traced.named, traced.asked, ?_, fun {job f} at_ found => ?_⟩
    · rw [Option.map_map]
      exact traced.logged
    · obtain rfl := Option.some.inj (at'.symm.trans at_)
      have serves := traced.serves at_ found
      rw [calling] at serves ⊢
      obtain ⟨asked, r, member, made⟩ := serves
      obtain rfl := Option.mem_def.mp member
      refine ⟨asked, { r with made := some left }, rfl, made.request, fun bytes held => ?_⟩
      have here : s.setup.store.spot s.disk f.id = s.disk.place turn.request.output := by
        rw [asked]
        rfl
      change disk.file? (s.setup.store.spot disk f.id) = some bytes at held
      rwa [s.setup.store.spot_congr workplace, files, if_pos here] at held
  · have attended : s.attend i { s with disk } last (.scribble j left) = last := if_neg own
    rw [attended]
    refine ⟨⟨plan, sole⟩, traced.named, traced.asked, traced.logged, fun {job f} at_ found => ?_⟩
    rcases (traced.serves at_ found).cases with ⟨working, -⟩ | idle
    · have apart := traced.apart unmet at_ working found own at' calling
      have spares : Spares s.setup.store s.disk f disk f :=
        ⟨rfl, rfl, fun _ => rfl, workplace, fun bytes held => file apart.symm held⟩
      exact spares.serves (traced.serves at_ found)
    · exact idle _ _

/-- The director does a task. -/
theorem directs (traced : Traced i s last) {c c' : Course} {u : Studio} (directs : Directs s c c' u)
    (sole : Sole (.course c) s) : Traced i { u with agenda := c'.tasks } last where
  sole := ⟨_, sole.directs directs⟩
  named := directs.named traced.named
  asked {k job turn} at_ turn_ := by
    rw [directs.setup_eq]
    rcases directs.job_cases at_ with ⟨before, origin, same, -⟩ | new
    · rw [same] at turn_
      exact traced.asked origin turn_
    · rw [new] at turn_
      cases turn_
  logged := by
    have calls : u.calls = s.calls := directs.calls_eq
    rw [lastRequest?, calls]
    exact traced.logged
  serves {job f} at_ found := by
    rw [directs.setup_eq]
    rcases directs.job_cases at_ with ⟨before, origin, same, place⟩ | new
    · have inside : before.fractal < s.fractals.length := by
        rw [← directs.length_fractals, ← place]
        exact (List.getElem?_eq_some_iff.mp found).1
      have earlier := List.getElem?_eq_getElem inside
      obtain ⟨g, found', spares⟩ := directs.spares earlier
      rw [← place] at found'
      obtain rfl := Option.some.inj (found'.symm.trans found)
      rw [same]
      exact spares.serves (traced.serves origin earlier)
    · rw [new]
      trivial

/-- Only what the director is at changes. -/
theorem replan (traced : Traced i s last) {held : List Nat} {agenda : List Task}
    (sole : ∃ plan, Sole plan { s with held, agenda }) : Traced i { s with held, agenda } last where
  sole := sole
  named := traced.named
  asked := traced.asked
  logged := traced.logged
  serves := traced.serves

theorem act (traced : Traced i s last) (unmet : s.Unmet i) {action : Action}
    (acts : s.act? action = some t) : Traced i t (s.attend i t last action) := by
  obtain ⟨plan, sole⟩ := traced.sole
  have after := sole.act acts
  cases action with
  | ask demand =>
      simp only [act?] at acts
      split at acts
      next =>
        cases acts
        cases demand with
        | renderAll _ | renderSlot _ _ | waitAll | cancelAll => exact traced.replan after
      next => cases acts
  | direct =>
      cases plan with
      | course c =>
          obtain ⟨c', u, directs, rfl⟩ := directs_of_stepDirector sole.agenda acts
          exact traced.directs directs sole
      | wait joins =>
          cases joins with
          | nil =>
              change s.stepDirector = some t at acts
              rw [stepDirector, sole.agenda] at acts
              cases acts
          | cons j joins =>
              obtain ⟨-, rfl⟩ := stepDirector_join sole.agenda acts
              exact traced.replan after
  | work j reply =>
      by_cases own : j = i
      · subst own
        exact traced.work acts
      · rw [attend, if_neg own]
        exact traced.work_other unmet own (works_of_stepJob acts)
  | scribble j left => exact traced.scribble unmet acts

theorem follow (traced : Traced i s last) {actions : List Action}
    (unmet : Throughout (Unmet i) s actions) (followed : s.follow? actions = some t) :
    Traced i t (s.lastRendition? i last actions) := by
  induction actions generalizing s last with
  | nil =>
      obtain rfl := Option.some.inj followed
      exact traced
  | cons action rest ih =>
      rw [follow?, List.foldlM_cons] at followed
      obtain ⟨between, acted, followed⟩ := Option.bind_eq_some_iff.mp followed
      rw [lastRendition?, acted]
      exact ih (traced.act unmet.1 acted) (unmet.2 between acted) followed

end Traced

theorem New.traced {s : Studio} (new : s.New) (i : Nat) : Traced i s none where
  sole := ⟨_, Sole.new new.jobs new.agenda⟩
  named := new.named
  asked at_ := by
    rw [new.jobs] at at_
    cases at_
  logged := by
    rw [lastRequest?, new.calls]
    rfl
  serves at_ := by
    rw [new.jobs] at at_
    cases at_

/-- The fractal of a job shows the picture that a call left, which was for its genome. -/
structure Portrays (s : Studio) (job : Job) (f : Fractal) (image : Image) (r : Rendition) : Prop where
  fractal : s.fractals[job.fractal]? = some f
  state : f.state = .ready
  shown : f.image = some image
  result : r.result = some (.ok ())
  arguments : r.request.arguments = f.genome.arguments
  identity : r.request.identity = f.id
  output : r.request.output = s.setup.store.path f.id
  name : image.identity = f.id
  content : r.file? = some image.bytes
  gone : s.disk.file? (s.disk.place r.request.output) = none

/-- A fractal becomes ready with the picture that the last call of its job left, and that call was
for the genome which the fractal has. -/
theorem portrays_of_ready {s t u : Studio} {i slot : Nat} {actions : List Action} {reply : Reply}
    {identity : String} {attempts regenerations : UInt32} (new : s.New)
    (followed : s.follow? actions = some t) (unmet : Throughout (Unmet i) s actions)
    (worked : t.stepJob i reply = some u)
    (told : u.events = t.events ++ [.ready slot identity attempts regenerations]) :
    ∃ job f image r, u.jobs[i]? = some job ∧ job.slot = slot ∧ f.id = identity ∧
      s.lastRendition? i none actions = some r ∧ u.lastRequest? i = some r.request ∧
      u.Portrays job f image r := by
  have traced := (new.traced i).follow unmet followed
  obtain ⟨job, f, at_, working, found, rfl⟩ := stepJob_eq_some worked
  rw [settle_events] at told
  have steps := Bench.steps_step t.setup reply ⟨job, f, t.disk⟩
  generalize Bench.step t.setup reply ⟨job, f, t.disk⟩ = result at *
  obtain ⟨after, notice⟩ := result
  obtain ⟨reporting, slots, rfl, rfl⟩ := steps.reported_of_ready (List.append_cancel_left told)
  obtain ⟨same, r, member, shown⟩ := reporting ▸ traced.serves at_ found
  obtain ⟨bytes, image, file⟩ := shown.image
  have inside := (List.getElem?_eq_some_iff.mp found).1
  have gone : t.disk.file? (t.disk.place r.request.output) = none := by
    rw [shown.request]
    exact shown.gone
  have own : (t.jobs.set i { job with phase := .repainting })[i]? =
      some { job with phase := .repainting } :=
    List.getElem?_set_self (List.getElem?_eq_some_iff.mp at_).1
  refine ⟨{ job with phase := .repainting }, f, ⟨f.id, t.setup.store.extension, bytes⟩, r,
    (settle_jobs ..).symm ▸ own, slots, same.symm, member, ?_, ?_⟩
  · rw [lastRequest?_settle, if_pos rfl, traced.logged, Option.mem_def.mp member]
    rfl
  · exact {
      fractal := by
        rw [settle_fractals]
        exact List.getElem?_set_self inside
      state := shown.state
      shown := image
      result := shown.result
      arguments := congrArg Request.arguments shown.request
      identity := congrArg Request.identity shown.request
      output := by
        rw [shown.request, settle_setup]
        rfl
      name := rfl
      content := file
      gone := by
        rw [settle_disk]
        exact gone }

/-- A test for `Unmet` where the extension has no slashes. -/
def isUnmet (i : Nat) (s : Studio) : Bool :=
  !s.setup.store.extension.toList.contains '/' &&
    (s.jobs[i]?.bind (s.fractals[·.fractal]?)).all fun f =>
      s.jobs.zipIdx.all fun (other, j) => j == i ||
        match other.phase with
        | .calling turn => turn.request.identity != f.id
        | _ => true

theorem unmet_of_isUnmet {i : Nat} {s : Studio} (passed : isUnmet i s = true) : s.Unmet i := by
  obtain ⟨plain, apart⟩ := Bool.and_eq_true_iff.mp passed
  intro job f at_ _ found j other turn differ at' calling
  rw [at_, Option.bind_some, found, Option.all_some] at apart
  have member : (other, j) ∈ s.jobs.zipIdx := by
    simpa [List.mk_mem_zipIdx_iff_getElem?] using at'
  have passed := List.all_eq_true.mp apart _ member
  simp only [calling] at passed
  exact ⟨by simpa [differ] using passed, .inl (by simpa [ImageStore.IsPlain] using plain)⟩

/-- The fractal of a sum in one axis. -/
def sum (c : Float) : Fractal :=
  .new { x := some (.ofExpr (.binary .add (.var .x) (.const (.float c)))) } ⟨.random, []⟩

/-- A studio with two fractals and the given files, in which each picture of a few bytes is sparse,
mutations make every constant zero, and a sparse picture is accepted after some of them. -/
def pair (mutations : UInt32) (nodes : List (Location × Node)) : Studio where
  setup :=
    { store := ⟨"images", "png"⟩
      render := { maxSparseRetries := mutations, maxRegenerations := 0 }
      genetic := { mutateChance := 1, mutateFold := .float (Float.ofBits 1) } }
  source := .ofSeed 1
  disk := ⟨nodes, []⟩
  fractals := [sum 1, sum 2]

theorem new_pair (mutations : UInt32) (nodes : List (Location × Node)) : (pair mutations nodes).New where
  jobs := rfl
  calls := rfl
  agenda := rfl
  named f member := by
    rcases List.mem_pair.mp member with rfl | rfl
    · rfl
    · rfl

def starting : List Action := .ask (.renderAll [0, 1]) :: List.replicate 10 .direct

/-- Steps of a job that no renderer answers. -/
def working (count job : Nat) : List Action := List.replicate count (.work job .crashed)

def picture (bytes : List UInt8) : Option ByteArray := some ⟨bytes.toArray⟩

/-- A first call fails, a second one leaves a sparse picture; the call after the mutation writes its
file in two parts, while the other job gets its picture. -/
def bustle : List Action :=
  starting ++ working 5 0 ++ working 5 1 ++ [.work 0 (.returned none (.error (.timeout 60)))] ++
    working 2 0 ++ [.work 0 (.returned (picture [1]) (.ok ()))] ++ working 6 0 ++
    [.scribble 0 (picture [2]), .work 1 (.returned (picture [3]) (.ok ())),
      .scribble 0 (picture [2, 4]), .work 0 (.returned none (.ok ()))] ++ working 5 0

/-- By a step of the first job its fractal becomes ready. -/
def isReported (t u : Studio) : Bool :=
  match u.events.drop t.events.length with
  | [.ready 0 identity attempts regenerations] =>
    u.events == t.events ++ [.ready 0 identity attempts regenerations]
  | _ => false

theorem told_of_isReported {t u : Studio} (reported : isReported t u = true) :
    ∃ identity attempts regenerations,
      u.events = t.events ++ [.ready 0 identity attempts regenerations] := by
  unfold isReported at reported
  split at reported
  · exact ⟨_, _, _, beq_iff_eq.mp reported⟩
  · cases reported

theorem bustle_reports : (isThroughout (isUnmet 0) (pair 1 []) bustle &&
    ((pair 1 []).follow? bustle).any fun t => (t.stepJob 0 .crashed).any (isReported t)) = true := by
  decide +kernel

theorem portrays_bustle : ∃ t u identity attempts regenerations,
    (pair 1 []).follow? bustle = some t ∧ Throughout (Unmet 0) (pair 1 []) bustle ∧
      t.stepJob 0 .crashed = some u ∧
      u.events = t.events ++ [.ready 0 identity attempts regenerations] ∧
      ∃ job f image r, u.jobs[0]? = some job ∧ job.slot = 0 ∧ f.id = identity ∧
        (pair 1 []).lastRendition? 0 none bustle = some r ∧ u.lastRequest? 0 = some r.request ∧
        u.Portrays job f image r := by
  obtain ⟨passed, ended⟩ := Bool.and_eq_true_iff.mp bustle_reports
  have unmet := throughout_of_isThroughout (fun _ => unmet_of_isUnmet) passed
  obtain ⟨t, followed, ended⟩ := (Option.any_eq_true _ _).mp ended
  obtain ⟨u, worked, reported⟩ := (Option.any_eq_true _ _).mp ended
  obtain ⟨identity, attempts, regenerations, told⟩ := told_of_isReported reported
  exact ⟨t, u, identity, attempts, regenerations, followed, unmet, worked, told,
    portrays_of_ready (new_pair 1 []) followed unmet worked told⟩

/-- A file of one byte in the place of the first picture. -/
def leftover : List (Location × Node) :=
  [((pair 0 []).setup.store.spot ⟨[], []⟩ (sum 1).id, .file ⟨#[9]⟩), (["images"], .directory)]

/-- The only call reports success and leaves everything as it was. -/
def idleness : List Action :=
  starting ++ working 5 0 ++ [.work 0 (.returned none (.ok ()))] ++ working 5 0

theorem idleness_reports : (isThroughout (isUnmet 0) (pair 0 leftover) idleness &&
    ((pair 0 leftover).lastRendition? 0 none idleness).all (·.made.isNone) &&
    ((pair 0 leftover).follow? idleness).any
      fun t => (t.stepJob 0 .crashed).any (isReported t)) = true := by
  decide +kernel

/-- The last call need not have written the picture that is shown: a file from before counts, too. -/
theorem not_always_made : ¬ ∀ (s t u : Studio) (i slot : Nat) (actions : List Action) (reply : Reply)
    (identity : String) (attempts regenerations : UInt32), s.New → s.follow? actions = some t →
    Throughout (Unmet i) s actions → t.stepJob i reply = some u →
    u.events = t.events ++ [.ready slot identity attempts regenerations] →
    ∃ r bytes, s.lastRendition? i none actions = some r ∧ r.made = some (some bytes) := by
  intro always
  obtain ⟨passed, ended⟩ := Bool.and_eq_true_iff.mp idleness_reports
  obtain ⟨passed, unmade⟩ := Bool.and_eq_true_iff.mp passed
  have unmet := throughout_of_isThroughout (fun _ => unmet_of_isUnmet) passed
  obtain ⟨t, followed, ended⟩ := (Option.any_eq_true _ _).mp ended
  obtain ⟨u, worked, reported⟩ := (Option.any_eq_true _ _).mp ended
  obtain ⟨identity, attempts, regenerations, told⟩ := told_of_isReported reported
  obtain ⟨r, bytes, last, made⟩ := always _ t u 0 0 idleness .crashed identity attempts regenerations
    (new_pair 0 leftover) followed unmet worked told
  rw [last, Option.all_some, made] at unmade
  cases unmade

end Studio

end FractalBreeder
