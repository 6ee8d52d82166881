import FractalBreeder.Proofs.Rendering.Coexistence
import FractalBreeder.Proofs.Rendering.Provenance

/-!
Rendering does not depend on the schedule: where different slots ask for different pictures, every
schedule leaves the same fractals and flags behind, and each slot tells the same. Only the reason why
the directory of the store could not be made may be another one.
-/
namespace FractalBreeder

open StateTransition (Reaches reaches_total)

/-- The event without the reason of a failure. -/
def RenderEvent.unreasoned : RenderEvent → RenderEvent
  | failed slot identity _ => failed slot identity ""
  | e => e

theorem reaches_of_stuck {σ : Type} {f : σ → Option σ} {a b c : σ} (first : Reaches f a b)
    (last : Reaches f a c) (stuck : f c = none) : Reaches f b c := by
  rcases reaches_total first last with onward | back
  · exact onward
  · rcases back.cases_head with rfl | ⟨d, step, -⟩
    · exact .refl
    · rw [Option.mem_def, stuck] at step
      cases step

theorem eq_of_stuck {σ : Type} {f : σ → Option σ} {a b c : σ} (first : Reaches f a b)
    (last : Reaches f a c) (done : f b = none) (stuck : f c = none) : b = c := by
  rcases (reaches_of_stuck first last stuck).cases_head with same | ⟨d, step, -⟩
  · exact same
  · rw [Option.mem_def, done] at step
    cases step

/-- A job takes back none of its requests. -/
theorem Solo.requests_of_reaches {renderer : Renderer} {setup : Setup} {p q : Solo}
    (reaches : Reaches (step? renderer setup) p q) : p.requests ⊆ q.requests := by
  induction reaches with
  | refl => exact fun _ => id
  | tail _ step ih =>
      unfold step? at step
      split at step
      next => cases step
      next =>
        cases step
        exact fun request member => List.mem_append_left _ (ih member)

namespace Studio

variable {world : List Call → Disk → Prop} {view : Nat → List Call → Disk → Solo → Solo → Prop}
  {renderer : Renderer} {o e s t u : Studio} {errand : Errand} {visits : List (Nat × Nat)}

/-- Two studios in which the same is seen of each job are the same, apart from what they have in
common. -/
theorem Tracks.agree (tracks : Tracks world view e t) (tracks' : Tracks world view e u)
    (staged : Staged errand visits e) (erase : RenderEvent → RenderEvent)
    (same : ∀ {i : Nat} {job : Job} {f : Fractal} {p q : Solo}, e.jobs[i]? = some job →
      view i t.calls t.disk (.start job f e.disk) p → Shows e i job t p →
      view i u.calls u.disk (.start job f e.disk) q → Shows e i job u q →
      p.bench.fractal = q.bench.fractal ∧ p.shown = q.shown ∧
        p.events.map erase = q.events.map erase) :
    t.fractals = u.fractals ∧ t.readiness = u.readiness ∧
      ∀ slot, (t.events.filter (·.slot == slot)).map erase =
        (u.events.filter (·.slot == slot)).map erase := by
  have seen : ∀ job ∈ e.jobs, ∃ i p q, Shows e i job t p ∧ Shows e i job u q ∧
      p.bench.fractal = q.bench.fractal ∧ p.shown = q.shown ∧
        p.events.map erase = q.events.map erase := by
    intro job hired
    obtain ⟨i, at_⟩ := List.mem_iff_getElem?.mp hired
    obtain ⟨-, -, f, found, -⟩ := staged.hired job hired
    obtain ⟨p, seen, shows⟩ := tracks.solo at_ found
    obtain ⟨q, seen', shows'⟩ := tracks'.solo at_ found
    exact ⟨i, p, q, shows, shows', same at_ seen shows seen' shows'⟩
  refine ⟨List.ext_getElem? fun n => ?_, ?_, fun slot => ?_⟩
  · by_cases hired : ∃ job ∈ e.jobs, job.fractal = n
    · obtain ⟨job, hired, rfl⟩ := hired
      obtain ⟨i, p, q, shows, shows', fractal, -⟩ := seen job hired
      rw [shows.fractal, shows'.fractal, fractal]
    · push Not at hired
      rw [tracks.fractals n hired, tracks'.fractals n hired]
  · suffices flags : t.readiness.flags = u.readiness.flags by
      cases here : t.readiness
      cases there : u.readiness
      rw [here, there] at flags
      exact congrArg Readiness.mk flags
    refine List.ext_getElem? fun slot => ?_
    by_cases hired : ∃ job ∈ e.jobs, job.slot = slot
    · obtain ⟨job, hired, rfl⟩ := hired
      obtain ⟨i, p, q, shows, shows', -, shown, -⟩ := seen job hired
      rw [shows.flag, shows'.flag, shown]
    · push Not at hired
      rw [tracks.flags slot hired, tracks'.flags slot hired]
  · by_cases hired : ∃ job ∈ e.jobs, job.slot = slot
    · obtain ⟨job, hired, rfl⟩ := hired
      obtain ⟨i, p, q, shows, shows', -, -, told⟩ := seen job hired
      rw [shows.events, shows'.events, List.map_append, List.map_append, told]
    · push Not at hired
      rw [tracks.events slot hired, tracks'.events slot hired]

/-- What the director does without the jobs leads to a studio that a studio at work tracks. -/
def Aligned (world : List Call → Disk → Prop) (view : Nat → List Call → Disk → Solo → Solo → Prop)
    (o s : Studio) : Prop :=
  ∃ errand visits e, Reaches stepDirector o e ∧ Staged errand visits e ∧ Ahead o e ∧
    Tracks world view e s

/-- In the end the director has done all that it can. -/
theorem Aligned.settled (aligned : Aligned world view o t) (settled : t.Settled renderer) :
    ∃ errand visits e, Reaches stepDirector o e ∧ e.stepDirector = none ∧ Staged errand visits e ∧
      Ahead o e ∧ Tracks world view e t := by
  obtain ⟨errand, visits, e, reached, staged, ahead, tracks⟩ := aligned
  exact ⟨errand, visits, e, reached, tracks.director_stuck staged (settled none), staged, ahead, tracks⟩

/-- A job that starts is seen as it is, and what a job does keeps what is seen of all, as long as the
calls are fair. -/
structure Faithful (renderer : Renderer) (o : Studio) (fair : List Call → Prop)
    (world : List Call → Disk → Prop) (view : Nat → List Call → Disk → Solo → Solo → Prop) :
    Prop where
  fresh : ∀ {i : Nat} {calls : List Call} {disk : Disk} {job : Job} {f : Fractal}, world calls disk →
    (∀ call ∈ calls, call.job ≠ i) → job.phase = .announcing → job.flag.raised = false →
    f.state = .rendering → f.id = f.genome.identity →
    view i calls disk (.start job f o.disk) (.start job f o.disk)
  work : ∀ {errand : Errand} {visits : List (Nat × Nat)} {e s t : Studio} {i : Nat},
    Staged errand visits e → Ahead o e → Tracks world view e s → fair s.calls →
    s.go? renderer (some i) = some t → Tracks world view e t

namespace Faithful

variable {fair : List Call → Prop} (faithful : Faithful renderer o fair world view)

include faithful

theorem go {turn : Option Nat} (aligned : Aligned world view o s) (calls : fair s.calls)
    (went : s.go? renderer turn = some t) : Aligned world view o t := by
  obtain ⟨errand, visits, e, reached, staged, ahead, tracks⟩ := aligned
  cases turn with
  | some i =>
      exact ⟨errand, visits, e, reached, staged, ahead, faithful.work staged ahead tracks calls went⟩
  | none =>
      have nobody : ∀ call ∈ s.calls, call.job ≠ e.jobs.length := by
        intro call member same
        obtain ⟨job, at_, -⟩ := tracks.callers call member
        exact absurd (List.getElem?_eq_some_iff.mp at_).1 (by omega)
      obtain ⟨errand', visits', e', directed, staged', tracks'⟩ :=
        tracks.director staged went fun announcing calm rendering named => by
          rw [ahead.disk]
          exact faithful.fresh tracks.world nobody announcing calm rendering named
      have onward := (staged.reaches (.single directed)).2
      exact ⟨errand', visits', e', reached.tail directed, staged', ahead.trans onward, tracks'⟩

theorem pursue {schedule : List (Option Nat)} (aligned : Aligned world view o s)
    (calls : ∀ v rest, Aligned world view o v → v.pursue? renderer rest = some t → fair v.calls)
    (pursued : s.pursue? renderer schedule = some t) : Aligned world view o t := by
  induction schedule generalizing s with
  | nil =>
      obtain rfl := Option.some.inj pursued
      exact aligned
  | cons turn rest ih =>
      have here := calls s _ aligned pursued
      rw [pursue?, List.foldlM_cons] at pursued
      obtain ⟨between, went, pursued⟩ := Option.bind_eq_some_iff.mp pursued
      exact ih (faithful.go aligned here went) pursued

end Faithful

theorem New.aligned {s : Studio} (new : s.New) {places : List Nat} (distinct : places.Nodup)
    (start : world [] s.disk) : Aligned world view (s.renderAll places) (s.renderAll places) := by
  refine ⟨_, _, _, .refl, new.staged distinct, .refl _, ?_⟩
  have calls : (s.renderAll places).calls = [] := new.calls
  exact {
    setup := rfl
    agenda := rfl
    source := rfl
    staff := rfl
    world := by
      rw [calls]
      exact start
    solo {i job f} at_ := by
      change s.jobs[i]? = some job at at_
      rw [new.jobs] at at_
      cases at_
    fractals _ _ := rfl
    flags _ _ := rfl
    events _ _ := rfl
    callers call member := by
      rw [calls] at member
      cases member }

/-- Two settled studios that come from the same one come from the same work of the director. -/
theorem Aligned.both (first : Aligned world view o t) (second : Aligned world view o u)
    (settled : t.Settled renderer) (settled' : u.Settled renderer) :
    ∃ errand visits e, Staged errand visits e ∧ Ahead o e ∧ Tracks world view e t ∧
      Tracks world view e u := by
  obtain ⟨errand, visits, e, reached, stuck, staged, ahead, tracks⟩ := first.settled settled
  obtain ⟨_, _, e', reached', stuck', -, -, tracks'⟩ := second.settled settled'
  obtain rfl := eq_of_stuck reached reached' stuck stuck'
  exact ⟨errand, visits, e, staged, ahead, tracks, tracks'⟩

section Coexistence

/-- Jobs that share a directory which is there, or can be made. -/
theorem faithful_coexist (plain : o.setup.store.IsPlain)
    (usable : (o.setup.store.ensureDir o.disk).2 = .ok ()) (renderer : Renderer) :
    Faithful renderer o Apart (Common o.setup o.disk) (Undisturbed o.setup o.disk renderer) where
  fresh common nobody announcing calm rendering named :=
    common.start usable nobody announcing calm rendering named
  work staged ahead tracks apart went := tracks.coexist plain staged ahead.setup apart went

/-- Calls that are apart at the end of one schedule are apart in every other one. -/
theorem apart_of_settled
    (ended : Aligned (Common o.setup o.disk) (Undisturbed o.setup o.disk renderer) o t)
    (settled : t.Settled renderer) (apart : Apart t.calls)
    (aligned : Aligned (Common o.setup o.disk) (Undisturbed o.setup o.disk renderer) o s) :
    Apart s.calls := by
  obtain ⟨_, _, e, reached, stuck, staged, ahead, tracks⟩ := ended.settled settled
  obtain ⟨_, _, e', reached', staged', ahead', tracks'⟩ := aligned
  have onward := (staged'.reaches (reaches_of_stuck reached' reached stuck)).2
  -- Every call is made in the other schedule, too.
  have again : ∀ call ∈ s.calls, ∃ other ∈ t.calls, other.slot = call.slot ∧
      other.request = call.request := by
    intro call member
    obtain ⟨job, at_, slot⟩ := tracks'.callers call member
    obtain ⟨-, -, f, found, -⟩ := staged'.hired job (List.mem_of_getElem? at_)
    obtain ⟨p, seen, shows⟩ := tracks'.solo at_ found
    obtain ⟨at', found'⟩ := onward.jobs at_ found
    obtain ⟨q, seen', shows'⟩ := tracks.solo at' found'
    have own := tracks.caller staged at'
    have requested : call.request ∈ p.requests := by
      rw [← shows.calls]
      exact List.mem_map_of_mem (List.mem_filter.mpr ⟨member, beq_self_eq_true _⟩)
    rw [onward.disk] at seen'
    have later := Solo.requests_of_reaches
      (reaches_of_stuck seen.reached seen'.reached (shows'.stuck own settled _)) requested
    rw [← shows'.calls] at later
    obtain ⟨other, listed, same⟩ := List.mem_map.mp later
    obtain ⟨made, here⟩ := List.mem_filter.mp listed
    have slots := own other made
    rw [here] at slots
    exact ⟨other, made, (beq_iff_eq.mp slots).trans slot.symm, same⟩
  intro call member other member' differ
  obtain ⟨call', made, slot, request⟩ := again call member
  obtain ⟨other', made', slot', request'⟩ := again other member'
  rw [← request, ← request']
  refine apart call' made other' made' ?_
  rwa [slot, slot']

end Coexistence

section Stranding

/-- How far a job gets with a fractal if it cannot make its directory. -/
def Stage (f : Fractal) (p : Solo) : Prop :=
  match p.bench.job.phase with
  | .announcing => p.bench.fractal = f ∧ p.events = []
  | .preparing | .failing (.io _) | .settling (.io _) =>
    p.bench.fractal = f ∧ p.events = [.started p.bench.job.slot f.id]
  | .lamenting identity (.io _) =>
    identity = f.id ∧ p.bench.fractal = { f with state := .failed } ∧
      p.events = [.started p.bench.job.slot f.id]
  | .repainting | .over =>
    p.bench.fractal = { f with state := .failed } ∧
      ∃ reason, p.events =
        [.started p.bench.job.slot f.id, .failed p.bench.job.slot f.id reason]
  | _ => False

/-- A job that cannot make its directory. -/
structure Stranded (start p : Solo) : Prop where
  calm : p.bench.job.flag.raised = false
  hidden : p.shown = false
  named : start.bench.fractal.id = start.bench.fractal.genome.identity
  stage : Stage start.bench.fractal p

theorem Stranded.step {setup : Setup} {start p : Solo} {disk : Disk} {reply : Reply}
    (stranded : Stranded start p) (plain : setup.store.IsPlain)
    (working : p.bench.job.isOver = false)
    (failed : ∃ fault, (setup.store.ensureDir disk).2 = .error fault) :
    Stranded start (p.hear (Bench.step setup reply { p.bench with disk })) ∧
      ∃ fault, (setup.store.ensureDir (Bench.step setup reply { p.bench with disk }).1.disk).2 =
        .error fault := by
  obtain ⟨calm, hidden, named, stage⟩ := stranded
  obtain ⟨fault, refused⟩ := failed
  unfold Stage at stage
  cases phase : p.bench.job.phase with
  | announcing =>
      rw [phase] at stage
      obtain ⟨fractal, events⟩ := stage
      simp only [Bench.step, phase]
      refine ⟨⟨calm, by simp [Solo.hear, Notice.shows, hidden], named, fractal, ?_⟩, fault, refused⟩
      simp only [Solo.hear, events, fractal]
      rfl
  | preparing =>
      rw [phase] at stage
      obtain ⟨fractal, events⟩ := stage
      simp only [Bench.step, phase, refused]
      refine ⟨⟨calm, by simp [Solo.hear, Notice.shows, hidden], named, fractal, ?_⟩, ?_⟩
      · simp only [Solo.hear, events]
        rfl
      · exact Disk.makeDirectories_again refused
  | failing cause =>
      rw [phase] at stage
      cases cause with
      | io cause =>
          obtain ⟨fractal, events⟩ := stage
          have going : ¬ (Failure.io cause = .cancelled ∨ p.bench.job.flag.raised = true) := by
            simp [calm]
          simp only [Bench.step, phase, if_neg going]
          refine ⟨⟨calm, by simp [Solo.hear, Notice.shows, hidden], named, fractal, ?_⟩, fault, refused⟩
          simp only [Solo.hear, events]
          rfl
      | _ => exact stage.elim
  | settling cause =>
      rw [phase] at stage
      cases cause with
      | io cause =>
          obtain ⟨fractal, events⟩ := stage
          have kept := ImageStore.discard_of_failed plain refused start.bench.fractal.genome
          rw [← named] at kept
          simp only [Bench.step, phase, Bench.giveUp, fractal, kept]
          refine ⟨⟨calm, by simp [Solo.hear, Notice.shows, hidden], named, rfl, rfl, ?_⟩, fault, refused⟩
          simp only [Solo.hear, events]
          rfl
      | _ => exact stage.elim
  | lamenting identity cause =>
      rw [phase] at stage
      cases cause with
      | io cause =>
          obtain ⟨rfl, fractal, events⟩ := stage
          simp only [Bench.step, phase]
          refine ⟨⟨calm, by simp [Solo.hear, Notice.shows, hidden], named, fractal,
            (Failure.io cause).message, ?_⟩, fault, refused⟩
          simp only [Solo.hear, events]
          rfl
      | _ => exact stage.elim
  | repainting =>
      rw [phase] at stage
      obtain ⟨fractal, reason, events⟩ := stage
      simp only [Bench.step, phase]
      refine ⟨⟨calm, by simp [Solo.hear, Notice.shows, hidden], named, fractal, reason, ?_⟩,
        fault, refused⟩
      simp only [Solo.hear, events]
      rfl
  | «over» =>
      rw [Job.isOver, phase] at working
      cases working
  | _ =>
      rw [phase] at stage
      exact stage.elim

/-- In the end the job has told of its failure. -/
theorem Stranded.ended {setup : Setup} {start p : Solo} (stranded : Stranded start p)
    (stuck : p.step? renderer setup = none) :
    p.bench.fractal = { start.bench.fractal with state := .failed } ∧
      ∃ reason, p.events = [.started p.bench.job.slot start.bench.fractal.id,
        .failed p.bench.job.slot start.bench.fractal.id reason] := by
  have stage := stranded.stage
  unfold Stage at stage
  have halted : p.bench.job.isOver = true := by
    unfold Solo.step? at stuck
    split at stuck
    next waits =>
      rcases Bool.or_eq_true_iff.mp waits with halted | held
      · exact halted
      · unfold Solo.answer at held
        cases phase : p.bench.job.phase with
        | calling turn =>
            rw [phase] at stage
            exact stage.elim
        | _ =>
            rw [phase] at held
            cases held
    next => cases stuck
  unfold Job.isOver at halted
  cases phase : p.bench.job.phase with
  | «over» =>
      rw [phase] at stage
      exact stage
  | dead =>
      rw [phase] at stage
      exact stage.elim
  | _ =>
      rw [phase] at halted
      cases halted

/-- Jobs whose directory cannot be made. -/
theorem faithful_strand (plain : o.setup.store.IsPlain) (renderer : Renderer) :
    Faithful renderer o (fun _ => True)
      (fun _ disk => ∃ fault, (o.setup.store.ensureDir disk).2 = .error fault)
      (fun _ _ _ start p => Stranded start p) where
  fresh _ _ announcing calm _ named := by
    refine ⟨calm, rfl, named, ?_⟩
    unfold Stage Solo.start
    rw [announcing]
    exact ⟨rfl, rfl⟩
  work staged ahead tracks _ went := by
    obtain ⟨job, at_, -, worked⟩ := go?_eq_some went
    obtain ⟨start, f, hired, found⟩ := tracks.hired staged at_
    obtain ⟨p, stranded, shows⟩ := tracks.solo hired found
    obtain ⟨working, -, disk⟩ := shows.stepped worked
    have same := tracks.setup.trans ahead.setup
    obtain ⟨after, failed⟩ := stranded.step plain working tracks.world
    rw [← same] at after failed
    refine tracks.work staged hired found worked ⟨_, after, ?_⟩ (fun _ _ _ _ => id) ?_
    · exact shows.work worked rfl rfl rfl
    · rw [disk, ← same]
      exact failed

end Stranding

section Schedules

variable {s : Studio} {places : List Nat} {first second : List (Option Nat)} (new : s.New)
  (plain : s.setup.store.IsPlain) (distinct : places.Nodup)
  (ended : (s.renderAll places).pursue? renderer first = some t) (settled : t.Settled renderer)
  (ended' : (s.renderAll places).pursue? renderer second = some u) (settled' : u.Settled renderer)

include new plain distinct ended settled ended' settled'

theorem agree_of_usable (usable : (s.setup.store.ensureDir s.disk).2 = .ok ())
    (apart : Apart t.calls) : t.fractals = u.fractals ∧ t.readiness = u.readiness ∧
      ∀ slot, t.events.filter (·.slot == slot) = u.events.filter (·.slot == slot) := by
  have opens := ImageStore.opens_ensureDir usable
  have common : Common s.setup s.disk [] s.disk := by
    refine ⟨rfl, usable, nofun, fun i _ => ⟨rfl, opens, opens, fun _ _ => rfl, fun loc there => ?_⟩⟩
    rw [Disk.place_congr (s.setup.store.workplace_ensureDir s.disk)]
    exact inside_foreign plain (fun _ member => absurd member List.not_mem_nil) there
  have start : Aligned (Common s.setup s.disk) (Undisturbed s.setup s.disk renderer)
      (s.renderAll places) (s.renderAll places) := new.aligned distinct common
  have faithful := faithful_coexist (o := s.renderAll places) plain usable renderer
  have aligned := faithful.pursue start (fun v rest _ pursued call member other member' =>
    apart call ((calls_prefix_pursue? pursued).subset member) other
      ((calls_prefix_pursue? pursued).subset member')) ended
  have aligned' := faithful.pursue start
    (fun v rest here _ => apart_of_settled aligned settled apart here) ended'
  obtain ⟨_, _, e, staged, ahead, tracks, tracks'⟩ := aligned.both aligned' settled settled'
  have agree := tracks.agree tracks' staged id fun {i job f p q} at_ seen shows seen' shows' => by
    have same : p = q := eq_of_stuck seen.reached seen'.reached
      (shows.stuck (tracks.caller staged at_) settled _)
      (shows'.stuck (tracks'.caller staged at_) settled' _)
    exact same ▸ ⟨rfl, rfl, rfl⟩
  simpa only [List.map_id] using agree

theorem agree_of_failed {fault : IoFault}
    (failed : (s.setup.store.ensureDir s.disk).2 = .error fault) :
    t.fractals = u.fractals ∧ t.readiness = u.readiness ∧
      ∀ slot, (t.events.filter (·.slot == slot)).map RenderEvent.unreasoned =
        (u.events.filter (·.slot == slot)).map RenderEvent.unreasoned := by
  have faithful := faithful_strand (o := s.renderAll places) plain renderer
  have start : Aligned (fun _ disk => ∃ fault, (s.setup.store.ensureDir disk).2 = .error fault)
      (fun _ _ _ start p => Stranded start p) (s.renderAll places) (s.renderAll places) :=
    new.aligned distinct ⟨fault, failed⟩
  have aligned := faithful.pursue start (fun _ _ _ _ => trivial) ended
  have aligned' := faithful.pursue start (fun _ _ _ _ => trivial) ended'
  obtain ⟨_, _, e, staged, ahead, tracks, tracks'⟩ := aligned.both aligned' settled settled'
  refine tracks.agree tracks' staged _ fun {i job f p q} at_ seen shows seen' shows' => ?_
  obtain ⟨fractal, reason, events⟩ :=
    seen.ended (shows.stuck (tracks.caller staged at_) settled s.setup)
  obtain ⟨fractal', reason', events'⟩ :=
    seen'.ended (shows'.stuck (tracks'.caller staged at_) settled' s.setup)
  refine ⟨fractal.trans fractal'.symm, seen.hidden.trans seen'.hidden.symm, ?_⟩
  rw [events, events', shows.slot, shows'.slot]
  rfl

/-- Two schedules of the same renders, with a renderer that answers each slot by its own requests, leave
the same fractals and flags behind, and tell the same of each slot. Where the directory cannot be made,
only the reasons given may differ. -/
theorem outcome_eq_of_settled (apart : Apart t.calls) :
    t.fractals = u.fractals ∧ t.readiness = u.readiness ∧
      (∀ slot, (t.events.filter (·.slot == slot)).map RenderEvent.unreasoned =
        (u.events.filter (·.slot == slot)).map RenderEvent.unreasoned) ∧
      ((s.setup.store.ensureDir s.disk).2 = .ok () →
        ∀ slot, t.events.filter (·.slot == slot) = u.events.filter (·.slot == slot)) := by
  cases made : (s.setup.store.ensureDir s.disk).2 with
  | ok _ =>
      obtain ⟨fractals, readiness, events⟩ :=
        agree_of_usable new plain distinct ended settled ended' settled' made apart
      exact ⟨fractals, readiness, fun slot => by rw [events slot], fun _ => events⟩
  | error fault =>
      obtain ⟨fractals, readiness, events⟩ :=
        agree_of_failed new plain distinct ended settled ended' settled' made
      exact ⟨fractals, readiness, events, nofun⟩

end Schedules

/-- A test for `Settled`. -/
def isSettled (renderer : Renderer) (s : Studio) : Bool :=
  (s.go? renderer none).isNone &&
    (List.range s.jobs.length).all fun i => (s.go? renderer (some i)).isNone

theorem settled_of_isSettled (passed : isSettled renderer s = true) : s.Settled renderer := by
  obtain ⟨director, jobs⟩ := Bool.and_eq_true_iff.mp passed
  rintro (_ | i)
  · exact Option.isNone_iff_eq_none.mp director
  · by_cases inside : i < s.jobs.length
    · exact Option.isNone_iff_eq_none.mp (List.all_eq_true.mp jobs i (List.mem_range.mpr inside))
    · rw [go?, List.getElem?_eq_none (Nat.not_lt.mp inside)]
      rfl

/-- A test for `Apart`. -/
def isApart (calls : List Call) : Bool :=
  calls.all fun call => calls.all fun other =>
    call.slot == other.slot || call.request.identity != other.request.identity

theorem apart_of_isApart {calls : List Call} (passed : isApart calls = true) : Apart calls := by
  intro call member other member' differ
  have passed := List.all_eq_true.mp (List.all_eq_true.mp passed call member) other member'
  simpa [differ] using passed

/-- The fractal of a sum, with its identity spelled out. -/
def filed (c : Float) (id : String) : Fractal := { sum c with id }

/-- The two fractals with another store. -/
def pairIn (store : ImageStore) (nodes : List (Location × Node)) : Studio :=
  { pair 0 nodes with
    setup := { (pair 0 nodes).setup with store }
    fractals := [filed 1 "fractal_ac70452dadd20070", filed 2 "fractal_8a78091661e108b3"] }

theorem new_pairIn (store : ImageStore) (nodes : List (Location × Node)) : (pairIn store nodes).New where
  jobs := rfl
  calls := rfl
  agenda := rfl
  named f member := by
    rcases List.mem_pair.mp member with rfl | rfl
    · decide +kernel
    · decide +kernel

/-- A schedule ends, and in the end the two slots have asked for different pictures. -/
def endsApart (renderer : Renderer) (s : Studio) (schedule : List (Option Nat))
    (test : Studio → Bool) : Bool :=
  ((s.renderAll [0, 1]).pursue? renderer schedule).any fun t =>
    isSettled renderer t && (isApart t.calls && test t)

theorem of_endsApart {schedule : List (Option Nat)} {test : Studio → Bool}
    (passed : endsApart renderer s schedule test = true) :
    ∃ t, (s.renderAll [0, 1]).pursue? renderer schedule = some t ∧ t.Settled renderer ∧
      Apart t.calls ∧ test t = true := by
  obtain ⟨t, pursued, passed⟩ := (Option.any_eq_true _ _).mp passed
  obtain ⟨settled, passed⟩ := Bool.and_eq_true_iff.mp passed
  obtain ⟨apart, passed⟩ := Bool.and_eq_true_iff.mp passed
  exact ⟨t, pursued, settled_of_isSettled settled, apart_of_isApart apart, passed⟩

/-- The first call for the first slot fails. -/
def pictures : Renderer
  | 0, 0, _ => ⟨false, .returned none (.error (.timeout 60))⟩
  | 0, _, _ => ⟨false, .returned (picture [1]) (.ok ())⟩
  | _, _, _ => ⟨false, .returned (picture [2, 3]) (.ok ())⟩

/-- The director works first, and then one job after the other. -/
def inTurn (first second : List (Option Nat)) : List (Option Nat) :=
  List.replicate 10 none ++ first ++ second

def steps (count job : Nat) : List (Option Nat) := List.replicate count (some job)

/-- The first job starts while the director is at the second one, and then the jobs take turns. -/
def mingled : List (Option Nat) :=
  List.replicate 5 none ++ steps 3 0 ++ List.replicate 5 none ++
    (List.replicate 13 [some 1, some 0]).flatten

theorem pictures_end :
    (endsApart pictures (pairIn ⟨"images", "png"⟩ []) (inTurn (steps 16 0) (steps 13 1))
        (fun _ => true) &&
      endsApart pictures (pairIn ⟨"images", "png"⟩ []) mingled (fun _ => true)) = true := by
  decide +kernel

theorem outcome_eq_mingled : ∃ t u,
    ((pairIn ⟨"images", "png"⟩ []).renderAll [0, 1]).pursue? pictures
        (inTurn (steps 16 0) (steps 13 1)) = some t ∧ t.Settled pictures ∧
      ((pairIn ⟨"images", "png"⟩ []).renderAll [0, 1]).pursue? pictures mingled = some u ∧
      u.Settled pictures ∧ Apart t.calls ∧ t.fractals = u.fractals ∧ t.readiness = u.readiness ∧
      ∀ slot, t.events.filter (·.slot == slot) = u.events.filter (·.slot == slot) := by
  obtain ⟨first, second⟩ := Bool.and_eq_true_iff.mp pictures_end
  obtain ⟨t, ended, settled, apart, -⟩ := of_endsApart first
  obtain ⟨u, ended', settled', -, -⟩ := of_endsApart second
  have plain : (pairIn ⟨"images", "png"⟩ []).setup.store.IsPlain := by
    unfold ImageStore.IsPlain
    decide
  obtain ⟨fractals, readiness, -, events⟩ := outcome_eq_of_settled
    (new_pairIn ⟨"images", "png"⟩ []) plain (by decide) ended settled ended' settled' apart
  exact ⟨t, u, ended, settled, ended', settled', apart, fractals, readiness, events rfl⟩

/-- A directory behind a file: what the first attempt makes changes why the next one fails. -/
def blocked : Studio :=
  pairIn ⟨"new/../blocker/x/y", "png"⟩ [(["blocker"], .file ⟨#[]⟩)]

def failure (slot : Nat) (fault : IoFault) : RenderEvent :=
  .failed slot (if slot = 0 then "fractal_ac70452dadd20070" else "fractal_8a78091661e108b3")
    (Failure.io fault).message

theorem blocked_ends :
    (endsApart pictures blocked (inTurn (steps 6 0) (steps 6 1))
        (·.events.contains (failure 0 .alreadyExists)) &&
      endsApart pictures blocked (inTurn (steps 6 1) (steps 6 0))
        (!·.events.contains (failure 0 .alreadyExists))) = true := by
  decide +kernel

/-- An extension that leads out of a directory named after each picture, to one file for all. -/
def shared : Studio :=
  pairIn ⟨"images", "a/../b"⟩ [(["fractal_ac70452dadd20070.a", "images"], .directory),
    (["fractal_8a78091661e108b3.a", "images"], .directory), (["images"], .directory)]

def sizes (s : Studio) : List (Option Nat) := s.fractals.map (·.image.map Image.size)

def plainPictures : Renderer
  | 0, _, _ => ⟨false, .returned (picture [1]) (.ok ())⟩
  | _, _, _ => ⟨false, .returned (picture [2, 3]) (.ok ())⟩

/-- The second job writes its picture before the first one has read the file. -/
theorem shared_ends :
    (endsApart plainPictures shared (inTurn (steps 13 0) (steps 13 1))
        (·.sizes == [some 1, some 2]) &&
      endsApart plainPictures shared (inTurn (steps 6 0) (steps 6 1 ++ steps 7 0 ++ steps 11 1))
        (·.sizes == [some 2, some 2])) = true := by
  decide +kernel

/-- What a schedule of renders ends with, where different slots have asked for different pictures. -/
def Ends (renderer : Renderer) (s : Studio) (places : List Nat) (t : Studio) : Prop :=
  ∃ schedule, (s.renderAll places).pursue? renderer schedule = some t ∧ t.Settled renderer ∧
    Apart t.calls

/-- The reasons of failures may differ, and so may the pictures if the extension is a path. -/
theorem not_always_same :
    (¬ ∀ (renderer : Renderer) (s t u : Studio) (places : List Nat), s.New →
      s.setup.store.IsPlain → places.Nodup → places.length ≤ 9 → Ends renderer s places t →
      Ends renderer s places u →
      ∀ slot, t.events.filter (·.slot == slot) = u.events.filter (·.slot == slot)) ∧
    ¬ ∀ (renderer : Renderer) (s t u : Studio) (places : List Nat), s.New →
      places.Nodup → places.length ≤ 9 → Ends renderer s places t → Ends renderer s places u →
      t.sizes = u.sizes := by
  constructor
  · intro always
    obtain ⟨first, second⟩ := Bool.and_eq_true_iff.mp blocked_ends
    obtain ⟨t, ended, settled, apart, told⟩ := of_endsApart first
    obtain ⟨u, ended', settled', apart', untold⟩ := of_endsApart second
    have plain : blocked.setup.store.IsPlain := by
      unfold ImageStore.IsPlain
      decide
    have same := always pictures blocked t u [0, 1] (new_pairIn _ _) plain (by decide) (by decide)
      ⟨_, ended, settled, apart⟩ ⟨_, ended', settled', apart'⟩ 0
    have here : failure 0 .alreadyExists ∈ t.events.filter (·.slot == 0) :=
      List.mem_filter.mpr ⟨List.contains_iff_mem.mp told, rfl⟩
    rw [same] at here
    have there := List.contains_iff_mem.mpr (List.mem_filter.mp here).1
    rw [there] at untold
    cases untold
  · intro always
    obtain ⟨first, second⟩ := Bool.and_eq_true_iff.mp shared_ends
    obtain ⟨t, ended, settled, apart, read⟩ := of_endsApart first
    obtain ⟨u, ended', settled', apart', read'⟩ := of_endsApart second
    have same := always plainPictures shared t u [0, 1] (new_pairIn _ _) (by decide) (by decide)
      ⟨_, ended, settled, apart⟩ ⟨_, ended', settled', apart'⟩
    rw [beq_iff_eq.mp read, beq_iff_eq.mp read'] at same
    cases same

end Studio

end FractalBreeder
