import FractalBreeder.Proofs.Rendering.Hiring
import FractalBreeder.Proofs.Rendering.Solos

/-!
What is seen of one job in a studio where others are at work, too. A step of the job is a step of what
is seen of it, and steps of the others are not seen. Everything in a studio is seen at some job, or as
the director left it.
-/
namespace FractalBreeder

open Bench (Steps)

namespace Studio

open StateTransition (Reaches)

section Settle

variable (s : Studio) (i : Nat) (job : Job) (after : Bench) (notice : Option Notice)

theorem settle_calls : (s.settle i job after notice).calls =
    s.calls ++ (Notice.request? notice).toList.map (⟨i, job.slot, ·⟩) := by
  rcases notice with _ | _ | _ | _ | _
  · exact (List.append_nil _).symm
  · exact (List.append_nil _).symm
  · rfl
  · exact (List.append_nil _).symm
  · exact (List.append_nil _).symm

theorem settle_source : (s.settle i job after notice).source = s.source := by
  rcases notice with _ | _ | _ | _ | _ <;> rfl

theorem settle_flags (slot : Nat) : (s.settle i job after notice).readiness.flags[slot]? =
    if slot = job.slot then s.readiness.flags[slot]?.map (· || Notice.shows notice)
    else s.readiness.flags[slot]? := by
  have unmarked : s.readiness.flags[slot]? =
      if slot = job.slot then s.readiness.flags[slot]?.map (· || false)
      else s.readiness.flags[slot]? := by simp
  rcases notice with _ | _ | _ | _ | _
  · exact unmarked
  · exact unmarked
  · exact unmarked
  · change (s.readiness.flags.set job.slot true)[slot]? = _
    by_cases same : slot = job.slot
    · subst same
      cases found : s.readiness.flags[job.slot]? with
      | none =>
          rw [if_pos rfl, Option.map_none, List.getElem?_eq_none_iff, List.length_set]
          exact List.getElem?_eq_none_iff.mp found
      | some flag =>
          rw [if_pos rfl, List.getElem?_set_self (List.getElem?_eq_some_iff.mp found).1]
          simp [Notice.shows]
    · rw [if_neg same, List.getElem?_set_ne (Ne.symm same)]
  · exact unmarked

end Settle

/-- A job as it is seen in a studio, next to what was there before it started. -/
structure Shows (e : Studio) (i : Nat) (start : Job) (s : Studio) (p : Solo) : Prop where
  slot : p.bench.job.slot = start.slot
  place : p.bench.job.fractal = start.fractal
  job : s.jobs[i]? = some p.bench.job
  fractal : s.fractals[start.fractal]? = some p.bench.fractal
  events : s.events.filter (·.slot == start.slot) =
    e.events.filter (·.slot == start.slot) ++ p.events
  calls : (s.calls.filter (·.job == i)).map (·.request) = p.requests
  flag : s.readiness.flags[start.slot]? = e.readiness.flags[start.slot]?.map (· || p.shown)

namespace Shows

variable {e s t : Studio} {i j : Nat} {start : Job} {p : Solo} {reply : Reply}

/-- A step of the job, as far as its outcome is that of a step on another disk. -/
theorem work (shows : Shows e i start s p) (worked : s.stepJob i reply = some t)
    {told : Bench × Option Notice}
    (job : told.1.job = (Bench.step s.setup reply { p.bench with disk := s.disk }).1.job)
    (fractal : told.1.fractal = (Bench.step s.setup reply { p.bench with disk := s.disk }).1.fractal)
    (notice : told.2 = (Bench.step s.setup reply { p.bench with disk := s.disk }).2) :
    Shows e i start t (p.hear told) := by
  obtain ⟨own, f, at_, -, found, rfl⟩ := stepJob_eq_some worked
  obtain rfl := Option.some.inj (shows.job.symm.trans at_)
  rw [shows.place] at found
  obtain rfl := Option.some.inj (shows.fractal.symm.trans found)
  have steps := Bench.steps_step s.setup reply { p.bench with disk := s.disk }
  generalize Bench.step s.setup reply { p.bench with disk := s.disk } = result at *
  obtain ⟨after, notice'⟩ := result
  obtain ⟨⟨job', fractal', disk⟩, notice⟩ := told
  change job' = after.job at job
  change fractal' = after.fractal at fractal
  subst job fractal notice
  have told : (Notice.events notice).filter (·.slot == start.slot) = Notice.events notice := by
    refine List.filter_eq_self.mpr fun event told => ?_
    rw [beq_iff_eq, steps.slot_of_event told]
    exact shows.slot
  have called : (((Notice.request? notice).toList.map (Call.mk i p.bench.job.slot ·)).filter
      (·.job == i)).map (·.request) = (Notice.request? notice).toList := by
    cases Notice.request? notice with
    | none => rfl
    | some request => simp
  exact {
    slot := steps.slot_eq.trans shows.slot
    place := steps.fractal_eq.trans shows.place
    job := by
      rw [settle_jobs]
      exact List.getElem?_set_self (List.getElem?_eq_some_iff.mp at_).1
    fractal := by
      rw [settle_fractals, shows.place]
      exact List.getElem?_set_self (List.getElem?_eq_some_iff.mp found).1
    events := by
      rw [settle_events, List.filter_append, told, shows.events, List.append_assoc]
      rfl
    calls := by
      rw [settle_calls, List.filter_append, List.map_append, called, shows.calls]
      rfl
    flag := by
      rw [settle_flags, shows.slot, if_pos rfl, shows.flag, Option.map_map]
      congr 1
      funext flag
      exact Bool.or_assoc .. }

/-- What a step of a job in the studio does is what a step of what is seen of it does. -/
theorem stepped (shows : Shows e i start s p) (worked : s.stepJob i reply = some t) :
    p.bench.job.isOver = false ∧
      t.calls = s.calls ++ (Notice.request? (Bench.step s.setup reply
        { p.bench with disk := s.disk }).2).toList.map (Call.mk i p.bench.job.slot ·) ∧
      t.disk = (Bench.step s.setup reply { p.bench with disk := s.disk }).1.disk := by
  obtain ⟨job, f, at_, working, found, rfl⟩ := stepJob_eq_some worked
  obtain rfl := Option.some.inj (shows.job.symm.trans at_)
  rw [shows.place] at found
  obtain rfl := Option.some.inj (shows.fractal.symm.trans found)
  rw [settle_calls, settle_disk]
  exact ⟨working, rfl, rfl⟩

/-- A step of another job. -/
theorem other (shows : Shows e i start s p) (differ : j ≠ i) {job : Job} (at_ : s.jobs[j]? = some job)
    (slots : job.slot ≠ start.slot) (fractals : job.fractal ≠ start.fractal)
    (worked : s.stepJob j reply = some t) : Shows e i start t p := by
  obtain ⟨own, f, at', -, found, rfl⟩ := stepJob_eq_some worked
  obtain rfl := Option.some.inj (at_.symm.trans at')
  have steps := Bench.steps_step s.setup reply ⟨job, f, s.disk⟩
  generalize Bench.step s.setup reply ⟨job, f, s.disk⟩ = told at *
  obtain ⟨after, notice⟩ := told
  have silent : (Notice.events notice).filter (·.slot == start.slot) = [] := by
    refine List.filter_eq_nil_iff.mpr fun event told => ?_
    rw [beq_iff_eq, steps.slot_of_event told]
    exact slots
  have uncalled : ((Notice.request? notice).toList.map (Call.mk j job.slot ·)).filter (·.job == i) =
      [] := by
    refine List.filter_eq_nil_iff.mpr fun call member => ?_
    obtain ⟨request, -, rfl⟩ := List.mem_map.mp member
    simpa using differ
  exact {
    slot := shows.slot
    place := shows.place
    job := by
      rw [settle_jobs, List.getElem?_set_ne differ]
      exact shows.job
    fractal := by
      rw [settle_fractals, List.getElem?_set_ne fractals]
      exact shows.fractal
    events := by
      rw [settle_events, List.filter_append, silent, List.append_nil]
      exact shows.events
    calls := by
      rw [settle_calls, List.filter_append, uncalled, List.append_nil]
      exact shows.calls
    flag := by
      rw [settle_flags, if_neg (Ne.symm slots)]
      exact shows.flag }

/-- What the director does elsewhere. -/
theorem direct {e' : Studio} (shows : Shows e i start s p) (job : t.jobs[i]? = s.jobs[i]?)
    (fractal : t.fractals[start.fractal]? = s.fractals[start.fractal]?)
    (events : t.events = s.events) (events' : e'.events = e.events) (calls : t.calls = s.calls)
    (flag : t.readiness.flags[start.slot]? = s.readiness.flags[start.slot]?)
    (flag' : e'.readiness.flags[start.slot]? = e.readiness.flags[start.slot]?) :
    Shows e' i start t p where
  slot := shows.slot
  place := shows.place
  job := job.trans shows.job
  fractal := fractal.trans shows.fractal
  events := by
    rw [events, events']
    exact shows.events
  calls := by
    rw [calls]
    exact shows.calls
  flag := by
    rw [flag, flag']
    exact shows.flag

end Shows

/-- The calls before the latest one, where the calls for a slot are those of one job. -/
theorem callsBefore_eq {s : Studio} {i slot : Nat}
    (own : ∀ call ∈ s.calls, (call.slot == slot) = (call.job == i)) :
    s.callsBefore i slot = (s.calls.filter (·.job == i)).length - 1 := by
  suffices counted : ∀ calls : List Call,
      (∀ call ∈ calls, (call.slot == slot) = (call.job == i)) →
      (calls.dropWhile (·.job != i)).tail.countP (·.slot == slot) =
        (calls.filter (·.job == i)).length - 1 by
    unfold callsBefore
    rw [counted s.calls.reverse fun call member => own call (List.mem_reverse.mp member),
      List.filter_reverse, List.length_reverse]
  intro calls own
  induction calls with
  | nil => rfl
  | cons call rest ih =>
      by_cases here : call.job = i
      · rw [List.dropWhile_cons_of_neg (by simp [here]), List.filter_cons_of_pos (by simp [here]),
          List.tail_cons, List.length_cons, Nat.add_sub_cancel, ← List.countP_eq_length_filter]
        exact List.countP_congr fun call member => by
          rw [own call (List.mem_cons_of_mem _ member)]
      · rw [List.dropWhile_cons_of_pos (by simp [here]), List.filter_cons_of_neg (by simp [here])]
        exact ih fun call member => own call (List.mem_cons_of_mem _ member)

/-- A renderer that knows the calls of a slot answers the job as it would by itself. -/
theorem Shows.answer {e s : Studio} {i : Nat} {start : Job} {p : Solo}
    (shows : Shows e i start s p)
    (own : ∀ call ∈ s.calls, (call.slot == start.slot) = (call.job == i)) (renderer : Renderer) :
    s.answer renderer i p.bench.job = p.answer renderer := by
  have before : s.callsBefore i p.bench.job.slot = p.requests.length - 1 := by
    rw [← shows.calls, List.length_map, shows.slot, callsBefore_eq own]
  cases phase : p.bench.job.phase with
  | calling turn => simp only [Studio.answer, Solo.answer, phase, before]
  | _ => simp only [Studio.answer, Solo.answer, phase]

section Tracks

variable (world : List Call → Disk → Prop) (view : Nat → List Call → Disk → Solo → Solo → Prop)

/-- A studio at work, next to one in which the director has done the same and the jobs nothing: what
is seen of each job is a view of it, and all the rest is as the director left it. -/
structure Tracks (e s : Studio) : Prop where
  setup : s.setup = e.setup
  agenda : s.agenda = e.agenda
  source : s.source = e.source
  staff : s.jobs.length = e.jobs.length
  world : world s.calls s.disk
  solo : ∀ {i : Nat} {job : Job} {f : Fractal}, e.jobs[i]? = some job →
    e.fractals[job.fractal]? = some f →
    ∃ p, view i s.calls s.disk (.start job f e.disk) p ∧ Shows e i job s p
  fractals : ∀ n, (∀ job ∈ e.jobs, job.fractal ≠ n) → s.fractals[n]? = e.fractals[n]?
  flags : ∀ slot, (∀ job ∈ e.jobs, job.slot ≠ slot) →
    s.readiness.flags[slot]? = e.readiness.flags[slot]?
  events : ∀ slot, (∀ job ∈ e.jobs, job.slot ≠ slot) →
    s.events.filter (·.slot == slot) = e.events.filter (·.slot == slot)
  callers : ∀ call ∈ s.calls, ∃ job, e.jobs[call.job]? = some job ∧ call.slot = job.slot

end Tracks

namespace Tracks

variable {world : List Call → Disk → Prop} {view : Nat → List Call → Disk → Solo → Solo → Prop}
  {e s t u v : Studio} {errand : Errand} {visits : List (Nat × Nat)} {c : Course}

/-- Only what the director is at changes. -/
theorem replan (tracks : Tracks world view e s) (held held' : List Nat) (agenda : List Task) :
    Tracks world view { e with held, agenda } { s with held := held', agenda } where
  setup := tracks.setup
  agenda := rfl
  source := tracks.source
  staff := tracks.staff
  world := tracks.world
  solo at_ found := by
    obtain ⟨p, seen, shows⟩ := tracks.solo at_ found
    exact ⟨p, seen, shows.direct rfl rfl rfl rfl rfl rfl rfl⟩
  fractals := tracks.fractals
  flags := tracks.flags
  events := tracks.events
  callers := tracks.callers

/-- What is still to be visited is as the director left it. -/
theorem visited (tracks : Tracks world view e s) (staged : Staged errand visits e) {n slot : Nat}
    (member : (n, slot) ∈ errand.visits ++ visits) : s.fractals[n]? = e.fractals[n]? :=
  tracks.fractals n fun _ hired => (staged.free member hired).1

theorem hired (tracks : Tracks world view e s) (staged : Staged errand visits e) {j : Nat} {job : Job}
    (at_ : s.jobs[j]? = some job) :
    ∃ start f, e.jobs[j]? = some start ∧ e.fractals[start.fractal]? = some f := by
  have inside : j < e.jobs.length := by
    rw [← tracks.staff]
    exact (List.getElem?_eq_some_iff.mp at_).1
  obtain ⟨-, -, f, found, -⟩ := staged.hired _ (List.getElem_mem inside)
  exact ⟨_, f, List.getElem?_eq_getElem inside, found⟩

/-- The calls for the slot of a job are its own. -/
theorem caller (tracks : Tracks world view e s) (staged : Staged errand visits e) {j : Nat}
    {start : Job} (at_ : e.jobs[j]? = some start) :
    ∀ call ∈ s.calls, (call.slot == start.slot) = (call.job == j) := by
  intro call member
  obtain ⟨job, at', slot⟩ := tracks.callers call member
  rw [slot]
  by_cases same : call.job = j
  · subst same
    obtain rfl := Option.some.inj (at_.symm.trans at')
    simp
  · have apart := (staged.distinct same at' at_).1
    rw [beq_eq_false_iff_ne.mpr apart, beq_eq_false_iff_ne.mpr same]

theorem claim {slot n : Nat} {f : Fractal} (tracks : Tracks world view e s)
    (staged : Staged (.claiming slot n) visits e) (found : e.fractals[n]? = some f)
    (agenda : List Task) :
    Tracks world view { e.modifyFractal n ({ · with state := .rendering }) with agenda }
      { s.modifyFractal n ({ · with state := .rendering }) with agenda } := by
  have set := fractals_modifyFractal found ({ · with state := .rendering })
  have found' := (tracks.visited staged List.mem_cons_self).trans found
  have set' := fractals_modifyFractal found' ({ · with state := .rendering })
  have apart : ∀ {i : Nat} {job : Job}, e.jobs[i]? = some job → n ≠ job.fractal := fun at_ =>
    Ne.symm (staged.free List.mem_cons_self (List.mem_of_getElem? at_)).1
  exact {
    setup := tracks.setup
    agenda := rfl
    source := tracks.source
    staff := tracks.staff
    world := tracks.world
    solo {i job g} at_ found := by
      change e.jobs[i]? = some job at at_
      dsimp only at found
      rw [set, List.getElem?_set_ne (apart at_)] at found
      obtain ⟨p, seen, shows⟩ := tracks.solo at_ found
      refine ⟨p, seen, shows.direct rfl ?_ rfl rfl rfl rfl rfl⟩
      dsimp only
      rw [set', List.getElem?_set_ne (apart at_)]
    fractals m free := by
      dsimp only
      rw [set, set']
      by_cases same : n = m
      · subst same
        rw [List.getElem?_set_self (List.getElem?_eq_some_iff.mp found).1,
          List.getElem?_set_self (List.getElem?_eq_some_iff.mp found').1]
      · rw [List.getElem?_set_ne same, List.getElem?_set_ne same]
        exact tracks.fractals m free
    flags := tracks.flags
    events := tracks.events
    callers := tracks.callers }

theorem mark {slot n : Nat} (tracks : Tracks world view e s) (staged : Staged errand visits e)
    (member : (n, slot) ∈ errand.visits ++ visits) (ready : Bool) (agenda : List Task) :
    Tracks world view { e with readiness := e.readiness.mark slot ready, agenda }
      { s with readiness := s.readiness.mark slot ready, agenda } where
  setup := tracks.setup
  agenda := rfl
  source := tracks.source
  staff := tracks.staff
  world := tracks.world
  solo at_ found := by
    obtain ⟨p, seen, shows⟩ := tracks.solo at_ found
    have apart := Ne.symm (staged.free member (List.mem_of_getElem? at_)).2
    exact ⟨p, seen, shows.direct rfl rfl rfl rfl rfl (List.getElem?_set_ne apart)
      (List.getElem?_set_ne apart)⟩
  fractals := tracks.fractals
  flags other free := by
    change (s.readiness.flags.set slot ready)[other]? = (e.readiness.flags.set slot ready)[other]?
    by_cases same : slot = other
    · subst same
      rw [List.getElem?_set_self', List.getElem?_set_self', tracks.flags slot free]
    · rw [List.getElem?_set_ne same, List.getElem?_set_ne same]
      exact tracks.flags other free
  events := tracks.events
  callers := tracks.callers

/-- A new job is seen as it starts. -/
theorem launch {slot n : Nat} {seed : UInt64} {source : Source} (tracks : Tracks world view e s)
    (staged : Staged (.launching slot n) visits e) (held held' : List Nat) (agenda : List Task)
    (fresh : ∀ {job : Job} {f : Fractal}, job.phase = .announcing → job.flag.raised = false →
      f.state = .rendering → f.id = f.genome.identity →
      view e.jobs.length s.calls s.disk (.start job f e.disk) (.start job f e.disk)) :
    Tracks world view
      { e with
        source
        jobs := e.jobs ++ [{ slot, fractal := n, source := Source.ofSeed seed }]
        held
        agenda }
      { s with
        source
        jobs := s.jobs ++ [{ slot, fractal := n, source := Source.ofSeed seed }]
        held := held'
        agenda } := by
  have hired : ∀ call ∈ s.calls, call.job < e.jobs.length := fun call member => by
    obtain ⟨job, at_, -⟩ := tracks.callers call member
    exact (List.getElem?_eq_some_iff.mp at_).1
  exact {
    setup := tracks.setup
    agenda := rfl
    source := rfl
    staff := by
      rw [List.length_append, List.length_append, tracks.staff]
    world := tracks.world
    solo {i job f} at_ found := by
      rcases getElem?_concat_cases at_ with at_ | ⟨rfl, rfl⟩
      · obtain ⟨p, seen, shows⟩ := tracks.solo at_ found
        refine ⟨p, seen, shows.direct ?_ rfl rfl rfl rfl rfl rfl⟩
        exact List.getElem?_append_left (List.getElem?_eq_some_iff.mp shows.job).1
      · have free : ∀ job ∈ e.jobs, job.fractal ≠ n ∧ job.slot ≠ slot := fun job hired =>
          staged.free List.mem_cons_self hired
        obtain ⟨g, found', rendering⟩ := staged.promised n rfl
        obtain rfl := Option.some.inj (found'.symm.trans found)
        have named := staged.named g (List.mem_of_getElem? found')
        refine ⟨_, fresh rfl rfl rendering named, ?_⟩
        exact {
          slot := rfl
          place := rfl
          job := by
            rw [← tracks.staff]
            exact List.getElem?_concat_length
          fractal := (tracks.fractals n fun job hired => (free job hired).1).trans found'
          events := by
            rw [Solo.start, List.append_nil]
            exact tracks.events slot fun job hired => (free job hired).2
          calls := by
            rw [List.filter_eq_nil_iff.mpr fun call member => ?_]
            · rfl
            · simpa using Nat.ne_of_lt (hired call member)
          flag := by
            have flags := tracks.flags slot fun job hired => (free job hired).2
            simpa [Solo.start] using flags }
    fractals m free := tracks.fractals m fun job member => free job (List.mem_append_left _ member)
    flags other free := tracks.flags other fun job member => free job (List.mem_append_left _ member)
    events other free :=
      tracks.events other fun job member => free job (List.mem_append_left _ member)
    callers call member := by
      obtain ⟨job, at_, same⟩ := tracks.callers call member
      refine ⟨job, ?_, same⟩
      dsimp only
      rw [List.getElem?_append_left (hired call member)]
      exact at_ }

/-- The director does the same in both. -/
theorem direct (tracks : Tracks world view e s) (staged : Staged errand visits e)
    (here : Directs e (.render errand visits) c u) (there : Directs s (.render errand visits) c v)
    (fresh : ∀ {job : Job} {f : Fractal}, job.phase = .announcing → job.flag.raised = false →
      f.state = .rendering → f.id = f.genome.identity →
      view e.jobs.length s.calls s.disk (.start job f e.disk) (.start job f e.disk)) :
    Tracks world view { u with agenda := c.tasks } { v with agenda := c.tasks } := by
  cases here with
  | pass _ | find _ | meet _ | decline _ | greet _ | reap =>
      cases there
      exact tracks.replan _ _ _
  | claim found _ =>
      cases there
      exact tracks.claim staged found _
  | unmark | mark =>
      cases there
      exact tracks.mark staged List.mem_cons_self _ _
  | launch drawn =>
      cases there with
      | launch drawn' =>
          rw [tracks.source, drawn] at drawn'
          cases drawn'
          exact tracks.launch staged _ _ _ fresh

/-- A step of the director is one that it takes without the jobs, too. -/
theorem director (tracks : Tracks world view e s) (staged : Staged errand visits e)
    (directed : s.stepDirector = some t)
    (fresh : ∀ {job : Job} {f : Fractal}, job.phase = .announcing → job.flag.raised = false →
      f.state = .rendering → f.id = f.genome.identity →
      view e.jobs.length s.calls s.disk (.start job f e.disk) (.start job f e.disk)) :
    ∃ errand' visits' e', e.stepDirector = some e' ∧ Staged errand' visits' e' ∧
      Tracks world view e' t := by
  obtain ⟨c, v, there, rfl⟩ := directs_of_stepDirector (tracks.agenda.trans staged.agenda) directed
  obtain ⟨u, here⟩ := there.mirror tracks.source.symm fun _ member =>
    (tracks.visited staged member).symm
  obtain ⟨errand', visits', -, after⟩ := staged.directs here
  exact ⟨errand', visits', _, stepDirector_of_directs staged.agenda here, after,
    tracks.direct staged here there fresh⟩

/-- The director waits for no job. -/
theorem director_stuck (tracks : Tracks world view e s) (staged : Staged errand visits e)
    (stuck : s.stepDirector = none) : e.stepDirector = none := by
  cases directed : e.stepDirector with
  | none => rfl
  | some e' =>
      obtain ⟨c, u, here, -⟩ := directs_of_stepDirector staged.agenda directed
      obtain ⟨v, there⟩ := here.mirror tracks.source fun _ member => tracks.visited staged member
      rw [stepDirector_of_directs (tracks.agenda.trans staged.agenda) there] at stuck
      cases stuck

/-- A job takes a step. -/
theorem work {j : Nat} {reply : Reply} {start : Job} {f : Fractal} (tracks : Tracks world view e s)
    (staged : Staged errand visits e) (at_ : e.jobs[j]? = some start)
    (found : e.fractals[start.fractal]? = some f) (worked : s.stepJob j reply = some t)
    (own : ∃ p, view j t.calls t.disk (.start start f e.disk) p ∧ Shows e j start t p)
    (others : ∀ i ≠ j, ∀ {p q : Solo}, view i s.calls s.disk p q → view i t.calls t.disk p q)
    (after : world t.calls t.disk) : Tracks world view e t := by
  obtain ⟨p, -, shows⟩ := tracks.solo at_ found
  have hired := List.mem_of_getElem? at_
  have elsewhere : ∀ {i : Nat} {job : Job} {q : Solo}, i ≠ j → e.jobs[i]? = some job →
      Shows e i job s q → Shows e i job t q := by
    intro i job q differ at' seen
    obtain ⟨slots, fractals⟩ := staged.distinct (Ne.symm differ) at_ at'
    rw [← shows.slot] at slots
    rw [← shows.place] at fractals
    exact seen.other (Ne.symm differ) shows.job slots fractals worked
  obtain ⟨job, g, now, -, -, rfl⟩ := stepJob_eq_some worked
  obtain rfl := Option.some.inj (shows.job.symm.trans now)
  have steps := Bench.steps_step s.setup reply ⟨p.bench.job, g, s.disk⟩
  generalize Bench.step s.setup reply ⟨p.bench.job, g, s.disk⟩ = told at *
  exact {
    setup := (settle_setup ..).trans tracks.setup
    agenda := (settle_agenda ..).trans tracks.agenda
    source := (settle_source ..).trans tracks.source
    staff := by
      rw [settle_jobs, List.length_set]
      exact tracks.staff
    world := after
    solo {i job h} at' found' := by
      by_cases same : i = j
      · subst same
        obtain rfl := Option.some.inj (at_.symm.trans at')
        obtain rfl := Option.some.inj (found.symm.trans found')
        exact own
      · obtain ⟨q, seen, visible⟩ := tracks.solo at' found'
        exact ⟨q, others i same seen, elsewhere same at' visible⟩
    fractals n free := by
      rw [settle_fractals, shows.place, List.getElem?_set_ne (free start hired)]
      exact tracks.fractals n free
    flags slot free := by
      rw [settle_flags, shows.slot, if_neg (Ne.symm (free start hired))]
      exact tracks.flags slot free
    events slot free := by
      have silent : (Notice.events told.2).filter (·.slot == slot) = [] := by
        refine List.filter_eq_nil_iff.mpr fun event member => ?_
        rw [beq_iff_eq, steps.slot_of_event member]
        exact fun same => free start hired (shows.slot.symm.trans same)
      rw [settle_events, List.filter_append, silent, List.append_nil]
      exact tracks.events slot free
    callers call member := by
      rw [settle_calls] at member
      rcases List.mem_append.mp member with member | member
      · exact tracks.callers call member
      · obtain ⟨request, -, rfl⟩ := List.mem_map.mp member
        exact ⟨start, at_, shows.slot⟩ }

end Tracks

end Studio

end FractalBreeder
