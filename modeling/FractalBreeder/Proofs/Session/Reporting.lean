import FractalBreeder.Proofs.Session.Cancellation

/-!
What the channel says of a slot. The events of a slot are those of its jobs, one job after the other:
a job starts, and it ends in one of three ways, unless it is taken down. What an event says of a
fractal stays true.
-/
namespace FractalBreeder

open Bench (Steps)
open Studio (Course Custody Governed Works Directs)

/-- The number of events that a job has sent when it is in a phase. -/
def Phase.told : Phase → Nat
  | .announcing => 0
  | .repainting | .over => 2
  | _ => 1

/-- The events of one job: it starts, and then it ends in one of three ways. -/
inductive Account (slot : Nat) : Nat → List RenderEvent → Prop where
  | silent : Account slot 0 []
  | started (identity : String) : Account slot 1 [.started slot identity]
  | ended (identity : String) {e : RenderEvent} : e.slot = slot → e.isTerminal = true →
      Account slot 2 [.started slot identity, e]

/-- What an event says of the fractal of its job. -/
def RenderEvent.Announces (found : Option Fractal) : RenderEvent → Prop
  | .ready _ identity _ _ => ∃ f image, found = some f ∧ f.id = identity ∧ f.state = .ready ∧
      f.image = some image ∧ image.identity = identity
  | .failed _ identity _ => ∃ f, found = some f ∧ f.id = identity ∧ f.state = .failed
  | .started _ _ | .cancelled _ => True

theorem RenderEvent.Announces.kept {found found' : Option Fractal} {e : RenderEvent}
    (announces : e.Announces found)
    (kept : ∀ f, found = some f → f.state = .ready ∨ f.state = .failed → found' = some f) :
    e.Announces found' := by
  cases e with
  | ready _ _ _ _ =>
      obtain ⟨f, image, held, identity, state, shown⟩ := announces
      exact ⟨f, image, kept f held (.inl state), identity, state, shown⟩
  | failed _ _ _ =>
      obtain ⟨f, held, identity, state⟩ := announces
      exact ⟨f, kept f held (.inr state), identity, state⟩
  | started _ _ | cancelled _ => trivial

theorem Phase.told_of_varies {phase : Phase} (varies : phase.varies = true) : phase.told = 1 := by
  cases phase with
  | mutating _ | rebreeding => rfl
  | _ => cases varies

namespace Bench.Steps

variable {rogue : Prop} {setup : Setup} {reply : Reply} {b after : Bench} {notice : Option Notice}

/-- A step tells nothing, or that the job starts, or that it ends. -/
theorem tells (steps : Steps setup reply b after notice) :
    (Notice.events notice = [] ∧ after.job.phase.told = b.job.phase.told) ∨
      (∃ identity, Notice.events notice = [.started b.job.slot identity] ∧ b.job.phase.told = 0 ∧
        after.job.phase.told = 1) ∨
      ∃ e, Notice.events notice = [e] ∧ e.isTerminal = true ∧ b.job.phase.told = 1 ∧
        after.job.phase.told = 2 := by
  cases steps with
  | announced phase => exact .inr (.inl ⟨_, rfl, by rw [phase]; rfl, rfl⟩)
  | reported phase | withdrawn phase | lamented phase =>
      exact .inr (.inr ⟨_, rfl, rfl, by rw [phase]; rfl, rfl⟩)
  | rested _ => exact .inl ⟨rfl, rfl⟩
  | varied _ _ _ varies next =>
      obtain ⟨_, rfl | rfl⟩ := next
      · exact .inl ⟨rfl, (Phase.told_of_varies varies).symm⟩
      · exact .inl ⟨rfl, (Phase.told_of_varies varies).symm⟩
  | spoiled _ varies => exact .inl ⟨rfl, (Phase.told_of_varies varies).symm⟩
  | stopped phase _ =>
      refine .inl ⟨rfl, ?_⟩
      rcases phase with ⟨_, phase⟩ | ⟨_, _, phase⟩ | phase | phase <;> rw [phase] <;> rfl
  | prepared phase next | inspected phase next =>
      refine .inl ⟨rfl, ?_⟩
      rw [phase]
      rcases next with rfl | ⟨_, rfl⟩ <;> rfl
  | opened phase next | closed phase next =>
      refine .inl ⟨rfl, ?_⟩
      rw [phase]
      rcases next with rfl | rfl <;> rfl
  | returned _ phase _ _ next =>
      refine .inl ⟨rfl, ?_⟩
      rw [phase]
      rcases next with rfl | ⟨_, _, rfl⟩ <;> rfl
  | measured _ phase next =>
      refine .inl ⟨rfl, ?_⟩
      rw [phase]
      rcases next with rfl | rfl | rfl | ⟨_, rfl⟩ <;> rfl
  | crashed phase _ | requested phase | called phase _ | exhausted phase | ceased phase _ _
  | cleaned phase | taken phase _ _ | missed _ phase | marked phase | yielded phase _ | failed phase
  | givenUp phase | repainted phase => exact .inl ⟨rfl, by rw [phase]; rfl⟩

/-- The account of a job goes on with what a step tells. -/
theorem account (steps : Steps setup reply b after notice) {sent : List RenderEvent}
    (account : Account b.job.slot b.job.phase.told sent) :
    Account after.job.slot after.job.phase.told (sent ++ Notice.events notice) := by
  rw [steps.slot_eq]
  rcases steps.tells with ⟨quiet, same⟩ | ⟨identity, told, before, later⟩ |
    ⟨e, told, terminal, before, later⟩
  · rw [quiet, same, List.append_nil]
    exact account
  · rw [before] at account
    cases account
    rw [told, later]
    exact .started identity
  · have slot := steps.slot_of_event (told ▸ List.mem_singleton_self e)
    rw [before] at account
    cases account with
    | started identity =>
        rw [told, later]
        exact .ended identity slot terminal

/-- What a step tells of the fractal is so. -/
theorem announces (steps : Steps setup reply b after notice)
    (fits : b.job.Fits rogue setup.store b.fractal) (sound : b.fractal.Sound) {e : RenderEvent}
    (told : e ∈ Notice.events notice) : e.Announces (some after.fractal) := by
  cases steps with
  | announced _ | withdrawn _ =>
      obtain rfl := List.mem_singleton.mp told
      trivial
  | reported phase =>
      obtain rfl := List.mem_singleton.mp told
      rw [Job.Fits, phase] at fits
      obtain ⟨ready, rfl⟩ := fits
      obtain ⟨image, shown⟩ := Option.isSome_iff_exists.mp (sound.shown.mp ready)
      exact ⟨b.fractal, image, rfl, rfl, ready, shown, sound.own image shown⟩
  | lamented phase =>
      obtain rfl := List.mem_singleton.mp told
      rw [Job.Fits, phase] at fits
      obtain ⟨failed, rfl⟩ := fits
      exact ⟨b.fractal, rfl, rfl, failed⟩
  | _ => cases told

end Bench.Steps

/-- What is added at the last place of a list ends up behind everything else. -/
theorem flatMap_append_last {α : Type} {places : List Nat} {i : Nat} {log : Nat → List α}
    {more : List α} (sorted : places.Pairwise (· < ·)) (member : i ∈ places)
    (last : ∀ k ∈ places, k ≤ i) :
    places.flatMap (fun k => log k ++ if i = k then more else []) = places.flatMap log ++ more := by
  obtain ⟨before, after, rfl⟩ := List.append_of_mem member
  obtain ⟨-, sorted, apart⟩ := List.pairwise_append.mp sorted
  obtain rfl : after = [] := by
    refine List.eq_nil_iff_forall_not_mem.mpr fun k later => ?_
    have above := (List.pairwise_cons.mp sorted).1 k later
    have below := last k (List.mem_append_right _ (List.mem_cons_of_mem _ later))
    omega
  have quiet : before.flatMap (fun k => log k ++ if i = k then more else []) = before.flatMap log := by
    refine List.flatMap_congr fun k earlier => ?_
    have below := apart k earlier i List.mem_cons_self
    rw [if_neg (by omega), List.append_nil]
  simp [quiet]

namespace Studio

/-- The jobs of a slot, in the order in which they started. -/
def jobsOf (s : Studio) (slot : Nat) : List Nat :=
  (List.range s.jobs.length).filter fun i => s.jobs[i]?.map (·.slot) == some slot

variable {s t : Studio} {slot : Nat}

theorem mem_jobsOf {i : Nat} :
    i ∈ s.jobsOf slot ↔ ∃ job, s.jobs[i]? = some job ∧ job.slot = slot := by
  rw [jobsOf, List.mem_filter, List.mem_range, beq_iff_eq, Option.map_eq_some_iff]
  refine ⟨fun found => found.2, fun found => ⟨?_, found⟩⟩
  obtain ⟨job, at_, -⟩ := found
  exact (List.getElem?_eq_some_iff.mp at_).1

theorem sorted_jobsOf (s : Studio) (slot : Nat) : (s.jobsOf slot).Pairwise (· < ·) :=
  List.pairwise_lt_range.filter _

theorem jobsOf_congr (same : t.jobs.map (·.slot) = s.jobs.map (·.slot)) :
    t.jobsOf slot = s.jobsOf slot := by
  have length := congrArg List.length same
  rw [List.length_map, List.length_map] at length
  rw [jobsOf, jobsOf, length]
  refine List.filter_congr fun i _ => ?_
  rw [← List.getElem?_map, ← List.getElem?_map, same]

theorem jobsOf_append (job : Job) (same : t.jobs = s.jobs ++ [job]) :
    t.jobsOf slot = s.jobsOf slot ++ if job.slot = slot then [s.jobs.length] else [] := by
  rw [jobsOf, jobsOf, same, List.length_append, List.length_singleton, List.range_succ,
    List.filter_append]
  congr 1
  · refine List.filter_congr fun i inside => ?_
    rw [List.getElem?_append_left (List.mem_range.mp inside)]
  · simp [List.filter_cons]

theorem jobsOf_settle {i : Nat} {job : Job} {after : Bench} {notice : Option Notice}
    (at_ : s.jobs[i]? = some job) (same : after.job.slot = job.slot) :
    (s.settle i job after notice).jobsOf slot = s.jobsOf slot := by
  have here : (s.jobs.map (·.slot))[i]? = some after.job.slot := by
    rw [List.getElem?_map, at_, same]
    rfl
  refine jobsOf_congr ?_
  rw [settle_jobs, List.map_set]
  refine List.ext_getElem? fun k => ?_
  by_cases own : i = k
  · subst own
    rw [List.getElem?_set_self (List.getElem?_eq_some_iff.mp here).1, here]
  · rw [List.getElem?_set_ne own]

/-- What the last job of its slot says comes behind all that was said of the slot, and nothing is said
of other slots. -/
theorem flatMap_jobsOf_append {i : Nat} {job : Job} (log : Nat → List RenderEvent)
    (more : List RenderEvent) (at_ : s.jobs[i]? = some job)
    (last : ∀ {k : Nat} {other : Job}, s.jobs[k]? = some other → other.slot = job.slot → k ≤ i) :
    (s.jobsOf slot).flatMap (fun k => log k ++ if i = k then more else []) =
      (s.jobsOf slot).flatMap log ++ if job.slot = slot then more else [] := by
  split
  next own =>
    subst own
    refine flatMap_append_last (s.sorted_jobsOf _) (mem_jobsOf.mpr ⟨job, at_, rfl⟩) fun k member => ?_
    obtain ⟨other, at', same⟩ := mem_jobsOf.mp member
    exact last at' same
  next apart =>
    rw [List.append_nil]
    refine List.flatMap_congr fun k member => ?_
    have other : i ≠ k := by
      rintro rfl
      obtain ⟨job', at', same⟩ := mem_jobsOf.mp member
      obtain rfl := Option.some.inj (at_.symm.trans at')
      exact apart same
    rw [if_neg other, List.append_nil]

/-- What the channel says, with the events of each job in the order of sending. -/
structure Reports (log : Nat → List RenderEvent) (s : Studio) : Prop where
  /-- Every job tells that it starts, and then how it ends, unless it is taken down. -/
  told : ∀ {i : Nat} {job : Job}, s.jobs[i]? = some job → Account job.slot job.phase.told (log i)
  /-- The events of a slot are those of its jobs, one job after the other. -/
  ordered : ∀ slot, s.events.filter (·.slot == slot) = (s.jobsOf slot).flatMap log
  /-- Only the last job of a slot may be at work. -/
  last : ∀ {i k : Nat} {job other : Job}, s.jobs[i]? = some job → job.isOver = false →
    s.jobs[k]? = some other → other.slot = job.slot → k ≤ i
  announced : ∀ {i : Nat} {job : Job}, s.jobs[i]? = some job → ∀ e ∈ log i,
    e.Announces s.fractals[job.fractal]?
  silent : ∀ i, s.jobs.length ≤ i → log i = []

namespace Reports

variable {s t : Studio} {log : Nat → List RenderEvent}

theorem empty {s : Studio} (jobs : s.jobs = []) (events : s.events = []) :
    Reports (fun _ => []) s where
  told at_ := by rw [jobs] at at_; cases at_
  ordered slot := by simp [events, jobsOf, jobs]
  last at_ := by rw [jobs] at at_; cases at_
  announced at_ := by rw [jobs] at at_; cases at_
  silent _ _ := rfl

/-- What leaves the jobs, the events and the finished fractals alone. -/
theorem keep (reports : Reports log s) (jobs : t.jobs = s.jobs) (events : t.events = s.events)
    (kept : ∀ {n : Nat} {f : Fractal}, s.fractals[n]? = some f → f.state = .ready ∨ f.state = .failed →
      t.fractals[n]? = some f) : Reports log t where
  told at_ := reports.told (jobs ▸ at_)
  ordered slot := by
    have same : t.jobsOf slot = s.jobsOf slot := jobsOf_congr (congrArg _ jobs)
    rw [events, reports.ordered slot, same]
  last at_ working at' same := reports.last (jobs ▸ at_) working (jobs ▸ at') same
  announced at_ e sent := (reports.announced (jobs ▸ at_) e sent).kept fun _ found state =>
    kept found state
  silent i long := reports.silent i (jobs ▸ long)

theorem work {rogue : Prop} {current wards : List Nat} {pledge : Option Nat} {i : Nat} {reply : Reply}
    (reports : Reports log s)
    (custody : Custody rogue s.setup.store current wards pledge s.jobs s.fractals)
    (works : Works s i reply t) :
    Reports (fun j => log j ++ if i = j then t.events.drop s.events.length else []) t := by
  obtain @⟨job, f, after, notice, at_, working, found, steps⟩ := works
  have fits : job.Fits rogue s.setup.store f := custody.fits (custody.guarded at_ working) at_ found
  have sound : f.Sound := custody.sound f (List.mem_of_getElem? found)
  have slot_eq : after.job.slot = job.slot := steps.slot_eq
  have place : after.job.fractal = job.fractal := steps.fractal_eq
  have still : ∀ {n : Nat} {g : Fractal}, s.fractals[n]? = some g →
      g.state = .ready ∨ g.state = .failed →
      (s.fractals.set job.fractal after.fractal)[n]? = some g := by
    intro n g found' state
    refine steps.getElem?_set fits found found' ?_
    rcases state with state | state <;> rw [state] <;> nofun
  rw [drop_settle_events]
  exact {
    told {j other} at' := by
      rw [settle_jobs] at at'
      rcases getElem?_set_cases at' with ⟨rfl, rfl⟩ | ⟨apart, at'⟩
      · rw [if_pos rfl]
        exact steps.account (reports.told at_)
      · rw [if_neg (Ne.symm apart), List.append_nil]
        exact reports.told at'
    ordered slot := by
      have own : (Notice.events notice).filter (·.slot == slot) =
          if job.slot = slot then Notice.events notice else [] := by
        split
        next same =>
          exact List.filter_eq_self.mpr fun e told =>
            beq_iff_eq.mpr ((steps.slot_of_event told).trans same)
        next apart =>
          refine List.filter_eq_nil_iff.mpr fun e told => ?_
          rw [steps.slot_of_event told]
          simpa using apart
      rw [settle_events, List.filter_append, reports.ordered slot, jobsOf_settle at_ slot_eq, own,
        flatMap_jobsOf_append log _ at_ (reports.last at_ working)]
    last {j k job' other} at' working' at'' same := by
      rw [settle_jobs] at at' at''
      have old : ∃ before, s.jobs[k]? = some before ∧ before.slot = other.slot := by
        rcases getElem?_set_cases at'' with ⟨rfl, rfl⟩ | ⟨-, at''⟩
        · exact ⟨job, at_, slot_eq.symm⟩
        · exact ⟨other, at'', rfl⟩
      obtain ⟨before, origin, same'⟩ := old
      rcases getElem?_set_cases at' with ⟨rfl, rfl⟩ | ⟨-, at'⟩
      · exact reports.last at_ working origin (same'.trans (same.trans slot_eq))
      · exact reports.last at' working' origin (same'.trans same)
    announced {j other} at' e member := by
      rw [settle_jobs] at at'
      rw [settle_fractals]
      rcases getElem?_set_cases at' with ⟨rfl, rfl⟩ | ⟨apart, at'⟩
      · rw [if_pos rfl] at member
        rw [place]
        rcases List.mem_append.mp member with member | told
        · exact (reports.announced at_ e member).kept fun _ => still
        · rw [List.getElem?_set_self (List.getElem?_eq_some_iff.mp found).1]
          exact steps.announces fits sound told
      · rw [if_neg (Ne.symm apart), List.append_nil] at member
        exact (reports.announced at' e member).kept fun _ => still
    silent j long := by
      rw [settle_jobs, List.length_set] at long
      have apart : i ≠ j := by
        rintro rfl
        exact absurd (List.getElem?_eq_some_iff.mp at_).1 (Nat.not_lt_of_le long)
      rw [if_neg apart, List.append_nil]
      exact reports.silent j long }

/-- A new job is the only one of its slot that is at work. -/
theorem launch {job : Job} (reports : Reports log s) (new : job.phase = .announcing)
    (jobs : t.jobs = s.jobs ++ [job]) (events : t.events = s.events)
    (fractals : t.fractals = s.fractals)
    (free : ∀ {i : Nat} {other : Job}, s.jobs[i]? = some other → other.isOver = false →
      other.slot ≠ job.slot) : Reports log t := by
  have old : ∀ {i : Nat} {other : Job}, t.jobs[i]? = some other →
      s.jobs[i]? = some other ∨ i = s.jobs.length ∧ other = job := fun at_ =>
    getElem?_concat_cases (jobs ▸ at_)
  have quiet : log s.jobs.length = [] := reports.silent _ (Nat.le_refl _)
  refine ⟨fun at_ => ?_, fun slot => ?_, fun {i k a b} at_ working at' same => ?_,
    fun at_ e sent => ?_, fun i long => ?_⟩
  · rcases old at_ with at_ | ⟨rfl, rfl⟩
    · exact reports.told at_
    · rw [quiet, new]
      exact .silent
  · rw [events, reports.ordered slot, jobsOf_append job jobs, List.flatMap_append]
    split
    · rw [List.flatMap_singleton, quiet, List.append_nil]
    · exact (List.append_nil _).symm
  · rcases old at_ with at_ | ⟨rfl, rfl⟩
    · rcases old at' with at' | ⟨rfl, rfl⟩
      · exact reports.last at_ working at' same
      · exact absurd same.symm (free at_ working)
    · rw [jobs] at at'
      have bound := (List.getElem?_eq_some_iff.mp at').1
      rw [List.length_append, List.length_singleton] at bound
      omega
  · rw [fractals]
    rcases old at_ with at_ | ⟨rfl, rfl⟩
    · exact reports.announced at_ e sent
    · rw [quiet] at sent
      cases sent
  · rw [jobs, List.length_append] at long
    exact reports.silent i (Nat.le_of_add_right_le long)

theorem raise {j : Nat} (reports : Reports log s) (jobs : t.jobs = s.jobs.modify j Job.asked)
    (events : t.events = s.events) (fractals : t.fractals = s.fractals) : Reports log t := by
  have old : ∀ {i : Nat} {other : Job}, t.jobs[i]? = some other →
      ∃ before, s.jobs[i]? = some before ∧ before.askedAt j i = other := fun found =>
    exists_askedAt (jobs ▸ found)
  have slots : t.jobs.map (·.slot) = s.jobs.map (·.slot) := by
    refine List.ext_getElem? fun k => ?_
    rw [List.getElem?_map, List.getElem?_map, jobs, getElem?_modify_asked, Option.map_map]
    exact congrArg (Option.map · _) (funext fun job => Job.askedAt_slot j k job)
  refine ⟨fun at_ => ?_, fun slot => ?_, fun at_ working at' same => ?_, fun at_ e sent => ?_,
    fun i long => ?_⟩
  · obtain ⟨before, origin, rfl⟩ := old at_
    rw [Job.askedAt_slot, Job.askedAt_phase]
    exact reports.told origin
  · rw [events, reports.ordered slot, jobsOf_congr slots]
  · obtain ⟨before, origin, rfl⟩ := old at_
    obtain ⟨other, origin', rfl⟩ := old at'
    rw [Job.askedAt_isOver] at working
    rw [Job.askedAt_slot, Job.askedAt_slot] at same
    exact reports.last origin working origin' same
  · obtain ⟨before, origin, rfl⟩ := old at_
    rw [Job.askedAt_fractal, fractals]
    exact reports.announced origin e sent
  · rw [jobs, List.length_modify] at long
    exact reports.silent i long

theorem direct {rogue : Prop} {current : List Nat} {c c' : Course} (reports : Reports log s)
    (governed : Governed rogue current c s) (directs : Directs s c c' t) :
    Reports log { t with agenda := c'.tasks } := by
  have custody := governed.custody
  have plan := governed.sound
  cases directs with
  | pass _ | find _ | meet _ | reap | decline _ | greet _ | unmark | mark | join _ | forget _ | clear =>
      exact reports.keep rfl rfl fun found _ => found
  | @claim slot n visits g found _ =>
      refine reports.keep rfl rfl fun {m f} found' state => ?_
      obtain ⟨h, housed, waiting⟩ := plan.1.2.1
      have apart : n ≠ m := by
        rintro rfl
        obtain rfl := Option.some.inj (housed.symm.trans found')
        obtain ⟨-, unready, unfailed⟩ := RenderState.ne_of_waiting waiting
        exact state.elim unready unfailed
      dsimp only
      rw [fractals_modifyFractal found, List.getElem?_set_ne apart]
      exact found'
  | @launch slot n visits seed source drawn =>
      refine reports.launch rfl rfl rfl rfl fun {i other} at_ working same => ?_
      have ward := custody.guarded at_ working
      have shown := custody.placed ward at_
      have pledged := (custody.pledged rfl).2 ward at_
      dsimp only at same
      rw [same, show current[slot]? = some n from plan.1] at shown
      exact pledged (Option.some.inj shown).symm
  | raise => exact reports.raise rfl rfl rfl
  | @restore j joins job at_ =>
      obtain ⟨f, found⟩ := custody.housed at_
      by_cases rendering : f.state = .rendering
      · rw [restore_of_rendering found rendering]
        refine reports.keep rfl rfl fun {n g} found' state => ?_
        have apart : job.fractal ≠ n := by
          rintro rfl
          obtain rfl := Option.some.inj (found.symm.trans found')
          rw [rendering] at state
          rcases state with state | state <;> cases state
        exact (List.getElem?_set_ne apart).trans found'
      · rw [restore_of_settled found rendering]
        exact reports.keep rfl rfl fun found _ => found

end Reports

end Studio

namespace Session

open Studio (Reports)

/-- A call that takes too long. -/
def late : Reply := .returned none (.error (.timeout 60))

end Session

end FractalBreeder
