import FractalBreeder.Proofs.Rendering.Renditions
import Mathlib.Computability.StateTransition

/-!
The director by itself, on its way through slots with distinct fractals. Which jobs it starts, and
with which seeds, does not depend on how far the jobs are.
-/
namespace FractalBreeder.Studio

open StateTransition (Reaches)

/-- What the director does under a course is its next step. -/
theorem stepDirector_of_directs {s u : Studio} {c c' : Course} (agenda : s.agenda = c.tasks)
    (directs : Directs s c c' u) : s.stepDirector = some { u with agenda := c'.tasks } := by
  unfold stepDirector
  rw [agenda]
  cases directs with
  | pass state =>
      rcases state with state | state | state <;> simp [Course.tasks, Errand.tasks, perform, state]
  | find state =>
      rcases state with state | state <;> simp [Course.tasks, Errand.tasks, perform, state]
  | meet state => simp [Course.tasks, Errand.tasks, perform, state]
  | decline state =>
      rcases state with state | state <;> simp [Course.tasks, Errand.tasks, perform, state]
  | greet state => simp [Course.tasks, Errand.tasks, perform, state]
  | claim found waiting =>
      rcases waiting with state | state | state <;>
        simp [Course.tasks, Errand.tasks, perform, stateOf?, found, state]
  | launch drawn => simp [Course.tasks, Errand.tasks, perform, launch, drawn]
  | @join j joins halted =>
      cases found : s.jobs[j]? with
      | none => simp [Course.tasks, Course.farewell, perform, found]
      | some job => simp [Course.tasks, Course.farewell, perform, found, halted job found]
  | restore found => simp [Course.tasks, perform, found]
  | forget missing => simp [Course.tasks, perform, missing]
  | _ => rfl

/-- The fractal of the errand, with its slot. -/
def Errand.visits : Errand → List (Nat × Nat)
  | rest => []
  | reaping slot f | claiming slot f | clearing slot f | launching slot f | showing slot f =>
    [(f, slot)]

/-- A studio whose director goes through slots with fractals that have no job, while no job has done
anything yet. -/
structure Staged (errand : Errand) (visits : List (Nat × Nat)) (s : Studio) : Prop where
  agenda : s.agenda = (Course.render errand visits).tasks
  fractals : ((errand.visits ++ visits).map Prod.fst ++ s.jobs.map (·.fractal)).Nodup
  slots : ((errand.visits ++ visits).map Prod.snd ++ s.jobs.map (·.slot)).Nodup
  hired : ∀ job ∈ s.jobs, job.phase = .announcing ∧ job.flag.raised = false ∧
    ∃ f, s.fractals[job.fractal]? = some f ∧ f.state = .rendering
  promised : ∀ n, errand.pledge = some n → ∃ f, s.fractals[n]? = some f ∧ f.state = .rendering
  named : ∀ f ∈ s.fractals, f.id = f.genome.identity

namespace Staged

variable {errand : Errand} {visits : List (Nat × Nat)} {s t u : Studio} {c : Course}

/-- Two jobs have two slots and two fractals. -/
theorem distinct (staged : Staged errand visits s) {i j : Nat} {job other : Job} (differ : i ≠ j)
    (at_ : s.jobs[i]? = some job) (at' : s.jobs[j]? = some other) :
    job.slot ≠ other.slot ∧ job.fractal ≠ other.fractal := by
  have inside := (List.getElem?_eq_some_iff.mp at_).1
  constructor
  · intro same
    apply differ
    refine (List.getElem?_inj ?_ (List.nodup_append.mp staged.slots).2.1).mp ?_
    · simpa using inside
    · rw [List.getElem?_map, List.getElem?_map, at_, at']
      exact congrArg some same
  · intro same
    apply differ
    refine (List.getElem?_inj ?_ (List.nodup_append.mp staged.fractals).2.1).mp ?_
    · simpa using inside
    · rw [List.getElem?_map, List.getElem?_map, at_, at']
      exact congrArg some same

/-- What is still to be visited belongs to no job. -/
theorem free (staged : Staged errand visits s) {f slot : Nat}
    (member : (f, slot) ∈ errand.visits ++ visits) {job : Job} (hired : job ∈ s.jobs) : job.fractal ≠ f ∧ job.slot ≠ slot := by
  constructor
  · rintro rfl
    exact (List.nodup_append.mp staged.fractals).2.2 _ (List.mem_map_of_mem (f := Prod.fst) member) _
      (List.mem_map_of_mem (f := Job.fractal) hired) rfl
  · rintro rfl
    exact (List.nodup_append.mp staged.slots).2.2 _ (List.mem_map_of_mem (f := Prod.snd) member) _
      (List.mem_map_of_mem (f := Job.slot) hired) rfl

theorem claim {slot n : Nat} {f : Fractal} (staged : Staged (.claiming slot n) visits s)
    (found : s.fractals[n]? = some f) : Staged (.clearing slot n) visits
      { s.modifyFractal n ({ · with state := .rendering }) with
        agenda := (Course.render (.clearing slot n) visits).tasks } := by
  have set := fractals_modifyFractal found ({ · with state := .rendering })
  have inside := (List.getElem?_eq_some_iff.mp found).1
  exact {
    agenda := rfl
    fractals := staged.fractals
    slots := staged.slots
    hired job member := by
      obtain ⟨fresh, calm, g, found', rendering⟩ := staged.hired job member
      have apart := (staged.free List.mem_cons_self member).1
      refine ⟨fresh, calm, g, ?_, rendering⟩
      dsimp only
      rw [set, List.getElem?_set_ne (Ne.symm apart)]
      exact found'
    promised m pledge := by
      obtain rfl := Option.some.inj pledge
      refine ⟨{ f with state := .rendering }, ?_, rfl⟩
      dsimp only
      rw [set, List.getElem?_set_self inside]
    named g member := by
      dsimp only at member
      rw [set] at member
      rcases List.mem_or_eq_of_mem_set member with member | rfl
      · exact staged.named g member
      · exact staged.named f (List.mem_of_getElem? found) }

theorem launch {slot n : Nat} {source : Source} {seed : UInt64}
    (staged : Staged (.launching slot n) visits s) : Staged .rest visits
      { s with
        source
        jobs := s.jobs ++ [{ slot, fractal := n, source := Source.ofSeed seed }]
        held := s.held ++ [s.jobs.length]
        agenda := (Course.render .rest visits).tasks } where
  agenda := rfl
  fractals := by
    have distinct : (n :: (visits.map Prod.fst ++ s.jobs.map (·.fractal))).Nodup := staged.fractals
    change (visits.map Prod.fst ++ (s.jobs ++ [_]).map Job.fractal).Nodup
    rw [List.map_append, ← List.append_assoc]
    exact (List.perm_append_singleton _ _).nodup_iff.mpr distinct
  slots := by
    have distinct : (slot :: (visits.map Prod.snd ++ s.jobs.map (·.slot))).Nodup := staged.slots
    change (visits.map Prod.snd ++ (s.jobs ++ [_]).map Job.slot).Nodup
    rw [List.map_append, ← List.append_assoc]
    exact (List.perm_append_singleton _ _).nodup_iff.mpr distinct
  hired job member := by
    rcases List.mem_append.mp member with member | member
    · exact staged.hired job member
    · obtain rfl := List.mem_singleton.mp member
      exact ⟨rfl, rfl, staged.promised n rfl⟩
  promised := nofun
  named := staged.named

/-- The slot of the errand is done with. -/
theorem drop {visit : Nat × Nat} {visits' : List (Nat × Nat)}
    (staged : Staged errand visits s) (dropped : errand.visits ++ visits = visit :: visits')
    (readiness : Readiness) : Staged .rest visits'
      { s with readiness, agenda := (Course.render .rest visits').tasks } where
  agenda := rfl
  fractals := by
    have distinct := staged.fractals
    rw [dropped] at distinct
    exact distinct.of_cons
  slots := by
    have distinct := staged.slots
    rw [dropped] at distinct
    exact distinct.of_cons
  hired := staged.hired
  promised := nofun
  named := staged.named

theorem directs (staged : Staged errand visits s) (directs : Directs s (.render errand visits) c u) :
    ∃ errand' visits', c = .render errand' visits' ∧
      Staged errand' visits' { u with agenda := c.tasks } := by
  cases directs with
  | pass _ => exact ⟨_, _, rfl, staged.drop rfl _⟩
  | decline _ => exact ⟨_, _, rfl, staged.drop rfl _⟩
  | mark => exact ⟨_, _, rfl, staged.drop rfl _⟩
  | find _ | meet _ | reap | greet _ =>
      exact ⟨_, _, rfl, { staged with agenda := rfl, promised := nofun }⟩
  | claim found _ => exact ⟨_, _, rfl, staged.claim found⟩
  | unmark => exact ⟨_, _, rfl, { staged with agenda := rfl }⟩
  | launch _ => exact ⟨_, _, rfl, staged.launch⟩

/-- The jobs that are there stay, with their fractals. -/
theorem kept (staged : Staged errand visits s) (directs : Directs s (.render errand visits) c u)
    {i : Nat} {job : Job} {f : Fractal} (at_ : s.jobs[i]? = some job)
    (found : s.fractals[job.fractal]? = some f) :
    u.jobs[i]? = some job ∧ u.fractals[job.fractal]? = some f := by
  cases directs with
  | @claim slot n _ g found' _ =>
      refine ⟨at_, ?_⟩
      have apart := (staged.free List.mem_cons_self (List.mem_of_getElem? at_)).1
      rw [fractals_modifyFractal found', List.getElem?_set_ne (Ne.symm apart)]
      exact found
  | launch _ =>
      refine ⟨?_, found⟩
      rw [List.getElem?_append_left (List.getElem?_eq_some_iff.mp at_).1]
      exact at_
  | _ => exact ⟨at_, found⟩

end Staged

/-- The director may do the same where the fractals that it visits, and its words, are the same. -/
theorem Directs.mirror {s e u : Studio} {errand : Errand} {visits : List (Nat × Nat)} {c : Course}
    (directs : Directs s (.render errand visits) c u) (source : e.source = s.source)
    (same : ∀ visit ∈ errand.visits ++ visits, e.fractals[visit.1]? = s.fractals[visit.1]?) :
    ∃ v, Directs e (.render errand visits) c v := by
  have state : ∀ {f slot : Nat}, (f, slot) ∈ errand.visits ++ visits → e.stateOf? f = s.stateOf? f :=
    fun member => congrArg (Option.map Fractal.state) (same _ member)
  cases directs with
  | pass at_ =>
      rw [← state List.mem_cons_self] at at_
      exact ⟨_, .pass at_⟩
  | find at_ =>
      rw [← state List.mem_cons_self] at at_
      exact ⟨_, .find at_⟩
  | meet at_ =>
      rw [← state List.mem_cons_self] at at_
      exact ⟨_, .meet at_⟩
  | reap => exact ⟨_, .reap⟩
  | decline at_ =>
      rw [← state List.mem_cons_self] at at_
      exact ⟨_, .decline at_⟩
  | greet at_ =>
      rw [← state List.mem_cons_self] at at_
      exact ⟨_, .greet at_⟩
  | claim found waiting => exact ⟨_, .claim ((same _ List.mem_cons_self).trans found) waiting⟩
  | unmark => exact ⟨_, .unmark⟩
  | launch drawn => exact ⟨_, .launch (source ▸ drawn)⟩
  | mark => exact ⟨_, .mark⟩

/-- The director went on. -/
structure Ahead (s t : Studio) : Prop where
  setup : t.setup = s.setup
  disk : t.disk = s.disk
  events : t.events = s.events
  calls : t.calls = s.calls
  jobs : ∀ {i : Nat} {job : Job} {f : Fractal}, s.jobs[i]? = some job →
    s.fractals[job.fractal]? = some f → t.jobs[i]? = some job ∧ t.fractals[job.fractal]? = some f

theorem Ahead.refl (s : Studio) : Ahead s s := ⟨rfl, rfl, rfl, rfl, fun at_ found => ⟨at_, found⟩⟩

theorem Ahead.trans {s t u : Studio} (first : Ahead s t) (second : Ahead t u) : Ahead s u where
  setup := second.setup.trans first.setup
  disk := second.disk.trans first.disk
  events := second.events.trans first.events
  calls := second.calls.trans first.calls
  jobs at_ found := by
    obtain ⟨at_, found⟩ := first.jobs at_ found
    exact second.jobs at_ found

theorem Staged.ahead {s u : Studio} {errand : Errand} {visits : List (Nat × Nat)} {c : Course}
    (staged : Staged errand visits s) (directs : Directs s (.render errand visits) c u) :
    Ahead s { u with agenda := c.tasks } := by
  have kept := @Staged.kept _ _ _ _ _ staged directs
  cases directs with
  | _ => exact ⟨rfl, rfl, rfl, rfl, kept⟩

theorem Staged.reaches {s t : Studio} {errand : Errand} {visits : List (Nat × Nat)}
    (staged : Staged errand visits s) (reaches : Reaches stepDirector s t) :
    (∃ errand' visits', Staged errand' visits' t) ∧ Ahead s t := by
  induction reaches with
  | refl => exact ⟨⟨_, _, staged⟩, .refl s⟩
  | tail _ step ih =>
      obtain ⟨⟨errand', visits', staged'⟩, ahead⟩ := ih
      obtain ⟨c, u, directs, rfl⟩ := directs_of_stepDirector staged'.agenda step
      obtain ⟨_, _, -, after⟩ := staged'.directs directs
      exact ⟨⟨_, _, after⟩, ahead.trans (staged'.ahead directs)⟩

theorem New.staged {s : Studio} (new : s.New) {places : List Nat} (distinct : places.Nodup) :
    Staged .rest places.zipIdx (s.renderAll places) where
  agenda := renderAll_agenda new.agenda places
  fractals := by
    change (places.zipIdx.map Prod.fst ++ s.jobs.map Job.fractal).Nodup
    rw [new.jobs, List.map_nil, List.append_nil, List.zipIdx_map_fst]
    exact distinct
  slots := by
    change (places.zipIdx.map Prod.snd ++ s.jobs.map Job.slot).Nodup
    rw [new.jobs, List.map_nil, List.append_nil, List.zipIdx_map_snd]
    exact List.nodup_range'
  hired job member := by
    change job ∈ s.jobs at member
    rw [new.jobs] at member
    cases member
  promised := nofun
  named := new.named

end FractalBreeder.Studio
