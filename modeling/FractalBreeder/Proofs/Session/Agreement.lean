import FractalBreeder.Proofs.Session.Governance

/-!
The flags of the slots agree with the fractals on show: a slot that is flagged has a ready fractal,
and a ready fractal on show is flagged, or somebody is about to flag it.
-/
namespace FractalBreeder

open Bench (Steps)
open Studio (Course Custody Governed Works Directs)

namespace Readiness

theorem isReady_mark (r : Readiness) (slot other : Nat) (ready : Bool) :
    (r.mark slot ready).isReady other =
      if slot = other ∧ slot < r.flags.length then ready else r.isReady other := by
  simp only [isReady, mark, List.getD_eq_getElem?_getD, List.getElem?_set]
  by_cases same : slot = other
  · subst same
    by_cases inside : slot < r.flags.length
    · simp [inside]
    · simp [inside]
  · simp [same]

@[simp] theorem length_mark (r : Readiness) (slot : Nat) (ready : Bool) :
    (r.mark slot ready).flags.length = r.flags.length := List.length_set

@[simp] theorem isReady_ofSize (size slot : Nat) : (ofSize size).isReady slot = false := by
  simp only [isReady, ofSize, List.getD_eq_getElem?_getD, List.getElem?_replicate]
  split <;> rfl

@[simp] theorem isReady_clear (r : Readiness) (slot : Nat) : r.clear.isReady slot = false :=
  isReady_ofSize ..

@[simp] theorem length_clear (r : Readiness) : r.clear.flags.length = r.flags.length :=
  List.length_replicate

/-- Marking a slot turns no other flag off. -/
theorem isReady_mark_true {r : Readiness} {slot other : Nat} (ready : r.isReady other = true) :
    (r.mark slot true).isReady other = true := by
  rw [isReady_mark]
  split
  · rfl
  · exact ready

end Readiness

namespace Bench.Steps

variable {rogue : Prop} {setup : Setup} {reply : Reply} {b after : Bench} {notice : Option Notice}

/-- A fractal gets ready by the step before its slot is marked. -/
theorem newly_ready (steps : Steps setup reply b after notice) (ready : after.fractal.state = .ready) :
    b.fractal.state = .ready ∨ after.job.phase = .marking after.fractal.id := by
  cases steps with
  | varied _ _ _ _ _ => cases ready
  | spoiled _ _ => cases ready
  | taken _ _ _ => exact .inr rfl
  | givenUp _ => cases ready
  | _ => exact .inl ready

theorem phase_of_ready (steps : Steps setup reply b after (some .ready)) :
    ∃ identity, b.job.phase = .marking identity := by
  cases steps with
  | marked phase => exact ⟨_, phase⟩

theorem notice_of_marking {identity : String} (steps : Steps setup reply b after notice)
    (marking : b.job.phase = .marking identity) : notice = some .ready := by
  cases steps with
  | marked _ => rfl
  | stopped phase _ =>
      rw [marking] at phase
      rcases phase with ⟨_, phase⟩ | ⟨_, _, phase⟩ | phase | phase <;> cases phase
  | varied _ _ _ varies _ | spoiled _ varies =>
      rw [marking] at varies
      cases varies
  | rested halted =>
      rw [Job.isOver, marking] at halted
      cases halted
  | announced phase | prepared phase _ | opened phase _ | requested phase | called phase _
  | exhausted phase | crashed phase _ | returned _ phase _ _ _ | ceased phase _ _
  | inspected phase _ | cleaned phase | measured _ phase _ | closed phase _ | taken phase _ _
  | missed _ phase | reported phase | yielded phase _ | failed phase | withdrawn phase
  | givenUp phase | lamented phase | repainted phase =>
      rw [marking] at phase
      cases phase

end Bench.Steps

namespace Session

/-- Somebody is about to mark a slot: its job, or the director. -/
def Promised (c : Course) (s : Session) (slot n : Nat) : Prop :=
  (∃ j ∈ s.studio.held, ∃ job identity, s.studio.jobs[j]? = some job ∧ job.slot = slot ∧
    job.phase = .marking identity) ∨
  ∃ errand visits, c = .render errand visits ∧ (errand = .showing slot n ∨ (n, slot) ∈ visits)

/-- The flags in the course of a session. After a clearing all are off until the generation on show
is started. -/
structure Flagged (c : Course) (s : Session) : Prop where
  size : s.studio.readiness.flags.length = generationSize
  lit : ∀ slot, s.isReady slot = true → ∃ f, s.fractal? slot = some f ∧ f.state = .ready
  told : s.duties = [] ∨ s.duties = [.repaint] → ∀ {slot n : Nat} {f : Fractal},
    s.history.current[slot]? = some n → s.studio.fractals[n]? = some f → f.state = .ready →
    s.isReady slot = true ∨ Promised c s slot n
  dark : c = .rest → ∀ {duty rest}, s.duties = duty :: rest → duty ≠ .repaint →
    ∀ slot, s.isReady slot = false

/-- Changes from one state to another, none of them ready, keep the ready fractals. -/
theorem set_unready {fractals : List Fractal} {n m : Nat} {f g h : Fractal}
    (found : fractals[n]? = some f) (before : f.state ≠ .ready) (after : g.state ≠ .ready)
    (ready : h.state = .ready) : (fractals.set n g)[m]? = some h ↔ fractals[m]? = some h := by
  constructor
  · intro found'
    rcases getElem?_set_cases found' with ⟨-, rfl⟩ | ⟨-, found'⟩
    · exact absurd ready after
    · exact found'
  · intro found'
    rw [List.getElem?_set_ne]
    · exact found'
    · rintro rfl
      obtain rfl := Option.some.inj (found.symm.trans found')
      exact before ready

theorem fractal?_eq_some {s : Session} {slot : Nat} {f : Fractal} :
    s.fractal? slot = some f ↔
      ∃ n, s.history.current[slot]? = some n ∧ s.studio.fractals[n]? = some f := by
  simp [fractal?, bind, Option.bind_eq_some_iff]

namespace Flagged

variable {rogue : Prop} {c c' : Course} {s t : Session} {move : Move}

theorem fresh (settings : Settings) (breeding rendering : Source) (disk : Disk) :
    (fresh settings breeding rendering disk).Flagged .rest where
  size := List.length_replicate
  lit slot ready := by
    have dark : (Session.fresh settings breeding rendering disk).isReady slot = false :=
      Readiness.isReady_ofSize ..
    rw [dark] at ready
    cases ready
  told _ _ _ _ shown := by cases shown
  dark _ _ _ duties := by cases duties

/-- There is a flag for every slot on show. -/
theorem slot_lt (flagged : s.Flagged c) (sound : s.Sound rogue c) {slot n : Nat}
    (shown : s.history.current[slot]? = some n) : slot < s.studio.readiness.flags.length := by
  have inside := (List.getElem?_eq_some_iff.mp shown).1
  rw [flagged.size]
  exact Nat.lt_of_lt_of_le inside sound.generations.current.2.2

end Flagged

/-- A promise is kept by the job that gave it, and stands while others work. -/
theorem Promised.work {rogue : Prop} {c : Course} {s : Session} {i slot n : Nat} {reply : Reply}
    {studio : Studio} (promised : Promised c s slot n) (flagged : s.Flagged c)
    (sound : s.Sound rogue c) (shown : s.history.current[slot]? = some n)
    (works : Works s.studio i reply studio) :
    studio.readiness.isReady slot = true ∨ Promised c { s with studio } slot n := by
  obtain @⟨job, f, after, notice, at_, working, found, steps⟩ := works
  rcases promised with ⟨j, member, other, identity, at', same, marking⟩ | promised
  · by_cases own : i = j
    · subst own
      obtain rfl := Option.some.inj (at_.symm.trans at')
      subst same
      obtain rfl := steps.notice_of_marking marking
      left
      exact (Readiness.isReady_mark ..).trans (if_pos ⟨rfl, flagged.slot_lt sound shown⟩)
    · refine .inr (.inl ⟨j, by rwa [Studio.settle_held], other, identity, ?_, same, marking⟩)
      rw [Studio.settle_jobs, List.getElem?_set_ne own]
      exact at'
  · exact .inr (.inr promised)

namespace Flagged

variable {rogue : Prop} {c c' : Course} {s t : Session} {move : Move}

/-- A job turns a slot on only for a fractal that was ready before. -/
theorem ready_of_lit {i slot : Nat} {reply : Reply} {studio : Studio} (flagged : s.Flagged c)
    (sound : s.Sound rogue c) (works : Works s.studio i reply studio)
    (lit : studio.readiness.isReady slot = true) :
    ∃ n f, s.history.current[slot]? = some n ∧ s.studio.fractals[n]? = some f ∧ f.state = .ready := by
  obtain @⟨job, f, after, notice, at_, working, found, steps⟩ := works
  have custody := sound.studio.custody
  have ward := custody.guarded at_ working
  by_cases before : s.isReady slot = true
  · obtain ⟨g, shown, ready⟩ := flagged.lit slot before
    obtain ⟨n, shown, found'⟩ := fractal?_eq_some.mp shown
    exact ⟨n, g, shown, found', ready⟩
  · rcases Studio.readiness_settle s.studio i job after notice with same | ⟨rfl, marked⟩
    · rw [same] at lit
      exact absurd lit before
    · obtain ⟨identity, marking⟩ := steps.phase_of_ready
      have fits : job.Fits rogue s.studio.setup.store f := custody.fits ward at_ found
      rw [Job.Fits, marking] at fits
      rw [marked, Readiness.isReady_mark] at lit
      split at lit
      next own => exact ⟨job.fractal, f, own.1 ▸ custody.placed ward at_, found, fits.1⟩
      next => exact absurd lit before

/-- What was told of a fractal that was ready before is still told. -/
theorem still_told {i slot n : Nat} {f : Fractal} {reply : Reply} {studio : Studio}
    (flagged : s.Flagged c) (sound : s.Sound rogue c) (works : Works s.studio i reply studio)
    (requested : s.duties = [] ∨ s.duties = [.repaint])
    (shown : s.history.current[slot]? = some n) (found : s.studio.fractals[n]? = some f)
    (ready : f.state = .ready) :
    studio.readiness.isReady slot = true ∨ Promised c { s with studio } slot n := by
  rcases flagged.told requested shown found ready with lit | promised
  · left
    obtain @⟨job, g, after, notice, -, -, -, -⟩ := works
    rcases Studio.readiness_settle s.studio i job after notice with same | ⟨-, marked⟩
    · rw [same]
      exact lit
    · rw [marked]
      exact Readiness.isReady_mark_true lit
  · exact promised.work flagged sound shown works

theorem work {i : Nat} {reply : Reply} {studio : Studio} (flagged : s.Flagged c)
    (sound : s.Sound rogue c) (works : Works s.studio i reply studio) :
    Flagged c { s with studio } := by
  have works' := works
  obtain @⟨job, f, after, notice, at_, working, found, steps⟩ := works
  have custody := sound.studio.custody
  have ward := custody.guarded at_ working
  exact {
    size := by
      rcases Studio.readiness_settle s.studio i job after notice with same | ⟨-, marked⟩
      · exact (congrArg (·.flags.length) same).trans flagged.size
      · exact (congrArg (·.flags.length) marked).trans
          ((Readiness.length_mark ..).trans flagged.size)
    lit slot on := by
      obtain ⟨n, g, shown, found', ready⟩ := flagged.ready_of_lit sound works' on
      refine ⟨g, fractal?_eq_some.mpr ⟨n, shown, ?_⟩, ready⟩
      rw [Studio.settle_fractals]
      exact steps.getElem?_set (custody.fits ward at_ found) found found' (by rw [ready]; decide)
    told requested slot n g shown found' ready := by
      rw [Studio.settle_fractals] at found'
      rcases getElem?_set_cases found' with ⟨rfl, rfl⟩ | ⟨-, before⟩
      · rcases steps.newly_ready ready with before | marking
        · exact flagged.still_told sound works' requested shown found before
        · have rendering : c.wards s.studio.held = s.studio.held := by
            obtain ⟨errand, visits, rfl⟩ := sound.stage.render_of_requested requested
            rfl
          have own : (s.studio.settle i job after notice).jobs[i]? = some after.job := by
            simp [(List.getElem?_eq_some_iff.mp at_).1]
          have same : after.job.slot = slot :=
            steps.slot_eq.trans (sound.slot_unique (custody.placed ward at_) shown)
          rw [rendering] at ward
          exact .inr (.inl ⟨i, by rwa [Studio.settle_held], after.job, _, own, same, marking⟩)
      · exact flagged.still_told sound works' requested shown before ready
    dark rest duty others duties other slot := by
      subst rest
      have empty : s.studio.held = [] := sound.stage.held_eq_nil duties other
      rw [Course.rest, Course.wards, empty] at ward
      cases ward }

/-- A task that leaves the flags and the ready fractals alone. -/
theorem pass {studio : Studio} (flagged : s.Flagged c)
    (readiness : studio.readiness = s.studio.readiness)
    (fractals : ∀ {n : Nat} {f : Fractal}, f.state = .ready →
      (studio.fractals[n]? = some f ↔ s.studio.fractals[n]? = some f))
    (promised : s.duties = [] ∨ s.duties = [.repaint] → ∀ {slot n : Nat} {f : Fractal},
      s.studio.fractals[n]? = some f → f.state = .ready →
      Promised c s slot n → Promised c' { s with studio } slot n)
    (dark : c' = .rest → s.duties = [] ∨ s.duties = [.repaint]) : Flagged c' { s with studio } where
  size := by
    dsimp only
    rw [readiness]
    exact flagged.size
  lit slot lit := by
    unfold isReady at lit
    dsimp only at lit
    rw [readiness] at lit
    obtain ⟨f, shown, ready⟩ := flagged.lit slot lit
    obtain ⟨n, shown, found⟩ := fractal?_eq_some.mp shown
    exact ⟨f, fractal?_eq_some.mpr ⟨n, shown, (fractals ready).mpr found⟩, ready⟩
  told requested slot n f shown found ready := by
    unfold isReady
    dsimp only
    rw [readiness]
    have found := (fractals ready).mp found
    exact (flagged.told requested shown found ready).imp id (promised requested found ready)
  dark rest duty others duties other slot := by
    rcases dark rest with requested | requested
    · rw [requested] at duties
      cases duties
    · rw [requested] at duties
      cases duties
      exact absurd rfl other

/-- Stopping the jobs: nothing is promised to the generation that is going to be replaced. -/
theorem stop {studio : Studio} (flagged : s.Flagged c) (stage : Stage s.studio.held s.duties c)
    (stops : ∀ errand visits, c ≠ .render errand visits) (goes : c' ≠ .rest)
    (readiness : studio.readiness = s.studio.readiness)
    (fractals : ∀ {n : Nat} {f : Fractal}, f.state = .ready →
      (studio.fractals[n]? = some f ↔ s.studio.fractals[n]? = some f)) :
    Flagged c' { s with studio } := by
  refine flagged.pass readiness fractals (fun requested => ?_) fun rest => absurd rest goes
  obtain ⟨errand, visits, impossible⟩ := stage.render_of_requested requested
  exact absurd impossible (stops errand visits)

/-- Going on with the slots: what the director promised it still promises. -/
theorem visit {studio : Studio} {errand errand' : Studio.Errand} {visits visits' : List (Nat × Nat)}
    (flagged : s.Flagged (.render errand visits))
    (stage : Stage s.studio.held s.duties (.render errand visits))
    (busy : Course.render errand visits ≠ .rest)
    (readiness : studio.readiness = s.studio.readiness)
    (fractals : ∀ {n : Nat} {f : Fractal}, f.state = .ready →
      (studio.fractals[n]? = some f ↔ s.studio.fractals[n]? = some f))
    (held : ∀ {j : Nat} {job : Job}, j ∈ s.studio.held → s.studio.jobs[j]? = some job →
      job.isOver = false → j ∈ studio.held ∧ studio.jobs[j]? = some job)
    (goes : ∀ {slot n : Nat} {f : Fractal}, s.studio.fractals[n]? = some f → f.state = .ready →
      errand = .showing slot n ∨ (n, slot) ∈ visits → errand' = .showing slot n ∨ (n, slot) ∈ visits') :
    Flagged (.render errand' visits') { s with studio } := by
  refine flagged.pass readiness fractals ?_ fun _ => stage.requested_of_busy busy
  rintro - slot n f found ready (⟨j, member, job, identity, at_, same, marking⟩ |
    ⟨errand₀, visits₀, same, promised⟩)
  · have working : job.isOver = false := by rw [Job.isOver, marking]
    obtain ⟨member, at_⟩ := held member at_ working
    exact .inl ⟨j, member, job, identity, at_, same, marking⟩
  · cases same
    exact .inr ⟨_, _, rfl, goes found ready promised⟩

/-- The director turns to the next fractal, which is shown if it is ready. -/
theorem turn {slot n : Nat} {errand : Studio.Errand} {visits : List (Nat × Nat)} {agenda : List Task}
    (flagged : s.Flagged (.render .rest ((n, slot) :: visits)))
    (stage : Stage s.studio.held s.duties (.render .rest ((n, slot) :: visits)))
    (shows : s.studio.stateOf? n = some .ready → errand = .showing slot n) :
    Flagged (.render errand visits) { s with studio := { s.studio with agenda } } := by
  refine flagged.visit stage nofun rfl (fun _ => Iff.rfl) (fun member at_ _ => ⟨member, at_⟩) ?_
  rintro slot' n' f found ready (impossible | member)
  · cases impossible
  · rcases List.mem_cons.mp member with same | member
    · cases same
      exact .inl (shows ((Studio.stateOf?_of_found found).trans (congrArg some ready)))
    · exact .inr member

/-- The director does something for a slot that is not going to be turned on. -/
theorem proceed {studio : Studio} {errand errand' : Studio.Errand} {visits : List (Nat × Nat)}
    (flagged : s.Flagged (.render errand visits))
    (stage : Stage s.studio.held s.duties (.render errand visits))
    (busy : Course.render errand visits ≠ .rest) (unlit : ∀ slot n, errand ≠ .showing slot n)
    (readiness : studio.readiness = s.studio.readiness)
    (fractals : ∀ {n : Nat} {f : Fractal}, f.state = .ready →
      (studio.fractals[n]? = some f ↔ s.studio.fractals[n]? = some f))
    (held : ∀ {j : Nat} {job : Job}, j ∈ s.studio.held → s.studio.jobs[j]? = some job →
      job.isOver = false → j ∈ studio.held ∧ studio.jobs[j]? = some job) :
    Flagged (.render errand' visits) { s with studio } :=
  flagged.visit stage busy readiness fractals held fun _ _ promised =>
    promised.imp (fun showing => absurd showing (unlit _ _)) id

/-- The slot of a fractal that was promised a job is turned off. -/
theorem unmark {slot n : Nat} {visits : List (Nat × Nat)} {agenda : List Task}
    (flagged : s.Flagged (.render (.clearing slot n) visits))
    (sound : s.Sound rogue (.render (.clearing slot n) visits)) :
    Flagged (.render (.launching slot n) visits)
      { s with studio := { s.studio with readiness := s.studio.readiness.mark slot false, agenda } } where
  size := (Readiness.length_mark ..).trans flagged.size
  lit other lit := by
    have changed := Readiness.isReady_mark s.studio.readiness slot other false
    rw [isReady, changed] at lit
    split at lit
    · cases lit
    · exact flagged.lit other lit
  told requested other m f shown found ready := by
    obtain ⟨⟨g, found', rendering⟩, -⟩ := sound.studio.custody.pledged rfl
    have apart : slot ≠ other := by
      rintro rfl
      have shown' : s.history.current[slot]? = some n := sound.studio.sound.1
      obtain rfl := Option.some.inj (shown.symm.trans shown')
      obtain rfl := Option.some.inj (found.symm.trans found')
      rw [ready] at rendering
      cases rendering
    rcases flagged.told requested shown found ready with lit | held | ⟨errand, visits, same, promised⟩
    · left
      rw [isReady, Readiness.isReady_mark, if_neg fun same => apart same.1]
      exact lit
    · exact .inr (.inl held)
    · cases same
      refine .inr (.inr ⟨_, _, rfl, promised.imp ?_ id⟩)
      rintro impossible
      cases impossible
  dark impossible := by cases impossible

/-- The slot of a ready fractal is turned on. -/
theorem mark {slot n : Nat} {visits : List (Nat × Nat)} {agenda : List Task}
    (flagged : s.Flagged (.render (.showing slot n) visits))
    (sound : s.Sound rogue (.render (.showing slot n) visits)) :
    Flagged (.render .rest visits)
      { s with studio := { s.studio with readiness := s.studio.readiness.mark slot true, agenda } } where
  size := (Readiness.length_mark ..).trans flagged.size
  lit other lit := by
    have changed := Readiness.isReady_mark s.studio.readiness slot other true
    rw [isReady, changed] at lit
    split at lit
    next same =>
      obtain ⟨shown, f, found, ready⟩ := sound.studio.sound.1
      exact ⟨f, fractal?_eq_some.mpr ⟨n, same.1 ▸ shown, found⟩, ready⟩
    next => exact flagged.lit other lit
  told requested other m f shown found ready := by
    rcases flagged.told requested shown found ready with lit | held | ⟨errand, visits, same, promised⟩
    · exact .inl (Readiness.isReady_mark_true lit)
    · exact .inr (.inl held)
    · cases same
      rcases promised with same | member
      · cases same
        left
        rw [isReady, Readiness.isReady_mark, if_pos ⟨rfl, flagged.slot_lt sound shown⟩]
      · exact .inr (.inr ⟨_, _, rfl, .inr member⟩)
  dark _ duty rest duties other _ := by
    rcases sound.stage.requested_of_busy nofun with requested | requested
    · rw [requested] at duties
      cases duties
    · rw [requested] at duties
      cases duties
      exact absurd rfl other

theorem clear {agenda : List Task} (flagged : s.Flagged (.stop [] []))
    (stage : Stage s.studio.held s.duties (.stop [] [])) :
    Flagged .rest
      { s with studio := { s.studio with readiness := s.studio.readiness.clear, agenda } } where
  size := (Readiness.length_clear _).trans flagged.size
  lit slot lit := by
    rw [isReady, Readiness.isReady_clear] at lit
    cases lit
  told requested := by
    obtain ⟨errand, visits, impossible⟩ := stage.render_of_requested requested
    cases impossible
  dark _ _ _ _ _ slot := Readiness.isReady_clear ..

/-- The director does a task. -/
theorem direct {studio : Studio} (flagged : s.Flagged c) (sound : s.Sound rogue c)
    (directs : Directs s.studio c c' studio) :
    Flagged c' { s with studio := { studio with agenda := c'.tasks } } := by
  have stage := sound.stage
  have plan := sound.studio.sound
  have custody := sound.studio.custody
  cases directs with
  | pass waiting =>
      refine flagged.turn stage fun ready => ?_
      rw [ready] at waiting
      rcases waiting with impossible | impossible | impossible <;> cases impossible
  | find waiting =>
      refine flagged.turn stage fun ready => ?_
      rw [ready] at waiting
      rcases waiting with impossible | impossible <;> cases impossible
  | meet _ => exact flagged.turn stage fun _ => rfl
  | reap =>
      refine flagged.proceed stage nofun nofun rfl (fun _ => Iff.rfl) fun member at_ working => ?_
      exact ⟨List.mem_filter.mpr ⟨member, by simp [at_, working]⟩, at_⟩
  | decline _ | greet _ =>
      exact flagged.proceed stage nofun nofun rfl (fun _ => Iff.rfl) fun member at_ _ => ⟨member, at_⟩
  | claim found waiting =>
      have before := (RenderState.ne_of_claimed waiting).2
      refine flagged.proceed stage nofun nofun rfl (fun ready => ?_) fun member at_ _ => ⟨member, at_⟩
      rw [Studio.fractals_modifyFractal found]
      exact set_unready found before nofun ready
  | unmark => exact flagged.unmark sound
  | launch _ =>
      refine flagged.proceed stage nofun nofun rfl (fun _ => Iff.rfl) fun member at_ _ => ?_
      refine ⟨List.mem_append_left _ member, ?_⟩
      dsimp only
      rw [List.getElem?_append_left (List.getElem?_eq_some_iff.mp at_).1]
      exact at_
  | mark => exact flagged.mark sound
  | raise => exact flagged.stop stage (by rintro _ _ ⟨⟩) (by rintro ⟨⟩) rfl fun _ => Iff.rfl
  | join _ => exact flagged.stop stage (by rintro _ _ ⟨⟩) (by rintro ⟨⟩) rfl fun _ => Iff.rfl
  | @restore j joins job at_ =>
      obtain ⟨f, found⟩ := custody.housed at_
      by_cases rendering : f.state = .rendering
      · rw [Studio.restore_of_rendering found rendering]
        refine flagged.stop stage (by rintro _ _ ⟨⟩) (by rintro ⟨⟩) rfl fun ready => ?_
        exact set_unready found (by rw [rendering]; decide) (by rintro ⟨⟩) ready
      · rw [Studio.restore_of_settled found rendering]
        exact flagged.stop stage (by rintro _ _ ⟨⟩) (by rintro ⟨⟩) rfl fun _ => Iff.rfl
  | forget _ => exact flagged.stop stage (by rintro _ _ ⟨⟩) (by rintro ⟨⟩) rfl fun _ => Iff.rfl
  | clear => exact flagged.clear stage

/-- Another generation is shown while all flags are off. -/
theorem change {duty : Duty} {rest : List Duty} (flagged : s.Flagged .rest)
    (sound : s.Sound rogue .rest)
    (duties : s.duties = duty :: rest) (changes : duty.changes = true)
    (readiness : t.studio.readiness = s.studio.readiness) (after : t.duties = rest) :
    t.Flagged .rest := by
  obtain ⟨rfl, -⟩ := sound.stage.change duties changes
  have off : ∀ slot, t.isReady slot = false := by
    intro slot
    rw [isReady, readiness]
    exact flagged.dark rfl duties (by rintro rfl; cases changes) slot
  refine ⟨by rw [readiness]; exact flagged.size, fun slot lit => ?_, fun requested => ?_,
    fun _ _ _ _ _ => off⟩
  · rw [off] at lit
    cases lit
  · rw [after] at requested
    rcases requested with impossible | impossible <;> cases impossible

theorem start {rest : List Duty} (flagged : s.Flagged .rest) (sound : s.Sound rogue .rest)
    (duties : s.duties = .start :: rest) :
    Flagged (.render .rest s.history.current.zipIdx)
      { s with duties := rest, studio := s.studio.renderAll s.history.current } where
  size := flagged.size
  lit := flagged.lit
  told _ _ _ _ shown _ _ :=
    .inr (.inr ⟨_, _, rfl, .inr (List.mem_zipIdx_iff_getElem?.mpr shown)⟩)
  dark _ duty others due other := by
    obtain rfl := sound.stage.start duties
    cases due
    exact absurd rfl other

/-- What one move preserves. -/
theorem moved (flagged : s.Flagged c) (sound : s.Sound rogue c) (moves : Moved s c move t c') :
    t.Flagged c' := by
  cases moves with
  | picked picks repaints _ => exact ⟨flagged.size, flagged.lit, flagged.told, flagged.dark⟩
  | @replaced _ duty duties changes agenda =>
      refine ⟨flagged.size, flagged.lit, fun requested => ?_, by rintro ⟨⟩⟩
      rw [replace, duties] at requested
      rcases requested with impossible | impossible <;> cases impossible
  | drawn duties agenda shown found waiting =>
      refine ⟨flagged.size, flagged.lit, fun requested slot n f shown found ready => ?_, by rintro ⟨⟩⟩
      refine (flagged.told (.inl duties) shown found ready).imp id fun promised => ?_
      rcases promised with held | ⟨errand, visits, same, impossible | impossible⟩
      · exact .inl held
      · cases same
        cases impossible
      · cases same
        cases impossible
  | directed directs => exact flagged.direct sound directs
  | bred duties drawn => exact flagged.change sound duties rfl rfl rfl
  | wentBack duties => exact flagged.change sound duties rfl rfl rfl
  | wentForward duties => exact flagged.change sound duties rfl rfl rfl
  | started duties agenda => exact flagged.start sound duties
  | @repainted rest duties =>
      obtain rfl := sound.stage.repaint duties
      exact ⟨flagged.size, flagged.lit, fun _ => flagged.told (.inr duties), by rintro - _ _ ⟨⟩⟩
  | worked works => exact flagged.work sound works
  | scribbled scribbled =>
      obtain ⟨_, _, _, -, -, rfl, -⟩ := Studio.scribble_cases scribbled
      exact ⟨flagged.size, flagged.lit, flagged.told, flagged.dark⟩

end Flagged

/-- The jobs, the states, the pictures and the flags agree. -/
structure Agrees (s : Session) : Prop where
  placed : ∀ j ∈ s.studio.held, ∃ job, s.studio.jobs[j]? = some job ∧
    s.history.current[job.slot]? = some job.fractal
  rendering : ∀ n f, s.studio.fractals[n]? = some f → f.state = .rendering → n ∈ s.history.current
  pictures : ∀ f ∈ s.studio.fractals, (f.state = .ready ↔ f.image.isSome) ∧
    ∀ image ∈ f.image, image.identity = f.id
  lit : ∀ slot, s.isReady slot = true → ∃ f, s.fractal? slot = some f ∧ f.state = .ready
  told : s.isIdle = true → (∀ job ∈ s.studio.jobs, job.isOver = true) →
    ∀ slot, s.isReady slot = true ↔ ∃ f, s.fractal? slot = some f ∧ f.state = .ready

/-- A fractal in the middle of rendering is on show. -/
theorem Sound.rendering_shown {c : Course} {s : Session} (sound : s.Sound False c) {n : Nat}
    {f : Fractal}
    (found : s.studio.fractals[n]? = some f) (rendering : f.state = .rendering) :
    n ∈ s.history.current := by
  rcases sound.studio.custody.kept found rendering with pledge | ⟨j, ward, job, at_, rfl⟩ |
    ⟨impossible, -⟩
  · have plan := sound.studio.sound
    cases c with
    | render errand visits =>
        cases errand with
        | clearing slot m | launching slot m =>
            cases pledge
            exact List.mem_of_getElem? plan.1
        | _ => cases pledge
    | stop _ _ => cases pledge
    | restore _ _ => cases pledge
  · exact List.mem_of_getElem? (sound.studio.custody.placed ward at_)
  · exact impossible.elim

theorem agrees_of_sound {c : Course} {s : Session} (sound : s.Sound False c) (flagged : s.Flagged c) :
    s.Agrees where
  placed j held := by
    have ward : j ∈ c.wards s.studio.held := by
      have plan := sound.studio.sound
      cases c with
      | render _ _ => exact held
      | stop _ _ | restore _ _ =>
          rw [plan.1] at held
          cases held
    obtain ⟨job, at_⟩ := sound.studio.custody.staffed j ward
    exact ⟨job, at_, sound.studio.custody.placed ward at_⟩
  rendering _ _ := sound.rendering_shown
  pictures f member :=
    have sound := sound.studio.custody.sound f member
    ⟨sound.shown, sound.own⟩
  lit := flagged.lit
  told idle halted slot := by
    refine ⟨flagged.lit slot, fun ⟨f, shown, ready⟩ => ?_⟩
    obtain ⟨free, done⟩ := Bool.and_eq_true_iff.mp idle
    obtain rfl := Course.eq_rest (sound.studio.agenda.symm.trans (List.isEmpty_iff.mp free))
    obtain ⟨n, shown, found⟩ := fractal?_eq_some.mp shown
    rcases flagged.told (.inl (List.isEmpty_iff.mp done)) shown found ready with lit |
      ⟨j, -, job, identity, at_, -, marking⟩ | ⟨errand, visits, same, impossible | impossible⟩
    · exact lit
    · have halted := halted job (List.mem_of_getElem? at_)
      rw [Job.isOver, marking] at halted
      cases halted
    · cases same
      cases impossible
    · cases same
      cases impossible

/-- In every session, whatever is asked for and however the work interleaves, the jobs, the states,
the pictures and the flags agree, as long as the renderer keeps its word. -/
theorem run_agrees (settings : Settings) (breeding rendering : Source) (disk : Disk) (moves : List Move)
    {t : Session} (followed : (fresh settings breeding rendering disk).follow? moves = some t)
    (lawful : (fresh settings breeding rendering disk).Each Lawful moves) : t.Agrees := by
  obtain ⟨c, sound, flagged⟩ := follow_induction
    (fun {c : Course} {s : Session} (inv : s.Sound False c ∧ s.Flagged c) => inv.1.studio.agenda)
    (fun inv lawful _ moved => ⟨inv.1.moved moved (.inl lawful), inv.2.moved inv.1 moved⟩)
    ⟨Sound.fresh settings breeding rendering disk, Flagged.fresh settings breeding rendering disk⟩
    lawful followed
  exact agrees_of_sound sound flagged

/-- The first job renders its picture, and then the other jobs start. -/
def picturing : List Move :=
  opening ++ List.replicate 12 (.work 0 dot) ++ remainder

theorem follow?_picturing :
    (small.follow? picturing).any (fun t => t.isIdle && t.isReady 0 && !t.isReady 1) = true := by
  have known : picturing =
      prelude ++ (List.replicate 6 .direct ++ List.replicate 12 (.work 0 dot) ++ remainder) := rfl
  rw [known, small_eq, follow?_prelude (Litter.breed_firstborn rfl rfl)]
  decide +kernel

theorem lawful_picturing : small.Each Lawful picturing := by
  apply each_of_forall
  intro move member s
  simp only [picturing, opening, remainder, List.mem_append, List.mem_cons, List.mem_replicate] at member
  rcases member with ((rfl | ⟨-, rfl⟩) | ⟨-, rfl⟩) | ⟨-, rfl⟩
  · trivial
  · trivial
  · exact fun _ _ _ _ => trivial
  · trivial

theorem run_agrees_picturing : ∃ t, small.follow? picturing = some t ∧ small.Each Lawful picturing ∧
    t.Agrees ∧ t.isReady 0 = true := by
  obtain ⟨t, followed, lit⟩ := (Option.any_eq_true _ _).mp follow?_picturing
  simp only [Bool.and_eq_true] at lit
  exact ⟨t, followed, lawful_picturing, run_agrees _ _ _ _ picturing followed lawful_picturing,
    lit.1.2⟩

end Session

end FractalBreeder
