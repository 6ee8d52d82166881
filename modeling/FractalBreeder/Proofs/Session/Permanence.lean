import FractalBreeder.Proofs.Rendering.Projections
import FractalBreeder.Proofs.Session.Governance

/-!
A finished fractal stays as it is. Jobs change a fractal only while it is rendering, and the director
gives a job only to what waits for one, so whatever is asked, and whatever renderers do, nobody comes
back to a fractal that is ready or failed. What was shown of it is shown again whenever its
generation is.
-/
namespace FractalBreeder

open Bench (Steps)

namespace Fractal

def IsFinished (f : Fractal) : Prop := f.state = .ready ∨ f.state = .failed

theorem IsFinished.settled {f : Fractal} (finished : f.IsFinished) : f.state ≠ .rendering := by
  rcases finished with state | state
  · rw [state]
    nofun
  · rw [state]
    nofun

/-- The renderer was called for the fractal as it is. -/
def Called (calls : List Call) (store : ImageStore) (f : Fractal) : Prop :=
  ∃ call ∈ calls, call.request = f.request store

theorem Called.append {calls : List Call} {store : ImageStore} {f : Fractal}
    (called : f.Called calls store) (more : List Call) : f.Called (calls ++ more) store := by
  obtain ⟨call, member, same⟩ := called
  exact ⟨call, List.mem_append_left _ member, same⟩

end Fractal

/-- The phases behind a call of the renderer for what the fractal is now. -/
def Phase.hasCalled : Phase → Bool
  | .calling _ | .inspecting _ | .cleaning _ _ | .measuring _ | .closing | .taking => true
  | _ => false

theorem Phase.isOver_of_hasCalled {job : Job} (calling : job.phase.hasCalled = true) :
    job.isOver = false := by
  unfold Job.isOver
  cases phase : job.phase with
  | «over» | dead =>
      rw [phase] at calling
      cases calling
  | _ => rfl

namespace Bench.Steps

variable {rogue : Prop} {setup : Setup} {reply : Reply} {b after : Bench} {notice : Option Notice}

/-- A job that has called for its fractal goes on from that call. -/
theorem called_of_hasCalled (steps : Steps setup reply b after notice)
    (fits : b.job.Fits rogue setup.store b.fractal) {calls : List Call} (j slot : Nat)
    (before : b.job.phase.hasCalled = true → b.fractal.Called calls setup.store)
    (calling : after.job.phase.hasCalled = true) : after.fractal.Called
      (calls ++ (Notice.request? notice).toList.map (⟨j, slot, ·⟩)) setup.store := by
  have goesOn : b.job.phase.hasCalled = true → after.fractal = b.fractal → after.fractal.Called
      (calls ++ (Notice.request? notice).toList.map (⟨j, slot, ·⟩)) setup.store := by
    intro called same
    rw [same]
    exact (before called).append _
  cases steps with
  | @called turn last phase _ =>
      rw [Job.Fits, phase] at fits
      exact ⟨_, List.mem_append_right _ List.mem_cons_self, fits.2.1⟩
  | returned _ phase _ _ _ => exact goesOn (by rw [phase]; rfl) rfl
  | inspected phase _ => exact goesOn (by rw [phase]; rfl) rfl
  | measured _ phase _ => exact goesOn (by rw [phase]; rfl) rfl
  | closed phase _ => exact goesOn (by rw [phase]; rfl) rfl
  | varied _ _ _ _ next =>
      obtain ⟨retry, rfl | rfl⟩ := next
      · cases calling
      · cases calling
  | prepared _ next =>
      rcases next with rfl | ⟨_, rfl⟩
      · cases calling
      · cases calling
  | opened _ next =>
      rcases next with rfl | rfl
      · cases calling
      · cases calling
  | rested ended => exact goesOn calling rfl
  | _ => cases calling

/-- A picture is taken over only after a call for it. -/
theorem called_of_ready (steps : Steps setup reply b after notice) {calls : List Call}
    (before : b.job.phase.hasCalled = true → b.fractal.Called calls setup.store)
    (unready : b.fractal.state ≠ .ready) (ready : after.fractal.state = .ready) :
    after.fractal.Called calls setup.store := by
  cases steps with
  | taken phase _ _ => exact before (by rw [phase]; rfl)
  | varied _ _ _ _ _ => cases ready
  | spoiled _ _ => cases ready
  | givenUp _ => cases ready
  | _ => exact absurd ready unready

end Bench.Steps

namespace Studio

section Rendered

variable {store : ImageStore} {calls : List Call} {jobs : List Job} {fractals : List Fractal}

/-- Every picture, and every job on its way to one, goes back to a call for the fractal as it is. -/
structure Rendered (store : ImageStore) (calls : List Call) (jobs : List Job)
    (fractals : List Fractal) : Prop where
  called : ∀ {j : Nat} {job : Job}, jobs[j]? = some job → job.phase.hasCalled = true →
    ∃ f, fractals[job.fractal]? = some f ∧ f.Called calls store
  ready : ∀ {n : Nat} {f : Fractal}, fractals[n]? = some f → f.state = .ready →
    f.Called calls store

namespace Rendered

theorem empty (store : ImageStore) : Rendered store [] [] [] := ⟨nofun, nofun⟩

/-- Fractals that are claimed, put back or added have no part in any call. -/
theorem touch {jobs' : List Job} {fractals' : List Fractal}
    (rendered : Rendered store calls jobs fractals)
    (started : ∀ {j : Nat} {job : Job}, jobs'[j]? = some job → job.phase.hasCalled = true →
      ∃ before, jobs[j]? = some before ∧ before.phase = job.phase ∧ before.fractal = job.fractal)
    (kept : ∀ {n : Nat} {f : Fractal}, fractals[n]? = some f →
      ∃ g, fractals'[n]? = some g ∧ g.request store = f.request store)
    (old : ∀ {n : Nat} {g : Fractal}, fractals'[n]? = some g → g.state = .ready →
      fractals[n]? = some g) : Rendered store calls jobs' fractals' where
  called at_ calling := by
    obtain ⟨before, origin, phase, place⟩ := started at_ calling
    obtain ⟨f, found, call, member, same⟩ := rendered.called origin (phase ▸ calling)
    obtain ⟨g, found', same'⟩ := kept found
    exact ⟨g, place ▸ found', call, member, same.trans same'.symm⟩
  ready found isReady := rendered.ready (old found isReady) isReady

/-- The state and the picture of one fractal change, and it is not ready then. -/
theorem set {n : Nat} {f g : Fractal} (rendered : Rendered store calls jobs fractals)
    (found : fractals[n]? = some f) (same : g.request store = f.request store)
    (unready : g.state ≠ .ready) : Rendered store calls jobs (fractals.set n g) := by
  refine rendered.touch (fun at_ _ => ⟨_, at_, rfl, rfl⟩) (fun {m h} found' => ?_)
    (fun {m h} found' isReady => ?_)
  · by_cases equal : n = m
    · subst equal
      obtain rfl := Option.some.inj (found.symm.trans found')
      exact ⟨g, List.getElem?_set_self (List.getElem?_eq_some_iff.mp found).1, same⟩
    · exact ⟨h, by rwa [List.getElem?_set_ne equal], rfl⟩
  · rcases getElem?_set_cases found' with ⟨-, rfl⟩ | ⟨-, found'⟩
    · exact absurd isReady unready
    · exact found'

theorem work {s t : Studio} {rogue : Prop} {current wards : List Nat} {pledge : Option Nat} {i : Nat}
    {reply : Reply} (rendered : Rendered s.setup.store s.calls s.jobs s.fractals)
    (custody : Custody rogue s.setup.store current wards pledge s.jobs s.fractals)
    (works : Works s i reply t) : Rendered t.setup.store t.calls t.jobs t.fractals := by
  obtain @⟨job, f, after, notice, at_, working, found, steps⟩ := works
  have ward := custody.guarded at_ working
  have fits : job.Fits rogue s.setup.store f := custody.fits ward at_ found
  have inside : job.fractal < s.fractals.length := (List.getElem?_eq_some_iff.mp found).1
  have called : job.phase.hasCalled = true → f.Called s.calls s.setup.store := by
    intro calling
    obtain ⟨g, found', called⟩ := rendered.called at_ calling
    obtain rfl := Option.some.inj (found.symm.trans found')
    exact called
  rw [settle_setup, settle_jobs, settle_fractals, settle_calls]
  refine ⟨fun {j other} at' calling => ?_, fun {n g} found' ready => ?_⟩
  · rcases getElem?_set_cases at' with ⟨-, rfl⟩ | ⟨apart, at'⟩
    · refine ⟨after.fractal, ?_, steps.called_of_hasCalled fits i job.slot called calling⟩
      rw [steps.fractal_eq]
      exact List.getElem?_set_self inside
    · obtain ⟨g, found', called⟩ := rendered.called at' calling
      -- Only one job at work has the fractal of this step.
      have elsewhere : job.fractal ≠ other.fractal := fun same =>
        apart (custody.alone ward (custody.guarded at' (Phase.isOver_of_hasCalled calling)) at_ at'
          same.symm)
      exact ⟨g, by rwa [List.getElem?_set_ne elsewhere], called.append _⟩
  · rcases getElem?_set_cases found' with ⟨-, rfl⟩ | ⟨-, found'⟩
    · by_cases before : f.state = .ready
      · rw [steps.fractal_same fits (by rw [before]; nofun)]
        exact (rendered.ready found before).append _
      · exact (steps.called_of_ready called before ready).append _
    · exact (rendered.ready found' ready).append _

theorem restore {s : Studio} (rendered : Rendered s.setup.store s.calls s.jobs s.fractals) (n : Nat) :
    Rendered s.setup.store s.calls s.jobs (s.restore n).fractals := by
  cases found : s.fractals[n]? with
  | none =>
      have same : s.restore n = s := by rw [Studio.restore, found]
      rwa [same]
  | some f =>
      by_cases rendering : f.state = .rendering
      · rw [restore_of_rendering found rendering]
        exact rendered.set found rfl fun impossible => by cases impossible
      · rwa [restore_of_settled found rendering]

theorem direct {s t : Studio} {c c' : Course}
    (rendered : Rendered s.setup.store s.calls s.jobs s.fractals) (directs : Directs s c c' t) :
    Rendered t.setup.store t.calls t.jobs t.fractals := by
  have still : ∀ {n : Nat} {f : Fractal}, s.fractals[n]? = some f →
      ∃ g, s.fractals[n]? = some g ∧ g.request s.setup.store = f.request s.setup.store :=
    fun found => ⟨_, found, rfl⟩
  cases directs with
  | claim found _ =>
      rw [fractals_modifyFractal found]
      exact rendered.set found rfl nofun
  | launch _ =>
      refine rendered.touch (fun at_ calling => ?_) still fun found _ => found
      rcases getElem?_concat_cases at_ with at_ | ⟨-, rfl⟩
      · exact ⟨_, at_, rfl, rfl⟩
      · cases calling
  | @raise j _ _ =>
      refine rendered.touch (fun {i job} at_ _ => ?_) still fun found _ => found
      obtain ⟨before, origin, rfl⟩ := exists_askedAt at_
      exact ⟨before, origin, (Job.askedAt_phase ..).symm, (Job.askedAt_fractal ..).symm⟩
  | @restore _ _ job _ =>
      rw [restore_setup, restore_calls, restore_jobs]
      exact rendered.restore job.fractal
  | _ => exact rendered

/-- New fractals wait for their first job. -/
theorem extend {children : List Fractal} (rendered : Rendered store calls jobs fractals)
    (unready : ∀ child ∈ children, child.state ≠ .ready) :
    Rendered store calls jobs (fractals ++ children) := by
  refine rendered.touch (fun at_ _ => ⟨_, at_, rfl, rfl⟩) (fun found => ⟨_, ?_, rfl⟩)
    fun found ready => ?_
  · rw [List.getElem?_append_left (List.getElem?_eq_some_iff.mp found).1]
    exact found
  · rcases getElem?_append_cases found with found | ⟨-, found⟩
    · exact found
    · exact absurd ready (unready _ (List.mem_of_getElem? found))

end Rendered

end Rendered

/-- The thread of a job that was promised cannot be started: the fractal waits once more. -/
def refuse (s : Studio) : Option Studio :=
  match s.agenda with
  | .launch _ f :: rest =>
    match s.source.draw Draws.word with
    | .ok (_, source) =>
      some { s.modifyFractal f ({ · with state := .pending }) with source, agenda := rest }
    | .error _ => none
  | _ => none

theorem refuse_eq_some {s t : Studio} {c : Course} (agenda : s.agenda = c.tasks)
    (refused : s.refuse = some t) : ∃ slot n visits source, c = .render (.launching slot n) visits ∧
      t = { s.modifyFractal n ({ · with state := .pending }) with
        source, agenda := (Course.render .rest visits).tasks } := by
  unfold refuse at refused
  cases c with
  | render errand visits =>
      cases errand with
      | launching slot n =>
          rw [agenda] at refused
          dsimp only [Course.tasks, Errand.tasks, List.cons_append, List.nil_append] at refused
          split at refused
          next source _ =>
            cases refused
            exact ⟨slot, n, visits, source, rfl, rfl⟩
          next => cases refused
      | rest =>
          cases visits with
          | nil =>
              rw [agenda] at refused
              cases refused
          | cons visit visits =>
              rw [agenda] at refused
              cases refused
      | _ =>
          rw [agenda] at refused
          cases refused
  | stop raises joins =>
      rw [agenda] at refused
      cases raises with
      | cons j raises => cases refused
      | nil => cases joins <;> cases refused
  | restore j joins =>
      rw [agenda] at refused
      cases refused

/-- The director comes to no fractal that is finished. -/
theorem Directs.finished {s t : Studio} {rogue : Prop} {current : List Nat} {c c' : Course}
    (directs : Directs s c c' t) (governed : Governed rogue current c s) {n : Nat} {f : Fractal}
    (found : s.fractals[n]? = some f) (finished : f.IsFinished) : t.fractals[n]? = some f := by
  cases directs with
  | @claim _ m _ claimed at_ _ =>
      obtain ⟨-, ⟨g, found', waiting⟩, -⟩ := governed.sound.1
      have apart : m ≠ n := by
        rintro rfl
        obtain rfl := Option.some.inj (found.symm.trans found')
        obtain ⟨-, unready, unfailed⟩ := RenderState.ne_of_waiting waiting
        exact finished.elim unready unfailed
      rwa [fractals_modifyFractal at_, List.getElem?_set_ne apart]
  | @restore _ _ job _ =>
      cases found' : s.fractals[job.fractal]? with
      | none =>
          have same : s.restore job.fractal = s := by rw [Studio.restore, found']
          rwa [same]
      | some g =>
          by_cases rendering : g.state = .rendering
          · have apart : job.fractal ≠ n := by
              rintro rfl
              obtain rfl := Option.some.inj (found.symm.trans found')
              exact finished.settled rendering
            rw [restore_of_rendering found' rendering]
            rwa [List.getElem?_set_ne apart]
          · rwa [restore_of_settled found' rendering]
  | _ => exact found

theorem Works.finished {s t : Studio} {rogue : Prop} {current : List Nat} {c : Course} {i : Nat}
    {reply : Reply} (works : Works s i reply t) (governed : Governed rogue current c s) {n : Nat}
    {f : Fractal} (found : s.fractals[n]? = some f) (finished : f.IsFinished) :
    t.fractals[n]? = some f := by
  obtain @⟨job, g, after, notice, at_, working, housed, steps⟩ := works
  have custody := governed.custody
  have fits : job.Fits rogue s.setup.store g :=
    custody.fits (custody.guarded at_ working) at_ housed
  rw [settle_fractals]
  exact steps.getElem?_set fits housed found finished.settled

end Studio

/-- What can happen to a session, and to what it works with. -/
inductive Incident where
  | move (move : Move)
  /-- Anybody, such as a renderer that touches more than its file, changes the disk. -/
  | disturb (disk : Disk)
  | refuse

namespace Session

open Studio (Course Custody Governed Works Directs Rendered)

def undergo? (s : Session) : Incident → Option Session
  | .move move => s.move? move
  | .disturb disk => some { s with studio := { s.studio with disk } }
  | .refuse => s.studio.refuse.map fun studio => { s with studio }

def live? (s : Session) : List Incident → Option Session
  | [] => some s
  | incident :: rest => (s.undergo? incident).bind (·.live? rest)

theorem live?_map_move (s : Session) (moves : List Move) :
    s.live? (moves.map .move) = s.follow? moves := by
  induction moves generalizing s with
  | nil => rfl
  | cons move rest ih =>
      rw [List.map_cons, live?, follow?, undergo?]
      cases s.move? move with
      | none => rfl
      | some t => exact ih t

/-- The generation is one of those of the history. -/
def Has (s : Session) (g : List Nat) : Prop :=
  g = s.history.current ∨ (∃ shown ∈ s.history.past, shown.members = g) ∨
    ∃ shown ∈ s.history.future, shown.members = g

/-- What a finished fractal is to the session from then on. -/
structure Keeps (s t : Session) (n : Nat) (f : Fractal) : Prop where
  unchanged : t.studio.fractals[n]? = some f
  /-- The generations that show it are those that showed it, slot for slot. -/
  generation : n ∈ t.history.current → s.Has t.history.current
  shown : ∀ slot : Nat, t.history.current[slot]? = some n →
    t.draw slot = (t, f.image.elim .placeholder .image) ∧
      t.viewerArguments slot = some f.genome.arguments
  /-- Breeding from it uses it as it was when it was finished. -/
  bred : ∀ i : Nat, t.history.picked[i]? = some n → t.parents[i]? = some f
  /-- Its picture was asked for with its own genes. -/
  rendered : f.state = .ready → f.Called s.studio.calls s.studio.setup.store ∧
    ∃ image, f.image = some image ∧ image.identity = f.id

/-- What of a session is left in a later one. -/
structure Since (s t : Session) : Prop where
  finished : ∀ {n : Nat} {f : Fractal}, s.studio.fractals[n]? = some f → f.IsFinished →
    t.studio.fractals[n]? = some f
  longer : s.studio.fractals.length ≤ t.studio.fractals.length
  generations : t.history.All fun g => s.Has g ∨ ∀ n ∈ g, s.studio.fractals.length ≤ n

variable {c c' : Course} {s t u : Session}

theorem Since.refl (s : Session) : s.Since s where
  finished found _ := found
  longer := Nat.le_refl _
  generations := ⟨.inl (.inl rfl), fun g member => .inl (.inr (.inl ⟨g, member, rfl⟩)),
    fun g member => .inl (.inr (.inr ⟨g, member, rfl⟩))⟩

/-- The same fractals and the same generations, or other generations of those there were. -/
theorem Since.pass (since : s.Since t) (fractals : ∀ {n : Nat} {f : Fractal},
      t.studio.fractals[n]? = some f → f.IsFinished → u.studio.fractals[n]? = some f)
    (length : u.studio.fractals.length = t.studio.fractals.length)
    (generations : u.history.All fun g => s.Has g ∨ ∀ n ∈ g, s.studio.fractals.length ≤ n) :
    s.Since u where
  finished found finished := fractals (since.finished found finished) finished
  longer := length ▸ since.longer
  generations := generations

theorem Since.moved {move : Move} (since : s.Since t) (sound : t.Sound True c)
    (moves : Moved t c move u c') : s.Since u := by
  cases moves with
  | picked picks repaints _ =>
      exact since.pass (fun found _ => found) rfl
        ⟨since.generations.current, since.generations.past, since.generations.future⟩
  | replaced _ _ _ => exact since.pass (fun found _ => found) rfl since.generations
  | drawn _ _ _ _ _ => exact since.pass (fun found _ => found) rfl since.generations
  | directed directs =>
      exact since.pass (fun found finished => directs.finished sound.studio found finished)
        directs.length_fractals since.generations
  | bred _ _ =>
      refine ⟨fun found finished => ?_, ?_, ?_⟩
      · have found := since.finished found finished
        rw [List.getElem?_append_left (List.getElem?_eq_some_iff.mp found).1]
        exact found
      · rw [List.length_append]
        exact Nat.le_add_right_of_le since.longer
      · refine since.generations.advance (.inr fun n member => ?_)
        exact since.longer.trans (List.mem_range'_1.mp member).1
  | wentBack _ => exact since.pass (fun found _ => found) rfl since.generations.back
  | wentForward _ => exact since.pass (fun found _ => found) rfl since.generations.forward
  | started _ _ => exact since.pass (fun found _ => found) rfl since.generations
  | repainted _ => exact since.pass (fun found _ => found) rfl since.generations
  | worked works =>
      exact since.pass (fun found finished => works.finished sound.studio found finished)
        works.length_fractals since.generations
  | scribbled scribbled =>
      obtain ⟨_, _, _, -, -, rfl, -⟩ := Studio.scribble_cases scribbled
      exact since.pass (fun found _ => found) rfl since.generations

/-- A session as it can be reached, whatever happens to it. -/
structure Alive (c : Course) (s : Session) : Prop where
  sound : s.Sound True c
  rendered : Rendered s.studio.setup.store s.studio.calls s.studio.jobs s.studio.fractals

namespace Alive

theorem fresh (settings : Settings) (breeding rendering : Source) (disk : Disk) :
    (fresh settings breeding rendering disk).Alive .rest :=
  ⟨.fresh settings breeding rendering disk, .empty _⟩

theorem moved {move : Move} (alive : s.Alive c) (moves : Moved s c move t c') : t.Alive c' := by
  refine ⟨alive.sound.moved moves (.inr trivial), ?_⟩
  have rendered := alive.rendered
  cases moves with
  | picked _ _ _ | replaced _ _ _ | drawn _ _ _ _ _ | wentBack _ | wentForward _ | started _ _
  | repainted _ => exact rendered
  | directed directs =>
      have after := rendered.direct directs
      exact after
  | bred _ drawn =>
      have litter := Source.draw_of_ensures (Litter.ensures_breed s.settings.genetic s.parents) drawn
      refine rendered.extend fun child member => ?_
      rw [(litter.bred child member).pending]
      nofun
  | worked works => exact rendered.work alive.sound.studio.custody works
  | scribbled scribbled =>
      obtain ⟨_, _, _, -, -, rfl, -⟩ := Studio.scribble_cases scribbled
      exact rendered

theorem disturbed (alive : s.Alive c) (disk : Disk) :
    Alive c { s with studio := { s.studio with disk } } :=
  ⟨⟨⟨alive.sound.studio.agenda, alive.sound.studio.sound, alive.sound.studio.custody⟩,
    alive.sound.stage, alive.sound.generations⟩, alive.rendered⟩

/-- A fractal whose job could not be started is nobody's again. -/
theorem refused {slot n : Nat} {visits : List (Nat × Nat)} {f : Fractal}
    (alive : s.Alive (.render (.launching slot n) visits)) (found : s.studio.fractals[n]? = some f)
    (source : Source) : Alive (.render .rest visits)
      { s with studio := { s.studio with
        source
        fractals := s.studio.fractals.set n { f with state := .pending }
        agenda := (Course.render .rest visits).tasks } } := by
  obtain ⟨⟨governed, stage, generations⟩, rendered⟩ := alive
  have custody := governed.custody
  obtain ⟨⟨g, found', rendering⟩, free⟩ := custody.pledged rfl
  obtain rfl := Option.some.inj (found.symm.trans found')
  have sound : f.Sound := custody.sound f (List.mem_of_getElem? found)
  refine ⟨⟨⟨rfl, ⟨trivial, governed.sound.2⟩, ?_⟩, ?_, ?_⟩, rendered.set found rfl nofun⟩
  · have waits : ({ f with state := .pending } : Fractal).Sound :=
      sound.enter (by rw [rendering]; nofun) nofun
    exact custody.change (.inr rfl) free found waits rfl
  · exact .rendering (stage.requested_of_busy nofun)
  · dsimp only
    rw [List.length_set]
    exact generations

end Alive

/-- What one incident leaves of everything before it. -/
theorem Since.undergo {incident : Incident} (since : s.Since t) (alive : t.Alive c)
    (underwent : t.undergo? incident = some u) : ∃ c', u.Alive c' ∧ s.Since u := by
  cases incident with
  | move move =>
      obtain ⟨c', moved⟩ := moved_of_move? alive.sound.studio.agenda underwent
      exact ⟨c', alive.moved moved, since.moved alive.sound moved⟩
  | disturb disk =>
      cases underwent
      exact ⟨c, alive.disturbed disk, since.pass (fun found _ => found) rfl since.generations⟩
  | refuse =>
      obtain ⟨studio, refused, rfl⟩ := Option.map_eq_some_iff.mp underwent
      obtain ⟨slot, n, visits, source, rfl, rfl⟩ :=
        Studio.refuse_eq_some alive.sound.studio.agenda refused
      obtain ⟨f, found, rendering⟩ := (alive.sound.studio.custody.pledged rfl).1
      have set := Studio.fractals_modifyFractal found ({ · with state := .pending })
      have same : ({ t.studio.modifyFractal n ({ · with state := .pending }) with
          source, agenda := (Course.render .rest visits).tasks } : Studio) =
          { t.studio with
            source
            fractals := t.studio.fractals.set n { f with state := .pending }
            agenda := (Course.render .rest visits).tasks } := by
        rw [← set]
        rfl
      rw [same]
      refine ⟨_, alive.refused found source, since.pass (fun {m g} found' finished => ?_) ?_
        since.generations⟩
      · have apart : n ≠ m := by
          rintro rfl
          obtain rfl := Option.some.inj (found.symm.trans found')
          exact finished.settled rendering
        dsimp only
        rwa [List.getElem?_set_ne apart]
      · exact List.length_set

theorem Since.live {incidents : List Incident} (since : s.Since t) (alive : t.Alive c)
    (lived : t.live? incidents = some u) : ∃ c', u.Alive c' ∧ s.Since u := by
  induction incidents generalizing t c with
  | nil =>
      obtain rfl := Option.some.inj lived
      exact ⟨c, alive, since⟩
  | cons incident rest ih =>
      obtain ⟨between, underwent, lived⟩ := Option.bind_eq_some_iff.mp lived
      obtain ⟨c', alive, since⟩ := since.undergo alive underwent
      exact ih since alive lived

section Shown

variable {n : Nat} {f : Fractal}

/-- The parents are the picked fractals, in their order. -/
theorem Alive.getElem?_parents (alive : s.Alive c) {i : Nat}
    (picked : s.history.picked[i]? = some n) (found : s.studio.fractals[n]? = some f) :
    s.parents[i]? = some f := by
  have inside : ∀ m ∈ s.history.picked, m < s.studio.fractals.length := by
    intro m member
    obtain ⟨slot, -, shown⟩ := List.mem_filterMap.mp member
    exact alive.sound.generations.current.2.1 m (List.mem_of_getElem? shown)
  have parents : s.parents.map some = s.history.picked.map (s.studio.fractals[·]?) := by
    rw [parents, List.map_filterMap_some_eq_filter_map_isSome, List.filter_eq_self]
    intro entry member
    obtain ⟨m, picked, rfl⟩ := List.mem_map.mp member
    rw [List.getElem?_eq_getElem (inside m picked)]
    rfl
  have at_ := congrArg (·[i]?) parents
  simpa [List.getElem?_map, picked, found] using at_

theorem fractal?_of_shown {slot : Nat} (shown : s.history.current[slot]? = some n)
    (found : s.studio.fractals[n]? = some f) : s.fractal? slot = some f := by
  rw [fractal?, shown]
  exact found

end Shown

/-- A finished fractal is frozen: whatever is asked for afterwards, in whatever way the jobs and the
director take turns, and whatever renderers do, it stays as it is, and it is shown and bred from as
it is. -/
theorem finished_frozen (settings : Settings) (breeding rendering : Source) (disk : Disk)
    (before later : List Incident) {s t : Session} {n : Nat} {f : Fractal}
    (began : (fresh settings breeding rendering disk).live? before = some s)
    (lived : s.live? later = some t) (found : s.studio.fractals[n]? = some f)
    (finished : f.IsFinished) : s.Keeps t n f := by
  obtain ⟨c, alive, -⟩ :=
    (Since.refl _).live (Alive.fresh settings breeding rendering disk) began
  obtain ⟨c', alive', since⟩ := (Since.refl s).live alive lived
  have sound : f.Sound := alive.sound.studio.custody.sound f (List.mem_of_getElem? found)
  have unchanged := since.finished found finished
  refine ⟨unchanged, fun member => ?_, fun slot shown => ⟨?_, ?_⟩, fun i picked => ?_,
    fun ready => ⟨alive.rendered.ready found ready, ?_⟩⟩
  · refine since.generations.current.resolve_right fun later => ?_
    exact absurd (List.getElem?_eq_some_iff.mp found).1 (Nat.not_lt_of_le (later n member))
  · refine draw_of_not_waiting shown unchanged sound fun waiting => ?_
    obtain ⟨-, unready, unfailed⟩ := RenderState.ne_of_waiting waiting
    exact finished.elim unready unfailed
  · rw [viewerArguments, fractal?_of_shown shown unchanged]
    rfl
  · exact alive'.getElem?_parents picked unchanged
  · obtain ⟨image, held⟩ := Option.isSome_iff_exists.mp (sound.shown.mp ready)
    exact ⟨image, held, sound.own image held⟩

/-- The first fractal gets its picture before the other jobs start. -/
def finishing : List Move := opening ++ List.replicate 12 (.work 0 dot)

/-- The next job cannot be started and the disk is emptied. Then the first fractal is picked, and the
other jobs are stopped for the next generation. -/
def upheaval : List Incident :=
  List.replicate 4 (.move .direct) ++ [.refuse, .disturb ⟨[], []⟩] ++
    List.replicate 36 (.move .direct) ++
    [.move (.ask (.select (Picks.ofSlots [0]))), .move (.ask .generate)] ++
    List.replicate 7 (.move .direct) ++
    (List.range' 1 7).flatMap (fun i =>
      List.replicate 5 (.move (.work i dot)) ++ [.move .direct, .move .direct]) ++
    [.move .direct]

theorem live?_upheaval : (small.live? (finishing.map .move)).any (fun s =>
    s.studio.stateOf? 0 == some .ready && (s.live? upheaval).isSome) = true := by
  have known : finishing = prelude ++ finishing.drop 3 := rfl
  rw [live?_map_move, known, small_eq, follow?_prelude (Litter.breed_firstborn rfl rfl)]
  decide +kernel

theorem finished_frozen_upheaval : ∃ s t f, small.live? (finishing.map .move) = some s ∧
    s.live? upheaval = some t ∧ s.studio.fractals[0]? = some f ∧ f.IsFinished ∧ s.Keeps t 0 f := by
  obtain ⟨s, began, left⟩ := (Option.any_eq_true _ _).mp live?_upheaval
  obtain ⟨ready, lived⟩ := Bool.and_eq_true_iff.mp left
  obtain ⟨t, lived⟩ := Option.isSome_iff_exists.mp lived
  obtain ⟨f, found, state⟩ := Option.map_eq_some_iff.mp (beq_iff_eq.mp ready)
  exact ⟨s, t, f, began, lived, found, .inl state,
    finished_frozen _ _ _ _ _ upheaval began lived found (.inl state)⟩

end Session

end FractalBreeder
