import FractalBreeder.Proofs.Rendering.Leftovers
import FractalBreeder.Proofs.Rendering.Telling
import FractalBreeder.Proofs.Session.Agreement
import FractalBreeder.Proofs.Session.Attendance
import Mathlib.Data.Nat.Find

/-!
Nothing is left half done once all jobs are stopped. Every job has told how it left its fractal, and
the last one on a fractal left it as it is found.
-/
namespace FractalBreeder.Session

open Bench (Steps)
open Studio (Course Custody Governed Works Directs Worked Painted Tidy)

/-- The events that a job sends by one move. -/
def sentIn (i : Nat) (s : Session) (move : Move) (t : Session) : List RenderEvent :=
  match move with
  | .work j _ => if j = i then t.studio.events.drop s.studio.events.length else []
  | _ => []

/-- The events that a job sends in the course of a run. -/
def sentBy (i : Nat) : Session → List Move → List RenderEvent
  | _, [] => []
  | s, move :: rest =>
    match s.move? move with
    | none => []
    | some t => sentIn i s move t ++ sentBy i t rest

/-- What each move preserves of a session and of what its jobs have sent holds after a run. -/
theorem follow_sent {inv : Course → (Nat → List RenderEvent) → Session → Prop}
    {may : Session → Move → Prop} (agenda : ∀ {c log s}, inv c log s → s.studio.agenda = c.tasks)
    (step : ∀ {c log s move t c'}, inv c log s → may s move → Moved s c move t c' →
      inv c' (fun i => log i ++ sentIn i s move t) t)
    {moves : List Move} {c : Course} {log : Nat → List RenderEvent} {s t : Session}
    (before : inv c log s) (each : s.Each may moves) (followed : s.follow? moves = some t) :
    ∃ c', inv c' (fun i => log i ++ sentBy i s moves) t := by
  induction moves generalizing s c log with
  | nil =>
      obtain rfl := Option.some.inj followed
      refine ⟨c, ?_⟩
      simp only [sentBy, List.append_nil]
      exact before
  | cons move rest ih =>
      obtain ⟨between, moves, followed⟩ := Option.bind_eq_some_iff.mp followed
      obtain ⟨c', moved⟩ := moved_of_move? (agenda before) moves
      obtain ⟨c'', last⟩ := ih (step before each.1 moved) (each.2 between moves) followed
      refine ⟨c'', ?_⟩
      simp only [sentBy, moves, ← List.append_assoc]
      exact last

/-- What the jobs have told so far. Those that are no wards any more ended, and the event of the last
one on a fractal says how it is, unless it is rendered anew. -/
structure Chronicle (c : Course) (log : Nat → List RenderEvent) (s : Session) : Prop where
  wards : ∀ {i : Nat} {job : Job} {f : Fractal}, i ∈ c.wards s.studio.held →
    s.studio.jobs[i]? = some job → s.studio.fractals[job.fractal]? = some f → job.Told f (log i)
  past : ∀ {i : Nat} {job : Job} {f : Fractal}, i ∉ c.wards s.studio.held →
    s.studio.jobs[i]? = some job → s.studio.fractals[job.fractal]? = some f → job.phase ≠ .dead →
    ∃ state, Job.Ended job.slot state (log i) ∧
      ((∃ k other, i < k ∧ s.studio.jobs[k]? = some other ∧ other.fractal = job.fractal) ∨
        f.state = .rendering ∨ f.state = state)
  silent : ∀ i, s.studio.jobs.length ≤ i → log i = []

namespace Chronicle

variable {c c' : Course} {log : Nat → List RenderEvent} {s t : Session} {move : Move}

theorem work {i : Nat} {reply : Reply} {studio : Studio} (chronicle : s.Chronicle c log)
    (sound : s.Sound False c) (works : Works s.studio i reply studio) :
    Chronicle c
      (fun j => log j ++ if i = j then studio.events.drop s.studio.events.length else [])
      { s with studio } := by
  obtain @⟨job, f, after, notice, at_, working, found, steps⟩ := works
  have custody := sound.studio.custody
  have ward := custody.guarded at_ working
  have fits : job.Fits False s.studio.setup.store f := custody.fits ward at_ found
  have place : after.job.fractal = job.fractal := steps.fractal_eq
  exact {
    wards {j other g} member at' found' := by
      rw [Studio.settle_held] at member
      rw [Studio.settle_jobs] at at'
      rw [Studio.settle_fractals] at found'
      rw [Studio.drop_settle_events]
      rcases getElem?_set_cases at' with ⟨rfl, rfl⟩ | ⟨apart, at'⟩
      · rw [if_pos rfl]
        rcases getElem?_set_cases found' with ⟨-, rfl⟩ | ⟨apart, -⟩
        · exact steps.told fits (chronicle.wards ward at_ found)
        · exact absurd place apart
      · rw [if_neg (Ne.symm apart), List.append_nil]
        rcases getElem?_set_cases found' with ⟨same, rfl⟩ | ⟨-, found'⟩
        · exact absurd (custody.alone ward member at_ at' same) apart
        · exact chronicle.wards member at' found'
    past {j other g} member at' found' alive := by
      rw [Studio.settle_held] at member
      rw [Studio.settle_jobs] at at' ⊢
      rw [Studio.settle_fractals] at found'
      have apart : j ≠ i := by
        rintro rfl
        exact member ward
      rw [List.getElem?_set_ne (Ne.symm apart)] at at'
      obtain ⟨h, housed⟩ := custody.housed at'
      obtain ⟨state, ended, left⟩ := chronicle.past member at' housed alive
      rw [if_neg (Ne.symm apart), List.append_nil]
      refine ⟨state, ended, ?_⟩
      have bound : i < s.studio.jobs.length := (List.getElem?_eq_some_iff.mp at_).1
      by_cases same : other.fractal = job.fractal
      · have later : j ≤ i := custody.latest ward at_ at' same
        exact .inl ⟨i, after.job, by omega, by simp [bound], by rw [same]; exact place⟩
      · rw [List.getElem?_set_ne (Ne.symm same)] at found'
        obtain rfl := Option.some.inj (housed.symm.trans found')
        rcases left with ⟨k, third, later, at'', same'⟩ | left
        · refine .inl ⟨k, third, later, ?_, same'⟩
          rw [List.getElem?_set_ne]
          · exact at''
          · rintro rfl
            obtain rfl := Option.some.inj (at_.symm.trans at'')
            exact same same'.symm
        · exact .inr left
    silent j long := by
      rw [Studio.settle_jobs, List.length_set] at long
      have apart : i ≠ j := by
        rintro rfl
        exact absurd (List.getElem?_eq_some_iff.mp at_).1 (Nat.not_lt_of_le long)
      rw [if_neg apart, List.append_nil]
      exact chronicle.silent j long }

/-- The director lets go of jobs that are over. -/
theorem release {studio : Studio} (chronicle : s.Chronicle c log)
    (jobs : studio.jobs = s.studio.jobs) (fractals : studio.fractals = s.studio.fractals)
    (sub : ∀ j ∈ c'.wards studio.held, j ∈ c.wards s.studio.held)
    (halted : ∀ {j : Nat} {job : Job} {f : Fractal}, j ∈ c.wards s.studio.held →
      j ∉ c'.wards studio.held → s.studio.jobs[j]? = some job →
      s.studio.fractals[job.fractal]? = some f → job.isOver = true ∧ f.state.settled = f.state) :
    Chronicle c' log { s with studio } where
  wards member at_ found := by
    rw [jobs] at at_
    rw [fractals] at found
    exact chronicle.wards (sub _ member) at_ found
  past {i job f} member at_ found alive := by
    rw [jobs] at at_ ⊢
    rw [fractals] at found
    by_cases ward : i ∈ c.wards s.studio.held
    · obtain ⟨finished, settled⟩ := halted ward member at_ found
      have ended := (chronicle.wards ward at_ found).ended finished alive
      rw [settled] at ended
      exact ⟨f.state, ended, .inr (.inr rfl)⟩
    · exact chronicle.past ward at_ found alive
  silent i long := by
    rw [jobs] at long
    exact chronicle.silent i long

/-- A task that leaves the jobs and the fractals alone. -/
theorem keep {studio : Studio} (chronicle : s.Chronicle c log)
    (wards : c'.wards studio.held = c.wards s.studio.held) (jobs : studio.jobs = s.studio.jobs)
    (fractals : studio.fractals = s.studio.fractals) : Chronicle c' log { s with studio } where
  wards member at_ found := by
    rw [wards] at member
    rw [jobs] at at_
    rw [fractals] at found
    exact chronicle.wards member at_ found
  past member at_ found alive := by
    rw [wards] at member
    rw [jobs] at at_ ⊢
    rw [fractals] at found
    exact chronicle.past member at_ found alive
  silent i long := by
    rw [jobs] at long
    exact chronicle.silent i long

/-- A fractal without a ward is marked as rendering. -/
theorem claim {studio : Studio} {n : Nat} {g : Fractal} (chronicle : s.Chronicle c log)
    (sound : s.Sound False c) (wards : c'.wards studio.held = c.wards s.studio.held)
    (jobs : studio.jobs = s.studio.jobs) (fractals : studio.fractals = s.studio.fractals.set n g)
    (rendering : g.state = .rendering)
    (free : ∀ {j : Nat} {job : Job}, j ∈ c.wards s.studio.held → s.studio.jobs[j]? = some job →
      job.fractal ≠ n) : Chronicle c' log { s with studio } where
  wards member at_ found := by
    rw [wards] at member
    rw [jobs] at at_
    rw [fractals, List.getElem?_set_ne (free member at_).symm] at found
    exact chronicle.wards member at_ found
  past {i job f} member at_ found alive := by
    rw [wards] at member
    rw [jobs] at at_ ⊢
    rw [fractals] at found
    obtain ⟨h, housed⟩ := sound.studio.custody.housed at_
    obtain ⟨state, ended, left⟩ := chronicle.past member at_ housed alive
    refine ⟨state, ended, ?_⟩
    rcases getElem?_set_cases found with ⟨-, rfl⟩ | ⟨-, found⟩
    · exact .inr (.inl rendering)
    · obtain rfl := Option.some.inj (housed.symm.trans found)
      exact left
  silent i long := by
    rw [jobs] at long
    exact chronicle.silent i long

theorem launch {slot n : Nat} {visits : List (Nat × Nat)} {source words : Source} {agenda : List Task}
    (chronicle : s.Chronicle (.render (.launching slot n) visits) log) :
    Chronicle (.render .rest visits) log
      { s with studio := { s.studio with
        source := words
        jobs := s.studio.jobs ++ [{ slot, fractal := n, source }]
        held := s.studio.held ++ [s.studio.jobs.length]
        agenda } } where
  wards {i job f} member at_ found := by
    rcases getElem?_concat_cases at_ with at_ | ⟨rfl, rfl⟩
    · rcases List.mem_append.mp member with member | member
      · exact chronicle.wards member at_ found
      · rw [List.mem_singleton.mp member] at at_
        exact absurd (List.getElem?_eq_some_iff.mp at_).1 (Nat.lt_irrefl _)
    · rw [chronicle.silent _ (Nat.le_refl _)]
      exact rfl
  past {i job f} member at_ found alive := by
    rcases getElem?_concat_cases at_ with at_ | ⟨rfl, -⟩
    · obtain ⟨state, ended, left⟩ :=
        chronicle.past (fun ward => member (List.mem_append_left _ ward)) at_ found alive
      refine ⟨state, ended, ?_⟩
      rcases left with ⟨k, other, later, at', same⟩ | left
      · refine .inl ⟨k, other, later, ?_, same⟩
        rw [List.getElem?_append_left (List.getElem?_eq_some_iff.mp at').1]
        exact at'
      · exact .inr left
    · exact absurd (List.mem_append_right _ (List.mem_singleton.mpr rfl)) member
  silent i long := by
    rw [List.length_append] at long
    exact chronicle.silent i (Nat.le_of_add_right_le long)

theorem raise {raises joins : List Nat} {j : Nat} {agenda : List Task}
    (chronicle : s.Chronicle (.stop (j :: raises) joins) log) :
    Chronicle (.stop raises joins) log
      { s with studio := { s.studio with jobs := s.studio.jobs.modify j Job.asked, agenda } } := by
  refine ⟨fun member at_ found => ?_, fun {i job f} member at_ found alive => ?_, fun i long => ?_⟩
  · obtain ⟨before, origin, rfl⟩ := exists_askedAt at_
    rw [Job.askedAt_fractal] at found
    have told := chronicle.wards member origin found
    rw [Job.Told, Job.askedAt_phase, Job.askedAt_slot]
    exact told
  · obtain ⟨before, origin, rfl⟩ := exists_askedAt at_
    rw [Job.askedAt_fractal] at found ⊢
    rw [Job.askedAt_phase] at alive
    rw [Job.askedAt_slot]
    obtain ⟨state, ended, left⟩ := chronicle.past member origin found alive
    refine ⟨state, ended, ?_⟩
    rcases left with ⟨k, other, later, at', same⟩ | left
    · refine .inl ⟨k, other.askedAt j k, later, ?_, (Job.askedAt_fractal ..).trans same⟩
      rw [getElem?_modify_asked, at', Option.map_some]
    · exact .inr left
  · rw [List.length_modify] at long
    exact chronicle.silent i long

/-- A job was waited for, and what it left in the middle is put back. -/
theorem restore {j : Nat} {joins : List Nat} {job : Job} {agenda : List Task}
    (chronicle : s.Chronicle (.restore j joins) log) (sound : s.Sound False (.restore j joins))
    (at_ : s.studio.jobs[j]? = some job) :
    Chronicle (.stop [] joins) log
      { s with studio := { s.studio.restore job.fractal with agenda } } := by
  have custody := sound.studio.custody
  obtain ⟨f, found⟩ := custody.housed at_
  obtain ⟨-, halted, -⟩ := sound.studio.sound
  have alone : j ∉ joins := (List.nodup_cons.mp custody.once).1
  have free : ∀ {i : Nat} {other : Job}, i ∈ joins → s.studio.jobs[i]? = some other →
      other.fractal ≠ job.fractal := by
    intro i other member at' same
    have equal := custody.alone List.mem_cons_self (List.mem_cons_of_mem _ member) at_ at' same
    subst equal
    exact alone member
  by_cases rendering : f.state = .rendering
  · rw [Studio.restore_of_rendering found rendering]
    refine ⟨fun member at' found' => ?_, fun {i other g} member at' found' alive => ?_, chronicle.silent⟩
    · rw [List.getElem?_set_ne (free member at').symm] at found'
      exact chronicle.wards (List.mem_cons_of_mem _ member) at' found'
    · by_cases same : i = j
      · subst same
        obtain rfl := Option.some.inj (at_.symm.trans at')
        have ended := (chronicle.wards List.mem_cons_self at_ found).ended (halted at_) alive
        rw [rendering] at ended
        refine ⟨.pending, ended, .inr (.inr ?_)⟩
        rcases getElem?_set_cases found' with ⟨-, rfl⟩ | ⟨apart, -⟩
        · rfl
        · exact absurd rfl apart
      · have ward : i ∉ j :: joins := fun ward => (List.mem_cons.mp ward).elim same member
        obtain ⟨h, housed⟩ := custody.housed at'
        obtain ⟨state, ended, left⟩ := chronicle.past ward at' housed alive
        refine ⟨state, ended, ?_⟩
        by_cases shared : other.fractal = job.fractal
        · have later : i ≤ j := custody.latest List.mem_cons_self at_ at' shared
          exact .inl ⟨j, job, by omega, at_, shared.symm⟩
        · rw [List.getElem?_set_ne (Ne.symm shared)] at found'
          obtain rfl := Option.some.inj (housed.symm.trans found')
          exact left
  · rw [Studio.restore_of_settled found rendering]
    refine chronicle.release rfl rfl (fun i member => List.mem_cons_of_mem _ member) ?_
    intro i other g ward dropped at' found'
    have equal : i = j := (List.mem_cons.mp ward).resolve_right dropped
    subst equal
    obtain rfl := Option.some.inj (at_.symm.trans at')
    obtain rfl := Option.some.inj (found.symm.trans found')
    refine ⟨halted at_, ?_⟩
    cases state : f.state with
    | rendering => exact absurd state rendering
    | _ => rfl

theorem direct {studio : Studio} (chronicle : s.Chronicle c log) (sound : s.Sound False c)
    (directs : Directs s.studio c c' studio) :
    Chronicle c' log { s with studio := { studio with agenda := c'.tasks } } := by
  have custody := sound.studio.custody
  have plan := sound.studio.sound
  cases directs with
  | pass _ | find _ | meet _ | decline _ | greet _ | unmark | mark | join _ =>
      exact chronicle.keep rfl rfl rfl
  | reap =>
      refine chronicle.release rfl rfl (fun _ => List.mem_of_mem_filter) ?_
      intro j job f ward dropped at_ found
      have halted : job.isOver = true := by
        by_contra working
        exact dropped (List.mem_filter.mpr ⟨ward, by simpa [at_] using working⟩)
      refine ⟨halted, ?_⟩
      cases state : f.state with
      | rendering =>
          rcases (custody.fits ward at_ found).excused halted state with raised | impossible
          · rw [plan.2.2 ward at_] at raised
            cases raised
          · exact impossible.elim
      | _ => rfl
  | claim found _ =>
      exact chronicle.claim sound rfl rfl (Studio.fractals_modifyFractal found _) rfl plan.1.2.2
  | launch _ => exact chronicle.launch
  | raise => exact chronicle.raise
  | restore at_ => exact chronicle.restore sound at_
  | forget missing =>
      obtain ⟨job, at_⟩ := custody.staffed _ List.mem_cons_self
      rw [missing] at at_
      cases at_
  | clear => exact chronicle.keep plan.1 rfl rfl

/-- The generation on show, the duties and the words for breeding play no part. -/
theorem bred {studio : Studio} {children : List Fractal} (chronicle : s.Chronicle c log)
    (sound : s.Sound False c) (jobs : studio.jobs = s.studio.jobs)
    (held : studio.held = s.studio.held) (fractals : studio.fractals = s.studio.fractals ++ children) :
    Chronicle c log { s with studio } := by
  have old : ∀ {i : Nat} {job : Job} {f : Fractal}, s.studio.jobs[i]? = some job →
      studio.fractals[job.fractal]? = some f → s.studio.fractals[job.fractal]? = some f := by
    intro i job f at_ found
    obtain ⟨g, housed⟩ := sound.studio.custody.housed at_
    rw [fractals, List.getElem?_append_left (List.getElem?_eq_some_iff.mp housed).1] at found
    exact found
  refine ⟨fun member at_ found => ?_, fun member at_ found alive => ?_, fun i long => ?_⟩
  · rw [held] at member
    rw [jobs] at at_
    exact chronicle.wards member at_ (old at_ found)
  · rw [held] at member
    rw [jobs] at at_ ⊢
    exact chronicle.past member at_ (old at_ found) alive
  · rw [jobs] at long
    exact chronicle.silent i long

end Chronicle

/-- What is known of a session in which nothing goes wrong: the flags, the files and the events. -/
structure Kept (c : Course) (log : Nat → List RenderEvent) (s : Session) : Prop where
  sound : s.Sound False c
  flagged : s.Flagged c
  tidy : Tidy s.studio.setup.store s.studio.disk s.studio.jobs s.studio.fractals
  chronicle : s.Chronicle c log

namespace Kept

variable {c c' : Course} {log : Nat → List RenderEvent} {s t : Session} {move : Move}

theorem fresh (settings : Settings) (breeding rendering : Source) (disk : Disk) :
    (fresh settings breeding rendering disk).Kept .rest fun _ => [] where
  sound := .fresh settings breeding rendering disk
  flagged := .fresh settings breeding rendering disk
  tidy n f worked := by
    obtain ⟨j, job, at_, -⟩ := worked
    cases at_
  chronicle := ⟨fun _ at_ => (by cases at_), fun _ at_ => (by cases at_), fun _ _ => rfl⟩

theorem moved (kept : s.Kept c log) (moves : Moved s c move t c') (lawful : s.Lawful move)
    (removable : s.studio.Removable) : t.Kept c' fun i => log i ++ sentIn i s move t := by
  have sound := kept.sound.moved moves (.inl lawful)
  have flagged := kept.flagged.moved kept.sound moves
  have governed := kept.sound.studio
  suffices rest : Tidy t.studio.setup.store t.studio.disk t.studio.jobs t.studio.fractals ∧
      t.Chronicle c' fun i => log i ++ sentIn i s move t from ⟨sound, flagged, rest.1, rest.2⟩
  have quiet : (∀ i reply, move ≠ .work i reply) →
      (fun i => log i ++ sentIn i s move t) = log := by
    intro other
    funext i
    unfold sentIn
    split
    next j reply => exact absurd rfl (other j reply)
    next => exact List.append_nil _
  cases moves with
  | picked picks repaints _ =>
      rw [quiet nofun]
      exact ⟨kept.tidy, kept.chronicle.wards, kept.chronicle.past, kept.chronicle.silent⟩
  | replaced _ _ _ =>
      rw [quiet nofun]
      exact ⟨kept.tidy, kept.chronicle.wards, kept.chronicle.past, kept.chronicle.silent⟩
  | drawn _ _ _ _ _ =>
      rw [quiet nofun]
      exact ⟨kept.tidy, kept.chronicle.wards, kept.chronicle.past, kept.chronicle.silent⟩
  | directed directs =>
      rw [quiet nofun]
      have tidy := Studio.tidy_direct kept.tidy governed removable directs
      exact ⟨tidy, kept.chronicle.direct kept.sound directs⟩
  | @bred rest children source _ _ =>
      rw [quiet nofun]
      have bred : Chronicle .rest log
          { s with studio := { s.studio with fractals := s.studio.fractals ++ children } } :=
        kept.chronicle.bred kept.sound rfl rfl rfl
      exact ⟨kept.tidy.extend governed.custody.housed, bred.wards, bred.past, bred.silent⟩
  | wentBack _ | wentForward _ | repainted _ | started _ _ =>
      rw [quiet nofun]
      exact ⟨kept.tidy, kept.chronicle.wards, kept.chronicle.past, kept.chronicle.silent⟩
  | worked works =>
      exact ⟨Studio.tidy_work kept.tidy governed removable works, kept.chronicle.work kept.sound works⟩
  | scribbled scribbled =>
      rw [quiet nofun]
      have tidy := Studio.tidy_scribble kept.tidy governed scribbled
      obtain ⟨_, _, _, -, -, rfl, -⟩ := Studio.scribble_cases scribbled
      exact ⟨tidy, kept.chronicle.wards, kept.chronicle.past, kept.chronicle.silent⟩

theorem follow {moves : List Move} (kept : s.Kept c log) (lawful : s.Each Lawful moves)
    (removable : s.Each (fun s _ => s.studio.Removable) moves) (followed : s.follow? moves = some t) :
    ∃ c', t.Kept c' fun i => log i ++ sentBy i s moves :=
  follow_sent (fun kept => kept.sound.studio.agenda)
    (fun kept may moved => kept.moved moved may.1 may.2) kept (lawful.and removable) followed

end Kept

/-- How the last job of a fractal left it, by the last event of the job. -/
inductive Left (s : Session) (f : Fractal) : RenderEvent → Prop where
  | ready {slot : Nat} {identity : String} {attempts regenerations : UInt32} {image : Image} :
      f.state = .ready → f.image = some image → Left s f (.ready slot identity attempts regenerations)
  | failed {slot : Nat} {identity reason : String} : f.state = .failed →
      Left s f (.failed slot identity reason)
  | pending {slot : Nat} : f.state = .pending → f.image = none → f.id = f.genome.identity →
      ¬ s.studio.disk.HasFile (s.studio.setup.store.spot s.studio.disk f.id) →
      Left s f (.cancelled slot)

/-- Nothing is half done. -/
structure Cancelled (sent : Nat → List RenderEvent) (s : Session) : Prop where
  released : s.studio.held = []
  dark : ∀ slot, s.isReady slot = false
  ended : ∀ i job, s.studio.jobs[i]? = some job → ∃ identity e,
    sent i = [.started job.slot identity, e] ∧ e.slot = job.slot ∧ e.isTerminal = true
  left : ∀ n f, s.studio.fractals[n]? = some f → Worked s.studio.jobs n →
    ∃ i job identity e, s.studio.jobs[i]? = some job ∧ job.fractal = n ∧
      (∀ k other, s.studio.jobs[k]? = some other → other.fractal = n → k ≤ i) ∧
      sent i = [.started job.slot identity, e] ∧ s.Left f e
  /-- Whatever comes later, these jobs take no step, and their renderers touch nothing. -/
  silent : ∀ moves t, s.follow? moves = some t → ∀ i, i < s.studio.jobs.length →
    (∀ reply, t.move? (.work i reply) = none) ∧ ∀ left, t.move? (.scribble i left) = none

section Cancelled

variable {rogue : Prop} {c c' : Course} {log : Nat → List RenderEvent} {s t : Session} {move : Move}

/-- A job that is over stays over. -/
theorem Moved.over {i : Nat} (moved : Moved s c move t c')
    (halted : ∃ job, s.studio.jobs[i]? = some job ∧ job.isOver = true) :
    ∃ job, t.studio.jobs[i]? = some job ∧ job.isOver = true := by
  obtain ⟨job, at_, halted⟩ := halted
  cases moved with
  | directed directs =>
      cases directs with
      | launch _ =>
          refine ⟨job, ?_, halted⟩
          dsimp only
          rw [List.getElem?_append_left (List.getElem?_eq_some_iff.mp at_).1]
          exact at_
      | @raise j _ _ =>
          refine ⟨job.askedAt j i, ?_, (Job.askedAt_isOver ..).trans halted⟩
          exact (getElem?_modify_asked ..).trans (by rw [at_, Option.map_some])
      | restore _ =>
          refine ⟨job, ?_, halted⟩
          dsimp only
          rw [Studio.restore_jobs]
          exact at_
      | _ => exact ⟨job, at_, halted⟩
  | worked works =>
      obtain @⟨worker, f, after, notice, at', working, found, steps⟩ := works
      refine ⟨job, ?_, halted⟩
      rw [Studio.settle_jobs, List.getElem?_set_ne]
      · exact at_
      · rintro rfl
        obtain rfl := Option.some.inj (at_.symm.trans at')
        rw [working] at halted
        cases halted
  | scribbled scribbled =>
      obtain ⟨_, _, _, -, -, rfl, -⟩ := Studio.scribble_cases scribbled
      exact ⟨job, at_, halted⟩
  | _ => exact ⟨job, at_, halted⟩

theorem silent_of_over {i : Nat} (halted : ∃ job, s.studio.jobs[i]? = some job ∧ job.isOver = true) :
    (∀ reply, s.move? (.work i reply) = none) ∧ ∀ left, s.move? (.scribble i left) = none := by
  obtain ⟨job, at_, halted⟩ := halted
  constructor
  · intro reply
    simp [move?, stepJob, Studio.stepJob, at_, halted]
  · intro left
    rw [move?]
    cases scribbled : s.studio.scribble i left with
    | none => rfl
    | some studio =>
        obtain ⟨other, turn, disk, at', calling, -, -⟩ := Studio.scribble_cases scribbled
        obtain rfl := Option.some.inj (at_.symm.trans at')
        rw [Job.isOver, calling] at halted
        cases halted

theorem exists_last {jobs : List Job} {n : Nat} (worked : Worked jobs n) :
    ∃ (i : Nat) (job : Job), jobs[i]? = some job ∧ job.fractal = n ∧
      ∀ (k : Nat) (other : Job), jobs[k]? = some other → other.fractal = n → k ≤ i := by
  obtain ⟨j, job, at_, same⟩ := worked
  classical
  let works (i : Nat) : Prop := ∃ job, jobs[i]? = some job ∧ job.fractal = n
  have short : ∀ {i : Nat}, works i → i ≤ jobs.length := fun ⟨_, at_, _⟩ =>
    Nat.le_of_lt (List.getElem?_eq_some_iff.mp at_).1
  have found : works (Nat.findGreatest works jobs.length) :=
    Nat.findGreatest_spec (short ⟨job, at_, same⟩) ⟨job, at_, same⟩
  obtain ⟨last, at', same'⟩ := found
  exact ⟨_, last, at', same', fun k other at'' same'' =>
    Nat.le_findGreatest (short ⟨other, at'', same''⟩) ⟨other, at'', same''⟩⟩

/-- Once all jobs were stopped, each has told how it ended, and the last one of a fractal how the
fractal was left. -/
theorem Kept.ended (kept : s.Kept c log) (stopped : s.IsStopped)
    (alive : ∀ job ∈ s.studio.jobs, job.phase ≠ .dead) {i : Nat} {job : Job}
    (at_ : s.studio.jobs[i]? = some job) : ∃ f state,
      s.studio.fractals[job.fractal]? = some f ∧ Job.Ended job.slot state (log i) ∧
        ((∃ k other, i < k ∧ s.studio.jobs[k]? = some other ∧ other.fractal = job.fractal) ∨
          f.state = state) := by
  obtain ⟨sound, -, -, chronicle⟩ := kept
  obtain rfl := sound.course_eq_rest stopped.1
  have past : i ∉ Course.rest.wards s.studio.held := by
    rw [Course.rest, Course.wards, sound.released stopped]
    exact List.not_mem_nil
  obtain ⟨f, found⟩ := sound.studio.custody.housed at_
  obtain ⟨state, ended, left⟩ :=
    chronicle.past past at_ found (alive job (List.mem_of_getElem? at_))
  exact ⟨f, state, found, ended, left.imp id fun left => left.resolve_left fun rendering =>
    (sound.stopped stopped found rendering).1⟩

/-- Once all jobs were stopped, a fractal is left as the event that tells its state says. -/
theorem Kept.left (kept : s.Kept c log) (stopped : s.IsStopped) {n : Nat} {f : Fractal}
    (found : s.studio.fractals[n]? = some f) (worked : Worked s.studio.jobs n) {e : RenderEvent}
    (outcome : e.outcome = some f.state) : s.Left f e := by
  have fractal := kept.sound.studio.custody.sound f (List.mem_of_getElem? found)
  have settled : ∀ {m : Nat} {g : Fractal}, s.studio.fractals[m]? = some g → g.state ≠ .rendering :=
    fun found rendering => (kept.sound.stopped stopped found rendering).1
  cases e with
  | started _ _ => cases outcome
  | ready _ _ _ _ =>
      have ready : f.state = .ready := (Option.some.inj outcome).symm
      obtain ⟨image, held⟩ := Option.isSome_iff_exists.mp (fractal.shown.mp ready)
      exact .ready ready held
  | failed _ _ _ => exact .failed (Option.some.inj outcome).symm
  | cancelled _ =>
      have pending : f.state = .pending := (Option.some.inj outcome).symm
      refine .pending pending (fractal.blank (by rw [pending]; decide)) fractal.identity fun held => ?_
      obtain ⟨m, g, found', rendering, -⟩ := kept.tidy n f worked found (settled found) held
      exact settled found' rendering

/-- Once all jobs were stopped, all of them are silent for good. -/
theorem Sound.silent (sound : s.Sound True c) (stopped : s.IsStopped) {moves : List Move}
    (followed : s.follow? moves = some t) {i : Nat} (inside : i < s.studio.jobs.length) :
    (∀ reply, t.move? (.work i reply) = none) ∧ ∀ left, t.move? (.scribble i left) = none := by
  obtain rfl := sound.course_eq_rest stopped.1
  have at_ : s.studio.jobs[i]? = some s.studio.jobs[i] := List.getElem?_eq_getElem inside
  have halted : s.studio.jobs[i].isOver = true := by
    cases working : s.studio.jobs[i].isOver with
    | true => rfl
    | false =>
        have ward := sound.studio.custody.guarded at_ working
        rw [Course.rest, Course.wards, sound.released stopped] at ward
        cases ward
  obtain ⟨c'', -, halted⟩ := follow_induction
    (fun {c : Course} {s : Session} (inv : s.Sound True c ∧
      ∃ job, s.studio.jobs[i]? = some job ∧ job.isOver = true) => inv.1.studio.agenda)
    (fun inv _ _ moved => ⟨inv.1.moved moved (.inr trivial), moved.over inv.2⟩)
    ⟨sound, _, at_, halted⟩ (each_of_forall (fun _ _ _ => trivial) s) followed
  exact silent_of_over halted

/-- All jobs were stopped, and none was taken down. -/
theorem Kept.cancelled (kept : s.Kept c log) (governed : s.Sound True c') (stopped : s.IsStopped)
    (alive : ∀ job ∈ s.studio.jobs, job.phase ≠ .dead) : s.Cancelled log where
  released := governed.released stopped
  dark := by
    obtain ⟨agenda, duty, rest, due, changes⟩ := stopped
    obtain rfl := kept.sound.course_eq_rest agenda
    exact kept.flagged.dark rfl due (by rintro rfl; cases changes)
  ended := by
    intro i job at_
    obtain ⟨f, state, -, ⟨identity, e, sent, slot, outcome⟩, -⟩ := kept.ended stopped alive at_
    exact ⟨identity, e, sent, slot, RenderEvent.isTerminal_of_outcome outcome⟩
  left := by
    intro n f found worked
    obtain ⟨i, job, at_, rfl, last⟩ := exists_last worked
    obtain ⟨g, state, found', ⟨identity, e, sent, -, outcome⟩, left⟩ := kept.ended stopped alive at_
    obtain rfl := Option.some.inj (found.symm.trans found')
    have told : f.state = state := left.resolve_left fun ⟨k, other, later, at', same⟩ =>
      absurd (last k other at' same) (Nat.not_le_of_lt later)
    subst told
    exact ⟨i, job, identity, e, at_, rfl, last, sent, kept.left stopped found worked outcome⟩
  silent moves t followed i inside := governed.silent stopped followed inside

end Cancelled

section Careful

variable {s : Session}

def keepsWord (s : Session) : Move → Bool
  | .work i (.returned _ (.error .cancelled)) => s.studio.jobs[i]?.all (·.flag.raised)
  | .work _ .crashed => false
  | _ => true

def isRemovable (s : Studio) : Bool :=
  s.disk.nodes.all (fun | (_, .directory) => true | _ => false) ||
    s.fractals.all fun f => f.state != .rendering ||
      match s.disk.node? (s.setup.store.spot s.disk f.id) with
      | some (.file _) => (s.disk.remove (s.setup.store.path f.id)).isOk
      | _ => true

/-- A test for moves under which a cancellation leaves nothing half done. -/
def isCareful (s : Session) (move : Move) : Bool := keepsWord s move && isRemovable s.studio

end Careful

/-- The first job ends, the last one is in the middle of a call, and the others did not begin when
the next generation is asked for. The interrupted call leaves a file behind. -/
def stopping : List Move :=
  opening ++ List.replicate 12 (.work 0 dot) ++ remainder ++ List.replicate 5 (.work 8 dot) ++
    .ask .generate :: List.replicate 8 .direct ++
    (List.range' 1 7).flatMap (fun i => List.replicate 5 (.work i dot) ++ [.direct, .direct]) ++
    List.replicate 3 (.work 8 (.returned (some ⟨#[7]⟩) (.error .cancelled))) ++
    List.replicate 3 .direct

end FractalBreeder.Session
