import FractalBreeder.Proofs.Rendering.Courses
import FractalBreeder.Proofs.Rendering.Phases

/-!
Who may touch which fractal. The wards are the jobs that the director still answers for. Each has a
fractal of its own in the generation on show, and nobody else changes that fractal.
-/
namespace FractalBreeder

open Bench (Steps)

theorem getElem?_set_cases {α : Type} {list : List α} {i j : Nat} {a b : α}
    (found : (list.set i a)[j]? = some b) : (j = i ∧ b = a) ∨ (j ≠ i ∧ list[j]? = some b) := by
  rw [List.getElem?_set] at found
  split at found
  next same =>
    split at found
    · exact .inl ⟨same.symm, (Option.some.inj found).symm⟩
    · cases found
  next other => exact .inr ⟨Ne.symm other, found⟩

theorem getElem?_append_cases {α : Type} {list more : List α} {j : Nat} {b : α}
    (found : (list ++ more)[j]? = some b) :
    list[j]? = some b ∨ (list.length ≤ j ∧ more[j - list.length]? = some b) := by
  by_cases inside : j < list.length
  · exact .inl (by rwa [List.getElem?_append_left inside] at found)
  · rw [List.getElem?_append_right (Nat.le_of_not_lt inside)] at found
    exact .inr ⟨Nat.le_of_not_lt inside, found⟩

theorem getElem?_concat_cases {α : Type} {list : List α} {a b : α} {j : Nat}
    (found : (list ++ [a])[j]? = some b) : list[j]? = some b ∨ j = list.length ∧ b = a := by
  rcases getElem?_append_cases found with found | ⟨long, found⟩
  · exact .inl found
  · have short := (List.getElem?_eq_some_iff.mp found).1
    rw [List.length_singleton] at short
    exact .inr ⟨by omega, List.mem_singleton.mp (List.mem_of_getElem? found)⟩

namespace Job

/-- The job once it was asked to stop. -/
def asked (job : Job) : Job := { job with flag := job.flag.raise }

/-- The job at place `i` once job `j` was asked to stop. -/
def askedAt (j i : Nat) (job : Job) : Job := if j = i then job.asked else job

@[simp] theorem askedAt_slot (j i : Nat) (job : Job) : (job.askedAt j i).slot = job.slot := by
  unfold askedAt
  split <;> rfl

@[simp] theorem askedAt_fractal (j i : Nat) (job : Job) :
    (job.askedAt j i).fractal = job.fractal := by
  unfold askedAt
  split <;> rfl

@[simp] theorem askedAt_phase (j i : Nat) (job : Job) : (job.askedAt j i).phase = job.phase := by
  unfold askedAt
  split <;> rfl

@[simp] theorem askedAt_isOver (j i : Nat) (job : Job) :
    (job.askedAt j i).isOver = job.isOver := by
  unfold askedAt
  split <;> rfl

theorem Fits.askedAt {rogue : Prop} {store : ImageStore} {job : Job} {f : Fractal}
    (fits : job.Fits rogue store f) (j i : Nat) : (job.askedAt j i).Fits rogue store f := by
  unfold Job.askedAt
  split
  · exact fits.raise
  · exact fits

end Job

theorem getElem?_modify_asked (jobs : List Job) (j i : Nat) :
    (jobs.modify j Job.asked)[i]? = jobs[i]?.map (Job.askedAt j i) :=
  List.getElem?_modify ..

theorem exists_askedAt {jobs : List Job} {j i : Nat} {job : Job}
    (found : (jobs.modify j Job.asked)[i]? = some job) :
    ∃ before, jobs[i]? = some before ∧ before.askedAt j i = job :=
  Option.map_eq_some_iff.mp ((getElem?_modify_asked ..).symm.trans found)

namespace Studio

/-- Some job on the fractal ended. -/
def Deserted (jobs : List Job) (place : Nat) : Prop :=
  ∃ (j : Nat) (job : Job), jobs[j]? = some job ∧ job.fractal = place ∧ job.isOver = true

structure Custody (rogue : Prop) (store : ImageStore) (current wards : List Nat) (pledge : Option Nat)
    (jobs : List Job) (fractals : List Fractal) : Prop where
  staffed : ∀ j ∈ wards, ∃ job, jobs[j]? = some job
  housed : ∀ {j : Nat} {job : Job}, jobs[j]? = some job → ∃ f, fractals[job.fractal]? = some f
  /-- Jobs at work are wards. -/
  guarded : ∀ {j : Nat} {job : Job}, jobs[j]? = some job → job.isOver = false → j ∈ wards
  placed : ∀ {j : Nat} {job : Job}, j ∈ wards → jobs[j]? = some job →
    current[job.slot]? = some job.fractal
  once : wards.Nodup
  /-- A ward is the last job of its fractal. -/
  latest : ∀ {j : Nat} {job : Job}, j ∈ wards → jobs[j]? = some job →
    ∀ {i : Nat} {other : Job}, jobs[i]? = some other → other.fractal = job.fractal → i ≤ j
  fits : ∀ {j : Nat} {job : Job} {f : Fractal}, j ∈ wards → jobs[j]? = some job →
    fractals[job.fractal]? = some f → job.Fits rogue store f
  /-- A fractal that is rendering has a ward or will have one, or a rogue renderer spoiled it. -/
  kept : ∀ {n : Nat} {f : Fractal}, fractals[n]? = some f → f.state = .rendering →
    pledge = some n ∨ (∃ j ∈ wards, ∃ job, jobs[j]? = some job ∧ job.fractal = n) ∨
      rogue ∧ Deserted jobs n
  pledged : ∀ {n : Nat}, pledge = some n → (∃ f, fractals[n]? = some f ∧ f.state = .rendering) ∧
    ∀ {j : Nat} {job : Job}, j ∈ wards → jobs[j]? = some job → job.fractal ≠ n
  sound : ∀ f ∈ fractals, f.Sound

namespace Custody

variable {rogue : Prop} {store : ImageStore} {current wards : List Nat} {pledge : Option Nat}
  {jobs : List Job} {fractals : List Fractal}

theorem empty (rogue : Prop) (store : ImageStore) (current : List Nat) :
    Custody rogue store current [] none [] [] where
  staffed j member := absurd member List.not_mem_nil
  housed found := by cases found
  guarded found := by cases found
  placed member := absurd member List.not_mem_nil
  once := List.nodup_nil
  latest member := absurd member List.not_mem_nil
  fits member := absurd member List.not_mem_nil
  kept found := by cases found
  pledged pledge := by cases pledge
  sound f member := absurd member List.not_mem_nil

/-- Two wards have two fractals. -/
theorem alone (custody : Custody rogue store current wards pledge jobs fractals) {i j : Nat}
    {job other : Job} (ward : j ∈ wards) (ward' : i ∈ wards) (at_ : jobs[j]? = some job)
    (at' : jobs[i]? = some other) (same : other.fractal = job.fractal) : i = j :=
  Nat.le_antisymm (custody.latest ward at_ at' same) (custody.latest ward' at' at_ same.symm)

/-- A fractal that waits for a job has no ward but one that was taken down. -/
theorem unattended (custody : Custody rogue store current wards pledge jobs fractals) {j n : Nat}
    {job : Job} {f : Fractal} (ward : j ∈ wards) (at_ : jobs[j]? = some job)
    (found : fractals[n]? = some f) (waiting : f.state = .pending ∨ f.state = .discarded)
    (same : job.fractal = n) : job.isOver = true := by
  subst same
  have fits := custody.fits ward at_ found
  obtain ⟨unclaimed, unready, unfailed⟩ := RenderState.ne_of_waiting waiting
  rcases fits.state with state | state | state | ⟨state, dead⟩
  · exact absurd state unclaimed
  · exact absurd state unready
  · exact absurd state unfailed
  · rw [Job.isOver, dead]

/-- A step of a job that is at work. -/
theorem work {i : Nat} {job : Job} {f : Fractal} {setup : Setup} {reply : Reply} {disk : Disk}
    {after : Bench} {notice : Option Notice}
    (custody : Custody rogue setup.store current wards pledge jobs fractals)
    (at_ : jobs[i]? = some job) (working : job.isOver = false)
    (found : fractals[job.fractal]? = some f)
    (steps : Steps setup reply ⟨job, f, disk⟩ after notice)
    (lawful : ∀ turn, job.phase = .calling turn → reply.Lawful job.flag ∨ rogue) :
    Custody rogue setup.store current wards pledge (jobs.set i after.job)
      (fractals.set job.fractal after.fractal) := by
  have ward := custody.guarded at_ working
  have slot : after.job.slot = job.slot := steps.slot_eq
  have place : after.job.fractal = job.fractal := steps.fractal_eq
  have fits : job.Fits rogue setup.store f := custody.fits ward at_ found
  have bound : i < jobs.length := (List.getElem?_eq_some_iff.mp at_).1
  have own : (jobs.set i after.job)[i]? = some after.job := by simp [bound]
  have others : ∀ {j : Nat} {other : Job}, jobs[j]? = some other → j ≠ i →
      (jobs.set i after.job)[j]? = some other := fun at' other => by
    rwa [List.getElem?_set_ne other.symm]
  exact {
    staffed j member := by
      by_cases same : j = i
      · exact ⟨after.job, same ▸ own⟩
      · obtain ⟨other, at'⟩ := custody.staffed j member
        exact ⟨other, others at' same⟩
    housed {j other} at' := by
      have inside : other.fractal < fractals.length := by
        rcases getElem?_set_cases at' with ⟨rfl, rfl⟩ | ⟨-, at'⟩
        · rw [place]
          exact (List.getElem?_eq_some_iff.mp found).1
        · obtain ⟨g, found'⟩ := custody.housed at'
          exact (List.getElem?_eq_some_iff.mp found').1
      exact ⟨_, List.getElem?_eq_getElem (by simpa using inside)⟩
    guarded {j other} at' working' := by
      rcases getElem?_set_cases at' with ⟨rfl, rfl⟩ | ⟨-, at'⟩
      · exact ward
      · exact custody.guarded at' working'
    placed {j other} member at' := by
      rcases getElem?_set_cases at' with ⟨rfl, rfl⟩ | ⟨-, at'⟩
      · rw [slot, place]
        exact custody.placed ward at_
      · exact custody.placed member at'
    once := custody.once
    latest {j other} member at' {k third} at'' same := by
      have old : ∀ {j : Nat} {other : Job}, (jobs.set i after.job)[j]? = some other →
          ∃ before, jobs[j]? = some before ∧ before.fractal = other.fractal := by
        intro j other at'
        rcases getElem?_set_cases at' with ⟨rfl, rfl⟩ | ⟨-, at'⟩
        · exact ⟨job, at_, place.symm⟩
        · exact ⟨other, at', rfl⟩
      obtain ⟨first, found₁, same₁⟩ := old at'
      obtain ⟨second, found₂, same₂⟩ := old at''
      exact custody.latest member found₁ found₂ (same₂.trans (same.trans same₁.symm))
    fits {j other g} member at' found' := by
      rcases getElem?_set_cases at' with ⟨rfl, rfl⟩ | ⟨apart, at'⟩
      · rcases getElem?_set_cases found' with ⟨-, rfl⟩ | ⟨apart, -⟩
        · exact steps.fits fits lawful
        · exact absurd place apart
      · rcases getElem?_set_cases found' with ⟨same, rfl⟩ | ⟨-, found'⟩
        · exact absurd (custody.alone ward member at_ at' same) apart
        · exact custody.fits member at' found'
    kept {n g} found' rendering := by
      rcases getElem?_set_cases found' with ⟨rfl, rfl⟩ | ⟨apart, found'⟩
      · exact .inr (.inl ⟨i, ward, after.job, own, place⟩)
      · rcases custody.kept found' rendering with pledged | ⟨j, member, other, at', same⟩ |
          ⟨rogue, j, other, at', same, halted⟩
        · exact .inl pledged
        · refine .inr (.inl ⟨j, member, other, others at' fun equal => apart ?_, same⟩)
          subst equal
          obtain rfl := Option.some.inj (at_.symm.trans at')
          exact same.symm
        · refine .inr (.inr ⟨rogue, j, other, others at' fun equal => ?_, same, halted⟩)
          subst equal
          obtain rfl := Option.some.inj (at_.symm.trans at')
          rw [working] at halted
          cases halted
    pledged {n} pledge := by
      obtain ⟨⟨g, found', rendering⟩, free⟩ := custody.pledged pledge
      have apart : job.fractal ≠ n := free ward at_
      refine ⟨⟨g, by rwa [List.getElem?_set_ne apart], rendering⟩, ?_⟩
      intro j other member at'
      rcases getElem?_set_cases at' with ⟨rfl, rfl⟩ | ⟨-, at'⟩
      · rwa [place]
      · exact free member at'
    sound g member := by
      rcases List.mem_or_eq_of_mem_set member with member | rfl
      · exact custody.sound g member
      · exact steps.sound fits (custody.sound f (List.mem_of_getElem? found)) }

/-- Asking a job to stop. -/
theorem raise (custody : Custody rogue store current wards pledge jobs fractals) (j : Nat) :
    Custody rogue store current wards pledge (jobs.modify j Job.asked) fractals := by
  have new : ∀ {i : Nat} {before : Job}, jobs[i]? = some before →
      (jobs.modify j Job.asked)[i]? = some (before.askedAt j i) :=
    fun found => by rw [getElem?_modify_asked, found, Option.map_some]
  exact {
    staffed i member := by
      obtain ⟨before, origin⟩ := custody.staffed i member
      exact ⟨_, new origin⟩
    housed found := by
      obtain ⟨before, origin, rfl⟩ := exists_askedAt found
      rw [Job.askedAt_fractal]
      exact custody.housed origin
    guarded found working := by
      obtain ⟨before, origin, rfl⟩ := exists_askedAt found
      exact custody.guarded origin ((Job.askedAt_isOver ..).symm.trans working)
    placed member found := by
      obtain ⟨before, origin, rfl⟩ := exists_askedAt found
      rw [Job.askedAt_slot, Job.askedAt_fractal]
      exact custody.placed member origin
    once := custody.once
    latest {k third} member found {l fourth} found' same := by
      obtain ⟨before, origin, rfl⟩ := exists_askedAt found
      obtain ⟨before', origin', rfl⟩ := exists_askedAt found'
      rw [Job.askedAt_fractal, Job.askedAt_fractal] at same
      exact custody.latest member origin origin' same
    fits {i other f} member found housed := by
      obtain ⟨before, origin, rfl⟩ := exists_askedAt found
      rw [Job.askedAt_fractal] at housed
      exact (custody.fits member origin housed).askedAt j i
    kept found rendering := by
      rcases custody.kept found rendering with pledged | ⟨i, member, other, origin, same⟩ |
        ⟨rogue, i, other, origin, same, finished⟩
      · exact .inl pledged
      · exact .inr (.inl ⟨i, member, _, new origin, (Job.askedAt_fractal ..).trans same⟩)
      · exact .inr (.inr ⟨rogue, i, _, new origin, (Job.askedAt_fractal ..).trans same,
          (Job.askedAt_isOver ..).trans finished⟩)
    pledged pledge := by
      refine ⟨(custody.pledged pledge).1, fun member found => ?_⟩
      obtain ⟨before, origin, rfl⟩ := exists_askedAt found
      rw [Job.askedAt_fractal]
      exact (custody.pledged pledge).2 member origin
    sound := custody.sound }

/-- Letting go of jobs that are over, as long as their fractals are not left in the middle. -/
theorem release {kept : List Nat} (custody : Custody rogue store current wards pledge jobs fractals)
    (sub : kept.Sublist wards)
    (halted : ∀ {j : Nat} {job : Job}, j ∈ wards → j ∉ kept → jobs[j]? = some job →
      job.isOver = true ∧ ∀ f, fractals[job.fractal]? = some f → f.state = .rendering → rogue) :
    Custody rogue store current kept pledge jobs fractals where
  staffed j member := custody.staffed j (sub.subset member)
  housed := custody.housed
  guarded {j job} at_ working := by
    by_contra dropped
    have finished := (halted (custody.guarded at_ working) dropped at_).1
    rw [working] at finished
    cases finished
  placed member := custody.placed (sub.subset member)
  once := custody.once.sublist sub
  latest member := custody.latest (sub.subset member)
  fits member := custody.fits (sub.subset member)
  kept {n f} found rendering := by
    rcases custody.kept found rendering with pledged | ⟨j, member, job, at_, rfl⟩ | deserted
    · exact .inl pledged
    · by_cases stays : j ∈ kept
      · exact .inr (.inl ⟨j, stays, job, at_, rfl⟩)
      · obtain ⟨finished, left⟩ := halted member stays at_
        exact .inr (.inr ⟨left f found rendering, j, job, at_, rfl, finished⟩)
    · exact .inr (.inr deserted)
  pledged pledge :=
    ⟨(custody.pledged pledge).1, fun member => (custody.pledged pledge).2 (sub.subset member)⟩
  sound := custody.sound

/-- The first ward is over. What it left in the middle is now up to somebody else. -/
theorem handOver {j : Nat} {others : List Nat} {job : Job} {f : Fractal}
    (custody : Custody rogue store current (j :: others) none jobs fractals)
    (at_ : jobs[j]? = some job) (halted : job.isOver = true)
    (found : fractals[job.fractal]? = some f) :
    Custody rogue store current others (if f.state = .rendering then some job.fractal else none)
      jobs fractals where
  staffed i member := custody.staffed i (List.mem_cons_of_mem _ member)
  housed := custody.housed
  guarded {i other} at' working := by
    rcases List.mem_cons.mp (custody.guarded at' working) with rfl | member
    · obtain rfl := Option.some.inj (at_.symm.trans at')
      rw [halted] at working
      cases working
    · exact member
  placed member := custody.placed (List.mem_cons_of_mem _ member)
  once := (List.nodup_cons.mp custody.once).2
  latest member := custody.latest (List.mem_cons_of_mem _ member)
  fits member := custody.fits (List.mem_cons_of_mem _ member)
  kept {n g} found' rendering := by
    rcases custody.kept found' rendering with impossible | ⟨i, member, other, at', rfl⟩ | deserted
    · cases impossible
    · rcases List.mem_cons.mp member with rfl | member
      · obtain rfl := Option.some.inj (at_.symm.trans at')
        obtain rfl := Option.some.inj (found.symm.trans found')
        exact .inl (if_pos rendering)
      · exact .inr (.inl ⟨i, member, other, at', rfl⟩)
    · exact .inr (.inr deserted)
  pledged {n} pledged := by
    split at pledged
    next rendering =>
      obtain rfl := Option.some.inj pledged
      refine ⟨⟨f, found, rendering⟩, fun {i other} member at' same => ?_⟩
      have equal := custody.alone List.mem_cons_self (List.mem_cons_of_mem _ member) at_ at' same
      subst equal
      exact (List.nodup_cons.mp custody.once).1 member
    next => cases pledged
  sound := custody.sound

/-- Changing a fractal that no ward works on. -/
theorem change {n : Nat} {before : Option Nat} {f g : Fractal}
    (custody : Custody rogue store current wards before jobs fractals)
    (own : before = none ∨ before = some n)
    (free : ∀ {j : Nat} {job : Job}, j ∈ wards → jobs[j]? = some job → job.fractal ≠ n)
    (found : fractals[n]? = some f) (sound : g.Sound) {pledge : Option Nat}
    (promise : pledge = if g.state = .rendering then some n else none) :
    Custody rogue store current wards pledge jobs (fractals.set n g) := by
  have bound : n < fractals.length := (List.getElem?_eq_some_iff.mp found).1
  exact {
    staffed := custody.staffed
    housed {j job} at_ := by
      obtain ⟨h, found'⟩ := custody.housed at_
      have inside := (List.getElem?_eq_some_iff.mp found').1
      exact ⟨_, List.getElem?_eq_getElem (by simpa using inside)⟩
    guarded := custody.guarded
    placed := custody.placed
    once := custody.once
    latest := custody.latest
    fits member at_ found' := by
      rcases getElem?_set_cases found' with ⟨same, -⟩ | ⟨-, found'⟩
      · exact absurd same (free member at_)
      · exact custody.fits member at_ found'
    kept {m h} found' rendering := by
      rcases getElem?_set_cases found' with ⟨rfl, rfl⟩ | ⟨apart, found'⟩
      · exact .inl (by rw [promise, if_pos rendering])
      · rcases custody.kept found' rendering with promised | others
        · rcases own with own | own
          · rw [own] at promised
            cases promised
          · rw [own] at promised
            exact absurd (Option.some.inj promised).symm apart
        · exact .inr others
    pledged {m} pledged := by
      rw [promise] at pledged
      split at pledged
      next rendering =>
        obtain rfl := Option.some.inj pledged
        exact ⟨⟨g, by simp [bound], rendering⟩, free⟩
      next => cases pledged
    sound h member := by
      rcases List.mem_or_eq_of_mem_set member with member | rfl
      · exact custody.sound h member
      · exact sound }

/-- The promised job starts. -/
theorem launch {n slot : Nat} {source : Source}
    (custody : Custody rogue store current wards (some n) jobs fractals)
    (shown : current[slot]? = some n) :
    Custody rogue store current (wards ++ [jobs.length]) none
      (jobs ++ [{ slot, fractal := n, source }]) fractals := by
  obtain ⟨⟨f, found, rendering⟩, free⟩ := custody.pledged rfl
  have within : ∀ {j : Nat}, j ∈ wards → j < jobs.length := fun member =>
    (List.getElem?_eq_some_iff.mp (custody.staffed _ member).choose_spec).1
  have ward_old : ∀ {j : Nat} {job : Job}, j ∈ wards ++ [jobs.length] → jobs[j]? = some job →
      j ∈ wards := by
    intro j job member at_
    rcases List.mem_append.mp member with member | member
    · exact member
    · rw [List.mem_singleton.mp member] at at_
      exact absurd (List.getElem?_eq_some_iff.mp at_).1 (Nat.lt_irrefl _)
  have keep : ∀ {j : Nat} {job : Job}, jobs[j]? = some job →
      (jobs ++ [{ slot, fractal := n, source }])[j]? = some job := fun at_ => by
    rw [List.getElem?_append_left (List.getElem?_eq_some_iff.mp at_).1]
    exact at_
  exact {
    staffed j member := by
      rcases List.mem_append.mp member with member | member
      · obtain ⟨job, at_⟩ := custody.staffed j member
        exact ⟨job, keep at_⟩
      · rw [List.mem_singleton.mp member]
        exact ⟨_, List.getElem?_concat_length⟩
    housed at_ := by
      rcases getElem?_concat_cases at_ with at_ | ⟨-, rfl⟩
      · exact custody.housed at_
      · exact ⟨f, found⟩
    guarded at_ working := by
      rcases getElem?_concat_cases at_ with at_ | ⟨rfl, -⟩
      · exact List.mem_append_left _ (custody.guarded at_ working)
      · exact List.mem_append_right _ (List.mem_singleton.mpr rfl)
    placed member at_ := by
      rcases getElem?_concat_cases at_ with at_ | ⟨-, rfl⟩
      · exact custody.placed (ward_old member at_) at_
      · exact shown
    once := by
      refine List.nodup_append.mpr ⟨custody.once, List.pairwise_singleton .., ?_⟩
      intro j member k last
      rw [List.mem_singleton.mp last]
      exact Nat.ne_of_lt (within member)
    latest {j job} member at_ {k third} at' same := by
      rcases getElem?_concat_cases at_ with at_ | ⟨rfl, rfl⟩
      · rcases getElem?_concat_cases at' with at' | ⟨-, rfl⟩
        · exact custody.latest (ward_old member at_) at_ at' same
        · exact absurd same.symm (free (ward_old member at_) at_)
      · rcases getElem?_concat_cases at' with at' | ⟨rfl, -⟩
        · exact Nat.le_of_lt (List.getElem?_eq_some_iff.mp at').1
        · exact Nat.le_refl _
    fits member at_ found' := by
      rcases getElem?_concat_cases at_ with at_ | ⟨-, rfl⟩
      · exact custody.fits (ward_old member at_) at_ found'
      · obtain rfl := Option.some.inj (found.symm.trans found')
        exact Job.fits_new rendering
    kept {m g} found' rendering' := by
      rcases custody.kept found' rendering' with promised | ⟨j, member, job, at_, same⟩ |
        ⟨rogue, j, job, at_, same, halted⟩
      · obtain rfl := Option.some.inj promised
        exact .inr (.inl ⟨_, List.mem_append_right _ (List.mem_singleton.mpr rfl), _,
          List.getElem?_concat_length, rfl⟩)
      · exact .inr (.inl ⟨j, List.mem_append_left _ member, job, keep at_, same⟩)
      · exact .inr (.inr ⟨rogue, j, job, keep at_, same, halted⟩)
    pledged pledge := by cases pledge
    sound := custody.sound }

/-- Newly bred fractals. -/
theorem extend {children : List Fractal}
    (custody : Custody rogue store current wards pledge jobs fractals)
    (fresh : ∀ child ∈ children, child.Sound ∧ child.state = .pending) :
    Custody rogue store current wards pledge jobs (fractals ++ children) := by
  have keep : ∀ {n : Nat} {f : Fractal}, fractals[n]? = some f →
      (fractals ++ children)[n]? = some f := fun found => by
    rw [List.getElem?_append_left (List.getElem?_eq_some_iff.mp found).1]
    exact found
  exact {
    staffed := custody.staffed
    housed at_ := by
      obtain ⟨f, found⟩ := custody.housed at_
      exact ⟨f, keep found⟩
    guarded := custody.guarded
    placed := custody.placed
    once := custody.once
    latest := custody.latest
    fits member at_ found := by
      obtain ⟨f, found'⟩ := custody.housed at_
      obtain rfl := Option.some.inj ((keep found').symm.trans found)
      exact custody.fits member at_ found'
    kept {n f} found rendering := by
      rcases getElem?_append_cases found with found | ⟨-, found⟩
      · exact custody.kept found rendering
      · have pending := (fresh f (List.mem_of_getElem? found)).2
        rw [rendering] at pending
        cases pending
    pledged pledge := by
      obtain ⟨⟨f, found, rendering⟩, free⟩ := custody.pledged pledge
      exact ⟨⟨f, keep found, rendering⟩, free⟩
    sound f member := by
      rcases List.mem_append.mp member with member | member
      · exact custody.sound f member
      · exact (fresh f member).1 }

/-- Without wards the generation on show does not matter. -/
theorem show_ {other : List Nat} (custody : Custody rogue store current [] none jobs fractals) :
    Custody rogue store other [] none jobs fractals :=
  { custody with placed := nofun }

end Custody

end Studio

end FractalBreeder
