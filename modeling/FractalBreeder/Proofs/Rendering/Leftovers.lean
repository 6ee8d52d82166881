import FractalBreeder.Proofs.Rendering.Direction
import FractalBreeder.Proofs.Storage.Places

/-!
What is left on the disk. A file in the place of a picture is that of a fractal in the middle of
rendering, once a job was there: each way out of rendering removes the file first.
-/
namespace FractalBreeder

open Bench (Steps)
open Disk (HasFile)

namespace Studio

/-- Files in the places of pictures in the making can be removed. -/
def Removable (s : Studio) : Prop :=
  ∀ f ∈ s.fractals, f.state = .rendering → s.disk.Removable (s.setup.store.path f.id)

def Worked (jobs : List Job) (n : Nat) : Prop :=
  ∃ (j : Nat) (job : Job), jobs[j]? = some job ∧ job.fractal = n

/-- A fractal in the middle of rendering has its picture in the given place. -/
def Painted (store : ImageStore) (disk : Disk) (fractals : List Fractal) (loc : Location) : Prop :=
  ∃ (n : Nat) (f : Fractal), fractals[n]? = some f ∧ f.state = .rendering ∧ store.spot disk f.id = loc

def Tidy (store : ImageStore) (disk : Disk) (jobs : List Job) (fractals : List Fractal) : Prop :=
  ∀ (n : Nat) (f : Fractal), Worked jobs n → fractals[n]? = some f → f.state ≠ .rendering →
    disk.HasFile (store.spot disk f.id) → Painted store disk fractals (store.spot disk f.id)

namespace Tidy

variable {store : ImageStore} {disk after : Disk} {jobs jobs' : List Job} {fractals : List Fractal}

theorem mono_jobs (tidy : Tidy store disk jobs fractals)
    (worked : ∀ {n : Nat} {f : Fractal}, Worked jobs' n → fractals[n]? = some f →
      Worked jobs n ∨ f.state = .rendering) :
    Tidy store disk jobs' fractals := by
  intro n f work found settled held
  rcases worked work found with work | rendering
  · exact tidy n f work found settled held
  · exact absurd rendering settled

/-- New files are those of fractals in the middle of rendering. -/
theorem touch (tidy : Tidy store disk jobs fractals) (same : after.workplace = disk.workplace)
    (files : ∀ loc, after.HasFile loc → disk.HasFile loc ∨ Painted store disk fractals loc) :
    Tidy store after jobs fractals := by
  intro n f work found settled held
  rw [store.spot_congr same] at held ⊢
  have painted : Painted store disk fractals (store.spot disk f.id) := by
    rcases files _ held with held | painted
    · exact tidy n f work found settled held
    · exact painted
  obtain ⟨m, g, found', rendering, at_⟩ := painted
  exact ⟨m, g, found', rendering, (store.spot_congr same g.id).trans at_⟩

/-- A fractal gets out of rendering, or gets another genome: its file is gone. -/
theorem settle {n : Nat} {f g : Fractal} (tidy : Tidy store disk jobs fractals)
    (found : fractals[n]? = some f) (same : after.workplace = disk.workplace)
    (files : ∀ loc, after.HasFile loc → disk.HasFile loc ∧ loc ≠ store.spot disk f.id)
    (stays : g.state ≠ .rendering → g.id = f.id) : Tidy store after jobs (fractals.set n g) := by
  intro m h work found' settled held
  rw [store.spot_congr same] at held ⊢
  obtain ⟨held, apart⟩ := files _ held
  rcases getElem?_set_cases found' with ⟨rfl, rfl⟩ | ⟨-, found'⟩
  · rw [stays settled] at apart
    exact absurd rfl apart
  · obtain ⟨k, p, found'', rendering, at_⟩ := tidy _ _ work found' settled held
    have other : n ≠ k := by
      rintro rfl
      obtain rfl := Option.some.inj (found.symm.trans found'')
      exact apart at_.symm
    refine ⟨k, p, ?_, rendering, (store.spot_congr same p.id).trans at_⟩
    rwa [List.getElem?_set_ne other]

/-- A fractal is marked as rendering. -/
theorem claim {n : Nat} {f g : Fractal} (tidy : Tidy store disk jobs fractals)
    (found : fractals[n]? = some f) (before : f.state ≠ .rendering) (rendering : g.state = .rendering) :
    Tidy store disk jobs (fractals.set n g) := by
  intro m h work found' settled held
  rcases getElem?_set_cases found' with ⟨rfl, rfl⟩ | ⟨-, found'⟩
  · exact absurd rendering settled
  · obtain ⟨k, p, found'', rendering', at_⟩ := tidy _ _ work found' settled held
    have other : n ≠ k := by
      rintro rfl
      obtain rfl := Option.some.inj (found.symm.trans found'')
      exact before rendering'
    exact ⟨k, p, by rwa [List.getElem?_set_ne other], rendering', at_⟩

theorem extend {children : List Fractal} (tidy : Tidy store disk jobs fractals)
    (housed : ∀ {j : Nat} {job : Job}, jobs[j]? = some job → ∃ f, fractals[job.fractal]? = some f) :
    Tidy store disk jobs (fractals ++ children) := by
  have keep : ∀ {n : Nat} {f : Fractal}, fractals[n]? = some f → (fractals ++ children)[n]? = some f :=
    fun found => by
      rw [List.getElem?_append_left (List.getElem?_eq_some_iff.mp found).1]
      exact found
  intro n f work found settled held
  obtain ⟨j, job, at_, rfl⟩ := work
  obtain ⟨g, found'⟩ := housed at_
  obtain rfl := Option.some.inj ((keep found').symm.trans found)
  obtain ⟨k, p, found'', rendering, at'⟩ := tidy _ _ ⟨j, job, at_, rfl⟩ found' settled held
  exact ⟨k, p, keep found'', rendering, at'⟩

end Tidy

section Steps

variable {rogue : Prop} {current : List Nat} {c c' : Course} {s t : Studio}

theorem worked_set {jobs : List Job} {i n : Nat} {job after : Job} (at_ : jobs[i]? = some job)
    (same : after.fractal = job.fractal) (worked : Worked (jobs.set i after) n) : Worked jobs n := by
  obtain ⟨j, other, at', rfl⟩ := worked
  rcases getElem?_set_cases at' with ⟨rfl, rfl⟩ | ⟨-, at'⟩
  · exact ⟨_, job, at_, same.symm⟩
  · exact ⟨j, other, at', rfl⟩

/-- The files after a picture is discarded that could be removed. -/
theorem discard_files {store : ImageStore} {disk : Disk} {identity : String}
    (removable : disk.Removable (store.path identity)) (loc : Location)
    (held : (store.discard disk identity).HasFile loc) :
    disk.HasFile loc ∧ loc ≠ store.spot disk identity := by
  refine ⟨(store.discard_cases disk identity).2 loc held, ?_⟩
  rintro rfl
  exact ImageStore.not_hasFile_discard removable held

/-- What a job does to its fractal and to the disk. -/
theorem tidy_effect {job : Job} {f after : Fractal} {disk : Disk} {setup : Setup} {jobs : List Job}
    {fractals : List Fractal} {d : Disk} (tidy : Tidy setup.store d jobs fractals)
    (fits : job.Fits rogue setup.store f) (found : fractals[job.fractal]? = some f)
    (removable : f.state = .rendering → d.Removable (setup.store.path f.id))
    (effect : Bench.Effect setup ⟨job, f, d⟩ after disk) :
    Tidy setup.store disk jobs (fractals.set job.fractal after) := by
  have unchanged : fractals.set job.fractal f = fractals := by
    obtain ⟨inside, rfl⟩ := List.getElem?_eq_some_iff.mp found
    exact List.set_getElem_self inside
  have discarded := setup.store.discard_cases d f.id
  cases effect with
  | still =>
      rw [unchanged]
      exact tidy
  | prepared _ =>
      rw [unchanged]
      have grows := Disk.grows_makeDirectories d setup.store.dir
      exact tidy.touch grows.workplace fun loc held => .inl (grows.files loc held)
  | received phase written =>
      rw [unchanged]
      obtain ⟨rendering, request⟩ := fits.request (.inr (.inl phase))
      rw [request] at written
      obtain ⟨same, files⟩ := Disk.write_cases written
      refine tidy.touch same fun loc held => ?_
      rcases files loc held with rfl | held
      · exact .inr ⟨job.fractal, f, found, rendering, rfl⟩
      · exact .inl held
  | cleaned phase =>
      rw [unchanged]
      obtain ⟨same, files⟩ := setup.store.discard_cases d _
      exact tidy.touch same fun loc held => .inl (files loc held)
  | varied genome varies =>
      have removable := removable (fits.rendering_of_varies varies)
      exact tidy.settle found discarded.1 (discard_files removable) fun settled => absurd rfl settled
  | spoiled varies =>
      have removable := removable (fits.rendering_of_varies varies)
      exact tidy.settle found discarded.1 (discard_files removable) fun _ => rfl
  | taken phase _ _ =>
      rw [Job.Fits, phase] at fits
      exact tidy.settle found discarded.1 (discard_files (removable fits)) fun _ => rfl
  | givenUp phase =>
      rw [Job.Fits, phase] at fits
      exact tidy.settle found discarded.1 (discard_files (removable fits)) fun _ => rfl

theorem tidy_work {i : Nat} {reply : Reply} (tidy : Tidy s.setup.store s.disk s.jobs s.fractals)
    (governed : Governed rogue current c s) (removable : s.Removable) (works : Works s i reply t) :
    Tidy t.setup.store t.disk t.jobs t.fractals := by
  obtain @⟨job, f, after, notice, at_, working, found, steps⟩ := works
  have ward := governed.custody.guarded at_ working
  have fits : job.Fits rogue s.setup.store f := governed.custody.fits ward at_ found
  have removable := removable f (List.mem_of_getElem? found)
  rw [settle_setup, settle_disk, settle_jobs, settle_fractals]
  have settled : Tidy s.setup.store after.disk s.jobs (s.fractals.set job.fractal after.fractal) :=
    tidy_effect tidy fits found removable steps.effect
  exact settled.mono_jobs fun worked _ => .inl (worked_set at_ steps.fractal_eq worked)

theorem tidy_scribble {i : Nat} {left : Option ByteArray}
    (tidy : Tidy s.setup.store s.disk s.jobs s.fractals) (governed : Governed rogue current c s)
    (scribbled : s.scribble i left = some t) : Tidy t.setup.store t.disk t.jobs t.fractals := by
  obtain ⟨job, turn, disk, at_, calling, rfl, touched⟩ := scribble_cases scribbled
  obtain ⟨f, found⟩ := governed.custody.housed at_
  have working : job.isOver = false := by rw [Job.isOver, calling]
  have fits := governed.custody.fits (governed.custody.guarded at_ working) at_ found
  obtain ⟨rendering, request⟩ := fits.request (.inr (.inl calling))
  rw [request] at touched
  rcases touched with ⟨bytes, written⟩ | removed
  · obtain ⟨same, files⟩ := Disk.write_cases written
    refine tidy.touch same fun loc held => ?_
    rcases files loc held with rfl | held
    · exact .inr ⟨job.fractal, f, found, rendering, rfl⟩
    · exact .inl held
  · obtain ⟨same, files⟩ := Disk.remove_cases removed
    exact tidy.touch same fun loc held => .inl (files loc held).2

theorem tidy_direct (tidy : Tidy s.setup.store s.disk s.jobs s.fractals)
    (governed : Governed rogue current c s) (removable : s.Removable) (directs : Directs s c c' t) :
    Tidy t.setup.store t.disk t.jobs t.fractals := by
  have custody := governed.custody
  cases directs with
  | claim found waiting =>
      rw [fractals_modifyFractal found]
      exact tidy.claim found (RenderState.ne_of_claimed waiting).1 rfl
  | @launch slot n visits seed source _ =>
      refine tidy.mono_jobs fun {m f} worked found => ?_
      obtain ⟨j, job, at_, rfl⟩ := worked
      rcases getElem?_concat_cases at_ with at_ | ⟨-, rfl⟩
      · exact .inl ⟨j, job, at_, rfl⟩
      · obtain ⟨⟨g, found', rendering⟩, -⟩ := custody.pledged rfl
        obtain rfl := Option.some.inj (found.symm.trans found')
        exact .inr rendering
  | @raise j raises joins =>
      refine tidy.mono_jobs fun worked _ => .inl ?_
      obtain ⟨i, job, at_, rfl⟩ := worked
      obtain ⟨before, origin, rfl⟩ := exists_askedAt at_
      exact ⟨i, before, origin, (Job.askedAt_fractal ..).symm⟩
  | @restore j joins job at_ =>
      obtain ⟨f, found⟩ := custody.housed at_
      by_cases rendering : f.state = .rendering
      · rw [restore_of_rendering found rendering]
        have removable := removable f (List.mem_of_getElem? found) rendering
        have discarded := s.setup.store.discard_cases s.disk f.id
        exact tidy.settle found discarded.1 (discard_files removable) fun _ => rfl
      · rw [restore_of_settled found rendering]
        exact tidy
  | _ => exact tidy

end Steps

end Studio

end FractalBreeder
