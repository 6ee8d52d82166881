import FractalBreeder.Proofs.Rendering.Renditions
import FractalBreeder.Proofs.Storage.Isolation
import FractalBreeder.Rendering.Run

/-!
A job by itself, with a disk of its own and a renderer that counts its calls. It does the same on two
disks that differ only in pictures of other jobs.
-/
namespace FractalBreeder

open ImageStore (Matched)

/-- The phases whose outcome depends on the file of a picture. -/
def Phase.reads : Phase → Bool
  | .calling _ | .inspecting _ | .measuring _ | .taking => true
  | _ => false

namespace Bench

variable {setup : Setup} {foreign : Location → Prop} {b : Bench} {e : Disk} {reply : Reply}

/-- The same bench with another disk, apart from what may differ there. -/
def Mirrors (store : ImageStore) (foreign : Location → Prop) (b b' : Bench) : Prop :=
  ∃ e, b' = { b with disk := e } ∧ Matched store foreign b.disk e

theorem Mirrors.job {b' : Bench} (mirrors : Mirrors setup.store foreign b b') (change : Job → Job) :
    Mirrors setup.store foreign { b with job := change b.job } { b' with job := change b'.job } := by
  obtain ⟨e, rfl, matched⟩ := mirrors
  exact ⟨e, rfl, matched⟩

theorem Mirrors.enter {b' : Bench} (mirrors : Mirrors setup.store foreign b b') (phase : Phase) :
    Mirrors setup.store foreign (b.enter phase) (b'.enter phase) :=
  mirrors.job fun job => { job with phase }

theorem Mirrors.unlessStopped {b' : Bench} (mirrors : Mirrors setup.store foreign b b')
    (next : Phase) : Mirrors setup.store foreign (b.unlessStopped next) (b'.unlessStopped next) := by
  obtain ⟨e, rfl, matched⟩ := mirrors
  rw [unlessStopped_eq, unlessStopped_eq]
  exact ⟨e, rfl, matched⟩

theorem Mirrors.choose {b' : Bench} (mirrors : Mirrors setup.store foreign b b')
    (choice : Draws Fractal) (next : Phase) :
    Mirrors setup.store foreign (b.choose choice next) (b'.choose choice next) := by
  obtain ⟨e, rfl, matched⟩ := mirrors
  unfold Bench.choose
  dsimp only
  split
  · exact ⟨e, rfl, matched⟩
  · exact ⟨e, rfl, matched⟩

section Own

variable {b' : Bench} {genome : Genome} (mirrors : Mirrors setup.store foreign b b')
  (plain : setup.store.IsPlain) (named : b.fractal.id = genome.identity)

include mirrors plain named

theorem Mirrors.clear : Mirrors setup.store foreign (b.clear setup) (b'.clear setup) := by
  obtain ⟨e, rfl, matched⟩ := mirrors
  have discarded := matched.discard plain genome
  rw [← named] at discarded
  exact ⟨_, rfl, discarded⟩

theorem Mirrors.giveUp : Mirrors setup.store foreign (b.giveUp setup) (b'.giveUp setup) := by
  obtain ⟨e, rfl, matched⟩ := mirrors
  have discarded := matched.discard plain genome
  rw [← named] at discarded
  exact ⟨_, rfl, discarded⟩

variable (own : ¬ foreign (setup.store.spot b.disk b.fractal.id))

include own

theorem Mirrors.receive {turn : Turn} (asked : turn.request = b.fractal.request setup.store) :
    Mirrors setup.store foreign (b.receive turn reply) (b'.receive turn reply) := by
  obtain ⟨e, rfl, matched⟩ := mirrors
  cases reply with
  | crashed => exact ⟨e, rfl, matched⟩
  | returned left result =>
      cases left with
      | none => exact ⟨e, rfl, matched⟩
      | some bytes =>
          have output : turn.request.output = setup.store.path genome.identity := by
            rw [asked, ← named]
            rfl
          rw [named] at own
          simp only [Bench.receive, output]
          rcases matched.write plain genome own bytes with
            ⟨fault, here, there⟩ | ⟨after, after', here, there, matched⟩
          · rw [here, there]
            exact ⟨e, rfl, matched⟩
          · rw [here, there]
            exact ⟨after', rfl, matched⟩

theorem Mirrors.measure (retry : Nat) :
    Mirrors setup.store foreign (b.measure setup retry) (b'.measure setup retry) := by
  obtain ⟨e, rfl, matched⟩ := mirrors
  rw [named] at own
  have size : setup.store.size e b.fractal.id = setup.store.size b.disk b.fractal.id := by
    unfold ImageStore.size Disk.size
    rw [named, matched.stat plain genome own]
  unfold Bench.measure Fractal.isSparse
  dsimp only
  rw [size]
  split
  · exact ⟨e, rfl, matched⟩
  · exact ⟨e, rfl, matched⟩
  · exact ⟨e, rfl, matched⟩

theorem Mirrors.take : Mirrors setup.store foreign (b.take setup) (b'.take setup) := by
  obtain ⟨e, rfl, matched⟩ := mirrors
  rw [named] at own
  have read : e.read (setup.store.path b.fractal.id) = b.disk.read (setup.store.path b.fractal.id) := by
    unfold Disk.read
    rw [named, matched.stat plain genome own]
  have discarded := matched.discard plain genome
  rw [← named] at discarded
  unfold Bench.take Fractal.takePicture ImageStore.load
  dsimp only
  rw [read]
  split
  · exact ⟨e, rfl, matched⟩
  · cases b.disk.read (setup.store.path b.fractal.id) with
    | error fault => exact ⟨e, rfl, matched⟩
    | ok bytes => exact ⟨_, rfl, discarded⟩

end Own

/-- One step, on two disks that differ only in pictures of others. -/
theorem Mirrors.step (reply : Reply) {b' : Bench} {genome : Genome}
    (mirrors : Mirrors setup.store foreign b b')
    (plain : setup.store.IsPlain) (named : b.fractal.id = genome.identity)
    (fits : b.job.Fits True setup.store b.fractal) (prepared : b.job.phase ≠ .preparing)
    (own : b.job.phase.reads = true → ¬ foreign (setup.store.spot b.disk b.fractal.id)) :
    Mirrors setup.store foreign (b.step setup reply).1 (b'.step setup reply).1 ∧
      (b'.step setup reply).2 = (b.step setup reply).2 := by
  obtain ⟨e, rfl, matched⟩ := mirrors
  have mirrors : Mirrors setup.store foreign b { b with disk := e } := ⟨e, rfl, matched⟩
  unfold Job.Fits at fits
  unfold Bench.step
  dsimp only
  cases phase : b.job.phase with
  | preparing => exact absurd phase prepared
  | opening _ | closing => exact ⟨mirrors.unlessStopped _, rfl⟩
  | mutating retry =>
      have chosen := (mirrors.clear plain named).choose
        ((b.clear setup).fractal.mutateInPlace setup.genetic) (.requesting retry)
      exact ⟨chosen, rfl⟩
  | rebreeding =>
      have chosen := (mirrors.clear plain named).choose
        ((b.clear setup).fractal.redo setup.genetic) (.opening 0)
      exact ⟨chosen.job fun job => { job with regenerations := job.regenerations + 1 }, rfl⟩
  | trying turn last =>
      dsimp only
      split
      · split
        · exact ⟨mirrors.enter _, rfl⟩
        · exact ⟨mirrors.enter _, rfl⟩
      · exact ⟨mirrors.enter _, rfl⟩
  | calling turn =>
      rw [phase] at fits own
      exact ⟨mirrors.receive plain named (own rfl) fits.2, rfl⟩
  | inspecting turn =>
      rw [phase] at fits own
      have output : turn.request.output = setup.store.path genome.identity := by
        rw [show turn.request = _ from fits.2, ← named]
        rfl
      have same : e.exists? turn.request.output = b.disk.exists? turn.request.output := by
        have own := own rfl
        rw [named] at own
        unfold Disk.exists?
        rw [output, matched.stat plain genome own]
      dsimp only
      rw [same]
      split
      · exact ⟨mirrors.enter _, rfl⟩
      · exact ⟨mirrors.enter _, rfl⟩
  | cleaning turn fault =>
      rw [phase] at fits
      have asked : turn.request.identity = genome.identity := by
        rw [show turn.request = _ from fits.2.1, ← named]
        rfl
      have discarded := matched.discard plain genome
      rw [← asked] at discarded
      exact ⟨⟨_, rfl, discarded⟩, rfl⟩
  | measuring retry =>
      rw [phase] at own
      exact ⟨mirrors.measure plain named (own rfl) retry, rfl⟩
  | taking =>
      rw [phase] at own
      exact ⟨mirrors.take plain named (own rfl), rfl⟩
  | settling fault => exact ⟨(mirrors.giveUp plain named).enter _, rfl⟩
  | announcing | requesting _ | marking _ | reporting _ | failing _ | withdrawing | lamenting _ _
  | repainting => exact ⟨mirrors.enter _, rfl⟩
  | «over» | dead => exact ⟨mirrors, rfl⟩

end Bench

/-- Some request was for an identity. -/
def Requested (requests : List Request) (identity : String) : Prop :=
  ∃ request ∈ requests, request.identity = identity

theorem Requested.append {requests : List Request} {identity : String}
    (requested : Requested requests identity) (more : List Request) :
    Requested (requests ++ more) identity := by
  obtain ⟨request, member, same⟩ := requested
  exact ⟨request, List.mem_append_left _ member, same⟩

/-- Where in its work a job has asked for the picture of its identity, if it can ask at all. -/
def Phase.Asked (able asked : Prop) : Phase → Prop
  | .mutating _ | .calling _ | .inspecting _ | .cleaning _ _ | .measuring _ | .closing | .rebreeding
  | .taking => asked
  | .opening retry => retry = 0 ∨ asked
  | .trying turn _ => turn.calls = 0 ∨ asked
  | .failing _ | .settling _ => able → asked
  | _ => True

namespace Bench

variable {setup : Setup} {b : Bench} {reply : Reply} {requests : List Request}

/-- A step of a job that is not asked to stop, and that gets its directory. -/
theorem asked_step (reply : Reply) (calm : b.job.flag.raised = false)
    (usable : b.job.phase = .preparing → (setup.store.ensureDir b.disk).2 = .ok ())
    (fits : b.job.Fits True setup.store b.fractal)
    (asked : b.job.phase.Asked (0 < setup.render.attempts.toNat) (Requested requests b.fractal.id)) :
    (b.step setup reply).1.job.phase.Asked (0 < setup.render.attempts.toNat)
      (Requested (requests ++ (Notice.request? (b.step setup reply).2).toList)
        (b.step setup reply).1.fractal.id) := by
  cases phase : b.job.phase with
  | preparing =>
      simp only [step, phase, usable phase]
      exact .inl rfl
  | opening retry =>
      rw [phase] at asked
      simp only [step, phase, unlessStopped_eq, calm, Bool.false_eq_true, if_false]
      split
      · trivial
      next again => exact (asked.resolve_left again).append _
  | mutating retry =>
      simp only [step, phase]
      rcases choose_cases b (.requesting retry) (ensures_mutating b) with ⟨genome, source, made⟩ | made
      · rw [made]
        trivial
      · rw [made]
        trivial
  | requesting retry =>
      simp only [step, phase]
      exact .inl rfl
  | trying turn last =>
      rw [Job.Fits, phase] at fits
      rw [phase] at asked
      simp only [step, phase, StopFlag.check, calm, Bool.false_eq_true, if_false]
      split
      · refine ⟨turn.request, List.mem_append_right _ List.mem_cons_self, ?_⟩
        rw [show turn.request = _ from fits.2.1]
        rfl
      next enough =>
        intro able
        exact (asked.resolve_left fun none => enough (none ▸ able)).append _
  | calling turn =>
      rw [phase] at asked
      simp only [step, phase]
      rcases receive_cases b { turn with calls := turn.calls + 1 } reply with
        ⟨-, made⟩ | ⟨disk, next, made, -, outcome⟩
      · rw [made]
        trivial
      · rw [made]
        rcases outcome with rfl | ⟨fault, -, rfl⟩ | ⟨rfl, -⟩
        · exact Requested.append asked _
        · exact Requested.append asked _
        · exact fun _ => Requested.append asked _
  | inspecting turn =>
      rw [phase] at asked
      simp only [step, phase]
      split
      · exact Requested.append asked _
      · exact Requested.append asked _
  | cleaning turn fault =>
      rw [phase] at asked
      simp only [step, phase]
      exact .inr (Requested.append asked _)
  | measuring retry =>
      rw [phase] at asked
      simp only [step, phase]
      obtain ⟨next, outcome, made⟩ := measure_cases setup b retry
      rw [made]
      rcases outcome with rfl | rfl | rfl | ⟨fault, rfl⟩
      · exact .inr (Requested.append asked _)
      · exact Requested.append asked _
      · exact Requested.append asked _
      · exact fun _ => Requested.append asked _
  | closing =>
      rw [phase] at asked
      simp only [step, phase, unlessStopped_eq, calm, Bool.false_eq_true, if_false]
      split
      · exact Requested.append asked _
      · exact Requested.append asked _
  | rebreeding =>
      simp only [step, phase]
      rcases choose_cases b (.opening 0) (ensures_rebreeding b) with ⟨genome, source, made⟩ | made
      · rw [made]
        exact .inl rfl
      · rw [made]
        trivial
  | taking =>
      rw [phase] at asked
      simp only [step, phase]
      rcases take_cases setup b with ⟨bytes, -, -, made⟩ | ⟨-, made⟩ | ⟨fault, made⟩
      · rw [made]
        trivial
      · rw [made]
        exact fun _ => Requested.append asked _
      · rw [made]
        exact fun _ => Requested.append asked _
  | failing fault =>
      rw [phase] at asked
      simp only [step, phase]
      split
      · trivial
      · exact fun able => (asked able).append _
  | announcing | marking _ | reporting _ | withdrawing | settling _ | lamenting _ _ | repainting =>
      simp only [step, phase]
      trivial
  | «over» | dead =>
      simp only [step, phase]
      trivial

end Bench

/-- A request is made before a call, and no more often than allowed. -/
theorem Bench.trying_of_request {setup : Setup} {b : Bench} {reply : Reply} {request : Request}
    (told : Notice.request? (b.step setup reply).2 = some request) :
    (∃ turn last, b.job.phase = .trying turn last ∧ request = turn.request) ∧
      0 < setup.render.attempts.toNat := by
  have steps := steps_step setup reply b
  have trying : ∃ turn last, b.job.phase = .trying turn last ∧ request = turn.request := by
    generalize b.step setup reply = result at steps told
    obtain ⟨after, notice⟩ := result
    cases steps with
    | called phase _ => exact ⟨_, _, phase, (Option.some.inj told).symm⟩
    | _ => cases told
  refine ⟨trying, ?_⟩
  obtain ⟨turn, last, phase, -⟩ := trying
  simp only [step, phase] at told
  split at told
  next more => omega
  next => cases told

/-- A job by itself: its fractal and a disk, and what it has told so far. -/
structure Solo where
  bench : Bench
  events : List RenderEvent := []
  requests : List Request := []
  /-- The job told that its picture can be shown. -/
  shown : Bool := false

/-- Whether a notice says that the picture can be shown. -/
def Notice.shows : Option Notice → Bool
  | some .ready => true
  | _ => false

namespace Solo

variable {renderer : Renderer} {setup : Setup} {p q : Solo}

/-- Before anything happened. -/
def start (job : Job) (f : Fractal) (disk : Disk) : Solo where
  bench := ⟨job, f, disk⟩

def hear (p : Solo) (told : Bench × Option Notice) : Solo where
  bench := told.1
  events := p.events ++ Notice.events told.2
  requests := p.requests ++ (Notice.request? told.2).toList
  shown := p.shown || Notice.shows told.2

/-- The answer that the job waits for; the renderer knows the calls before this one. -/
def answer (renderer : Renderer) (p : Solo) : Answer :=
  match p.bench.job.phase with
  | .calling turn => renderer p.bench.job.slot (p.requests.length - 1) turn.request
  | _ => ⟨false, .crashed⟩

/-- The next step, unless the job is over or its call does not return. -/
def step? (renderer : Renderer) (setup : Setup) (p : Solo) : Option Solo :=
  if p.bench.job.isOver || (p.answer renderer).held && !p.bench.job.flag.raised then none
  else some (p.hear (p.bench.step setup (p.answer renderer).reply))

/-- What a job that is never asked to stop relies on. -/
structure Able (setup : Setup) (p : Solo) : Prop where
  fits : p.bench.job.Fits True setup.store p.bench.fractal
  named : p.bench.fractal.id = p.bench.fractal.genome.identity
  calm : p.bench.job.flag.raised = false
  requests : ∀ request ∈ p.requests, ∃ genome : Genome, request.identity = genome.identity
  tries : p.requests ≠ [] → 0 < setup.render.attempts.toNat
  asked : p.bench.job.phase.Asked (0 < setup.render.attempts.toNat)
    (Requested p.requests p.bench.fractal.id)

theorem Able.step (able : p.Able setup) (reply : Reply)
    (usable : p.bench.job.phase = .preparing →
      (setup.store.ensureDir p.bench.disk).2 = .ok ()) :
    (p.hear (p.bench.step setup reply)).Able setup := by
  have steps := Bench.steps_step setup reply p.bench
  have asked := Bench.asked_step reply able.calm usable able.fits able.asked
  exact {
    fits := steps.fits able.fits fun _ _ => .inr trivial
    named := steps.identity able.named
    calm := (congrArg StopFlag.raised steps.flag_eq).trans able.calm
    requests request member := by
      rcases List.mem_append.mp member with member | member
      · exact able.requests request member
      · obtain ⟨⟨turn, last, phase, rfl⟩, -⟩ := Bench.trying_of_request (Option.mem_toList.mp member)
        have fits := able.fits
        rw [Job.Fits, phase] at fits
        rw [show turn.request = _ from fits.2.1]
        exact ⟨p.bench.fractal.genome, able.named⟩
    tries filled := by
      cases told : Notice.request? (p.bench.step setup reply).2 with
      | some request => exact (Bench.trying_of_request told).2
      | none =>
          apply able.tries
          rintro empty
          apply filled
          simp only [hear, told, empty]
          rfl
    asked := asked }

end Solo

end FractalBreeder
