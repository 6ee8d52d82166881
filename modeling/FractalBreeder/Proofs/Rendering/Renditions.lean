import FractalBreeder.Proofs.Rendering.Runs
import FractalBreeder.Proofs.Rendering.Telling
import FractalBreeder.Proofs.Storage.Contents

/-!
The calls of a job, one after the other, with what each found and made. Between the end of a call and
the taking over of its picture, the file of the fractal is as the call left it, unless somebody else
is at work on it.
-/
namespace FractalBreeder

open Bench (Steps)

/-- A call of a renderer, with what it made of its file. -/
structure Rendition where
  request : Request
  /-- The file that was there before. -/
  found : Option ByteArray
  /-- What the renderer left in its place, if it touched it. -/
  made : Option (Option ByteArray) := none
  result : Option (Except Failure Unit) := none

namespace Rendition

/-- The file as the call left it. -/
def file? (r : Rendition) : Option ByteArray := r.made.getD r.found

/-- The call returns. A file that cannot be left is a failure of the call. -/
def close (r : Rendition) (disk : Disk) : Reply → Rendition
  | .crashed => r
  | .returned none result => { r with result := some result }
  | .returned (some bytes) result =>
    match disk.write r.request.output bytes with
    | .ok _ => { r with made := some (some bytes), result := some result }
    | .error fault => { r with result := some (.error (.io fault)) }

/-- The latest call after a step of its job from one phase to another. -/
def next (disk : Disk) (reply : Reply) (last : Option Rendition) : Phase → Phase → Option Rendition
  | .trying _ _, .calling turn =>
    some { request := turn.request, found := disk.file? (disk.place turn.request.output) }
  | .calling _, _ => last.map (·.close disk reply)
  | _, _ => last

end Rendition

namespace Studio

/-- What is known of the latest call of a job after one more action. -/
def attend (i : Nat) (s t : Studio) (last : Option Rendition) : Action → Option Rendition
  | .work j reply =>
    if j = i then
      match s.phase? i, t.phase? i with
      | some before, some after => Rendition.next s.disk reply last before after
      | _, _ => last
    else last
  | .scribble j left => if j = i then last.map ({ · with made := some left }) else last
  | _ => last

/-- The latest call of a job in a run, which goes on from the given one. -/
def lastRendition? (i : Nat) (s : Studio) (last : Option Rendition) :
    List Action → Option Rendition
  | [] => last
  | action :: rest =>
    match s.act? action with
    | some t => t.lastRendition? i (s.attend i t last action) rest
    | none => last

/-- The last request that a job made of the renderer. -/
def lastRequest? (i : Nat) (s : Studio) : Option Request :=
  (s.calls.filter (·.job == i)).getLast?.map (·.request)

/-- No other job has a renderer at work under the identity of the job's fractal; where the extension
has slashes in it, nor on the same file. -/
def Unmet (i : Nat) (s : Studio) : Prop :=
  ∀ job f, s.jobs[i]? = some job → job.isOver = false → s.fractals[job.fractal]? = some f →
    ∀ j other turn, j ≠ i → s.jobs[j]? = some other → other.phase = .calling turn →
      turn.request.identity ≠ f.id ∧
        (s.setup.store.IsPlain ∨
          s.disk.place turn.request.output ≠ s.setup.store.spot s.disk f.id)

end Studio

/-- The request of a job between two pictures. -/
def Phase.turn? : Phase → Option Turn
  | .trying turn _ | .calling turn | .inspecting turn | .cleaning turn _ => some turn
  | _ => none

def Notice.request? : Option Notice → Option Request
  | some (.call request) => some request
  | _ => none

namespace Rendition

/-- The call was for the fractal as it is, and the file of the fractal, if it is there, is as the
call left it. -/
structure Made (store : ImageStore) (d : Disk) (f : Fractal) (r : Rendition) : Prop where
  request : r.request = f.request store
  file : ∀ bytes, d.file? (store.spot d f.id) = some bytes → r.file? = some bytes

/-- The call succeeded, too. -/
structure Done (store : ImageStore) (d : Disk) (f : Fractal) (r : Rendition) : Prop
    extends Made store d f r where
  result : r.result = some (.ok ())

/-- The fractal has the picture that the call left, and the file is gone. -/
structure Shown (store : ImageStore) (d : Disk) (f : Fractal) (r : Rendition) : Prop
    extends Done store d f r where
  state : f.state = .ready
  image : ∃ bytes, f.image = some ⟨f.id, store.extension, bytes⟩ ∧ r.file? = some bytes
  gone : d.file? (store.spot d f.id) = none

/-- How far a job has come with the latest call. -/
def Serves (store : ImageStore) (d : Disk) (f : Fractal) (last : Option Rendition) : Phase → Prop
  | .trying turn _ | .cleaning turn _ => turn.request = f.request store
  | .calling turn => turn.request = f.request store ∧ ∃ r ∈ last, r.Made store d f
  | .inspecting turn => turn.request = f.request store ∧ ∃ r ∈ last, r.Done store d f
  | .measuring _ | .closing | .taking => ∃ r ∈ last, r.Done store d f
  | .marking identity | .reporting identity => identity = f.id ∧ ∃ r ∈ last, r.Shown store d f
  | _ => True

variable {store : ImageStore} {d after : Disk} {f g : Fractal} {r : Rendition}

/-- A change somewhere else: the fractal keeps its genome, and once it is ready all of it, and its
file is at most removed. -/
structure Spares (store : ImageStore) (d : Disk) (f : Fractal) (after : Disk) (g : Fractal) : Prop where
  id : g.id = f.id
  genome : g.genome = f.genome
  ready : f.state = .ready → g = f
  workplace : after.workplace = d.workplace
  file : ∀ bytes, after.file? (store.spot d f.id) = some bytes →
    d.file? (store.spot d f.id) = some bytes

namespace Spares

theorem request (spares : Spares store d f after g) : g.request store = f.request store := by
  unfold Fractal.request
  rw [spares.id, spares.genome]

theorem spot (spares : Spares store d f after g) : store.spot after g.id = store.spot d f.id := by
  rw [spares.id]
  exact store.spot_congr spares.workplace f.id

theorem made (spares : Spares store d f after g) (made : r.Made store d f) : r.Made store after g where
  request := made.request.trans spares.request.symm
  file bytes held := by
    rw [spares.spot] at held
    exact made.file bytes (spares.file bytes held)

theorem done (spares : Spares store d f after g) (done : r.Done store d f) : r.Done store after g :=
  { spares.made done.toMade with result := done.result }

theorem shown (spares : Spares store d f after g) (shown : r.Shown store d f) :
    r.Shown store after g where
  toDone := spares.done shown.toDone
  state := by
    rw [spares.ready shown.state]
    exact shown.state
  image := by
    rw [spares.ready shown.state]
    exact shown.image
  gone := by
    rw [spares.spot]
    cases held : after.file? (store.spot d f.id) with
    | none => rfl
    | some bytes =>
        have still := spares.file bytes held
        rw [shown.gone] at still
        cases still

theorem serves (spares : Spares store d f after g) {last : Option Rendition} {phase : Phase}
    (serves : Serves store d f last phase) : Serves store after g last phase := by
  cases phase with
  | trying _ _ | cleaning _ _ => exact Eq.trans serves spares.request.symm
  | calling _ =>
      obtain ⟨request, r, member, made⟩ := serves
      exact ⟨request.trans spares.request.symm, r, member, spares.made made⟩
  | inspecting _ =>
      obtain ⟨request, r, member, done⟩ := serves
      exact ⟨request.trans spares.request.symm, r, member, spares.done done⟩
  | measuring _ | closing | taking =>
      obtain ⟨r, member, done⟩ := serves
      exact ⟨r, member, spares.done done⟩
  | marking _ | reporting _ =>
      obtain ⟨same, r, member, shown⟩ := serves
      exact ⟨same.trans spares.id.symm, r, member, spares.shown shown⟩
  | _ => trivial

end Spares

end Rendition

namespace Bench

open Rendition (Serves Done Made Shown)

variable {setup : Setup} {b : Bench} {reply : Reply} {last : Option Rendition}

/-- A call that returned was for the fractal as it is, and left its file. -/
theorem serves_receive {turn counted : Turn} (same : counted.request = turn.request)
    (serves : Serves setup.store b.disk b.fractal last (.calling turn)) :
    Serves setup.store (b.receive counted reply).disk (b.receive counted reply).fractal
      (last.map (·.close b.disk reply)) (b.receive counted reply).job.phase := by
  obtain ⟨asked, r, member, made⟩ := serves
  obtain rfl := Option.mem_def.mp member
  have asked : counted.request = b.fractal.request setup.store := same.trans asked
  have output : counted.request.output = r.request.output := by rw [asked, made.request]
  cases reply with
  | crashed => trivial
  | returned left result =>
      cases left with
      | none =>
          cases result with
          | ok _ => exact ⟨asked, _, rfl, ⟨made.request, made.file⟩, rfl⟩
          | error fault =>
              cases fault with
              | cancelled => trivial
              | _ => exact asked
      | some bytes =>
          simp only [receive]
          cases written : b.disk.write counted.request.output bytes with
          | error fault => exact asked
          | ok disk =>
              cases result with
              | ok _ =>
                  have place : b.disk.place counted.request.output =
                      setup.store.spot b.disk b.fractal.id := by
                    rw [asked]
                    rfl
                  have files := Disk.file?_write written
                  have workplace := (Disk.write_cases written).1
                  refine ⟨asked, r.close b.disk (.returned (some bytes) (.ok ())), rfl, ?_⟩
                  simp only [Rendition.close, ← output, written]
                  refine ⟨⟨made.request, fun held found => ?_⟩, rfl⟩
                  change disk.file? (setup.store.spot disk b.fractal.id) = some held at found
                  rw [setup.store.spot_congr workplace, files, if_pos place.symm] at found
                  exact found
              | error fault =>
                  cases fault with
                  | cancelled => trivial
                  | _ => exact asked

/-- A step between calls. -/
theorem Steps.serves {after : Bench} {notice : Option Notice}
    (steps : Steps setup reply b after notice) (waits : ∀ turn, b.job.phase ≠ .calling turn)
    (serves : Serves setup.store b.disk b.fractal last b.job.phase) :
    Serves setup.store after.disk after.fractal
      (Rendition.next b.disk reply last b.job.phase after.job.phase) after.job.phase := by
  cases steps with
  | crashed phase _ | returned _ phase _ _ _ | ceased phase _ _ => exact absurd phase (waits _)
  | announced _ | stopped _ _ | spoiled _ _ | exhausted _ | missed _ _ | reported _ | yielded _ _
  | failed _ | withdrawn _ | givenUp _ | lamented _ | repainted _ => trivial
  | prepared _ next =>
      rcases next with rfl | ⟨_, rfl⟩
      · trivial
      · trivial
  | opened _ next =>
      rcases next with rfl | rfl
      · trivial
      · trivial
  | varied _ _ _ _ next =>
      obtain ⟨_, rfl | rfl⟩ := next
      · trivial
      · trivial
  | requested _ => rfl
  | @called turn last' phase _ =>
      rw [phase] at serves ⊢
      refine ⟨serves, _, rfl, serves, fun bytes held => ?_⟩
      have held : b.disk.file? (setup.store.spot b.disk b.fractal.id) = some bytes := held
      have place : setup.store.spot b.disk b.fractal.id = b.disk.place turn.request.output := by
        rw [show turn.request = _ from serves]
        rfl
      rw [place] at held
      exact held
  | inspected phase next =>
      rw [phase] at serves ⊢
      rcases next with rfl | ⟨_, rfl⟩
      · exact serves.2
      · exact serves.1
  | cleaned phase =>
      rw [phase] at serves
      exact serves
  | measured _ phase next =>
      rw [phase] at serves ⊢
      rcases next with rfl | rfl | rfl | ⟨_, rfl⟩
      · trivial
      · exact serves
      · exact serves
      · trivial
  | closed phase next =>
      rw [phase] at serves ⊢
      rcases next with rfl | rfl
      · exact serves
      · trivial
  | @taken bytes phase _ read =>
      rw [phase] at serves ⊢
      obtain ⟨r, member, done⟩ := serves
      obtain ⟨held, gone⟩ := ImageStore.file?_discard_of_read read
      have workplace := (setup.store.discard_cases b.disk b.fractal.id).1
      have gone : (setup.store.discard b.disk b.fractal.id).file?
          (setup.store.spot (setup.store.discard b.disk b.fractal.id) b.fractal.id) = none := by
        rw [setup.store.spot_congr workplace]
        exact gone
      refine ⟨rfl, r, member, ?_⟩
      exact {
        request := done.request
        file := fun bytes held => by
          rw [gone] at held
          cases held
        result := done.result
        state := rfl
        image := ⟨bytes, rfl, done.file bytes held⟩
        gone := gone }
  | marked phase =>
      rw [phase] at serves ⊢
      exact serves
  | rested halted =>
      unfold Job.isOver at halted
      cases phase : b.job.phase with
      | «over» | dead => trivial
      | _ =>
          rw [phase] at halted
          cases halted

/-- One step of a job, and its latest call. -/
theorem serves_step (setup : Setup) (reply : Reply) (b : Bench)
    (serves : Serves setup.store b.disk b.fractal last b.job.phase) :
    Serves setup.store (b.step setup reply).1.disk (b.step setup reply).1.fractal
      (Rendition.next b.disk reply last b.job.phase (b.step setup reply).1.job.phase)
      (b.step setup reply).1.job.phase := by
  by_cases calls : ∃ turn, b.job.phase = .calling turn
  · obtain ⟨turn, calling⟩ := calls
    rw [calling] at serves ⊢
    simp only [step, calling]
    exact serves_receive rfl serves
  · exact (steps_step setup reply b).serves (fun turn calling => calls ⟨turn, calling⟩) serves

/-- A step removes at most the file in a place, unless it is the end of a call for that file. -/
theorem Effect.file? {f : Fractal} {disk : Disk} (effect : Effect setup b f disk) :
    disk.workplace = b.disk.workplace ∧ ∀ loc,
      (∀ bytes, disk.file? loc = some bytes → b.disk.file? loc = some bytes) ∨
        ∃ turn, b.job.phase = .calling turn ∧ loc = b.disk.place turn.request.output := by
  have discarded : ∀ identity, (setup.store.discard b.disk identity).workplace = b.disk.workplace ∧
      ∀ loc, (∀ bytes, (setup.store.discard b.disk identity).file? loc = some bytes →
        b.disk.file? loc = some bytes) ∨
        ∃ turn, b.job.phase = .calling turn ∧ loc = b.disk.place turn.request.output := by
    exact fun identity => ⟨(setup.store.discard_cases b.disk identity).1, fun loc =>
      .inl fun bytes held => ImageStore.file?_of_discard held⟩
  cases effect with
  | still => exact ⟨rfl, fun _ => .inl fun _ => id⟩
  | prepared _ =>
      refine ⟨(Disk.extends_makeDirectories b.disk setup.store.dir).workplace, fun loc => .inl ?_⟩
      intro bytes held
      rwa [ImageStore.ensureDir, Disk.file?_makeDirectories] at held
  | @received turn bytes disk phase written =>
      refine ⟨(Disk.write_cases written).1, fun loc => ?_⟩
      have files := Disk.file?_write written loc
      by_cases here : loc = b.disk.place turn.request.output
      · exact .inr ⟨turn, phase, here⟩
      · rw [if_neg here] at files
        exact .inl fun bytes held => files ▸ held
  | cleaned _ | varied _ _ | spoiled _ | taken _ _ _ | givenUp _ => exact discarded _

/-- A job keeps its request from call to call. -/
theorem Steps.turn {after : Bench} {notice : Option Notice}
    (steps : Steps setup reply b after notice) {turn : Turn}
    (at_ : after.job.phase.turn? = some turn) :
    (∃ before, b.job.phase.turn? = some before ∧ turn.request = before.request) ∨
      turn.request = b.fractal.request setup.store := by
  cases steps with
  | requested _ =>
      obtain rfl := Option.some.inj at_
      exact .inr rfl
  | called phase _ | cleaned phase =>
      obtain rfl := Option.some.inj at_
      exact .inl ⟨_, congrArg Phase.turn? phase, rfl⟩
  | returned counted phase same _ next =>
      refine .inl ⟨_, congrArg Phase.turn? phase, ?_⟩
      rcases next with rfl | ⟨_, _, rfl⟩
      · obtain rfl := Option.some.inj at_
        exact same
      · obtain rfl := Option.some.inj at_
        exact same
  | inspected phase next =>
      refine .inl ⟨_, congrArg Phase.turn? phase, ?_⟩
      rcases next with rfl | ⟨_, rfl⟩
      · cases at_
      · obtain rfl := Option.some.inj at_
        rfl
  | prepared _ next =>
      rcases next with rfl | ⟨_, rfl⟩
      · cases at_
      · cases at_
  | opened _ next | closed _ next =>
      rcases next with rfl | rfl
      · cases at_
      · cases at_
  | varied _ _ _ _ next =>
      obtain ⟨_, rfl | rfl⟩ := next
      · cases at_
      · cases at_
  | measured _ _ next =>
      rcases next with rfl | rfl | rfl | ⟨_, rfl⟩
      · cases at_
      · cases at_
      · cases at_
      · cases at_
  | rested _ => exact .inl ⟨turn, at_, rfl⟩
  | _ => cases at_

/-- A job tells that its fractal is ready by one step, which changes nothing. -/
theorem Steps.reported_of_ready {after : Bench} {notice : Option Notice} {slot : Nat}
    {identity : String} {attempts regenerations : UInt32}
    (steps : Steps setup reply b after notice)
    (told : Notice.events notice = [.ready slot identity attempts regenerations]) :
    b.job.phase = .reporting identity ∧ b.job.slot = slot ∧ after = b.enter .repainting ∧
      notice = some (.event (.ready slot identity attempts regenerations)) := by
  cases steps with
  | reported phase =>
      cases told
      exact ⟨phase, rfl, rfl, rfl⟩
  | _ => cases told

/-- The identity of a fractal stays that of its genome. -/
theorem Steps.identity {after : Bench} {notice : Option Notice}
    (steps : Steps setup reply b after notice) (named : b.fractal.id = b.fractal.genome.identity) :
    after.fractal.id = after.fractal.genome.identity := by
  cases steps with
  | varied _ _ _ _ _ => rfl
  | _ => exact named

end Bench

namespace Studio

open Rendition (Serves Spares)

/-- The director changes no genome, no picture that is shown, and no file that it does not remove. -/
theorem Directs.spares {c c' : Course} {s t : Studio} (directs : Directs s c c' t) {n : Nat}
    {f : Fractal} (found : s.fractals[n]? = some f) :
    ∃ g, t.fractals[n]? = some g ∧ Spares s.setup.store s.disk f t.disk g := by
  have spared : Spares s.setup.store s.disk f s.disk f :=
    ⟨rfl, rfl, fun _ => rfl, rfl, fun _ => id⟩
  cases directs with
  | @claim slot m visits g found' waiting =>
      rw [fractals_modifyFractal found']
      by_cases same : m = n
      · subst same
        obtain rfl := Option.some.inj (found.symm.trans found')
        refine ⟨_, List.getElem?_set_self (List.getElem?_eq_some_iff.mp found).1, ?_⟩
        exact ⟨rfl, rfl, fun ready => absurd ready (RenderState.ne_of_claimed waiting).2, rfl,
          fun _ => id⟩
      · exact ⟨f, by rwa [List.getElem?_set_ne same], spared⟩
  | @restore j joins job _ =>
      cases at_ : s.fractals[job.fractal]? with
      | none =>
          rw [Studio.restore, at_]
          exact ⟨f, found, spared⟩
      | some g =>
          by_cases rendering : g.state = .rendering
          · rw [restore_of_rendering at_ rendering]
            have workplace := (s.setup.store.discard_cases s.disk g.id).1
            by_cases same : job.fractal = n
            · subst same
              obtain rfl := Option.some.inj (found.symm.trans at_)
              refine ⟨_, List.getElem?_set_self (List.getElem?_eq_some_iff.mp found).1, ?_⟩
              have unready : f.state ≠ .ready := by
                rw [rendering]
                decide
              exact ⟨rfl, rfl, fun ready => absurd ready unready, workplace,
                fun _ => ImageStore.file?_of_discard⟩
            · exact ⟨f, by rwa [List.getElem?_set_ne same],
                ⟨rfl, rfl, fun _ => rfl, workplace, fun _ => ImageStore.file?_of_discard⟩⟩
          · rw [restore_of_settled at_ rendering]
            exact ⟨f, found, spared⟩
  | _ => exact ⟨f, found, spared⟩

theorem Directs.named {c c' : Course} {s t : Studio} (directs : Directs s c c' t)
    (named : ∀ f ∈ s.fractals, f.id = f.genome.identity) :
    ∀ f ∈ t.fractals, f.id = f.genome.identity := by
  intro g member
  obtain ⟨n, inside, found⟩ := List.getElem_of_mem member
  have earlier := List.getElem?_eq_getElem (directs.length_fractals ▸ inside)
  obtain ⟨h, found', spares⟩ := directs.spares earlier
  have same : h = g := by
    rw [List.getElem?_eq_getElem inside, found] at found'
    exact (Option.some.inj found').symm
  rw [← same, spares.id, spares.genome]
  exact named _ (List.getElem_mem _)

/-- A renderer at work leaves its file as it says, and no other one. -/
theorem scribble_files {s t : Studio} {i : Nat} {left : Option ByteArray}
    (scribbled : s.scribble i left = some t) :
    ∃ job turn disk, s.jobs[i]? = some job ∧ job.phase = .calling turn ∧ t = { s with disk } ∧
      disk.workplace = s.disk.workplace ∧
        ∀ loc, disk.file? loc =
          if loc = s.disk.place turn.request.output then left else s.disk.file? loc := by
  obtain ⟨job, turn, disk, at_, calling, rfl, touched⟩ := scribble_eq_some scribbled
  refine ⟨job, turn, disk, at_, calling, rfl, ?_⟩
  cases left with
  | some bytes => exact ⟨(Disk.write_cases touched).1, Disk.file?_write touched⟩
  | none => exact ⟨(Disk.remove_cases touched).1, Disk.file?_remove touched⟩

/-- A step of a job adds its call to the log. -/
theorem lastRequest?_settle (s : Studio) (i j : Nat) (job : Job) (after : Bench)
    (notice : Option Notice) :
    (s.settle j job after notice).lastRequest? i =
      if j = i then (Notice.request? notice).or (s.lastRequest? i) else s.lastRequest? i := by
  rcases notice with _ | _ | request | _ | _
  · exact (ite_self _).symm
  · exact (ite_self _).symm
  · unfold lastRequest?
    have calls : (s.settle j job after (some (.call request))).calls =
        s.calls ++ [⟨j, job.slot, request⟩] := rfl
    rw [calls, List.filter_append]
    by_cases same : j = i
    · simp [same, Notice.request?]
    · simp [same]
  · exact (ite_self _).symm
  · exact (ite_self _).symm

end Studio

namespace Rendition

@[simp] theorem close_request (r : Rendition) (disk : Disk) (reply : Reply) :
    (r.close disk reply).request = r.request := by
  unfold close
  split
  · rfl
  · rfl
  · split
    · rfl
    · rfl

/-- A job that serves its fractal no more has nothing to fear, and the others are at work. -/
theorem Serves.cases {store : ImageStore} {d : Disk} {f : Fractal} {last : Option Rendition}
    {job : Job} (serves : Serves store d f last job.phase) :
    (job.isOver = false ∧ (job.phase.paints = true ∨ f.state = .ready)) ∨
      ∀ (d : Disk) (f : Fractal), Serves store d f last job.phase := by
  unfold Job.isOver
  cases phase : job.phase with
  | marking _ | reporting _ =>
      rw [phase] at serves
      obtain ⟨-, r, -, shown⟩ := serves
      exact .inl ⟨rfl, .inr shown.state⟩
  | lamenting _ _ | repainting | «over» | dead => exact .inr fun _ _ => trivial
  | _ => exact .inl ⟨rfl, .inl rfl⟩

end Rendition

/-- The latest call is that of the last request. -/
theorem Bench.Steps.request_next {setup : Setup} {b after : Bench} {reply : Reply}
    {notice : Option Notice} (steps : Steps setup reply b after notice) (disk : Disk)
    (last : Option Rendition) :
    (Rendition.next disk reply last b.job.phase after.job.phase).map (·.request) =
      (Notice.request? notice).or (last.map (·.request)) := by
  have closed : (last.map (·.close disk reply)).map (·.request) = last.map (·.request) := by
    cases last with
    | none => rfl
    | some r => exact congrArg some (r.close_request disk reply)
  cases steps with
  | called phase _ =>
      rw [phase]
      rfl
  | crashed phase _ | ceased phase _ _ =>
      rw [phase]
      exact closed
  | returned _ phase _ _ _ =>
      rw [phase]
      exact closed
  | stopped phase _ =>
      rcases phase with ⟨_, phase⟩ | ⟨_, _, phase⟩ | phase | phase
      · rw [phase]
        rfl
      · rw [phase]
        rfl
      · rw [phase]
        rfl
      · rw [phase]
        rfl
  | varied _ _ _ varies _ | spoiled _ varies =>
      cases phase : b.job.phase with
      | mutating _ | rebreeding => rfl
      | _ =>
          rw [phase] at varies
          cases varies
  | rested halted =>
      unfold Job.isOver at halted
      cases phase : b.job.phase with
      | «over» | dead => rfl
      | _ =>
          rw [phase] at halted
          cases halted
  | announced phase | prepared phase _ | opened phase _ | requested phase | exhausted phase
  | inspected phase _ | cleaned phase | measured _ phase _ | closed phase _ | taken phase _ _
  | missed _ phase | marked phase | reported phase | yielded phase _ | failed phase
  | withdrawn phase | givenUp phase | lamented phase | repainted phase =>
      rw [phase]
      rfl

end FractalBreeder
