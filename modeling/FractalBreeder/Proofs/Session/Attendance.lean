import FractalBreeder.Proofs.Session.Governance

/-!
Which fractals may be found in the middle of rendering. Between two requests each has a job that the
session holds. Letting go of the jobs that are over does not look at what they left behind, so a
renderer that reports a stop nobody asked for takes a fractal out of everybody's hands.
-/
namespace FractalBreeder.Session

open Studio (Course Custody Governed Works Directs Deserted)

/-- The session holds a job of the fractal. -/
def Attended (s : Session) (n : Nat) : Prop :=
  ∃ j ∈ s.studio.held, ∃ job, s.studio.jobs[j]? = some job ∧ job.fractal = n

/-- All jobs were stopped, and the generation on show is about to change. -/
def IsStopped (s : Session) : Prop :=
  s.studio.agenda = [] ∧ ∃ duty rest, s.duties = duty :: rest ∧ duty.changes = true

variable {rogue : Prop} {c c' : Course} {s t : Session} {move : Move}

theorem isIdle_iff : s.isIdle = true ↔ s.studio.agenda = [] ∧ s.duties = [] := by
  rw [isIdle, Bool.and_eq_true, List.isEmpty_iff, List.isEmpty_iff]

theorem Sound.attended (sound : s.Sound rogue c) (free : s.studio.agenda = []) {n : Nat} {f : Fractal}
    (found : s.studio.fractals[n]? = some f) (rendering : f.state = .rendering) :
    s.Attended n ∨ rogue ∧ Deserted s.studio.jobs n := by
  obtain rfl := sound.course_eq_rest free
  rcases sound.studio.custody.kept found rendering with impossible | attended | deserted
  · cases impossible
  · exact .inl attended
  · exact .inr deserted

/-- Once all jobs were stopped, the session holds none of them. -/
theorem Sound.released (sound : s.Sound rogue c) (stopped : s.IsStopped) : s.studio.held = [] := by
  obtain ⟨-, duty, rest, due, changes⟩ := stopped
  exact (sound.stage.change due changes).2

theorem Sound.stopped (sound : s.Sound rogue c) (stopped : s.IsStopped) {n : Nat} {f : Fractal}
    (found : s.studio.fractals[n]? = some f) (rendering : f.state = .rendering) :
    rogue ∧ Deserted s.studio.jobs n := by
  rcases sound.attended stopped.1 found rendering with ⟨j, held, -⟩ | deserted
  · rw [sound.released stopped] at held
    cases held
  · exact deserted

theorem Attended.work {i n : Nat} {reply : Reply} {studio : Studio} (attended : s.Attended n)
    (works : Works s.studio i reply studio) : Attended { s with studio } n := by
  obtain ⟨j, held, job, at_, same⟩ := attended
  obtain @⟨worker, f, after, notice, at', working, found, steps⟩ := works
  have bound : i < s.studio.jobs.length := (List.getElem?_eq_some_iff.mp at').1
  by_cases equal : i = j
  · subst equal
    obtain rfl := Option.some.inj (at_.symm.trans at')
    exact ⟨i, by rwa [Studio.settle_held], after.job, by simp [bound], steps.fractal_eq.trans same⟩
  · refine ⟨j, by rwa [Studio.settle_held], job, ?_, same⟩
    rw [Studio.settle_jobs, List.getElem?_set_ne equal]
    exact at_

/-- What is left of a request to draw a slot whose fractal waits for a job. -/
def Drawing (slot n : Nat) (c : Course) (s : Session) : Prop :=
  c = .render (.reaping slot n) [] ∨ c = .render (.claiming slot n) [] ∨
    c = .render (.clearing slot n) [] ∨ c = .render (.launching slot n) [] ∨ c = .rest ∧ s.Attended n

theorem Drawing.direct {slot n : Nat} {studio : Studio} (drawing : Drawing slot n c s)
    (sound : s.Sound rogue c) (directs : Directs s.studio c c' studio) :
    Drawing slot n c' { s with studio := { studio with agenda := c'.tasks } } := by
  have plan := sound.studio.sound
  rcases drawing with rfl | rfl | rfl | rfl | ⟨rfl, -⟩
  · cases directs with
    | reap => exact .inr (.inl rfl)
  · obtain ⟨⟨-, ⟨f, found, waiting⟩, -⟩, -⟩ := plan
    have state := Studio.stateOf?_of_found found
    cases directs with
    | decline other =>
        rw [state] at other
        rcases other with missing | rendering
        · cases missing
        · exact absurd (Option.some.inj rendering) (RenderState.ne_of_waiting waiting).1
    | greet ready =>
        rw [state] at ready
        exact absurd (Option.some.inj ready) (RenderState.ne_of_waiting waiting).2.1
    | claim _ _ => exact .inr (.inr (.inl rfl))
  · cases directs with
    | unmark => exact .inr (.inr (.inr (.inl rfl)))
  · cases directs with
    | launch _ =>
        refine .inr (.inr (.inr (.inr ⟨rfl, s.studio.jobs.length, ?_, _,
          List.getElem?_concat_length, rfl⟩)))
        exact List.mem_append_right _ (List.mem_singleton.mpr rfl)
  · cases directs

/-- Without a further request, a drawing goes on until the fractal has a job. -/
theorem Drawing.moved {slot n : Nat} (drawing : Drawing slot n c s) (sound : s.Sound rogue c)
    (duties : s.duties = []) (unasked : ∀ gesture, move ≠ .ask gesture) (moves : Moved s c move t c') :
    Drawing slot n c' t ∧ t.duties = [] := by
  cases moves with
  | picked _ _ _ => exact absurd rfl (unasked _)
  | replaced _ _ _ => exact absurd rfl (unasked _)
  | drawn _ _ _ _ _ => exact absurd rfl (unasked _)
  | directed directs => exact ⟨drawing.direct sound directs, duties⟩
  | bred due _ | wentBack due | wentForward due | started due _ | repainted due =>
      rw [duties] at due
      cases due
  | worked works =>
      refine ⟨?_, duties⟩
      rcases drawing with at_ | at_ | at_ | at_ | ⟨at_, attended⟩
      · exact .inl at_
      · exact .inr (.inl at_)
      · exact .inr (.inr (.inl at_))
      · exact .inr (.inr (.inr (.inl at_)))
      · exact .inr (.inr (.inr (.inr ⟨at_, attended.work works⟩)))
  | scribbled scribbled =>
      obtain ⟨_, _, _, -, -, rfl, -⟩ := Studio.scribble_cases scribbled
      exact ⟨drawing, duties⟩

/-- A request to draw a slot whose fractal waits for a job, or has one, ends with a job. -/
theorem Drawing.follow {slot n : Nat} (drawing : Drawing slot n c s) (sound : s.Sound True c)
    (duties : s.duties = []) {moves : List Move} (unasked : ∀ gesture, Move.ask gesture ∉ moves)
    (followed : s.follow? moves = some t) (idle : t.isIdle = true) : t.Attended n := by
  have each : s.Each (fun _ move => ∀ gesture, move ≠ .ask gesture) moves :=
    each_of_forall (fun move member _ gesture same => unasked gesture (by rwa [← same])) s
  obtain ⟨c', ⟨drawing, duties⟩, sound⟩ := follow_induction
    (fun {c : Course} {s : Session} (inv : (Drawing slot n c s ∧ s.duties = []) ∧ s.Sound True c) =>
      inv.2.studio.agenda)
    (fun inv unasked _ moved =>
      ⟨inv.1.1.moved inv.2 inv.1.2 unasked moved, inv.2.moved moved (.inr trivial)⟩)
    ⟨⟨drawing, duties⟩, sound⟩ each followed
  obtain rfl := sound.course_eq_rest (isIdle_iff.mp idle).1
  rcases drawing with impossible | impossible | impossible | impossible | ⟨-, attended⟩
  · cases impossible
  · cases impossible
  · cases impossible
  · cases impossible
  · exact attended

/-- A drawing of a waiting fractal ends with a job. -/
theorem Sound.attended_of_waiting (sound : s.Sound True .rest) (idle : s.isIdle = true) {slot n : Nat}
    {f : Fractal} (shown : s.history.current[slot]? = some n) (found : s.studio.fractals[n]? = some f)
    (waiting : f.state = .pending ∨ f.state = .discarded) {moves : List Move}
    (unasked : ∀ gesture, Move.ask gesture ∉ moves)
    (followed : (s.draw slot).1.follow? moves = some t) (done : t.isIdle = true) : t.Attended n := by
  obtain ⟨free, duties⟩ := isIdle_iff.mp idle
  rw [draw_of_waiting shown found waiting] at followed
  have moved : Moved s .rest (.ask (.draw slot))
      { s with studio := s.studio.renderSlot slot n } (.render (.reaping slot n) []) :=
    .drawn duties free shown found waiting
  have drawing : Drawing slot n (.render (.reaping slot n) [])
      { s with studio := s.studio.renderSlot slot n } := .inl rfl
  exact drawing.follow (sound.moved moved (.inr trivial)) duties unasked followed done

theorem Sound.drawn {spoiled : Nat → Prop} (sound : s.Sound True .rest) (idle : s.isIdle = true)
    (attended : ∀ n f, s.studio.fractals[n]? = some f → f.state = .rendering →
      s.Attended n ∨ spoiled n)
    {slot n : Nat} (shown : s.history.current[slot]? = some n) {moves : List Move}
    (unasked : ∀ gesture, Move.ask gesture ∉ moves)
    (followed : (s.draw slot).1.follow? moves = some t) (done : t.isIdle = true) :
    (∃ image, (s.draw slot).2 = .image image) ∨
      (∃ f, s.studio.fractals[n]? = some f ∧ f.state = .failed) ∨ t.Attended n ∨ spoiled n := by
  have inside := sound.generations.current.2.1 n (List.mem_of_getElem? shown)
  obtain ⟨f, found⟩ : ∃ f, s.studio.fractals[n]? = some f := ⟨_, List.getElem?_eq_getElem inside⟩
  have fractal := sound.studio.custody.sound f (List.mem_of_getElem? found)
  have waiting : f.state = .pending ∨ f.state = .discarded → t.Attended n := fun waiting =>
    sound.attended_of_waiting idle shown found waiting unasked followed done
  cases state : f.state with
  | pending => exact .inr (.inr (.inl (waiting (.inl state))))
  | discarded => exact .inr (.inr (.inl (waiting (.inr state))))
  | failed => exact .inr (.inl ⟨f, found, state⟩)
  | ready =>
      obtain ⟨image, held⟩ := Option.isSome_iff_exists.mp (fractal.shown.mp state)
      refine .inl ⟨image, ?_⟩
      rw [draw_of_not_waiting shown found fractal (by rw [state]; decide), held]
      rfl
  | rendering =>
      rw [draw_of_not_waiting shown found fractal (by rw [state]; decide)] at followed
      refine .inr (.inr ((attended n f found state).imp (fun attended => ?_) id))
      have drawing : Drawing slot n .rest s := .inr (.inr (.inr (.inr ⟨rfl, attended⟩)))
      exact drawing.follow sound (isIdle_iff.mp idle).2 unasked followed done

end FractalBreeder.Session
