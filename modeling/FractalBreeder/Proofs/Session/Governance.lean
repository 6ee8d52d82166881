import FractalBreeder.Proofs.Population.Breeding
import FractalBreeder.Proofs.Rendering.Direction
import Mathlib.Data.List.Nodup

/-!
A session as it can be reached. Its studio is governed, the generation on show changes only while no
job is there, and no generation shows a fractal twice.
-/
namespace FractalBreeder

open Studio (Course Custody Governed Works Directs)

namespace History

variable {α : Type} {p : List α → Prop}

/-- Every generation, the one on show included, has a property. -/
structure All (p : List α → Prop) (h : History α) : Prop where
  current : p h.current
  past : ∀ g ∈ h.past, p g.members
  future : ∀ g ∈ h.future, p g.members

theorem All.mono {q : List α → Prop} {h : History α} (all : h.All p) (weaker : ∀ g, p g → q g) :
    h.All q :=
  ⟨weaker _ all.current, fun g member => weaker _ (all.past g member),
    fun g member => weaker _ (all.future g member)⟩

theorem All.advance {h : History α} (all : h.All p) {members : List α} (new : p members) :
    (h.advance members).All p where
  current := new
  past g member := by
    unfold History.advance at member
    dsimp only at member
    split at member
    · exact all.past g member
    · rcases List.mem_cons.mp member with rfl | member
      · exact all.current
      · exact all.past g member
  future := nofun

theorem All.back {h : History α} (all : h.All p) : (h.back?.getD h).All p := by
  cases past : h.past with
  | nil => simpa [back?, past] using all
  | cons g rest =>
      have before := all.past
      rw [past] at before
      simp only [back?, past, Option.getD_some]
      refine ⟨before g List.mem_cons_self,
        fun other member => before other (List.mem_cons_of_mem _ member), fun other member => ?_⟩
      rcases List.mem_cons.mp member with rfl | member
      · exact all.current
      · exact all.future other member

theorem All.forward {h : History α} (all : h.All p) : (h.forward?.getD h).All p := by
  cases future : h.future with
  | nil => simpa [forward?, future] using all
  | cons g rest =>
      have after := all.future
      rw [future] at after
      simp only [forward?, future, Option.getD_some]
      refine ⟨after g List.mem_cons_self, fun other member => ?_,
        fun other member => after other (List.mem_cons_of_mem _ member)⟩
      rcases List.mem_cons.mp member with rfl | member
      · exact all.current
      · exact all.past other member

end History

/-- Whether the duty replaces the generation on show. -/
def Duty.changes : Duty → Bool
  | .breed | .back | .forward => true
  | .start | .repaint => false

namespace Session

/-- Everything that one move can do, with the course of the director before and after it. -/
inductive Moved (s : Session) : Course → Move → Session → Course → Prop where
  /-- A choice of slots, or nothing at all. -/
  | picked {gesture : Gesture} (picks : Picks) (repaints : Nat) : s.duties = [] →
      Moved s .rest (.ask gesture) { s with history := { s.history with picks }, repaints } .rest
  | replaced {gesture : Gesture} {duty : Duty} : s.duties = [] → duty.changes = true →
      s.studio.agenda = [] →
      Moved s .rest (.ask gesture) (s.replace duty) (.stop s.studio.held s.studio.held)
  | drawn {gesture : Gesture} {slot n : Nat} {f : Fractal} : s.duties = [] → s.studio.agenda = [] →
      s.history.current[slot]? = some n → s.studio.fractals[n]? = some f →
      f.state = .pending ∨ f.state = .discarded →
      Moved s .rest (.ask gesture) { s with studio := s.studio.renderSlot slot n }
        (.render (.reaping slot n) [])
  | directed {c c' : Course} {studio : Studio} : Directs s.studio c c' studio →
      Moved s c .direct { s with studio := { studio with agenda := c'.tasks } } c'
  | bred {rest : List Duty} {children : List Fractal} {source : Source} :
      s.duties = .breed :: rest →
      s.source.draw (Litter.breed s.settings.genetic s.parents) = .ok (children, source) →
      Moved s .rest .direct
        { s with
          duties := rest
          source
          studio := { s.studio with fractals := s.studio.fractals ++ children }
          history := s.history.advance (List.range' s.studio.fractals.length children.length) } .rest
  | wentBack {rest : List Duty} : s.duties = .back :: rest →
      Moved s .rest .direct { s with duties := rest, history := s.history.back?.getD s.history } .rest
  | wentForward {rest : List Duty} : s.duties = .forward :: rest →
      Moved s .rest .direct
        { s with duties := rest, history := s.history.forward?.getD s.history } .rest
  | started {rest : List Duty} : s.duties = .start :: rest → s.studio.agenda = [] →
      Moved s .rest .direct { s with duties := rest, studio := s.studio.renderAll s.history.current }
        (.render .rest s.history.current.zipIdx)
  | repainted {rest : List Duty} : s.duties = .repaint :: rest →
      Moved s .rest .direct { s with duties := rest, repaints := s.repaints + 1 } .rest
  | worked {c : Course} {i : Nat} {reply : Reply} {studio : Studio} : Works s.studio i reply studio →
      Moved s c (.work i reply) { s with studio } c
  | scribbled {c : Course} {i : Nat} {left : Option ByteArray} {studio : Studio} :
      s.studio.scribble i left = some studio → Moved s c (.scribble i left) { s with studio } c

/-- A fractal that waits for a job is asked to be rendered when it is drawn. -/
theorem draw_of_waiting {s : Session} {slot n : Nat} {f : Fractal}
    (shown : s.history.current[slot]? = some n) (found : s.studio.fractals[n]? = some f)
    (waiting : f.state = .pending ∨ f.state = .discarded) :
    s.draw slot = ({ s with studio := s.studio.renderSlot slot n }, .placeholder) := by
  simp only [draw, shown, found]
  rcases waiting with state | state <;> rw [state]

/-- Nothing is asked for when any other fractal is drawn. -/
theorem draw_of_not_waiting {s : Session} {slot n : Nat} {f : Fractal}
    (shown : s.history.current[slot]? = some n) (found : s.studio.fractals[n]? = some f)
    (sound : f.Sound) (begun : ¬ (f.state = .pending ∨ f.state = .discarded)) :
    s.draw slot = (s, f.image.elim .placeholder .image) := by
  simp only [draw, shown, found]
  cases state : f.state with
  | pending => exact absurd (.inl state) begun
  | discarded => exact absurd (.inr state) begun
  | ready =>
      obtain ⟨image, held⟩ := Option.isSome_iff_exists.mp (sound.shown.mp state)
      rw [held]
      rfl
  | rendering | failed =>
      rw [sound.blank (by rw [state]; nofun)]
      rfl

theorem moved_obey {s : Session} (agenda : s.studio.agenda = []) (duties : s.duties = [])
    (gesture : Gesture) : ∃ c, Moved s .rest (.ask gesture) (s.obey gesture) c := by
  have nothing : Moved s .rest (.ask gesture) s .rest := .picked s.history.picks s.repaints duties
  cases gesture with
  | generate => exact ⟨_, .replaced duties rfl agenda⟩
  | back =>
      simp only [obey, goBack]
      split
      · exact ⟨_, .replaced duties rfl agenda⟩
      · exact ⟨_, nothing⟩
  | forward =>
      simp only [obey, goForward]
      split
      · exact ⟨_, .replaced duties rfl agenda⟩
      · exact ⟨_, nothing⟩
  | select picks => exact ⟨_, .picked picks s.repaints duties⟩
  | toggle slot => exact ⟨_, .picked (s.history.picks.toggle slot) (s.repaints + 1) duties⟩
  | draw slot =>
      simp only [obey, draw]
      split
      next => exact ⟨_, nothing⟩
      next n shown =>
        split
        next => exact ⟨_, nothing⟩
        next f found =>
          split
          next => exact ⟨_, nothing⟩
          next _ pending => exact ⟨_, .drawn duties agenda shown found (.inl pending)⟩
          next _ discarded => exact ⟨_, .drawn duties agenda shown found (.inr discarded)⟩
          next => exact ⟨_, nothing⟩

theorem moved_of_move? {s t : Session} {c : Course} {move : Move} (agenda : s.studio.agenda = c.tasks)
    (moves : s.move? move = some t) : ∃ c', Moved s c move t c' := by
  cases move with
  | ask gesture =>
      simp only [move?] at moves
      split at moves
      next idle =>
        cases moves
        obtain ⟨free, done⟩ := Bool.and_eq_true_iff.mp idle
        have free : s.studio.agenda = [] := List.isEmpty_iff.mp free
        obtain rfl := Course.eq_rest (agenda.symm.trans free)
        exact moved_obey free (List.isEmpty_iff.mp done) gesture
      next => cases moves
  | direct =>
      simp only [move?, stepDirector] at moves
      split at moves
      next free =>
        have free : s.studio.agenda = [] := List.isEmpty_iff.mp free
        obtain rfl := Course.eq_rest (agenda.symm.trans free)
        cases duties : s.duties with
        | nil =>
            rw [duties] at moves
            cases moves
        | cons duty rest =>
            rw [duties] at moves
            cases duty with
            | breed =>
                simp only [perform, breed] at moves
                split at moves
                next children source drawn =>
                  cases moves
                  exact ⟨_, .bred duties drawn⟩
                next => cases moves
            | back =>
                cases moves
                exact ⟨_, .wentBack duties⟩
            | forward =>
                cases moves
                exact ⟨_, .wentForward duties⟩
            | start =>
                cases moves
                exact ⟨_, .started duties free⟩
            | repaint =>
                cases moves
                exact ⟨_, .repainted duties⟩
      next =>
        obtain ⟨studio, step, rfl⟩ := Option.map_eq_some_iff.mp moves
        obtain ⟨c', after, directs, rfl⟩ := Studio.directs_of_stepDirector agenda step
        exact ⟨c', .directed directs⟩
  | work i reply =>
      obtain ⟨studio, step, rfl⟩ := Option.map_eq_some_iff.mp moves
      exact ⟨c, .worked (Studio.works_of_stepJob step)⟩
  | scribble i left =>
      obtain ⟨studio, step, rfl⟩ := Option.map_eq_some_iff.mp moves
      exact ⟨c, .scribbled step⟩

/-- What each move preserves holds after a run. -/
theorem follow_induction {inv : Course → Session → Prop} {may : Session → Move → Prop}
    (agenda : ∀ {c s}, inv c s → s.studio.agenda = c.tasks)
    (step : ∀ {c s move t c'}, inv c s → may s move → s.move? move = some t →
      Moved s c move t c' → inv c' t)
    {moves : List Move} {c : Course} {s t : Session} (before : inv c s) (each : s.Each may moves)
    (followed : s.follow? moves = some t) : ∃ c', inv c' t := by
  induction moves generalizing s c with
  | nil =>
      obtain rfl := Option.some.inj followed
      exact ⟨c, before⟩
  | cons move rest ih =>
      obtain ⟨between, moves, followed⟩ := Option.bind_eq_some_iff.mp followed
      obtain ⟨c', moved⟩ := moved_of_move? (agenda before) moves
      exact ih (step before each.1 moves moved) (each.2 between moves) followed

/-- How far a request has come: jobs are only stopped before a change, and none is held until the
generation is started. -/
inductive Stage (held : List Nat) : List Duty → Course → Prop where
  | rendering {duties : List Duty} {errand : Studio.Errand} {visits : List (Nat × Nat)} :
      duties = [] ∨ duties = [.repaint] → Stage held duties (.render errand visits)
  | starting : held = [] → Stage held [.start, .repaint] .rest
  | changing {duty : Duty} {c : Course} : duty.changes = true → held = [] →
      (c = .rest ∨ (∃ raises joins, c = .stop raises joins) ∨ ∃ j joins, c = .restore j joins) →
      Stage held [duty, .start, .repaint] c

namespace Stage

variable {held : List Nat} {duties : List Duty} {c : Course}

/-- Between a change of the generation and the next request, the director is at the slots. -/
theorem render_of_requested (stage : Stage held duties c)
    (requested : duties = [] ∨ duties = [.repaint]) :
    ∃ errand visits, c = .render errand visits := by
  cases stage with
  | rendering _ => exact ⟨_, _, rfl⟩
  | starting _ => rcases requested with requested | requested <;> cases requested
  | changing changes _ _ =>
      rcases requested with requested | requested <;> cases requested

/-- A slot is at work, or is to be visited, only after the generation was started. -/
theorem requested_of_busy {errand : Studio.Errand} {visits : List (Nat × Nat)}
    (stage : Stage held duties (.render errand visits))
    (busy : Course.render errand visits ≠ .rest) : duties = [] ∨ duties = [.repaint] := by
  cases stage with
  | rendering requested => exact requested
  | starting _ => exact absurd rfl busy
  | changing _ _ stopping =>
      rcases stopping with stopping | ⟨_, _, stopping⟩ | ⟨_, _, stopping⟩
      · exact absurd stopping busy
      · cases stopping
      · cases stopping

/-- No job is held before a change and before the start that follows it. -/
theorem held_eq_nil (stage : Stage held duties c) {duty : Duty} {rest : List Duty}
    (due : duties = duty :: rest) (other : duty ≠ .repaint) : held = [] := by
  cases stage with
  | rendering requested =>
      rcases requested with requested | requested
      · rw [requested] at due
        cases due
      · rw [requested] at due
        cases due
        exact absurd rfl other
  | starting empty => exact empty
  | changing _ empty _ => exact empty

theorem change {duty : Duty} {rest : List Duty} (stage : Stage held duties c)
    (due : duties = duty :: rest) (changes : duty.changes = true) :
    rest = [.start, .repaint] ∧ held = [] := by
  cases stage with
  | rendering requested =>
      rcases requested with requested | requested
      · rw [requested] at due
        cases due
      · rw [requested] at due
        cases due
        cases changes
  | starting _ =>
      cases due
      cases changes
  | changing _ empty _ =>
      cases due
      exact ⟨rfl, empty⟩

theorem start {rest : List Duty} (stage : Stage held duties c) (due : duties = .start :: rest) :
    rest = [.repaint] := by
  cases stage with
  | rendering requested =>
      rcases requested with requested | requested
      · rw [requested] at due
        cases due
      · rw [requested] at due
        cases due
  | starting _ =>
      cases due
      rfl
  | changing changes _ _ =>
      cases due
      cases changes

theorem repaint {rest : List Duty} (stage : Stage held duties c) (due : duties = .repaint :: rest) :
    rest = [] := by
  cases stage with
  | rendering requested =>
      rcases requested with requested | requested
      · rw [requested] at due
        cases due
      · rw [requested] at due
        cases due
        rfl
  | starting _ => cases due
  | changing changes _ _ =>
      cases due
      cases changes

theorem direct {duties : List Duty} {c c' : Course} {studio after : Studio}
    (stage : Stage studio.held duties c) (directs : Directs studio c c' after) :
    Stage after.held duties c' := by
  cases stage with
  | rendering requested =>
      cases directs <;> exact .rendering requested
  | starting _ => cases directs
  | changing changes empty stopping =>
      refine .changing changes ?_ ?_
      · cases directs with
        | restore _ =>
            rw [Studio.restore_held]
            exact empty
        | raise => exact empty
        | join _ => exact empty
        | forget _ => exact empty
        | clear => exact empty
        | _ => rcases stopping with stopping | ⟨_, _, stopping⟩ | ⟨_, _, stopping⟩ <;> cases stopping
      · cases directs with
        | restore _ => exact .inr (.inl ⟨_, _, rfl⟩)
        | raise => exact .inr (.inl ⟨_, _, rfl⟩)
        | join _ => exact .inr (.inr ⟨_, _, rfl⟩)
        | forget _ => exact .inr (.inl ⟨_, _, rfl⟩)
        | clear => exact .inl rfl
        | _ => rcases stopping with stopping | ⟨_, _, stopping⟩ | ⟨_, _, stopping⟩ <;> cases stopping

end Stage

/-- A reply that counts is one of a renderer that keeps its word. -/
def Lawful (s : Session) : Move → Prop
  | .work i reply => s.studio.Answers i reply
  | _ => True

structure Sound (rogue : Prop) (c : Course) (s : Session) : Prop where
  studio : Governed rogue s.history.current c s.studio
  stage : Stage s.studio.held s.duties c
  generations : s.history.All fun g => g.Nodup ∧ (∀ n ∈ g, n < s.studio.fractals.length) ∧
    g.length ≤ generationSize

namespace Sound

variable {rogue : Prop} {c c' : Course} {s t : Session} {move : Move}

theorem fresh (settings : Settings) (breeding rendering : Source) (disk : Disk) :
    (fresh settings breeding rendering disk).Sound rogue .rest where
  studio := ⟨rfl, ⟨trivial, nofun, nofun⟩, .empty _ _ _⟩
  stage := .rendering (.inl rfl)
  generations := ⟨⟨List.nodup_nil, nofun, Nat.zero_le _⟩, nofun, nofun⟩

/-- A fractal on show has one slot. -/
theorem slot_unique (sound : s.Sound rogue c) {slot other n : Nat}
    (shown : s.history.current[slot]? = some n) (shown' : s.history.current[other]? = some n) :
    slot = other := by
  obtain ⟨inside, at_slot⟩ := List.getElem?_eq_some_iff.mp shown
  obtain ⟨inside', at_other⟩ := List.getElem?_eq_some_iff.mp shown'
  exact sound.generations.current.1.getElem_inj_iff.mp (at_slot.trans at_other.symm)

/-- The next request stops all jobs first. -/
theorem replace {duty : Duty} (sound : s.Sound rogue .rest) (duties : s.duties = [])
    (changes : duty.changes = true) (agenda : s.studio.agenda = []) :
    (s.replace duty).Sound rogue (.stop s.studio.held s.studio.held) where
  studio := {
    agenda := Studio.cancelAll_agenda agenda
    sound := ⟨rfl, fun member _ => .inl member⟩
    custody := sound.studio.custody }
  stage := by
    rw [Session.replace, duties]
    exact .changing changes rfl (.inr (.inl ⟨_, _, rfl⟩))
  generations := sound.generations

theorem breed {rest : List Duty} {children : List Fractal} {source : Source}
    (sound : s.Sound rogue .rest) (duties : s.duties = .breed :: rest)
    (drawn : s.source.draw (Litter.breed s.settings.genetic s.parents) = .ok (children, source)) :
    Session.Sound rogue .rest { s with
      duties := rest
      source
      studio := { s.studio with fractals := s.studio.fractals ++ children }
      history := s.history.advance (List.range' s.studio.fractals.length children.length) } := by
  have litter := Source.draw_of_ensures (Litter.ensures_breed s.settings.genetic s.parents) drawn
  have children_sound : ∀ child ∈ children, child.Sound ∧ child.state = .pending := by
    intro child member
    have bred := litter.bred child member
    exact ⟨.of_blank bred.identity (by rw [bred.pending]; decide) bred.blank, bred.pending⟩
  have custody := sound.studio.custody
  obtain ⟨rfl, empty⟩ := sound.stage.change duties rfl
  rw [Course.rest, Course.wards, empty] at custody
  refine ⟨⟨sound.studio.agenda, ⟨trivial, by rintro _ ⟨⟩, by rw [empty]; rintro _ _ ⟨⟩⟩, ?_⟩,
    .starting empty, ?_⟩
  · rw [Course.rest, Course.wards]
    dsimp only
    rw [empty]
    exact (custody.extend children_sound).show_
  · dsimp only
    rw [List.length_append]
    apply History.All.advance
    · apply sound.generations.mono
      rintro g ⟨nodup, inside, short⟩
      exact ⟨nodup, fun n member => Nat.lt_add_right _ (inside n member), short⟩
    · refine ⟨List.nodup_range', fun n member => ?_, ?_⟩
      · have bounds := List.mem_range'_1.mp member
        exact bounds.2
      · exact Nat.le_of_eq (List.length_range'.trans litter.count)

/-- Another generation is shown while no job is there. -/
theorem show_ {duty : Duty} {rest : List Duty} {history : History Nat} (sound : s.Sound rogue .rest)
    (duties : s.duties = duty :: rest) (changes : duty.changes = true)
    (generations : history.All fun g => g.Nodup ∧ (∀ n ∈ g, n < s.studio.fractals.length) ∧
      g.length ≤ generationSize) :
    Session.Sound rogue .rest { s with duties := rest, history } := by
  have custody := sound.studio.custody
  obtain ⟨rfl, empty⟩ := sound.stage.change duties changes
  rw [Course.rest, Course.wards, empty] at custody
  refine ⟨⟨sound.studio.agenda, ⟨trivial, by rintro _ ⟨⟩, by rw [empty]; rintro _ _ ⟨⟩⟩, ?_⟩,
    .starting empty, generations⟩
  rw [Course.rest, Course.wards]
  dsimp only
  rw [empty]
  exact custody.show_

/-- What one move preserves. -/
theorem moved (sound : s.Sound rogue c) (moves : Moved s c move t c') (lawful : s.Lawful move ∨ rogue) :
    t.Sound rogue c' := by
  cases moves with
  | picked picks repaints _ =>
      obtain ⟨studio, stage, generations⟩ := sound
      exact ⟨studio, stage, generations.current, generations.past, generations.future⟩
  | replaced duties changes agenda => exact sound.replace duties changes agenda
  | @drawn _ slot n f duties agenda shown found waiting =>
      obtain ⟨studio, stage, generations⟩ := sound
      refine ⟨⟨Studio.renderSlot_agenda agenda slot n, ?_, studio.custody⟩, ?_, generations⟩
      · exact ⟨⟨shown, f, found, waiting⟩, nofun, studio.sound.2.2⟩
      · rw [duties] at stage ⊢
        exact .rendering (.inl rfl)
  | directed directs =>
      have stage := sound.stage.direct directs
      refine ⟨sound.studio.direct directs, stage, ?_⟩
      dsimp only
      rw [directs.length_fractals]
      exact sound.generations
  | bred duties drawn => exact sound.breed duties drawn
  | wentBack duties => exact sound.show_ duties rfl sound.generations.back
  | wentForward duties => exact sound.show_ duties rfl sound.generations.forward
  | @started rest duties agenda =>
      obtain ⟨studio, stage, generations⟩ := sound
      have custody := studio.custody
      refine ⟨⟨Studio.renderAll_agenda agenda _, ⟨trivial, ?_, studio.sound.2.2⟩, custody⟩, ?_,
        generations⟩
      · rintro ⟨n, slot⟩ member
        exact List.mem_zipIdx_iff_getElem?.mp member
      · obtain rfl := stage.start duties
        exact .rendering (.inr rfl)
  | @repainted rest duties =>
      obtain ⟨studio, stage, generations⟩ := sound
      refine ⟨studio, ?_, generations⟩
      obtain rfl := stage.repaint duties
      exact .rendering (.inl rfl)
  | worked works =>
      refine ⟨sound.studio.work works lawful, ?_, ?_⟩
      · rw [works.held]
        exact sound.stage
      · rw [works.length_fractals]
        exact sound.generations
  | scribbled scribbled =>
      have studio := sound.studio.scribble scribbled
      obtain ⟨_, _, _, -, -, rfl, -⟩ := Studio.scribble_cases scribbled
      exact ⟨studio, sound.stage, sound.generations⟩

theorem course_eq_rest (sound : s.Sound rogue c) (free : s.studio.agenda = []) : c = .rest :=
  Course.eq_rest (sound.studio.agenda.symm.trans free)

/-- What a run preserves. -/
theorem follow {moves : List Move} (sound : s.Sound rogue c) (lawful : s.Each Lawful moves ∨ rogue)
    (followed : s.follow? moves = some t) : ∃ c', t.Sound rogue c' := by
  have each : s.Each (fun s move => s.Lawful move ∨ rogue) moves := by
    rcases lawful with lawful | rogue
    · exact lawful.mono fun _ _ => .inl
    · exact each_of_forall (fun _ _ _ => .inr rogue) s
  exact follow_induction (fun {c : Course} {s : Session} (sound : s.Sound rogue c) =>
    sound.studio.agenda) (fun sound lawful _ moved => sound.moved moved lawful) sound each followed

end Sound

end Session

end FractalBreeder
