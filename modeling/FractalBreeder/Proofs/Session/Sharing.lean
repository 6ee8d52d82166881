import FractalBreeder.Proofs.Session.Governance
import FractalBreeder.Proofs.Storage.Places

/-!
When two fractals of a generation share a file. Breeding tells the identities of a generation apart.
Afterwards each job gives its fractal another genome without a look at the other fractals, so that
two jobs may come to work on one file.
-/
namespace FractalBreeder

open Bench (Steps Effect)
open Studio (Course Custody Governed Works Directs)

namespace ImageStore

/-- The disk after the file of an identity was written or removed, if it was. -/
inductive Touches (store : ImageStore) (identity : String) (d : Disk) : Disk → Prop where
  | same : Touches store identity d d
  | prepared : Touches store identity d (store.ensureDir d).1
  | written {bytes : ByteArray} {after : Disk} :
      d.write (store.path identity) bytes = .ok after → Touches store identity d after
  | discarded : Touches store identity d (store.discard d identity)

theorem join_injective {dir first second : String} (relative : first.toList.head? ≠ some '/')
    (relative' : second.toList.head? ≠ some '/') (same : join dir first = join dir second) :
    first = second := by
  unfold join at same
  rw [if_neg relative, if_neg relative'] at same
  split at same
  · exact String.append_right_inj dir |>.mp same
  · exact String.append_right_inj (dir ++ "/") |>.mp same

/-- Two genomes with one path have one identity. -/
theorem identity_eq_of_path {store : ImageStore} {first second : Genome}
    (same : store.path first.identity = store.path second.identity) :
    first.identity = second.identity := by
  have relative : ∀ genome : Genome,
      (genome.identity ++ "." ++ store.extension).toList.head? ≠ some '/' := by
    intro genome
    simp [Genome.identity]
  have joined := join_injective (relative first) (relative second) same
  rw [String.append_assoc, String.append_assoc] at joined
  exact String.append_left_inj _ |>.mp joined

end ImageStore

namespace Bench.Effect

/-- A job touches no file but that of its fractal. -/
theorem touches {rogue : Prop} {setup : Setup} {b : Bench} {f : Fractal} {d : Disk}
    (effect : Effect setup b f d) (fits : b.job.Fits rogue setup.store b.fractal) :
    setup.store.Touches b.fractal.id b.disk d := by
  cases effect with
  | still => exact .same
  | prepared _ => exact .prepared
  | received phase written =>
      rw [(fits.request (.inr (.inl phase))).2] at written
      exact .written written
  | cleaned phase =>
      rw [(fits.request (.inr (.inr (.inr ⟨_, phase⟩)))).2]
      exact .discarded
  | varied _ _ => exact .discarded
  | spoiled _ => exact .discarded
  | taken _ _ _ => exact .discarded
  | givenUp _ => exact .discarded

end Bench.Effect

namespace Session

/-- By the move a job gives the fractal at a place another genome. -/
def Varies (s : Session) (move : Move) (n : Nat) : Prop :=
  ∃ i reply job, move = .work i reply ∧ s.studio.jobs[i]? = some job ∧ job.fractal = n ∧
    job.phase.varies = true

/-- Fractals at different places have different identities. -/
def Apart (places : List Nat) (fractals : List Fractal) : Prop :=
  ∀ m ∈ places, ∀ n ∈ places, m ≠ n → ∀ f g, fractals[m]? = some f → fractals[n]? = some g →
    f.id ≠ g.id

/-- The genome that a job draws for one of the fractals has not the identity of another one. -/
def DrawsApart (places : List Nat) (s : Session) (move : Move) : Prop :=
  ∀ n ∈ places, ∀ t, s.Varies move n → s.move? move = some t → ∀ m ∈ places, m ≠ n → ∀ f g,
    t.studio.fractals[n]? = some f → s.studio.fractals[m]? = some g → f.id ≠ g.id

/-- No file is that of two fractals of a generation. -/
structure Unshared (places : List Nat) (s : Session) : Prop where
  ids : Apart places s.studio.fractals
  paths : ∀ m ∈ places, ∀ n ∈ places, m ≠ n → ∀ f g, s.studio.fractals[m]? = some f →
    s.studio.fractals[n]? = some g →
    s.studio.setup.store.path f.id ≠ s.studio.setup.store.path g.id
  /-- Calls at the same time are for different files. -/
  outputs : ∀ (i j : Nat) (job other : Job) (turn turn' : Turn), s.studio.jobs[i]? = some job →
    s.studio.jobs[j]? = some other → i ≠ j → job.fractal ∈ places → other.fractal ∈ places →
    job.phase = .calling turn → other.phase = .calling turn' →
    turn.request.output ≠ turn'.request.output
  /-- A job, and a renderer that was called by it, touches the file of its own fractal. -/
  own : ∀ i move t, (∃ reply, move = .work i reply) ∨ (∃ left, move = .scribble i left) →
    s.move? move = some t → ∃ job f, s.studio.jobs[i]? = some job ∧
      s.studio.fractals[job.fractal]? = some f ∧
      s.studio.setup.store.Touches f.id s.studio.disk t.studio.disk

variable {rogue : Prop} {c c' : Course} {s t : Session} {move : Move} {places : List Nat}

/-- Setting a fractal with the identity of the old one. -/
theorem exists_id_set {fractals : List Fractal} {n m : Nat} {f g : Fractal}
    (found : fractals[n]? = some f) (at_ : fractals[m]? = some g) (h : Fractal) (same : h.id = g.id) :
    ∃ f', (fractals.set m h)[n]? = some f' ∧ f'.id = f.id := by
  by_cases equal : m = n
  · subst equal
    obtain rfl := Option.some.inj (found.symm.trans at_)
    have inside := (List.getElem?_eq_some_iff.mp found).1
    exact ⟨h, by simp [inside], same⟩
  · exact ⟨f, by rwa [List.getElem?_set_ne equal], rfl⟩

/-- A fractal keeps its identity until a job varies its genome. -/
theorem Moved.id_eq (moved : Moved s c move t c') {n : Nat} {f : Fractal}
    (found : s.studio.fractals[n]? = some f) :
    ∃ g, t.studio.fractals[n]? = some g ∧ (g.id = f.id ∨ s.Varies move n) := by
  cases moved with
  | directed directs =>
      cases directs with
      | @claim slot m visits old at_ _ =>
          dsimp only
          rw [Studio.fractals_modifyFractal at_]
          obtain ⟨g, found, same⟩ := exists_id_set found at_ { old with state := .rendering } rfl
          exact ⟨g, found, .inl same⟩
      | @restore j joins job _ =>
          dsimp only
          cases at_ : s.studio.fractals[job.fractal]? with
          | none =>
              rw [Studio.restore, at_]
              exact ⟨f, found, .inl rfl⟩
          | some g =>
              by_cases rendering : g.state = .rendering
              · rw [Studio.restore_of_rendering at_ rendering]
                obtain ⟨h, found, same⟩ :=
                  exists_id_set found at_ { g with state := .pending, image := none } rfl
                exact ⟨h, found, .inl same⟩
              · rw [Studio.restore_of_settled at_ rendering]
                exact ⟨f, found, .inl rfl⟩
      | _ => exact ⟨f, found, .inl rfl⟩
  | bred _ _ =>
      refine ⟨f, ?_, .inl rfl⟩
      dsimp only
      rw [List.getElem?_append_left (List.getElem?_eq_some_iff.mp found).1]
      exact found
  | @worked _ i reply _ works =>
      obtain @⟨job, g, after, notice, at_, working, found', steps⟩ := works
      rw [Studio.settle_fractals]
      have unvaried : after.fractal.id = g.id →
          ∃ h, (s.studio.fractals.set job.fractal after.fractal)[n]? = some h ∧
            (h.id = f.id ∨ s.Varies (.work i reply) n) := by
        intro same
        obtain ⟨h, found, same⟩ := exists_id_set found found' _ same
        exact ⟨h, found, .inl same⟩
      cases steps with
      | varied genome source regenerations varies next =>
          by_cases own : job.fractal = n
          · have inside := (List.getElem?_eq_some_iff.mp found').1
            subst own
            exact ⟨_, List.getElem?_set_self inside, .inr ⟨i, reply, job, rfl, at_, rfl, varies⟩⟩
          · exact ⟨f, by rwa [List.getElem?_set_ne own], .inl rfl⟩
      | _ => exact unvaried rfl
  | scribbled scribbled =>
      obtain ⟨_, _, _, -, -, rfl, -⟩ := Studio.scribble_cases scribbled
      exact ⟨f, found, .inl rfl⟩
  | _ => exact ⟨f, found, .inl rfl⟩

/-- One job varies one fractal. -/
theorem Varies.unique {m n : Nat} (varies : s.Varies move m) (varies' : s.Varies move n) : m = n := by
  obtain ⟨i, reply, job, rfl, at_, rfl, -⟩ := varies
  obtain ⟨j, reply', other, same, at', rfl, -⟩ := varies'
  obtain ⟨rfl, -⟩ := Move.work.inj same
  rw [Option.some.inj (at_.symm.trans at')]

/-- Fractals with different identities keep them different as long as the jobs draw apart. -/
theorem Apart.moved (apart : Apart places s.studio.fractals)
    (inside : ∀ n ∈ places, n < s.studio.fractals.length) (draws : DrawsApart places s move)
    (moves : s.move? move = some t) (moved : Moved s c move t c') :
    Apart places t.studio.fractals := by
  intro m member n member' differ f g found found'
  have before := List.getElem?_eq_getElem (inside m member)
  have before' := List.getElem?_eq_getElem (inside n member')
  obtain ⟨f', at_, kept⟩ := moved.id_eq before
  obtain ⟨g', at', kept'⟩ := moved.id_eq before'
  obtain rfl := Option.some.inj (found.symm.trans at_)
  obtain rfl := Option.some.inj (found'.symm.trans at')
  have distinct := apart m member n member' differ _ _ before before'
  rcases kept with same | varies
  · rcases kept' with same' | varies'
    · rw [same, same']
      exact distinct
    · rw [same]
      exact (draws n member' t varies' moves m member differ g _ found' before).symm
  · rcases kept' with same' | varies'
    · rw [same']
      exact draws m member t varies moves n member' (Ne.symm differ) f _ found before'
    · exact absurd (varies.unique varies') differ

/-- The fractals of a session are never fewer. -/
theorem Moved.length_le (moved : Moved s c move t c') :
    s.studio.fractals.length ≤ t.studio.fractals.length := by
  by_contra fewer
  have found := List.getElem?_eq_getElem (Nat.lt_of_not_le fewer)
  obtain ⟨g, at_, -⟩ := moved.id_eq found
  exact absurd (List.getElem?_eq_some_iff.mp at_).1 (Nat.lt_irrefl _)

/-- The job that makes a move, with its fractal. -/
theorem Sound.own {i : Nat} (sound : s.Sound True c) (moved : Moved s c move t c')
    (moves : (∃ reply, move = .work i reply) ∨ ∃ left, move = .scribble i left) :
    ∃ job f, s.studio.jobs[i]? = some job ∧ s.studio.fractals[job.fractal]? = some f ∧
      s.studio.setup.store.Touches f.id s.studio.disk t.studio.disk := by
  have custody := sound.studio.custody
  rcases moves with ⟨reply, rfl⟩ | ⟨left, rfl⟩
  · cases moved with
    | worked works =>
        obtain @⟨job, f, after, notice, at_, working, found, steps⟩ := works
        have fits := custody.fits (custody.guarded at_ working) at_ found
        refine ⟨job, f, at_, found, ?_⟩
        rw [Studio.settle_disk]
        exact steps.effect.touches fits
  · cases moved with
    | scribbled scribbled =>
        obtain ⟨job, turn, disk, at_, calling, rfl, touched⟩ := Studio.scribble_cases scribbled
        obtain ⟨f, found⟩ := custody.housed at_
        have working : job.isOver = false := by rw [Job.isOver, calling]
        have fits := custody.fits (custody.guarded at_ working) at_ found
        refine ⟨job, f, at_, found, ?_⟩
        rw [(fits.request (.inr (.inl calling))).2] at touched
        rcases touched with ⟨bytes, written⟩ | removed
        · exact .written written
        · have same : s.studio.setup.store.discard s.studio.disk f.id = disk := by
            rw [ImageStore.discard]
            exact congrArg (·.toOption.getD s.studio.disk) removed
          rw [← same]
          exact .discarded

/-- Fractals with different identities have different files. -/
theorem Sound.unshared (sound : s.Sound True c) (apart : Apart places s.studio.fractals) :
    s.Unshared places := by
  have custody := sound.studio.custody
  have paths : ∀ m ∈ places, ∀ n ∈ places, m ≠ n → ∀ f g, s.studio.fractals[m]? = some f →
      s.studio.fractals[n]? = some g →
      s.studio.setup.store.path f.id ≠ s.studio.setup.store.path g.id := by
    intro m member n member' differ f g found found' same
    apply apart m member n member' differ f g found found'
    rw [(custody.sound f (List.mem_of_getElem? found)).identity,
      (custody.sound g (List.mem_of_getElem? found')).identity] at same ⊢
    exact ImageStore.identity_eq_of_path same
  refine ⟨apart, paths, ?_, ?_⟩
  · intro i j job other turn turn' at_ at' differ member member' calling calling'
    obtain ⟨f, found⟩ := custody.housed at_
    obtain ⟨g, found'⟩ := custody.housed at'
    have ward : i ∈ c.wards s.studio.held := custody.guarded at_ (by rw [Job.isOver, calling])
    have ward' : j ∈ c.wards s.studio.held := custody.guarded at' (by rw [Job.isOver, calling'])
    have request := ((custody.fits ward at_ found).request (.inr (.inl calling))).2
    have request' := ((custody.fits ward' at' found').request (.inr (.inl calling'))).2
    have differ : job.fractal ≠ other.fractal := by
      intro same
      exact differ (custody.alone ward' ward at' at_ same)
    rw [request, request']
    exact paths _ member _ member' differ f g found found'
  · intro i move t moves moved
    obtain ⟨c', moved⟩ := moved_of_move? sound.studio.agenda moved
    exact sound.own moved moves

/-- The director is about to breed a generation. -/
def IsBreeding (s : Session) : Prop := s.studio.agenda = [] ∧ s.duties.head? = some .breed

theorem eq_of_id_eq {fractals : List Fractal} (distinct : (fractals.map Fractal.id).Nodup)
    {m n : Nat} {f g : Fractal} (found : fractals[m]? = some f) (found' : fractals[n]? = some g)
    (same : f.id = g.id) : m = n := by
  have inside : m < (fractals.map Fractal.id).length := by
    rw [List.length_map]
    exact (List.getElem?_eq_some_iff.mp found).1
  apply (List.getElem?_inj inside distinct).mp
  rw [List.getElem?_map, List.getElem?_map, found, found']
  exact congrArg some same

/-- Breeding tells the fractals of the new generation apart. -/
theorem Moved.apart (moved : Moved s .rest .direct t c') (due : s.duties.head? = some .breed) :
    Apart t.history.current t.studio.fractals := by
  have other : ∀ {duty : Duty} {rest : List Duty}, s.duties = duty :: rest → duty = .breed := by
    intro duty rest duties
    rw [duties] at due
    exact Option.some.inj due
  cases moved with
  | directed directs => cases directs
  | @bred rest children source _ drawn =>
      have litter := Source.draw_of_ensures (Litter.ensures_breed s.settings.genetic s.parents) drawn
      intro m member n member' differ f g found found' same
      obtain ⟨long, -⟩ := List.mem_range'_1.mp member
      obtain ⟨long', -⟩ := List.mem_range'_1.mp member'
      dsimp only at found found'
      rw [List.getElem?_append_right long] at found
      rw [List.getElem?_append_right long'] at found'
      have equal := eq_of_id_eq litter.distinct found found' same
      omega
  | wentBack duties => cases other duties
  | wentForward duties => cases other duties
  | started duties _ => cases other duties
  | repainted duties => cases other duties

/-- Two fractals of a generation come to share a file only if a job draws, for its fractal, a genome
that another fractal of the generation has. -/
theorem run_unshared (settings : Settings) (breeding rendering : Source) (disk : Disk)
    (before moves : List Move) {s b t : Session}
    (reached : (fresh settings breeding rendering disk).follow? before = some s)
    (due : s.IsBreeding) (bred : s.move? .direct = some b)
    (draws : b.Each (DrawsApart b.history.current) moves) (followed : b.follow? moves = some t) :
    t.Unshared b.history.current := by
  obtain ⟨c, sound⟩ := (Sound.fresh settings breeding rendering disk).follow (.inr trivial) reached
  obtain rfl := sound.course_eq_rest due.1
  obtain ⟨c', moved⟩ := moved_of_move? sound.studio.agenda bred
  have apart := moved.apart due.2
  have sound := sound.moved moved (.inr trivial)
  have inside := sound.generations.current.2.1
  obtain ⟨c'', sound, apart, -⟩ := follow_induction
    (fun {c : Course} {s : Session} (inv : s.Sound True c ∧ Apart b.history.current s.studio.fractals ∧
      ∀ n ∈ b.history.current, n < s.studio.fractals.length) => inv.1.studio.agenda)
    (fun inv draws moves moved => ⟨inv.1.moved moved (.inr trivial),
      inv.2.1.moved inv.2.2 draws moves moved,
      fun n member => Nat.lt_of_lt_of_le (inv.2.2 n member) moved.length_le⟩)
    ⟨sound, apart, inside⟩ draws followed
  exact sound.unshared apart

/-- A test for moves by which jobs draw apart. -/
def isApart (places : List Nat) (s : Session) (move : Move) : Bool :=
  match move with
  | .work i _ =>
    match s.studio.jobs[i]? with
    | some job =>
      !job.phase.varies || (s.move? move).all fun t =>
        places.all fun m => m == job.fractal ||
          t.studio.fractals[job.fractal]?.map (·.id) != s.studio.fractals[m]?.map (·.id)
    | none => true
  | _ => true

theorem drawsApart_of_isApart (passed : isApart places s move = true) : DrawsApart places s move := by
  intro n _ t varies moves m member differ f g found found' same
  obtain ⟨i, reply, job, rfl, at_, rfl, varying⟩ := varies
  simp only [isApart, at_, varying, moves, Bool.not_true, Bool.false_or, Option.all_some] at passed
  have apart := List.all_eq_true.mp passed m member
  rw [found, found'] at apart
  simp [same, differ] at apart

/-- A session with valid settings in which every picture of one byte is sparse, and every constant
that moves becomes zero. -/
def flattening : Session :=
  fresh
    { genetic := { constantMin := 1, constantMax := 5, mutateChance := 1,
                   mutateFold := .float (Float.ofBits 1) } }
    small.source small.studio.source ⟨[], []⟩

/-- The first generation is about to be bred. -/
def courting : List Move := [.ask .generate, .direct]

/-- The first two jobs start, and the first of them mutates its fractal after a sparse picture. -/
def mutating : List Move := List.replicate 11 .direct ++ List.replicate 10 (.work 0 dot)

/-- The second job does the same. -/
def mutatingToo : List Move := List.replicate 10 (.work 1 dot)

/-- The first two fractals are rendering, under one identity. -/
def isShared : List Fractal → Bool
  | f :: g :: _ => f.state == .rendering && g.state == .rendering && f.id == g.id
  | _ => false

/-- The first generation of this session. -/
def unflattened : List Fractal :=
  [Litter.newborn 1 1 1 "fractal_9cc278faa8710083", Litter.newborn 1 1 2 "fractal_25c71c5388ed1606",
    Litter.newborn 1 1 3 "fractal_5f6f561d3bd40044", Litter.newborn 1 1 4 "fractal_bd69bdf4ecd24fa6",
    Litter.newborn 1 2 1 "fractal_3ecbc2115fc55278", Litter.newborn 1 2 2 "fractal_03014c77904ea0b3",
    Litter.newborn 1 2 3 "fractal_aa20e62f94403b10", Litter.newborn 1 2 4 "fractal_58c095230c4b7060",
    Litter.newborn 1 3 1 "fractal_b0cadb374e45cf15"]

theorem new_unflattened : ∀ f ∈ unflattened, Fractal.new f.genome f.pedigree = f := by
  intro f member
  simp only [unflattened, List.mem_cons, List.not_mem_nil, or_false] at member
  rcases member with rfl | rfl | rfl | rfl | rfl | rfl | rfl | rfl | rfl <;>
    exact Litter.new_newborn (by decide +kernel)

theorem breed_unflattened :
    Litter.breed flattening.settings.genetic [] small.source.ready = .ok (unflattened, []) :=
  Litter.breed_of_named _ (by decide +kernel) new_unflattened (by decide)

/-- The first mutation is followed from the first generation, the second from where it ends. -/
theorem followIf?_unflattened :
    ((premiere flattening.settings unflattened).followIf? (isApart (List.range' 0 9)) mutating).any
      (fun t => t.studio.fractals.map (·.id) != unflattened.map (·.id) &&
        (t.follow? mutatingToo).any fun u => isShared u.studio.fractals) = true := by
  decide +kernel

/-- The session once its first generation is bred, once the first job mutated its fractal, and once
the second one did. -/
theorem exists_flattened : ∃ s b t u, flattening.follow? courting = some s ∧ s.IsBreeding ∧
    s.move? .direct = some b ∧ b.history.current.take 2 = [0, 1] ∧
    b.Each (DrawsApart b.history.current) mutating ∧ b.follow? mutating = some t ∧
    t.studio.fractals.map (·.id) ≠ b.studio.fractals.map (·.id) ∧
    b.follow? (mutating ++ mutatingToo) = some u ∧ isShared u.studio.fractals = true := by
  obtain ⟨t, followed, ended⟩ := (Option.any_eq_true _ _).mp followIf?_unflattened
  obtain ⟨varied, ended⟩ := Bool.and_eq_true_iff.mp ended
  obtain ⟨u, followed', shared⟩ := (Option.any_eq_true _ _).mp ended
  obtain ⟨followed, apart⟩ := follow?_of_followIf? followed
  refine ⟨courtship flattening.settings, premiere flattening.settings unflattened, t, u,
    follow?_courtship [], ⟨rfl, rfl⟩, move?_courtship breed_unflattened, rfl,
    apart.mono fun s move => drawsApart_of_isApart, followed, bne_iff_ne.mp varied, ?_, shared⟩
  rw [follow?_append, followed]
  exact followed'

/-- As long as only the first job has mutated its fractal, nothing is shared. -/
theorem run_unshared_mutating : ∃ s b t, flattening.follow? courting = some s ∧ s.IsBreeding ∧
    s.move? .direct = some b ∧ b.Each (DrawsApart b.history.current) mutating ∧
    b.follow? mutating = some t ∧ t.Unshared b.history.current ∧
    t.studio.fractals.map (·.id) ≠ b.studio.fractals.map (·.id) := by
  obtain ⟨s, b, t, -, reached, due, bred, -, draws, followed, varied, -⟩ := exists_flattened
  exact ⟨s, b, t, reached, due, bred, draws, followed,
    run_unshared _ _ _ _ courting mutating reached due bred draws followed, varied⟩

/-- The jobs of two fractals of a generation can come to render under one identity. -/
theorem not_always_unshared : flattening.settings.isValid = true ∧
    ¬ ∀ before moves s b t, flattening.follow? before = some s → s.IsBreeding →
      s.move? .direct = some b → b.follow? moves = some t →
      ∀ m ∈ b.history.current, ∀ n ∈ b.history.current, m ≠ n → ∀ f g,
        t.studio.fractals[m]? = some f → t.studio.fractals[n]? = some g →
        f.state = .rendering → g.state = .rendering → f.id ≠ g.id := by
  refine ⟨by decide +kernel, fun always => ?_⟩
  obtain ⟨s, b, -, u, reached, due, bred, shown, -, -, -, followed, shared⟩ := exists_flattened
  have first : ∀ n ∈ [0, 1], n ∈ b.history.current :=
    fun n member => List.mem_of_mem_take (shown.symm ▸ member)
  have apart := always courting _ s b u reached due bred followed 0 (first 0 List.mem_cons_self)
    1 (first 1 (by simp)) nofun
  unfold isShared at shared
  split at shared
  next f g rest fractals =>
    simp only [Bool.and_eq_true, beq_iff_eq] at shared
    obtain ⟨⟨rendering, rendering'⟩, same⟩ := shared
    rw [fractals] at apart
    exact apart f g rfl rfl rendering rendering' same
  next => cases shared

end Session

end FractalBreeder
