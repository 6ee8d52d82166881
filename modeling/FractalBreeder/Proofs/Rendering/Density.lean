import Mathlib.Order.Bounds.Basic
import Mathlib.Tactic.ByContra
import FractalBreeder.Proofs.Rendering.Labours

/-!
The filter for sparse pictures. A job that nobody disturbs looks at one picture after another, with a
change before each but the first, until one is dense or as many are seen as the settings allow; the
last one is taken over. Which of them it is follows from the lengths of the files alone.
-/
namespace FractalBreeder

open Deed (sizes changes Exhausted Streak replay act Alike)

/-- How many pictures a job looks at before it takes one over that is sparse. -/
def RenderSettings.most (s : RenderSettings) : Nat :=
  (s.maxSparseRetries.toNat + 1) * (s.maxRegenerations.toNat + 1)

namespace Bench

variable {setup : Setup} {b : Bench} {reply : Reply} {deeds : List Deed}

/-- What the disk has to allow: the directory of the pictures can be used, and no directory stands in
the picture's own place when it is looked for. -/
structure Eased (setup : Setup) (b : Bench) : Prop where
  usable : b.job.phase = .preparing → (setup.store.ensureDir b.disk).2 = .ok ()
  clear : ∀ turn, b.job.phase = .inspecting turn →
    b.disk.read (setup.store.path b.fractal.id) ≠ .error .isADirectory

/-! ### Calls and judgements -/

/-- Without a stop a lawful call returns and does not report one. -/
theorem returned_of_lawful {flag : StopFlag} (lawful : reply.Lawful flag) (calm : flag.raised = false) :
    ∃ left result, reply = .returned left result ∧ result ≠ .error .cancelled := by
  cases reply with
  | crashed => exact lawful.elim
  | returned left result =>
    refine ⟨left, result, rfl, ?_⟩
    rintro rfl
    rw [Reply.Lawful, calm] at lawful
    cases lawful

/-- What comes of a call that returns and does not report a stop. -/
theorem receive_outcome (b : Bench) (turn : Turn) (left : Option ByteArray)
    {result : Except Failure Unit} (other : result ≠ .error .cancelled) :
    (∃ disk bytes, b.receive turn (.returned left result) =
        ({ b with disk } : Bench).enter (.inspecting turn) ∧
        disk.read turn.request.output = .ok bytes ∧
        b.outcome turn (.returned left result) = .rendered bytes.size) ∨
      b.outcome turn (.returned left result) = .failed ∧ ∃ disk,
        (b.receive turn (.returned left result) =
            ({ b with disk } : Bench).enter (.inspecting turn) ∧
          (disk.read turn.request.output).toOption = none) ∨
        ∃ fault, b.receive turn (.returned left result) =
          ({ b with disk } : Bench).enter (.cleaning turn fault) := by
  have read_ok (disk : Disk) :
      (∃ bytes, disk.read turn.request.output = .ok bytes) ∨
        (disk.read turn.request.output).toOption = none := by
    cases disk.read turn.request.output with
    | ok bytes => exact .inl ⟨bytes, rfl⟩
    | error fault => exact .inr rfl
  rw [receive_returned]
  cases written : left.elim (.ok b.disk) (b.disk.write turn.request.output) with
  | error fault =>
    refine .inr ⟨?_, b.disk, .inr ⟨_, rfl⟩⟩
    cases result with
    | error failure => rfl
    | ok _ => simp only [outcome, written]
  | ok disk =>
    cases result with
    | error failure =>
      refine .inr ⟨rfl, disk, .inr ⟨failure, ?_⟩⟩
      dsimp only
      rw [verdict_error turn fun stopped => other (congrArg Except.error stopped)]
    | ok _ =>
      rcases read_ok disk with ⟨bytes, read⟩ | nothing
      · refine .inl ⟨disk, bytes, rfl, read, ?_⟩
        simp only [outcome, written, read]
        rfl
      · refine .inr ⟨?_, disk, .inl ⟨rfl, nothing⟩⟩
        simp only [outcome, written, nothing]
        rfl

theorem exists?_of_picture? {bytes : ByteArray}
    (picture : setup.store.picture? b.disk b.fractal.id = some bytes) :
    b.disk.exists? (setup.store.path b.fractal.id) = true := by
  obtain ⟨loc, found⟩ := ImageStore.stat_of_picture? picture
  rw [Disk.exists?, found]
  rfl

theorem not_exists?_of_picture? (clear : b.disk.read (setup.store.path b.fractal.id) ≠
      .error .isADirectory) (nothing : setup.store.picture? b.disk b.fractal.id = none) :
    b.disk.exists? (setup.store.path b.fractal.id) = false := by
  unfold ImageStore.picture? at nothing
  unfold Disk.read at clear nothing
  unfold Disk.exists?
  cases found : b.disk.stat (setup.store.path b.fractal.id) with
  | error fault => rfl
  | ok result =>
    obtain ⟨loc, node⟩ := result
    rw [found] at clear nothing
    cases node with
    | file held => cases nothing
    | directory => exact absurd rfl clear

/-- A picture is judged by the length of its file. -/
theorem measure_eq {bytes : ByteArray}
    (picture : setup.store.picture? b.disk b.fractal.id = some bytes) (retry : Nat) :
    b.measure setup retry =
      { b with job := { b.job with
          attempts := b.job.attempts + 1
          phase :=
            if bytes.size < setup.render.sparseThreshold.toNat then
              if retry < setup.render.maxSparseRetries.toNat then .opening (retry + 1) else .closing
            else .taking } } := by
  obtain ⟨loc, found⟩ := ImageStore.stat_of_picture? picture
  have size : setup.store.size b.disk b.fractal.id = .ok bytes.size := by
    rw [ImageStore.size, Disk.size, found]
    rfl
  unfold measure Fractal.isSparse
  simp only [size]
  by_cases sparse : bytes.size < setup.render.sparseThreshold.toNat
  · simp only [bind, Except.bind, pure, Except.pure, sparse, decide_true, if_true]
    rfl
  · simp only [bind, Except.bind, pure, Except.pure, sparse, decide_false, if_false]
    rfl

theorem take_eq {bytes : ByteArray} (calm : b.job.flag.raised = false)
    (picture : setup.store.picture? b.disk b.fractal.id = some bytes) :
    b.take setup =
      ⟨{ b.job with phase := .marking b.fractal.id },
        { b.fractal with
          state := .ready
          image := some ⟨b.fractal.id, setup.store.extension, bytes⟩ },
        setup.store.discard b.disk b.fractal.id⟩ := by
  have read := ImageStore.read_of_picture? picture
  rcases take_cases setup b with ⟨held, -, read', made⟩ | ⟨raised, -⟩ | ⟨fault, made⟩
  · rw [read] at read'
    cases read'
    exact made
  · rw [calm] at raised
    cases raised
  · unfold take StopFlag.check at made
    simp [calm, Fractal.takePicture, ImageStore.load, read, bind, Except.bind, pure, Except.pure,
      enter] at made

end Bench

/-! ### Where a job is -/

section Stages

variable (s : RenderSettings) (attempts regenerations : Nat) (deeds : List Deed)

/-- A job is at the picture `r` of its round, and all before were sparse. -/
structure Underway (r : Nat) : Prop where
  round : regenerations ≤ s.maxRegenerations.toNat
  place : attempts = regenerations * (s.maxSparseRetries.toNat + 1) + r
  count : (sizes deeds).length = attempts
  sparse : ∀ size ∈ sizes deeds, size < s.sparseThreshold.toNat
  rebred : deeds.count .rebred = regenerations

/-- No call failed since the last other deed, and never did all calls for one picture. -/
def Fresh : Prop := Streak deeds 0 ∧ ¬ Exhausted s.attempts.toNat deeds

/-- So many calls for the picture have failed, and before never did all calls for one. -/
def Tried (calls : Nat) : Prop :=
  Streak deeds calls ∧ calls ≤ s.attempts.toNat ∧
    (calls < s.attempts.toNat → ¬ Exhausted s.attempts.toNat deeds)

/-- The picture `r` of the round is there, and is to be judged. -/
structure Judged (r : Nat) : Prop where
  round : regenerations ≤ s.maxRegenerations.toNat
  place : attempts = regenerations * (s.maxSparseRetries.toNat + 1) + r
  count : (sizes deeds).length = attempts + 1
  sparse : ∀ size ∈ (sizes deeds).dropLast, size < s.sparseThreshold.toNat
  rebred : deeds.count .rebred = regenerations
  changed : changes deeds = attempts
  fresh : Fresh s deeds

/-- The last picture is taken over: it is dense, or as many were seen as the settings allow. -/
structure Accepted : Prop where
  count : (sizes deeds).length = attempts
  positive : 0 < attempts
  most : attempts ≤ s.most
  sparse : ∀ size ∈ (sizes deeds).dropLast, size < s.sparseThreshold.toNat
  reached : attempts = s.most ∨
    ∃ size, (sizes deeds).getLast? = some size ∧ s.sparseThreshold.toNat ≤ size
  round : regenerations = (attempts - 1) / (s.maxSparseRetries.toNat + 1)
  rebred : deeds.count .rebred = regenerations
  changed : changes deeds + 1 = attempts
  able : ¬ Exhausted s.attempts.toNat deeds

/-- All calls for a picture have failed, and all pictures before were sparse. -/
structure Abandoned : Prop where
  exhausted : Exhausted s.attempts.toNat deeds
  sparse : ∀ size ∈ sizes deeds, size < s.sparseThreshold.toNat
  fewer : (sizes deeds).length < s.most

/-- The picture has the last of the lengths. -/
def Sized (picture? : Option ByteArray) : Prop :=
  ∃ bytes, picture? = some bytes ∧ (sizes deeds).getLast? = some bytes.size

/-- What is known in each phase of a job that nobody disturbs. -/
def Stage (picture? : Option ByteArray) (f : Fractal) : Phase → Prop
  | .announcing | .preparing =>
    Underway s attempts regenerations deeds 0 ∧ Fresh s deeds ∧ changes deeds = attempts
  | .opening r =>
    r ≤ s.maxSparseRetries.toNat ∧ Underway s attempts regenerations deeds r ∧ Fresh s deeds ∧
      changes deeds + min r 1 = attempts
  | .mutating r =>
    r ≤ s.maxSparseRetries.toNat ∧ Underway s attempts regenerations deeds r ∧ Fresh s deeds ∧
      changes deeds + 1 = attempts
  | .requesting r =>
    r ≤ s.maxSparseRetries.toNat ∧ Underway s attempts regenerations deeds r ∧ Fresh s deeds ∧
      changes deeds = attempts
  | .trying turn _ | .cleaning turn _ =>
    turn.retry ≤ s.maxSparseRetries.toNat ∧ Underway s attempts regenerations deeds turn.retry ∧
      Tried s deeds turn.calls ∧ changes deeds = attempts
  | .calling turn =>
    turn.retry ≤ s.maxSparseRetries.toNat ∧ Underway s attempts regenerations deeds turn.retry ∧
      (Tried s deeds turn.calls ∧ turn.calls < s.attempts.toNat) ∧ changes deeds = attempts
  | .inspecting turn =>
    turn.retry ≤ s.maxSparseRetries.toNat ∧
      (Judged s attempts regenerations deeds turn.retry ∧ Sized deeds picture? ∨
        (Underway s attempts regenerations deeds turn.retry ∧ Tried s deeds turn.calls ∧
          changes deeds = attempts) ∧ picture? = none)
  | .measuring r =>
    r ≤ s.maxSparseRetries.toNat ∧ Judged s attempts regenerations deeds r ∧ Sized deeds picture?
  | .closing =>
    Underway s attempts regenerations deeds (s.maxSparseRetries.toNat + 1) ∧ Fresh s deeds ∧
      changes deeds + 1 = attempts ∧ Sized deeds picture?
  | .rebreeding =>
    Underway s attempts regenerations deeds (s.maxSparseRetries.toNat + 1) ∧ Fresh s deeds ∧
      changes deeds + 1 = attempts ∧ regenerations < s.maxRegenerations.toNat
  | .taking => Accepted s attempts regenerations deeds ∧ Sized deeds picture?
  | .marking _ | .reporting _ =>
    Accepted s attempts regenerations deeds ∧ Sized deeds (f.image.map (·.bytes))
  | .failing _ | .settling _ | .lamenting _ _ => Abandoned s deeds
  | .repainting | .over =>
    f.state = .ready ∧ Accepted s attempts regenerations deeds ∧
        Sized deeds (f.image.map (·.bytes)) ∨
      f.state = .failed ∧ Abandoned s deeds
  | .withdrawing => False
  | .dead => ¬ Exhausted s.attempts.toNat deeds

end Stages

section Numbers

variable {s : RenderSettings} {attempts regenerations r : Nat} {deeds : List Deed}

theorem place_lt_most (round : regenerations ≤ s.maxRegenerations.toNat)
    (within : r ≤ s.maxSparseRetries.toNat) :
    regenerations * (s.maxSparseRetries.toNat + 1) + r < s.most := by
  have rounds := Nat.mul_le_mul_left (s.maxSparseRetries.toNat + 1) round
  rw [RenderSettings.most, Nat.mul_add_one (s.maxSparseRetries.toNat + 1), Nat.mul_comm regenerations]
  omega

theorem toNat_add_one {word : UInt32} {bound : Nat} (less : word.toNat < bound)
    (ample : bound < 2 ^ 32) : (word + 1).toNat = word.toNat + 1 :=
  (UInt32.toNat_add _ _).trans (Nat.mod_eq_of_lt (Nat.lt_of_le_of_lt less ample))

theorem Fresh.append {d : Deed} (fresh : Fresh s deeds) (able : 0 < s.attempts.toNat)
    (other : d ≠ .failed) : Fresh s (deeds ++ [d]) :=
  ⟨Deed.streak_other deeds other, Deed.not_exhausted_append fresh.2 (Deed.streak_other deeds other) able⟩

theorem Fresh.tried (fresh : Fresh s deeds) : Tried s deeds 0 :=
  ⟨fresh.1, Nat.zero_le _, fun _ => fresh.2⟩

theorem Tried.failed {calls : Nat} (tried : Tried s deeds calls) (more : calls < s.attempts.toNat) :
    Tried s (deeds ++ [.failed]) (calls + 1) :=
  ⟨tried.1.failed, more, Deed.not_exhausted_append (tried.2.2 more) tried.1.failed⟩

theorem Tried.rendered {calls size : Nat} (tried : Tried s deeds calls)
    (more : calls < s.attempts.toNat) : Fresh s (deeds ++ [.rendered size]) := by
  have other : Deed.rendered size ≠ .failed := by intro same; cases same
  have streak := Deed.streak_other deeds other
  exact ⟨streak, Deed.not_exhausted_append (tried.2.2 more) streak (by omega)⟩

theorem Tried.exhausted {calls : Nat} (tried : Tried s deeds calls)
    (enough : ¬ calls < s.attempts.toNat) : Exhausted s.attempts.toNat deeds := by
  obtain rfl : calls = s.attempts.toNat := Nat.le_antisymm tried.2.1 (Nat.le_of_not_lt enough)
  exact tried.1.exhausted

/-- A failed call or a mutation leaves the job at its picture. -/
theorem Underway.append {d : Deed} (underway : Underway s attempts regenerations deeds r)
    (same : d = .failed ∨ d = .mutated) : Underway s attempts regenerations (deeds ++ [d]) r where
  round := underway.round
  place := underway.place
  count := by rcases same with rfl | rfl <;> simpa using underway.count
  sparse := by rcases same with rfl | rfl <;> simpa using underway.sparse
  rebred := by rcases same with rfl | rfl <;> simpa using underway.rebred

theorem Underway.rebreed
    (underway : Underway s attempts regenerations deeds (s.maxSparseRetries.toNat + 1))
    (more : regenerations < s.maxRegenerations.toNat) :
    Underway s attempts (regenerations + 1) (deeds ++ [.rebred]) 0 where
  round := more
  place := by
    rw [underway.place, Nat.add_one_mul]
    omega
  count := by simpa using underway.count
  sparse := by simpa using underway.sparse
  rebred := by simpa using underway.rebred

theorem Underway.rendered (underway : Underway s attempts regenerations deeds r) {size calls : Nat}
    (tried : Tried s deeds calls) (more : calls < s.attempts.toNat)
    (changed : changes deeds = attempts) :
    Judged s attempts regenerations (deeds ++ [.rendered size]) r where
  round := underway.round
  place := underway.place
  count := by simpa using underway.count
  sparse := by simpa using underway.sparse
  rebred := by simpa using underway.rebred
  changed := (Deed.changes_append _ _).trans changed
  fresh := tried.rendered more

theorem Judged.underway (judged : Judged s attempts regenerations deeds r) {size : Nat}
    (last : (sizes deeds).getLast? = some size) (short : size < s.sparseThreshold.toNat) :
    Underway s (attempts + 1) regenerations deeds (r + 1) where
  round := judged.round
  place := by rw [judged.place, Nat.add_assoc]
  count := judged.count
  sparse := by
    obtain ⟨before, whole⟩ := List.getLast?_eq_some_iff.mp last
    have sparse := judged.sparse
    rw [whole, List.dropLast_concat] at sparse
    intro other member
    rw [whole, List.mem_append, List.mem_singleton] at member
    rcases member with member | rfl
    · exact sparse other member
    · exact short
  rebred := judged.rebred

theorem Judged.lt_most (judged : Judged s attempts regenerations deeds r)
    (within : r ≤ s.maxSparseRetries.toNat) : attempts < s.most := by
  rw [judged.place]
  exact place_lt_most judged.round within

/-- A dense picture is accepted. -/
theorem Judged.accepted (judged : Judged s attempts regenerations deeds r)
    (within : r ≤ s.maxSparseRetries.toNat) {size : Nat}
    (last : (sizes deeds).getLast? = some size) (long : s.sparseThreshold.toNat ≤ size) :
    Accepted s (attempts + 1) regenerations deeds where
  count := judged.count
  positive := Nat.succ_pos _
  most := judged.lt_most within
  sparse := judged.sparse
  reached := .inr ⟨size, last, long⟩
  round := by
    rw [Nat.add_sub_cancel, judged.place, Nat.mul_comm, Nat.mul_add_div (Nat.succ_pos _),
      Nat.div_eq_of_lt (Nat.lt_succ_of_le within), Nat.add_zero]
  rebred := judged.rebred
  changed := congrArg (· + 1) judged.changed
  able := judged.fresh.2

/-- After the last round the last picture is accepted as it is. -/
theorem Underway.accepted
    (underway : Underway s attempts regenerations deeds (s.maxSparseRetries.toNat + 1))
    (enough : s.maxRegenerations.toNat ≤ regenerations) (changed : changes deeds + 1 = attempts)
    (fresh : Fresh s deeds) : Accepted s attempts regenerations deeds where
  count := underway.count
  positive := by omega
  most := by
    have last := place_lt_most (s := s) underway.round (Nat.le_refl _)
    rw [underway.place]
    omega
  sparse size member := underway.sparse size (List.mem_of_mem_dropLast member)
  reached := by
    obtain rfl := Nat.le_antisymm underway.round enough
    refine .inl ?_
    rw [underway.place, RenderSettings.most, Nat.mul_add_one (s.maxSparseRetries.toNat + 1),
      Nat.mul_comm s.maxRegenerations.toNat]
  round := by
    rw [underway.place, ← Nat.add_assoc, Nat.add_sub_cancel, Nat.mul_comm,
      Nat.mul_add_div (Nat.succ_pos _), Nat.div_eq_of_lt (Nat.lt_succ_self _), Nat.add_zero]
  rebred := underway.rebred
  changed := changed
  able := fresh.2

/-- The picture that is taken over is the first dense one, if not the last one of all. -/
theorem Accepted.isLeast (accepted : Accepted s attempts regenerations deeds) {lengths : Nat → Nat}
    (left : ∀ i size, (sizes deeds)[i]? = some size → size = lengths (i + 1)) :
    IsLeast {i | 1 ≤ i ∧ (s.sparseThreshold.toNat ≤ lengths i ∨ i = s.most)} attempts := by
  have positive := accepted.positive
  have count := accepted.count
  refine ⟨⟨positive, ?_⟩, ?_⟩
  · rcases accepted.reached with last | ⟨size, last, dense⟩
    · exact .inr last
    · rw [List.getLast?_eq_getElem?, count] at last
      have same := left _ _ last
      rw [Nat.sub_add_cancel positive] at same
      exact .inl (same ▸ dense)
  · rintro i ⟨one, dense | rfl⟩
    · by_contra earlier
      have inside : i - 1 < (sizes deeds).dropLast.length := by
        rw [List.length_dropLast, count]
        omega
      have short := accepted.sparse _ (List.getElem_mem inside)
      rw [List.getElem_dropLast] at short
      have same := left (i - 1) _ (List.getElem?_eq_getElem (by omega))
      rw [Nat.sub_add_cancel one] at same
      omega
    · exact accepted.most

theorem Underway.abandoned (underway : Underway s attempts regenerations deeds r)
    (within : r ≤ s.maxSparseRetries.toNat) (exhausted : Exhausted s.attempts.toNat deeds) :
    Abandoned s deeds where
  exhausted := exhausted
  sparse := underway.sparse
  fewer := by
    rw [underway.count, underway.place]
    exact place_lt_most underway.round within

end Numbers

/-! ### Steps -/

namespace Bench

variable {setup : Setup} {b : Bench} {reply : Reply} {deeds : List Deed}

/-- What is known of a job that nobody disturbs, by its phase. -/
def Staged (setup : Setup) (b : Bench) (deeds : List Deed) : Prop :=
  Stage setup.render b.job.attempts.toNat b.job.regenerations.toNat deeds
    (setup.store.picture? b.disk b.fractal.id) b.fractal b.job.phase

section Phases

variable (staged : Staged setup b deeds)

include staged

theorem staged_opening (calm : b.job.flag.raised = false) {retry : Nat}
    (phase : b.job.phase = .opening retry) :
    Staged setup (b.step setup reply).1 (deeds ++ (b.deed? reply).toList) := by
  rw [Staged, phase] at staged
  obtain ⟨within, underway, fresh, changed⟩ := staged
  simp only [Staged, step, deed?, phase, unlessStopped_eq, calm, Bool.false_eq_true, if_false, enter,
    Option.toList_none, List.append_nil]
  by_cases first : retry = 0
  · subst first
    exact ⟨within, underway, fresh, changed⟩
  · rw [if_neg first]
    exact ⟨within, underway, fresh, by omega⟩

theorem staged_mutating (able : 0 < setup.render.attempts.toNat) {retry : Nat}
    (phase : b.job.phase = .mutating retry) :
    Staged setup (b.step setup reply).1 (deeds ++ (b.deed? reply).toList) := by
  rw [Staged, phase] at staged
  obtain ⟨within, underway, fresh, changed⟩ := staged
  have fresh' := fresh.append (d := .mutated) able (by decide)
  simp only [Staged, step, deed?, phase, Option.toList_some]
  rcases choose_cases b (.requesting retry) (ensures_mutating b) with ⟨genome, source, made⟩ | made
  · rw [made]
    exact ⟨within, underway.append (.inr rfl), fresh', (Deed.changes_append _ _).trans changed⟩
  · rw [made]
    exact fresh'.2

theorem staged_trying (calm : b.job.flag.raised = false) {turn : Turn} {last : Option Failure}
    (phase : b.job.phase = .trying turn last) :
    Staged setup (b.step setup reply).1 (deeds ++ (b.deed? reply).toList) := by
  rw [Staged, phase] at staged
  obtain ⟨within, underway, tried, changed⟩ := staged
  simp only [Staged, step, deed?, phase, Option.toList_none, List.append_nil]
  by_cases more : turn.calls < setup.render.attempts.toNat
  · simp only [if_pos more, StopFlag.check, calm, Bool.false_eq_true, if_false, enter]
    exact ⟨within, underway, ⟨tried, more⟩, changed⟩
  · simp only [if_neg more, enter]
    exact underway.abandoned within (tried.exhausted more)

theorem staged_calling (fits : b.job.Fits False setup.store b.fractal)
    (calm : b.job.flag.raised = false) {turn : Turn} (phase : b.job.phase = .calling turn)
    (lawful : reply.Lawful b.job.flag) :
    Staged setup (b.step setup reply).1 (deeds ++ (b.deed? reply).toList) := by
  have output : turn.request.output = setup.store.path b.fractal.id := by
    rw [(fits.request (.inr (.inl phase))).2]
    rfl
  obtain ⟨left, result, rfl, other⟩ := returned_of_lawful lawful calm
  rw [Staged, phase] at staged
  obtain ⟨within, underway, ⟨tried, more⟩, changed⟩ := staged
  simp only [Staged, step, deed?, phase, Option.toList_some]
  have same : b.outcome turn (.returned left result) =
      b.outcome { turn with calls := turn.calls + 1 } (.returned left result) := rfl
  rw [same]
  rcases receive_outcome b { turn with calls := turn.calls + 1 } left other with
    ⟨disk, bytes, made, read, outcome⟩ | ⟨outcome, disk, ⟨made, nothing⟩ | ⟨fault, made⟩⟩
  · rw [made, outcome]
    have picture : setup.store.picture? disk b.fractal.id = some bytes := by
      rw [ImageStore.picture?, ← output, read]
      rfl
    refine ⟨within, .inl ⟨underway.rendered tried more changed, bytes, picture, ?_⟩⟩
    simp
  · rw [made, outcome]
    have nothing : setup.store.picture? disk b.fractal.id = none := by
      rw [ImageStore.picture?, ← output]
      exact nothing
    exact ⟨within, .inr ⟨⟨underway.append (.inl rfl), tried.failed more,
      (Deed.changes_append _ _).trans changed⟩, nothing⟩⟩
  · rw [made, outcome]
    exact ⟨within, underway.append (.inl rfl), tried.failed more, (Deed.changes_append _ _).trans changed⟩

theorem staged_inspecting (fits : b.job.Fits False setup.store b.fractal)
    (eased : Eased setup b) {turn : Turn} (phase : b.job.phase = .inspecting turn) :
    Staged setup (b.step setup reply).1 (deeds ++ (b.deed? reply).toList) := by
  have output : turn.request.output = setup.store.path b.fractal.id := by
    rw [(fits.request (.inr (.inr (.inl phase)))).2]
    rfl
  rw [Staged, phase] at staged
  simp only [Staged, step, deed?, phase, output, Option.toList_none, List.append_nil]
  obtain ⟨within, ⟨judged, bytes, picture, last⟩ | ⟨⟨underway, tried, changed⟩, nothing⟩⟩ := staged
  · rw [exists?_of_picture? picture]
    exact ⟨within, judged, bytes, picture, last⟩
  · rw [not_exists?_of_picture? (eased.clear turn phase) nothing]
    exact ⟨within, underway, tried, changed⟩

theorem staged_measuring (ample : setup.render.most < 2 ^ 32) {retry : Nat}
    (phase : b.job.phase = .measuring retry) :
    Staged setup (b.step setup reply).1 (deeds ++ (b.deed? reply).toList) := by
  rw [Staged, phase] at staged
  obtain ⟨within, judged, bytes, picture, last⟩ := staged
  have next := toNat_add_one (judged.lt_most within) ample
  simp only [Staged, step, deed?, phase, measure_eq picture, Option.toList_none, List.append_nil, next]
  by_cases sparse : bytes.size < setup.render.sparseThreshold.toNat
  · have underway := judged.underway last sparse
    have changed := judged.changed
    rw [if_pos sparse]
    by_cases more : retry < setup.render.maxSparseRetries.toNat
    · rw [if_pos more]
      exact ⟨more, underway, judged.fresh, by omega⟩
    · obtain rfl : retry = setup.render.maxSparseRetries.toNat := by omega
      rw [if_neg more]
      exact ⟨underway, judged.fresh, by omega, bytes, picture, last⟩
  · rw [if_neg sparse]
    exact ⟨judged.accepted within last (Nat.le_of_not_lt sparse), bytes, picture, last⟩

theorem staged_closing (calm : b.job.flag.raised = false) (phase : b.job.phase = .closing) :
    Staged setup (b.step setup reply).1 (deeds ++ (b.deed? reply).toList) := by
  rw [Staged, phase] at staged
  obtain ⟨underway, fresh, changed, sized⟩ := staged
  simp only [Staged, step, deed?, phase, unlessStopped_eq, calm, Bool.false_eq_true, if_false, enter,
    Option.toList_none, List.append_nil]
  by_cases enough : setup.render.maxRegenerations ≤ b.job.regenerations
  · rw [if_pos enough]
    exact ⟨underway.accepted (UInt32.le_iff_toNat_le.mp enough) changed fresh, sized⟩
  · rw [if_neg enough]
    exact ⟨underway, fresh, changed, Nat.lt_of_not_le fun le => enough (UInt32.le_iff_toNat_le.mpr le)⟩

theorem staged_rebreeding (able : 0 < setup.render.attempts.toNat)
    (phase : b.job.phase = .rebreeding) :
    Staged setup (b.step setup reply).1 (deeds ++ (b.deed? reply).toList) := by
  rw [Staged, phase] at staged
  obtain ⟨underway, fresh, changed, more⟩ := staged
  have fresh' := fresh.append (d := .rebred) able (by decide)
  have next := toNat_add_one more setup.render.maxRegenerations.toNat_lt
  simp only [Staged, step, deed?, phase, Option.toList_some]
  rcases choose_cases b (.opening 0) (ensures_rebreeding b) with ⟨genome, source, made⟩ | made
  · rw [made, next]
    exact ⟨Nat.zero_le _, underway.rebreed more, fresh', (Deed.changes_append _ _).trans changed⟩
  · rw [made]
    exact fresh'.2

theorem staged_taking (calm : b.job.flag.raised = false) (phase : b.job.phase = .taking) :
    Staged setup (b.step setup reply).1 (deeds ++ (b.deed? reply).toList) := by
  rw [Staged, phase] at staged
  obtain ⟨accepted, bytes, picture, last⟩ := staged
  simp only [Staged, step, deed?, phase, take_eq calm picture, Option.toList_none, List.append_nil]
  exact ⟨accepted, bytes, rfl, last⟩

end Phases

/-- What one step keeps. -/
theorem Staged.step (staged : Staged setup b deeds) (fits : b.job.Fits False setup.store b.fractal)
    (calm : b.job.flag.raised = false) (ample : setup.render.most < 2 ^ 32)
    (able : 0 < setup.render.attempts.toNat) (eased : Eased setup b)
    (lawful : ∀ turn, b.job.phase = .calling turn → reply.Lawful b.job.flag) :
    Staged setup (b.step setup reply).1 (deeds ++ (b.deed? reply).toList) := by
  cases phase : b.job.phase with
  | opening retry => exact staged_opening staged calm phase
  | mutating retry => exact staged_mutating staged able phase
  | trying turn last => exact staged_trying staged calm phase
  | calling turn => exact staged_calling staged fits calm phase (lawful turn phase)
  | inspecting turn => exact staged_inspecting staged fits eased phase
  | measuring retry => exact staged_measuring staged ample phase
  | closing => exact staged_closing staged calm phase
  | rebreeding => exact staged_rebreeding staged able phase
  | taking => exact staged_taking staged calm phase
  | announcing | marking _ | repainting =>
    rw [Staged, phase] at staged
    simp only [Staged, Bench.step, deed?, phase, enter, Option.toList_none, List.append_nil]
    exact staged
  | cleaning turn fault =>
    rw [Staged, phase, Stage] at staged
    simp only [Staged, Bench.step, deed?, phase, enter, Option.toList_none, List.append_nil, Stage]
    exact staged
  | «over» | dead =>
    rw [Staged, phase] at staged
    simpa only [Staged, Bench.step, deed?, phase, Option.toList_none, List.append_nil] using staged
  | preparing =>
    rw [Staged, phase] at staged
    obtain ⟨underway, fresh, changed⟩ := staged
    simp only [Staged, Bench.step, deed?, phase, eased.usable phase, enter, Option.toList_none,
      List.append_nil]
    exact ⟨Nat.zero_le _, underway, fresh, by simpa using changed⟩
  | requesting retry =>
    rw [Staged, phase] at staged
    obtain ⟨within, underway, fresh, changed⟩ := staged
    simp only [Staged, Bench.step, deed?, phase, enter, Option.toList_none, List.append_nil]
    exact ⟨within, underway, fresh.tried, changed⟩
  | reporting identity =>
    rw [Staged, phase] at staged
    rw [Job.Fits, phase] at fits
    simp only [Staged, Bench.step, deed?, phase, enter, Option.toList_none, List.append_nil]
    exact .inl ⟨fits.1, staged⟩
  | failing fault =>
    rw [Staged, phase] at staged
    rw [Job.Fits, phase] at fits
    have other : fault ≠ .cancelled := by
      intro stopped
      rcases fits.2 stopped with raised | impossible
      · rw [calm] at raised
        cases raised
      · exact impossible
    simp only [Staged, Bench.step, deed?, phase, other, calm, Bool.false_eq_true, or_self, if_false, enter,
      Option.toList_none, List.append_nil]
    exact staged
  | settling fault =>
    rw [Staged, phase, Stage] at staged
    simp only [Staged, Bench.step, deed?, phase, enter, Option.toList_none, List.append_nil, Stage]
    exact staged
  | lamenting identity fault =>
    rw [Staged, phase] at staged
    rw [Job.Fits, phase] at fits
    simp only [Staged, Bench.step, deed?, phase, enter, Option.toList_none, List.append_nil]
    exact .inr ⟨fits.1, staged⟩
  | withdrawing =>
    rw [Staged, phase] at staged
    exact staged.elim

end Bench

end FractalBreeder
