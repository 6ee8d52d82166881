import Mathlib.Data.List.Perm.Subperm
import Mathlib.Data.List.Permutation
import Mathlib.Data.List.Nodup
import FractalBreeder.Settings.Keeper

/-!
Changes of the settings in force that overlap. An update writes what it made of the settings it has
seen, whatever was written since. So the settings in force are always those of some of the changes,
one after another in the order of their writes, and what is missing among them was overtaken: an
update saw the settings before that write and wrote after it.
-/
namespace FractalBreeder.Keeper

/-- The settings after changes that run one after another, none of which fails. -/
def inTurn (held : Settings) (changes : List Change) : Except Failure Settings :=
  changes.foldlM (fun seen c => c.outcome seen) held

/-- The keeper after the steps of a schedule, which names the change that takes each step. -/
def follow? : Keeper → List Nat → Option Keeper
  | k, [] => some k
  | k, i :: rest => (k.step i).bind (follow? · rest)

/-- What a step does with the settings in force. -/
inductive Act where
  | reads (i : Nat)
  | writes (i : Nat)
  deriving DecidableEq

def act? (k : Keeper) (i : Nat) : Option Act :=
  match k.changes[i]? with
  | some (_, .waiting) => some (.reads i)
  | some (_, .computed (.ok _)) => some (.writes i)
  | _ => none

/-- What the steps of a schedule do with the settings in force, in their order. -/
def acts : Keeper → List Nat → List Act
  | _, [] => []
  | k, i :: rest => (k.act? i).toList ++ (k.step i).elim [] (acts · rest)

/-- The changes that have written settings, in the order of their writes. -/
def writers (log : List Act) : List Nat :=
  log.filterMap fun
    | .writes i => some i
    | .reads _ => none

/-- Change `j` is an update that saw the settings before `i` wrote them and wrote its own after. -/
def Overtakes (changes : List Change) (log : List Act) (j i : Nat) : Prop :=
  (∃ f, changes[j]? = some (.update f)) ∧ [.reads j, .writes i, .writes j].Sublist log

/-- One constructor for each kind of step. -/
inductive Steps (k : Keeper) (i : Nat) : Option Act → Keeper → Prop
  | reads {c} (found : k.changes[i]? = some (c, .waiting)) :
    Steps k i (some (.reads i)) { k with changes := k.changes.set i (c, .seen k.held) }
  | computes {c s} (found : k.changes[i]? = some (c, .seen s)) :
    Steps k i none { k with changes := k.changes.set i (c, .computed (c.outcome s)) }
  | writes {c s} (found : k.changes[i]? = some (c, .computed (.ok s))) :
    Steps k i (some (.writes i)) ⟨s, k.changes.set i (c, .done (.ok ()))⟩
  | fails {c fault} (found : k.changes[i]? = some (c, .computed (.error fault))) :
    Steps k i none { k with changes := k.changes.set i (c, .done (.error fault)) }

theorem steps_of_step {k k' : Keeper} {i : Nat} (stepped : k.step i = some k') :
    Steps k i (k.act? i) k' := by
  unfold step at stepped
  cases found : k.changes[i]? with
  | none => simp [found] at stepped
  | some change =>
    obtain ⟨c, phase⟩ := change
    cases phase with
    | waiting =>
      simp only [found, Option.pure_def, Option.bind_eq_bind, Option.bind_some,
        Option.some.injEq] at stepped
      subst stepped
      simpa [act?, found] using Steps.reads found
    | seen s =>
      simp only [found, Option.pure_def, Option.bind_eq_bind, Option.bind_some,
        Option.some.injEq] at stepped
      subst stepped
      simpa [act?, found] using Steps.computes found
    | computed result =>
      cases result with
      | ok s =>
        simp only [found, Option.pure_def, Option.bind_eq_bind, Option.bind_some,
          Option.some.injEq] at stepped
        subst stepped
        simpa [act?, found] using Steps.writes found
      | error fault =>
        simp only [found, Option.pure_def, Option.bind_eq_bind, Option.bind_some,
          Option.some.injEq] at stepped
        subst stepped
        simpa [act?, found] using Steps.fails found
    | done result => simp [found] at stepped

/-- What every step preserves holds after all steps of a schedule. -/
theorem follow_induction {holds : Keeper → List Act → Prop}
    (steps : ∀ {k log i act k'}, holds k log → Steps k i act k' → holds k' (log ++ act.toList)) :
    ∀ {schedule k log k'}, holds k log → k.follow? schedule = some k' →
      holds k' (log ++ k.acts schedule) := by
  intro schedule
  induction schedule with
  | nil =>
    intro k log k' initially followed
    cases followed
    simpa [acts] using initially
  | cons i rest ih =>
    intro k log k' initially followed
    cases stepped : k.step i with
    | none => simp [follow?, stepped] at followed
    | some next =>
      simp only [follow?, stepped, Option.bind_some] at followed
      have after := ih (steps initially (steps_of_step stepped)) followed
      simpa [acts, stepped, List.append_assoc] using after

@[simp] theorem writers_append (log log' : List Act) :
    writers (log ++ log') = writers log ++ writers log' := by
  simp [writers]

theorem inTurn_append {held s : Settings} {before : List Change}
    (ran : inTurn held before = .ok s) (c : Change) : inTurn held (before ++ [c]) = c.outcome s := by
  simp only [inTurn] at ran ⊢
  rw [List.foldlM_append, ran]
  simp [List.foldlM, bind, Except.bind, pure, Except.pure]
  cases c.outcome s <;> rfl

/-- What a load makes of the settings does not depend on those it has seen. -/
theorem outcome_load (s s' : Settings) (disk : Disk) (environment : List (String × String))
    (path : String) :
    (Change.load disk environment path).outcome s = (Change.load disk environment path).outcome s' :=
  rfl

section Accounts

variable {held : Settings} {changes : List Change} {log log' : List Act}

/-- Some settings are those of the kept changes, one after another in the order of their writes.
Every write that is not kept was overtaken, or it was made too late to be seen. -/
structure Explains (held : Settings) (changes : List Change) (log : List Act) (late : Nat → Prop)
    (s : Settings) (kept : List Nat) : Prop where
  inOrder : kept.Sublist (writers log)
  ran : inTurn held (kept.filterMap (changes[·]?)) = .ok s
  whole : ∀ i ∈ writers log, i ∉ kept → late i ∨ ∃ j ∈ kept, Overtakes changes log j i

/-- Change `i` has seen these settings, and since then it has missed some writes. -/
def Saw (held : Settings) (changes : List Change) (log : List Act) (i : Nat) (s : Settings) : Prop :=
  .reads i ∈ log ∧ ∃ kept,
    Explains held changes log (fun missed => [.reads i, .writes missed].Sublist log) s kept

/-- What a change has made so far comes from settings it has seen. -/
def Computes (held : Settings) (changes : List Change) (log : List Act) (i : Nat) (c : Change) :
    ChangePhase → Prop
  | .waiting => True
  | .seen s => Saw held changes log i s
  | .computed result => ∃ s, Saw held changes log i s ∧ result = c.outcome s
  | .done _ => True

/-- The settings in force, and all that changes have seen of them, have an account. -/
structure Accounted (held : Settings) (changes : List Change) (k : Keeper) (log : List Act) :
    Prop where
  listed : k.changes.map Prod.fst = changes
  kept : ∃ kept, Explains held changes log (fun _ => False) k.held kept
  computes : ∀ {i c phase}, k.changes[i]? = some (c, phase) →
    Computes held changes log i c phase
  written : ∀ i, i ∈ writers log ↔ ∃ c, k.changes[i]? = some (c, .done (.ok ()))
  once : (writers log).Nodup

theorem Overtakes.append {j i : Nat} (overtakes : Overtakes changes log j i) (more : List Act) :
    Overtakes changes (log ++ more) j i :=
  ⟨overtakes.1, overtakes.2.trans (List.sublist_append_left ..)⟩

/-- A read or no act at all leaves every account as it is. -/
theorem Explains.quiet {late late' : Nat → Prop} {s : Settings} {kept : List Nat} {more : List Act}
    (explains : Explains held changes log late s kept) (quiet : writers more = [])
    (later : ∀ i, late i → late' i) : Explains held changes (log ++ more) late' s kept where
  inOrder := by simpa [quiet] using explains.inOrder
  ran := explains.ran
  whole := by
    intro i wrote dropped
    rw [writers_append, quiet, List.append_nil] at wrote
    rcases explains.whole i wrote dropped with late | ⟨j, inKept, overtakes⟩
    · exact .inl (later i late)
    · exact .inr ⟨j, inKept, overtakes.append more⟩

theorem Saw.quiet {i : Nat} {s : Settings} {more : List Act} (saw : Saw held changes log i s)
    (quiet : writers more = []) : Saw held changes (log ++ more) i s := by
  obtain ⟨hasRead, kept, explains⟩ := saw
  refine ⟨List.mem_append_left _ hasRead, kept, explains.quiet quiet fun j missed => ?_⟩
  exact missed.trans (List.sublist_append_left ..)

/-- A write of another change is one more that was missed. -/
theorem Saw.missing {i : Nat} {s : Settings} (saw : Saw held changes log i s) (j : Nat) :
    Saw held changes (log ++ [.writes j]) i s := by
  obtain ⟨hasRead, kept, explains⟩ := saw
  refine ⟨List.mem_append_left _ hasRead, kept, ?_, explains.ran, ?_⟩
  · rw [writers_append]
    exact explains.inOrder.trans (List.sublist_append_left ..)
  · intro missed wrote dropped
    rw [writers_append] at wrote
    rcases List.mem_append.mp wrote with wrote | wrote
    · rcases explains.whole missed wrote dropped with late | ⟨j', inKept, overtakes⟩
      · exact .inl (late.trans (List.sublist_append_left ..))
      · exact .inr ⟨j', inKept, overtakes.append _⟩
    · obtain rfl : missed = j := by simpa [writers] using wrote
      exact .inl ((List.singleton_sublist.mpr hasRead).append (List.Sublist.refl [Act.writes missed]))

theorem Computes.quiet {i : Nat} {c : Change} {phase : ChangePhase} {more : List Act}
    (computes : Computes held changes log i c phase) (quiet : writers more = []) :
    Computes held changes (log ++ more) i c phase := by
  cases phase with
  | waiting => trivial
  | seen s => exact Saw.quiet computes quiet
  | computed result =>
    obtain ⟨s, saw, eq⟩ := computes
    exact ⟨s, saw.quiet quiet, eq⟩
  | done result => trivial

theorem Computes.missing {i : Nat} {c : Change} {phase : ChangePhase}
    (computes : Computes held changes log i c phase) (j : Nat) :
    Computes held changes (log ++ [.writes j]) i c phase := by
  cases phase with
  | waiting => trivial
  | seen s => exact Saw.missing computes j
  | computed result =>
    obtain ⟨s, saw, eq⟩ := computes
    exact ⟨s, saw.missing j, eq⟩
  | done result => trivial

/-- An update that writes keeps what it has seen, and overtakes what it has missed. -/
theorem Explains.update {i : Nat} {f : Settings → Settings} {s t : Settings}
    (saw : Saw held changes log i s) (found : changes[i]? = some (.update f))
    (outcome : (Change.update f).outcome s = .ok t) :
    ∃ kept, Explains held changes (log ++ [.writes i]) (fun _ => False) t kept := by
  obtain ⟨-, kept, explains⟩ := saw
  refine ⟨kept ++ [i], ?_, ?_, ?_⟩
  · simpa [writers] using explains.inOrder
  · rw [List.filterMap_append]
    simpa [found, outcome] using inTurn_append explains.ran (.update f)
  · intro missed wrote dropped
    obtain ⟨notKept, other⟩ : missed ∉ kept ∧ missed ≠ i := by simpa using dropped
    have wrote : missed ∈ writers log := by simpa [writers, other] using wrote
    rcases explains.whole missed wrote notKept with late | ⟨j, inKept, overtakes⟩
    · have overtakes : [.reads i, .writes missed, .writes i].Sublist (log ++ [.writes i]) :=
        late.append (List.Sublist.refl [Act.writes i])
      exact .inr ⟨i, by simp, ⟨f, found⟩, overtakes⟩
    · exact .inr ⟨j, List.mem_append_left _ inKept, overtakes.append _⟩

/-- A load that writes keeps everything: it could have seen any settings. -/
theorem Explains.load {i : Nat} {disk : Disk} {environment : List (String × String)} {path : String}
    {s t : Settings} {kept : List Nat} (explains : Explains held changes log (fun _ => False) s kept)
    (found : changes[i]? = some (.load disk environment path))
    (outcome : (Change.load disk environment path).outcome s = .ok t) :
    Explains held changes (log ++ [.writes i]) (fun _ => False) t (kept ++ [i]) where
  inOrder := by simpa [writers] using explains.inOrder
  ran := by
    rw [List.filterMap_append]
    simpa [found, outcome] using inTurn_append explains.ran (.load disk environment path)
  whole := by
    intro missed wrote dropped
    obtain ⟨notKept, other⟩ : missed ∉ kept ∧ missed ≠ i := by simpa using dropped
    have wrote : missed ∈ writers log := by simpa [writers, other] using wrote
    rcases explains.whole missed wrote notKept with none | ⟨j, inKept, overtakes⟩
    · exact none.elim
    · exact .inr ⟨j, List.mem_append_left _ inKept, overtakes.append _⟩

/-- What has been seen just now misses nothing. -/
theorem Explains.seen {s : Settings} {kept : List Nat}
    (explains : Explains held changes log (fun _ => False) s kept) (i : Nat) :
    Saw held changes (log ++ [.reads i]) i s :=
  ⟨by simp, kept, explains.quiet rfl fun _ => False.elim⟩

namespace Accounted

variable {k k' : Keeper}

theorem start (held : Settings) (changes : List Change) :
    Accounted held changes (Keeper.start held changes) [] where
  listed := by simp [Keeper.start, Function.comp_def]
  kept := ⟨[], ⟨.slnil, rfl, by simp [writers]⟩⟩
  computes := by
    intro i c phase found
    obtain ⟨c', -, eq⟩ : ∃ c', changes[i]? = some c' ∧ (c', ChangePhase.waiting) = (c, phase) := by
      simpa [Keeper.start] using found
    cases eq
    trivial
  written := by simp [writers, Keeper.start]
  once := List.nodup_nil

theorem found (accounted : Accounted held changes k log) {i : Nat} {c : Change} {phase : ChangePhase}
    (at_i : k.changes[i]? = some (c, phase)) : changes[i]? = some c := by
  rw [← accounted.listed, List.getElem?_map, at_i]
  rfl

theorem listed_set (accounted : Accounted held changes k log) {i : Nat} {c : Change}
    {phase : ChangePhase} (at_i : k.changes[i]? = some (c, phase)) (phase' : ChangePhase) :
    (k.changes.set i (c, phase')).map Prod.fst = changes := by
  rw [List.map_set, accounted.listed]
  obtain ⟨bound, at_i⟩ := List.getElem?_eq_some_iff.mp (accounted.found at_i)
  rw [← at_i, List.set_getElem_self]

theorem getElem?_set {changes : List (Change × ChangePhase)} {i j : Nat} {c : Change}
    {phase : ChangePhase} {entry entry' : Change × ChangePhase}
    (at_i : changes[i]? = some (c, phase)) (at_j : (changes.set i entry)[j]? = some entry') :
    (j = i ∧ entry' = entry) ∨ (j ≠ i ∧ changes[j]? = some entry') := by
  by_cases same : j = i
  · subst same
    obtain ⟨bound, -⟩ := List.getElem?_eq_some_iff.mp at_i
    rw [List.getElem?_set_self bound] at at_j
    exact .inl ⟨rfl, (Option.some.inj at_j).symm⟩
  · rw [List.getElem?_set_ne (Ne.symm same)] at at_j
    exact .inr ⟨same, at_j⟩

/-- A step that writes nothing changes the phase of one change that has not succeeded. -/
theorem quiet (accounted : Accounted held changes k log) {i : Nat} {c : Change}
    {phase phase' : ChangePhase} {more : List Act} (at_i : k.changes[i]? = some (c, phase))
    (unfinished : phase ≠ .done (.ok ())) (unfinished' : phase' ≠ .done (.ok ()))
    (quiet : writers more = []) (computes : Computes held changes (log ++ more) i c phase') :
    Accounted held changes { k with changes := k.changes.set i (c, phase') } (log ++ more) where
  listed := accounted.listed_set at_i phase'
  kept := by
    obtain ⟨kept, explains⟩ := accounted.kept
    exact ⟨kept, explains.quiet quiet fun _ => id⟩
  computes := by
    intro j c' phase'' at_j
    rcases getElem?_set at_i at_j with ⟨rfl, eq⟩ | ⟨other, at_j⟩
    · cases eq
      exact computes
    · exact (accounted.computes at_j).quiet quiet
  written := by
    intro j
    rw [writers_append, quiet, List.append_nil, accounted.written]
    by_cases same : j = i
    · subst same
      obtain ⟨bound, -⟩ := List.getElem?_eq_some_iff.mp at_i
      simp [at_i, unfinished, unfinished', List.getElem?_set_self bound]
    · simp [List.getElem?_set_ne (Ne.symm same)]
  once := by simpa [quiet] using accounted.once

/-- A change that writes has succeeded, for the first time. -/
theorem writes (accounted : Accounted held changes k log) {i : Nat} {c : Change} {s : Settings}
    (at_i : k.changes[i]? = some (c, .computed (.ok s)))
    (kept : ∃ kept, Explains held changes (log ++ [.writes i]) (fun _ => False) s kept) :
    Accounted held changes ⟨s, k.changes.set i (c, .done (.ok ()))⟩ (log ++ [.writes i]) where
  listed := accounted.listed_set at_i _
  kept := kept
  computes := by
    intro j c' phase at_j
    rcases getElem?_set at_i at_j with ⟨rfl, eq⟩ | ⟨other, at_j⟩
    · cases eq
      trivial
    · exact (accounted.computes at_j).missing i
  written := by
    intro j
    rw [writers_append, List.mem_append, accounted.written]
    by_cases same : j = i
    · subst same
      obtain ⟨bound, -⟩ := List.getElem?_eq_some_iff.mp at_i
      simp [writers, List.getElem?_set_self bound]
    · simp [writers, same, List.getElem?_set_ne (Ne.symm same)]
  once := by
    have first : i ∉ writers log := by
      rw [accounted.written, at_i]
      simp
    rw [writers_append]
    exact List.Nodup.append accounted.once (List.nodup_singleton i)
      (List.disjoint_singleton.mpr first)

theorem steps (accounted : Accounted held changes k log) {i : Nat} {act : Option Act}
    (steps : Steps k i act k') : Accounted held changes k' (log ++ act.toList) := by
  cases steps with
  | reads at_i =>
    obtain ⟨kept, explains⟩ := accounted.kept
    exact accounted.quiet at_i (by simp) (by simp) rfl (explains.seen i)
  | computes at_i =>
    have saw : Saw held changes (log ++ []) i _ := (accounted.computes at_i).quiet rfl
    exact accounted.quiet at_i (by simp) (by simp) rfl ⟨_, saw, rfl⟩
  | @writes c s at_i =>
    refine accounted.writes at_i ?_
    obtain ⟨seen, saw, outcome⟩ := accounted.computes at_i
    cases c with
    | update f => exact Explains.update saw (accounted.found at_i) outcome.symm
    | load disk environment path =>
      obtain ⟨kept, explains⟩ := accounted.kept
      exact ⟨_, explains.load (accounted.found at_i) outcome.symm⟩
  | fails at_i => exact accounted.quiet at_i (by simp) (by simp) rfl trivial

theorem follow {schedule : List Nat} (followed : (Keeper.start held changes).follow? schedule = some k) :
    Accounted held changes k ((Keeper.start held changes).acts schedule) :=
  follow_induction (fun accounted taken => accounted.steps taken) (start held changes) followed

end Accounted

/-- If no update overtakes a write, nothing is lost: the settings in force are those of all changes
that succeeded, one after another in the order of their writes. -/
theorem inTurn_writers {k : Keeper} {schedule : List Nat}
    (followed : (start held changes).follow? schedule = some k)
    (orderly : ∀ i j, ¬ Overtakes changes ((start held changes).acts schedule) j i) :
    inTurn held ((writers ((start held changes).acts schedule)).filterMap (changes[·]?)) =
      .ok k.held := by
  have accounted := Accounted.follow followed
  obtain ⟨kept, explains⟩ := accounted.kept
  have all : writers ((start held changes).acts schedule) ⊆ kept := by
    intro i wrote
    by_contra dropped
    rcases explains.whole i wrote dropped with none | ⟨j, -, overtakes⟩
    · exact none
    · exact orderly i j overtakes
  have eq := explains.inOrder.eq_of_length_le (accounted.once.subperm all).length_le
  rw [← eq]
  exact explains.ran

/-- Whatever changes overlap, in any number and any schedule: the settings in force are those of
some of the changes that succeeded, one after another in the order of their writes, and every
change that succeeded and is not among them was overtaken by an update that is. -/
theorem follow_accounted (held : Settings) (changes : List Change) (schedule : List Nat) (k : Keeper)
    (followed : (start held changes).follow? schedule = some k) :
    let log := (start held changes).acts schedule
    (writers log).Nodup ∧
      (∀ i, i ∈ writers log ↔ ∃ c, k.changes[i]? = some (c, .done (.ok ()))) ∧
      ∃ kept : List Nat, kept.Sublist (writers log) ∧
        inTurn held (kept.filterMap (changes[·]?)) = .ok k.held ∧
        ∀ i ∈ writers log, i ∉ kept → ∃ j ∈ kept, Overtakes changes log j i := by
  have accounted := Accounted.follow followed
  obtain ⟨kept, explains⟩ := accounted.kept
  refine ⟨accounted.once, accounted.written, kept, explains.inOrder, explains.ran, ?_⟩
  intro i wrote dropped
  exact (explains.whole i wrote dropped).resolve_left id

/-- Two updates of different fields. -/
def resizing : List Change :=
  [.update fun s => { s with render.width := 640 },
    .update fun s => { s with render.height := 480 }]

theorem follow_accounted_resizing :
    ∃ k, (start {} resizing).follow? [0, 1, 0, 1, 0, 1] = some k ∧
      writers ((start {} resizing).acts [0, 1, 0, 1, 0, 1]) = [0, 1] ∧
      ∃ kept : List Nat, inTurn {} (kept.filterMap (resizing[·]?)) = .ok k.held ∧
        ∀ i ∈ [0, 1], i ∉ kept → ∃ j ∈ kept,
          Overtakes resizing ((start {} resizing).acts [0, 1, 0, 1, 0, 1]) j i := by
  obtain ⟨k, followed⟩ : ∃ k, (start {} resizing).follow? [0, 1, 0, 1, 0, 1] = some k :=
    Option.isSome_iff_exists.mp (by decide +kernel)
  have wrote : writers ((start {} resizing).acts [0, 1, 0, 1, 0, 1]) = [0, 1] := by
    decide +kernel
  obtain ⟨-, -, kept, -, ran, lost⟩ := follow_accounted {} resizing _ k followed
  exact ⟨k, followed, wrote, kept, ran, wrote ▸ lost⟩

/-- Both updates see the settings before either writes, and both succeed. No order of the two gives
the settings in force, and the width that the first one set is lost. -/
theorem not_always_in_turn :
    ∃ k, (start {} resizing).follow? [0, 1, 0, 1, 0, 1] = some k ∧
      (∀ change ∈ k.changes, change.2 matches .done (.ok ())) ∧
      (∀ order : List Nat, order.Perm [0, 1] →
        inTurn {} (order.filterMap (resizing[·]?)) ≠ .ok k.held) ∧
      k.held.render.width = 400 := by
  obtain ⟨k, followed⟩ : ∃ k, (start {} resizing).follow? [0, 1, 0, 1, 0, 1] = some k :=
    Option.isSome_iff_exists.mp (by decide +kernel)
  have width : k.held.render.width = 400 := by
    have width : ((start {} resizing).follow? [0, 1, 0, 1, 0, 1]).map (·.held.render.width) =
        some 400 := by decide +kernel
    simpa [followed] using width
  have succeed : ((start {} resizing).follow? [0, 1, 0, 1, 0, 1]).all fun k =>
      k.changes.all fun change => change.2 matches .done (.ok ()) := by decide +kernel
  refine ⟨k, followed, by simpa [followed] using succeed, ?_, width⟩
  intro order rearranged ran
  have inOrder : ∀ order ∈ [0, 1].permutations',
      (inTurn {} (order.filterMap (resizing[·]?))).toOption.map (·.render.width) = some 640 := by
    decide +kernel
  have ran' := inOrder order (List.mem_permutations'.mpr rearranged)
  simp [ran, Except.toOption, width] at ran'

end Accounts

end FractalBreeder.Keeper
