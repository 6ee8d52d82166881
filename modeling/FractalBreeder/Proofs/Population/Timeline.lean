import FractalBreeder.Proofs.Population.Breeding
import Mathlib.Algebra.Group.Nat.Defs
import Mathlib.Data.List.GetD

/-!
A population is a list of generations with a cursor. The two stacks, the number of the generation on
show and the numbers kept in the stacks are what the list and the cursor give.
-/
namespace FractalBreeder

open Draws (Ensures ensures_pure ensures_any)

namespace Population

/-- What is asked of a population. -/
inductive Action where
  | breed (settings : GeneticSettings)
  | back
  | forward
  | select (picks : Picks)
  | toggle (slot : Nat)
  /-- Changes a fractal on show in place, as moving its constants or breeding it again does. -/
  | edit (slot : Nat) (change : Fractal → Draws Fractal)

namespace Action

end Action

/-- The population afterwards, and whether there was a generation to move to. -/
def perform (p : Population) : Action → Draws (Population × Bool)
  | .breed settings => do pure (← p.breed settings, true)
  | .back => pure (match p.back? with | some q => (q, true) | none => (p, false))
  | .forward => pure (match p.forward? with | some q => (q, true) | none => (p, false))
  | .select picks => pure ({ p with picks }, true)
  | .toggle slot => pure ({ p with picks := p.picks.toggle slot }, true)
  | .edit slot change => do pure (← p.edit slot change, true)

def run (p : Population) : List Action → Draws (Population × List Bool)
  | [] => pure (p, [])
  | action :: rest => do
    let (p, answer) ← p.perform action
    let (p, answers) ← p.run rest
    pure (p, answer :: answers)

/-- A change in place is one of the two that there are. -/
def Action.IsOwn : Action → Prop
  | .edit _ change => ∃ settings, change = Fractal.mutateInPlace settings ∨
      change = Fractal.redo settings
  | _ => True

/-- A population that some actions lead to, whatever is drawn for them. -/
inductive Reachable : Population → Prop where
  | empty : Reachable {}
  | perform {p q : Population} {action : Action} {words left : List UInt64} {answer : Bool}
    (reachable : Reachable p) (performed : p.perform action words = .ok ((q, answer), left))
    (own : action.IsOwn) : Reachable q

theorem Reachable.select {p : Population} (reachable : p.Reachable) (picks : Picks) :
    Population.Reachable { p with picks } :=
  reachable.perform (rfl : p.perform (.select picks) [] = .ok ((_, true), [])) trivial

theorem perform_breed {p : Population} {settings : GeneticSettings} {words left : List UInt64}
    {children : List Fractal} (bred : Litter.breed settings p.picked words = .ok (children, left)) :
    p.perform (.breed settings) words = .ok ((p.advance children, true), left) := by
  change (Litter.breed settings p.picked words >>= fun result => _) >>= (fun result => _) = _
  rw [bred]
  rfl

theorem perform_edit {p : Population} {slot : Nat} {f g : Fractal} {change : Fractal → Draws Fractal}
    {words left : List UInt64} (found : p.current[slot]? = some f)
    (changed : change f words = .ok (g, left)) :
    p.perform (.edit slot change) words =
      .ok (({ p with current := p.current.set slot g }, true), left) := by
  simp only [perform, edit, found]
  change ((change f words >>= fun result => _) >>= fun result => _) = _
  rw [changed]
  rfl

end Population

/-- All generations in the order of their breeding, and how many of them lie up to the cursor. -/
structure Timeline where
  generations : List (List Fractal) := []
  cursor : Nat := 0
  picks : Picks := .none

namespace Timeline

open Population (Action)

/-- The generation at the cursor. -/
def shown (t : Timeline) : List Fractal := t.generations.getD (t.cursor - 1) []

def picked (t : Timeline) : List Fractal := t.picks.slots.filterMap (t.shown[·]?)

def perform (t : Timeline) : Action → Draws (Timeline × Bool)
  | .breed settings => do
    let children ← Litter.breed settings t.picked
    pure (⟨t.generations.take t.cursor ++ [children], t.cursor + 1, .none⟩, true)
  | .back =>
    pure (if t.cursor ≤ 1 then (t, false) else (⟨t.generations, t.cursor - 1, .none⟩, true))
  | .forward =>
    pure (if t.generations.length ≤ t.cursor then (t, false)
      else (⟨t.generations, t.cursor + 1, .none⟩, true))
  | .select picks => pure ({ t with picks }, true)
  | .toggle slot => pure ({ t with picks := t.picks.toggle slot }, true)
  | .edit slot change =>
    match t.shown[slot]? with
    | some f => do
      let f ← change f
      pure ({ t with generations := t.generations.set (t.cursor - 1) (t.shown.set slot f) }, true)
    | none => pure (t, true)

def run (t : Timeline) : List Action → Draws (Timeline × List Bool)
  | [] => pure (t, [])
  | action :: rest => do
    let (t, answer) ← t.perform action
    let (t, answers) ← t.run rest
    pure (t, answer :: answers)

/-- The generations with their positions, counted from 1. -/
def numbered (generations : List (List Fractal)) : List (Generation Fractal) :=
  generations.mapIdx fun i members => ⟨UInt32.ofNat (i + 1), members⟩

/-- The generation at a position with its number. -/
def entry (generations : List (List Fractal)) (c : Nat) : Generation Fractal :=
  ⟨UInt32.ofNat (c + 1), generations.getD c []⟩

/-- The population that shows the generation at the cursor. -/
def population (t : Timeline) : Population where
  number := UInt32.ofNat t.cursor
  current := t.shown
  picks := t.picks
  past := ((numbered t.generations).take (t.cursor - 1)).reverse
  future := (numbered t.generations).drop t.cursor

/-- The cursor is at a generation unless there is none, and no generation is empty. -/
structure Valid (t : Timeline) : Prop where
  inside : t.cursor ≤ t.generations.length
  started : t.cursor = 0 → t.generations = []
  inhabited : ∀ members ∈ t.generations, members ≠ []

variable {generations : List (List Fractal)} {c : Nat}

theorem length_numbered (generations : List (List Fractal)) :
    (numbered generations).length = generations.length :=
  List.length_mapIdx

theorem numbered_at (inside : c < generations.length) :
    (numbered generations)[c]? = some (entry generations c) := by
  simp [numbered, entry, inside]

/-- The generations up to a position, with the one at the position on top. -/
theorem reverse_take_numbered (inside : c < generations.length) :
    ((numbered generations).take (c + 1)).reverse =
      entry generations c :: ((numbered generations).take c).reverse := by
  rw [List.take_add_one, numbered_at inside, Option.toList_some, List.reverse_append]
  rfl

theorem drop_numbered (inside : c < generations.length) :
    (numbered generations).drop c =
      entry generations c :: (numbered generations).drop (c + 1) := by
  have bound : c < (numbered generations).length := by rwa [length_numbered]
  have found := numbered_at inside
  rw [List.getElem?_eq_getElem bound, Option.some.injEq] at found
  rw [List.drop_eq_getElem_cons bound, found]

theorem back_population (picks : Picks) (inside : c + 2 ≤ generations.length) :
    (population ⟨generations, c + 2, picks⟩).back? =
      some (population ⟨generations, c + 1, .none⟩) := by
  have before : c < generations.length := by omega
  have past : (population ⟨generations, c + 2, picks⟩).past =
      entry generations c :: ((numbered generations).take c).reverse :=
    reverse_take_numbered before
  have future : (numbered generations).drop (c + 1) =
      entry generations (c + 1) :: (numbered generations).drop (c + 2) :=
    drop_numbered inside
  unfold History.back?
  rw [past]
  apply congrArg some
  unfold population
  rw [future]
  rfl

theorem forward_population (picks : Picks) (inside : c + 2 ≤ generations.length) :
    (population ⟨generations, c + 1, picks⟩).forward? =
      some (population ⟨generations, c + 2, .none⟩) := by
  have before : c < generations.length := by omega
  have past : ((numbered generations).take (c + 1)).reverse =
      entry generations c :: ((numbered generations).take c).reverse :=
    reverse_take_numbered before
  have future : (population ⟨generations, c + 1, picks⟩).future =
      entry generations (c + 1) :: (numbered generations).drop (c + 2) :=
    drop_numbered inside
  unfold History.forward?
  rw [future]
  apply congrArg some
  unfold population
  rw [show c + 2 - 1 = c + 1 from rfl, past]
  rfl

theorem numbered_concat (cut : c ≤ generations.length) (children : List Fractal) :
    numbered (generations.take c ++ [children]) =
      (numbered generations).take c ++ [⟨UInt32.ofNat (c + 1), children⟩] := by
  have counted : (generations.take c).length = c := List.length_take_of_le cut
  have front : (numbered generations).take c = numbered (generations.take c) := by
    rw [← List.take_append_drop c generations, numbered, List.mapIdx_append,
      List.take_append_drop, List.take_left' (by rw [List.length_mapIdx, counted])]
    rfl
  unfold numbered at front ⊢
  rw [front, List.mapIdx_concat, counted]

/-- The stack of a population that shows something has it below the generation bred from it. -/
theorem stacked {t : Timeline} (valid : Valid t) :
    (if t.shown.isEmpty then t.population.past
      else ⟨UInt32.ofNat t.cursor, t.shown⟩ :: t.population.past) =
      ((numbered t.generations).take t.cursor).reverse := by
  rcases t with ⟨generations, cursor, picks⟩
  cases cursor with
  | zero =>
      obtain rfl : generations = [] := valid.started rfl
      rfl
  | succ c =>
      have inside : c < generations.length := valid.inside
      have shown : shown ⟨generations, c + 1, picks⟩ = generations[c] :=
        List.getD_eq_getElem generations [] inside
      have inhabited : (generations[c]).isEmpty = false :=
        List.isEmpty_eq_false_iff.mpr (valid.inhabited _ (List.getElem_mem inside))
      rw [reverse_take_numbered inside, entry, shown, inhabited,
        List.getD_eq_getElem generations [] inside]
      rfl

theorem advance_population {t : Timeline} (valid : Valid t) (children : List Fractal) :
    t.population.advance children =
      population ⟨t.generations.take t.cursor ++ [children], t.cursor + 1, .none⟩ := by
  have past := stacked valid
  rcases t with ⟨generations, cursor, picks⟩
  have inside : cursor ≤ generations.length := valid.inside
  have counted : (generations.take cursor).length = cursor := List.length_take_of_le inside
  have whole : ((numbered generations).take cursor).length = cursor :=
    List.length_take_of_le (by rwa [length_numbered])
  have next : UInt32.ofNat cursor + 1 = UInt32.ofNat (cursor + 1) :=
    (UInt32.ofNat_add cursor 1).symm
  have current : (generations.take cursor ++ [children]).getD cursor [] = children := by
    rw [List.getD_eq_getElem?_getD, List.getElem?_append_right (Nat.le_of_eq counted), counted,
      Nat.sub_self]
    rfl
  have nothing : (numbered (generations.take cursor ++ [children])).drop (cursor + 1) = [] := by
    apply List.drop_eq_nil_of_le
    apply Nat.le_of_eq
    rw [length_numbered, List.length_append, counted, List.length_singleton]
  change (⟨UInt32.ofNat cursor + 1, children, .none, _, []⟩ : Population) =
    ⟨UInt32.ofNat (cursor + 1), (generations.take cursor ++ [children]).getD cursor [], .none,
      ((numbered (generations.take cursor ++ [children])).take cursor).reverse,
      (numbered (generations.take cursor ++ [children])).drop (cursor + 1)⟩
  rw [next, current, nothing, numbered_concat inside, List.take_left' whole, ← past]
  rfl

theorem set_population (picks : Picks) (inside : c < generations.length) (members : List Fractal) :
    { population ⟨generations, c + 1, picks⟩ with current := members } =
      population ⟨generations.set c members, c + 1, picks⟩ := by
  have current : (generations.set c members).getD c [] = members := by
    rw [List.getD_eq_getElem?_getD, List.getElem?_set_self inside]
    rfl
  have numbers : numbered (generations.set c members) =
      (numbered generations).set c ⟨UInt32.ofNat (c + 1), members⟩ :=
    List.mapIdx_set
  change (⟨UInt32.ofNat (c + 1), members, picks, _, _⟩ : Population) =
    ⟨UInt32.ofNat (c + 1), (generations.set c members).getD c [], picks,
      ((numbered (generations.set c members)).take c).reverse,
      (numbered (generations.set c members)).drop (c + 1)⟩
  rw [current, numbers, List.take_set_of_le (Nat.le_refl c),
    List.drop_set_of_lt (Nat.lt_succ_self c)]
  rfl

/-- The population goes with the timeline: it answers alike and shows the timeline afterwards. -/
def Follows (t : Timeline) (action : Action) : Prop :=
  t.population.perform action =
    (fun result => (result.1.population, result.2)) <$> t.perform action

theorem follows_back {t : Timeline} (valid : Valid t) : Follows t .back := by
  rcases t with ⟨generations, cursor, picks⟩
  have inside : cursor ≤ generations.length := valid.inside
  unfold Follows Population.perform perform
  rw [map_pure]
  apply congrArg pure
  match cursor with
  | 0 => rfl
  | 1 => rfl
  | c + 2 =>
      rw [back_population picks inside, if_neg (show ¬ c + 2 ≤ 1 by omega)]
      rfl

theorem follows_forward {t : Timeline} (valid : Valid t) : Follows t .forward := by
  rcases t with ⟨generations, cursor, picks⟩
  have started : cursor = 0 → generations = [] := valid.started
  unfold Follows Population.perform perform
  rw [map_pure]
  apply congrArg pure
  by_cases last : generations.length ≤ cursor
  · have atEnd : (population ⟨generations, cursor, picks⟩).forward? = none := by
      have empty : (population ⟨generations, cursor, picks⟩).future = [] :=
        List.drop_eq_nil_of_le (by rwa [length_numbered])
      unfold History.forward?
      rw [empty]
    rw [atEnd, if_pos last]
  · rw [if_neg last]
    cases cursor with
    | zero => exact absurd (started rfl ▸ Nat.le_refl 0) last
    | succ c => rw [forward_population picks (by omega)]

theorem follows_breed {t : Timeline} (valid : Valid t) (settings : GeneticSettings) :
    Follows t (.breed settings) := by
  have picked : History.picked t.population = t.picked := rfl
  unfold Follows Population.perform perform Population.breed
  rw [picked]
  simp only [bind_assoc, pure_bind, map_bind, map_pure]
  apply bind_congr
  intro children
  rw [advance_population valid]

theorem follows_edit {t : Timeline} (valid : Valid t) (slot : Nat)
    (change : Fractal → Draws Fractal) : Follows t (.edit slot change) := by
  rcases t with ⟨generations, cursor, picks⟩
  have current : (population ⟨generations, cursor, picks⟩).current =
      shown ⟨generations, cursor, picks⟩ := rfl
  unfold Follows Population.perform perform Population.edit
  simp only [current]
  cases found : (shown ⟨generations, cursor, picks⟩)[slot]? with
  | none => simp only [pure_bind, map_pure]
  | some f =>
      simp only [bind_assoc, pure_bind, map_bind, map_pure]
      apply bind_congr
      intro g
      cases cursor with
      | zero =>
          obtain rfl : generations = [] := valid.started rfl
          cases found
      | succ c =>
          have inside : c < generations.length := valid.inside
          rw [set_population picks inside]
          rfl

theorem follows {t : Timeline} (valid : Valid t) (action : Action) : Follows t action := by
  cases action with
  | breed settings => exact follows_breed valid settings
  | back => exact follows_back valid
  | forward => exact follows_forward valid
  | select picks => rfl
  | toggle slot => rfl
  | edit slot change => exact follows_edit valid slot change

/-- The action neither changes the generation at a position nor drops it. -/
def Spares (t : Timeline) (i : Nat) : Action → Prop
  | .breed _ => i < t.cursor
  | .edit .. => t.cursor - 1 ≠ i
  | _ => True

end Timeline

namespace Population

end Population

end FractalBreeder
