import Mathlib.Data.List.Infix
import FractalBreeder.Heredity.Fractal
import FractalBreeder.Proofs.Chance.Ensures

/-!
What is done for a picture, deed by deed: the lengths of the files that were left, the calls that
failed one after another, the changes, and what these make of a fractal.
-/
namespace FractalBreeder

/-- What is done for a picture: a call that fails, one that leaves a file of so many bytes, and the two
changes of the genome. -/
inductive Deed where
  | failed
  | rendered (size : Nat)
  | mutated
  | rebred
  deriving DecidableEq, Repr

namespace Deed

/-- The lengths of the files left by the successful calls. -/
def sizes (deeds : List Deed) : List Nat :=
  deeds.filterMap fun
    | rendered size => some size
    | _ => none

def changes (deeds : List Deed) : Nat := deeds.count mutated + deeds.count rebred

/-- So many calls failed one after another. -/
def Exhausted (budget : Nat) (deeds : List Deed) : Prop := List.replicate budget failed <:+: deeds

/-- Exactly so many calls failed since something else was done. -/
def Streak (deeds : List Deed) (calls : Nat) : Prop :=
  ∃ before, deeds = before ++ List.replicate calls failed ∧ before.getLast? ≠ some failed

variable {deeds : List Deed} {d : Deed} {budget calls : Nat}

@[simp]
theorem sizes_append (deeds more : List Deed) : sizes (deeds ++ more) = sizes deeds ++ sizes more :=
  List.filterMap_append

@[simp]
theorem sizes_rendered (size : Nat) : sizes [rendered size] = [size] := rfl

@[simp]
theorem sizes_other (other : ∀ size, d ≠ rendered size) : sizes [d] = [] := by
  cases d with
  | rendered size => exact absurd rfl (other size)
  | _ => rfl

theorem changes_append (deeds more : List Deed) :
    changes (deeds ++ more) = changes deeds + changes more := by
  simp only [changes, List.count_append]
  omega

theorem streak_other (deeds : List Deed) (other : d ≠ failed) : Streak (deeds ++ [d]) 0 := by
  refine ⟨deeds ++ [d], by simp, ?_⟩
  rw [List.getLast?_concat]
  exact fun same => other (Option.some.inj same)

theorem Streak.failed (streak : Streak deeds calls) : Streak (deeds ++ [failed]) (calls + 1) := by
  obtain ⟨before, rfl, last⟩ := streak
  refine ⟨before, ?_, last⟩
  rw [List.append_assoc, ← List.replicate_succ']

/-- No more failures stand at the end than the last ones. -/
theorem Streak.le (streak : Streak deeds calls) {j : Nat}
    (ends : List.replicate j Deed.failed <:+ deeds) : j ≤ calls := by
  obtain ⟨before, rfl, last⟩ := streak
  by_contra longer
  obtain ⟨k, rfl⟩ := Nat.exists_eq_add_of_lt (Nat.lt_of_not_le longer)
  apply last
  rw [show calls + k + 1 = k + 1 + calls by omega, List.replicate_add] at ends
  obtain ⟨front, whole⟩ := ends
  rw [← List.append_assoc] at whole
  have same := List.append_cancel_right whole
  rw [← same, List.replicate_succ', ← List.append_assoc, List.getLast?_concat]

theorem Streak.exhausted (streak : Streak deeds budget) : Exhausted budget deeds := by
  obtain ⟨before, rfl, -⟩ := streak
  exact (List.suffix_append _ _).isInfix

/-- A deed exhausts the calls only as the last of so many failures. -/
theorem not_exhausted_append (able : ¬ Exhausted budget deeds) (streak : Streak (deeds ++ [d]) calls)
    (fewer : calls < budget) : ¬ Exhausted budget (deeds ++ [d]) := by
  intro exhausted
  rcases List.infix_concat_iff.mp exhausted with ends | before
  · exact absurd (streak.le ends) (by omega)
  · exact able before

/-! ### Replays -/

/-- A change made again; the calls change nothing. -/
def act (settings : GeneticSettings) (work : Fractal × Source) :
    Deed → Except Halt (Fractal × Source)
  | mutated => work.2.draw (work.1.mutateInPlace settings)
  | rebred => work.2.draw (work.1.redo settings)
  | failed | rendered _ => .ok work

/-- The changes made again one after another, each on what the one before left. -/
def replay (settings : GeneticSettings) (deeds : List Deed) (work : Fractal × Source) :
    Except Halt (Fractal × Source) :=
  deeds.foldlM (act settings) work

theorem replay_append (settings : GeneticSettings) (deeds more : List Deed)
    (work : Fractal × Source) :
    replay settings (deeds ++ more) work = replay settings deeds work >>= replay settings more :=
  List.foldlM_append

theorem replay_singleton (settings : GeneticSettings) (d : Deed) (work : Fractal × Source) :
    replay settings [d] work = act settings work d := by
  simp [replay]

/-- The same fractal but for the state of its picture. -/
structure Alike (f g : Fractal) : Prop where
  id : f.id = g.id
  genome : f.genome = g.genome
  pedigree : f.pedigree = g.pedigree

theorem Alike.trans {f g h : Fractal} (alike : Alike f g) (next : Alike g h) : Alike f h :=
  ⟨alike.id.trans next.id, alike.genome.trans next.genome, alike.pedigree.trans next.pedigree⟩

theorem act_mutated (settings : GeneticSettings) (f : Fractal) (source : Source) :
    act settings (f, source) mutated =
      (source.draw (f.genome.mutate settings)).map (Prod.map f.withGenome id) :=
  Source.draw_map _ _ _

theorem act_rebred (settings : GeneticSettings) (f : Fractal) (source : Source) :
    act settings (f, source) rebred =
      (source.draw (f.rebred settings)).map (Prod.map f.withGenome id) :=
  Source.draw_map _ _ _

theorem Alike.rebred_eq {f g : Fractal} (alike : Alike f g) (settings : GeneticSettings) :
    f.rebred settings = g.rebred settings := by
  rw [Fractal.rebred, Fractal.rebred, alike.pedigree, alike.genome]

end Deed

end FractalBreeder
