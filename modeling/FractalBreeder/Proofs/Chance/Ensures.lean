import FractalBreeder.Chance.Source
import Mathlib.Data.List.Forall2

/-!
What holds of the value of a random choice whenever the choice returns, with whatever words.
-/
namespace FractalBreeder

namespace Draws

variable {α β : Type} {post : α → Prop}

def Ensures (choice : Draws α) (post : α → Prop) : Prop :=
  ∀ words a left, choice words = .ok (a, left) → post a

theorem ensures_pure {a : α} (holds : post a) : Ensures (pure a) post := by
  intro words b left returned
  cases returned
  exact holds

theorem ensures_error {halt : Halt} : Ensures (fun _ => .error halt) post := by
  intro words a left returned
  cases returned

theorem Ensures.mono {choice : Draws α} {weak : α → Prop} (strong : Ensures choice post)
    (weaken : ∀ a, post a → weak a) : Ensures choice weak :=
  fun words a left returned => weaken a (strong words a left returned)

theorem Ensures.and {choice : Draws α} {other : α → Prop} (first : Ensures choice post)
    (second : Ensures choice other) : Ensures choice (fun a => post a ∧ other a) :=
  fun words a left returned => ⟨first words a left returned, second words a left returned⟩

theorem ensures_any (choice : Draws α) : Ensures choice (fun _ => True) :=
  fun _ _ _ _ => trivial

theorem bind_eq_ok {choice : Draws α} {next : α → Draws β} {words left : List UInt64} {b : β} :
    (choice >>= next) words = .ok (b, left) ↔
      ∃ a rest, choice words = .ok (a, rest) ∧ next a rest = .ok (b, left) := by
  change (choice words >>= fun result => next result.1 result.2) = _ ↔ _
  cases ran : choice words with
  | error halt =>
      constructor
      · intro returned
        cases returned
      · rintro ⟨a, rest, ran', -⟩
        cases ran'
  | ok result =>
      constructor
      · intro returned
        exact ⟨result.1, result.2, rfl, returned⟩
      · rintro ⟨a, rest, ⟨⟩, returned⟩
        exact returned

theorem Ensures.bind {choice : Draws α} {next : α → Draws β} {goal : β → Prop}
    (first : Ensures choice post) (second : ∀ a, post a → Ensures (next a) goal) :
    Ensures (choice >>= next) goal := by
  intro words b left returned
  obtain ⟨a, rest, ran, returned⟩ := bind_eq_ok.mp returned
  exact second a (first words a rest ran) rest b left returned

theorem Ensures.map {choice : Draws α} {f : α → β} {goal : β → Prop}
    (first : Ensures choice (fun a => goal (f a))) : Ensures (f <$> choice) goal := by
  rw [map_eq_pure_bind]
  exact first.bind fun a holds => ensures_pure holds

theorem ok_of_map {choice : Draws α} {f : α → β} {words left : List UInt64} {b : β}
    (returned : (f <$> choice) words = .ok (b, left)) :
    ∃ a, choice words = .ok (a, left) ∧ f a = b := by
  rw [map_eq_pure_bind] at returned
  obtain ⟨a, rest, ran, returned⟩ := bind_eq_ok.mp returned
  cases returned
  exact ⟨a, ran, rfl⟩

/-- What follows a choice matters only for the values that the choice can have. -/
theorem Ensures.bind_congr {choice : Draws α} {first second : α → Draws β}
    (ensures : Ensures choice post) (same : ∀ a, post a → first a = second a) :
    choice >>= first = choice >>= second := by
  funext words
  change (choice words >>= fun result => first result.1 result.2) =
    (choice words >>= fun result => second result.1 result.2)
  cases ran : choice words with
  | error halt => rfl
  | ok result => exact congrFun (same result.1 (ensures words result.1 result.2 ran)) result.2

theorem ensures_mapM {f : α → Draws β} {related : α → β → Prop} {as : List α}
    (each : ∀ a ∈ as, Ensures (f a) (related a)) :
    Ensures (as.mapM f) (List.Forall₂ related as) := by
  induction as with
  | nil => exact ensures_pure .nil
  | cons a rest ih =>
      rw [List.mapM_cons]
      have tail := ih fun other member => each other (List.mem_cons_of_mem _ member)
      refine (each a List.mem_cons_self).bind fun b head => ?_
      exact tail.bind fun bs others => ensures_pure (.cons head others)

end Draws

theorem Source.draw_map {α β : Type} (f : α → β) (choice : Draws α) (source : Source) :
    source.draw (f <$> choice) = (source.draw choice).map (Prod.map f id) := by
  suffices within : ∀ fuel (source : Source), source.drawWithin (f <$> choice) fuel =
      (source.drawWithin choice fuel).map (Prod.map f id) from within 60 source
  have mapped (words : List UInt64) :
      (f <$> choice) words = (choice words).map (Prod.map f id) := by
    change (choice words >>= fun result => .ok (f result.1, result.2)) = _
    cases choice words <;> rfl
  intro fuel
  induction fuel with
  | zero =>
    intro source
    simp only [drawWithin, mapped]
    rcases choice source.ready with halt | result
    · cases halt <;> rfl
    · rfl
  | succ fuel ih =>
    intro source
    simp only [drawWithin, mapped]
    rcases choice source.ready with halt | result
    · cases halt with
      | starved => exact ih _
      | unusableRange => rfl
    · rfl

end FractalBreeder
