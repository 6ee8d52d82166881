import FractalBreeder.Proofs.Chance.Spread

/-!
Choices that are never trapped: from every point, whatever was drawn so far, some more words let
them return. A choice that is followed by others resumes in a stronger sense, which can be composed:
it leaves some of the words at hand and all words behind them.
-/
namespace FractalBreeder.Draws

open Binary64 (value)

variable {α β : Type} {used : Nat}

/-- From every point of the choice some more words let it return. -/
def Escapes (choice : Draws α) : Prop :=
  ∀ words, ∃ more a left, choice (words ++ more) = .ok (a, left)

/-- As before, and the words behind stay; so many of the words at hand are used at least. -/
def Resumes (used : Nat) (choice : Draws α) : Prop :=
  ∀ words, ∃ more a left, left <:+ words.drop used ∧
    ∀ rest, choice (words ++ (more ++ rest)) = .ok (a, left ++ rest)

/-- Some words make the choice return this value, and the words behind stay. -/
def Yields (choice : Draws α) (a : α) : Prop :=
  ∃ first, ∀ rest, choice (first ++ rest) = .ok (a, rest)

theorem Resumes.escapes {choice : Draws α} (resumes : Resumes used choice) : Escapes choice := by
  intro words
  obtain ⟨more, a, left, -, returned⟩ := resumes words
  exact ⟨more, a, left, by simpa using returned []⟩

section Rules

theorem resumes_pure {a : α} : Resumes 0 (pure a) :=
  fun words => ⟨[], a, words, List.suffix_rfl, fun _ => rfl⟩

theorem Resumes.weaken {choice : Draws α} (resumes : Resumes used choice) : Resumes 0 choice := by
  intro words
  obtain ⟨more, a, left, shorter, returned⟩ := resumes words
  exact ⟨more, a, left, shorter.trans (List.drop_suffix used words), returned⟩

theorem Resumes.bind {choice : Draws α} {next : α → Draws β} {post : α → Prop}
    (first : Resumes used choice) (ensures : Ensures choice post)
    (second : ∀ a, post a → Resumes 0 (next a)) : Resumes used (choice >>= next) := by
  intro words
  obtain ⟨more, a, left, shorter, returned⟩ := first words
  have holds : post a := ensures _ a _ (returned [])
  obtain ⟨more', b, left', shorter', returned'⟩ := second a holds left
  refine ⟨more ++ more', b, left', shorter'.trans shorter, fun rest => ?_⟩
  change (choice (words ++ (more ++ more' ++ rest)) >>= fun result => next result.1 result.2) = _
  rw [List.append_assoc, returned]
  exact returned' rest

theorem Resumes.then {choice : Draws α} {next : α → Draws β} (first : Resumes used choice)
    (second : ∀ a, Resumes 0 (next a)) : Resumes used (choice >>= next) :=
  first.bind (ensures_any choice) fun a _ => second a

theorem Resumes.map {choice : Draws α} (resumes : Resumes used choice) (f : α → β) :
    Resumes used (f <$> choice) := by
  rw [map_eq_pure_bind]
  exact resumes.then fun a => resumes_pure

theorem resumes_mapM {f : α → Draws β} {as : List α} (each : ∀ a ∈ as, Resumes 0 (f a)) :
    Resumes 0 (as.mapM f) := by
  induction as with
  | nil => exact resumes_pure
  | cons a rest ih =>
    rw [List.mapM_cons]
    refine (each a List.mem_cons_self).then fun b => ?_
    have tail := ih fun other member => each other (List.mem_cons_of_mem _ member)
    exact tail.then fun bs => resumes_pure

theorem yields_pure {a : α} : Yields (pure a) a := ⟨[], fun _ => rfl⟩

theorem Yields.bind {choice : Draws α} {next : α → Draws β} {a : α} {b : β}
    (first : Yields choice a) (second : Yields (next a) b) : Yields (choice >>= next) b := by
  obtain ⟨words, returned⟩ := first
  obtain ⟨words', returned'⟩ := second
  refine ⟨words ++ words', fun rest => ?_⟩
  change (choice (words ++ words' ++ rest) >>= fun result => next result.1 result.2) = _
  rw [List.append_assoc, returned]
  exact returned' rest

/-- What follows a choice is not trapped after any value that the choice can have. -/
theorem Escapes.after {choice : Draws α} {next : α → Draws β} {a : α}
    (escapes : Escapes (choice >>= next)) (yields : Yields choice a) : Escapes (next a) := by
  intro words
  obtain ⟨first, returned⟩ := yields
  obtain ⟨more, b, left, ran⟩ := escapes (first ++ words)
  refine ⟨more, b, left, ?_⟩
  change (choice (first ++ words ++ more) >>= fun result => next result.1 result.2) = _ at ran
  rw [List.append_assoc, returned] at ran
  exact ran

theorem Resumes.exists_yields {choice : Draws α} (resumes : Resumes used choice) :
    ∃ a, Yields choice a := by
  obtain ⟨more, a, left, shorter, returned⟩ := resumes []
  rw [List.drop_nil] at shorter
  obtain rfl := List.eq_nil_of_suffix_nil shorter
  exact ⟨a, more, returned⟩

theorem Escapes.first {choice : Draws α} {next : α → Draws β}
    (escapes : Escapes (choice >>= next)) : Escapes choice := by
  intro words
  obtain ⟨more, b, left, ran⟩ := escapes words
  change (choice (words ++ more) >>= fun result => next result.1 result.2) = _ at ran
  cases drawn : choice (words ++ more) with
  | error halt =>
    rw [drawn] at ran
    cases ran
  | ok result => exact ⟨more, result.1, result.2, drawn⟩

theorem Escapes.of_map {choice : Draws α} {f : α → β} (escapes : Escapes (f <$> choice)) :
    Escapes choice := by
  rw [map_eq_pure_bind] at escapes
  exact escapes.first

/-- Choices made one after another can only be trapped where one of them is. -/
theorem Escapes.of_mapM {f : α → Draws β} {front back : List α} {a : α}
    (escapes : Escapes ((front ++ a :: back).mapM f)) (yields : ∀ b ∈ front, ∃ c, Yields (f b) c) :
    Escapes (f a) := by
  induction front with
  | nil =>
    rw [List.nil_append, List.mapM_cons] at escapes
    exact escapes.first
  | cons b rest ih =>
    rw [List.cons_append, List.mapM_cons] at escapes
    obtain ⟨c, first⟩ := yields b List.mem_cons_self
    exact ih (escapes.after first).first fun other member =>
      yields other (List.mem_cons_of_mem _ member)

end Rules

section Words

theorem resumes_word : Resumes 1 word := by
  intro words
  cases words with
  | nil => exact ⟨[0], 0, [], List.suffix_rfl, fun _ => rfl⟩
  | cons w rest => exact ⟨[], w, rest, List.suffix_rfl, fun _ => rfl⟩

theorem resumes_unit : Resumes 1 unit := resumes_word.then fun _ => resumes_pure

theorem yields_unit : Yields unit least := ⟨[0], fun _ => rfl⟩

/-- The word zero is in every zone. -/
theorem firstIndex_zero (range : Nat) (rest : List UInt64) :
    firstIndex range (0 :: rest) = .ok (0, rest) := by
  simp [firstIndex]

theorem resumes_index {range : Nat} (positive : 0 < range) : Resumes 1 (index range) := by
  rw [index, if_neg positive.ne']
  intro words
  induction words with
  | nil => exact ⟨[0], 0, [], List.suffix_rfl, fun rest => firstIndex_zero range rest⟩
  | cons w rest ih =>
    by_cases inZone : w.toNat * range % UInt64.size ≤ zone range
    · exact ⟨[], _, rest, List.suffix_rfl, fun behind => if_pos inZone⟩
    · obtain ⟨more, i, left, shorter, returned⟩ := ih
      refine ⟨more, i, left, shorter.trans (List.drop_suffix 1 rest), fun behind => ?_⟩
      exact (if_neg inZone).trans (returned behind)

theorem yields_index_zero {range : Nat} (positive : 0 < range) : Yields (index range) 0 := by
  rw [index, if_neg positive.ne']
  exact ⟨[0], firstIndex_zero range⟩

theorem resumes_pick (first : α) (others : List α) : Resumes 1 (pick first others) :=
  (resumes_index (Nat.succ_pos _)).then fun _ => resumes_pure

theorem yields_pick (first : α) (others : List α) : Yields (pick first others) first :=
  (yields_index_zero (Nat.succ_pos _)).bind yields_pure

section Between

variable {low high : Float}

theorem resumes_between (isUsable : usable low high = true) : Resumes 1 (between low high) := by
  obtain ⟨x, -, -, ended⟩ := between_zero isUsable
  rw [between, if_pos isUsable] at ended ⊢
  intro words
  induction words with
  | nil => exact ⟨[0], x, [], List.suffix_rfl, ended⟩
  | cons w rest ih =>
    by_cases below : drawn low high w < high
    · exact ⟨[], _, rest, List.suffix_rfl, fun behind => if_pos below⟩
    · obtain ⟨more, x, left, shorter, returned⟩ := ih
      refine ⟨more, x, left, shorter.trans (List.drop_suffix 1 rest), fun behind => ?_⟩
      exact (if_neg below).trans (returned behind)

theorem yields_drawn (isUsable : usable low high = true) {w : UInt64}
    (below : drawn low high w < high) : Yields (between low high) (drawn low high w) := by
  rw [between, if_pos isUsable]
  exact ⟨[w], fun _ => if_pos below⟩

theorem drawn_zero (isUsable : usable low high = true) :
    value (drawn low high 0) = value low ∧ drawn low high 0 < high := by
  obtain ⟨x, -, same, ended⟩ := between_zero isUsable
  rw [between, if_pos isUsable] at ended
  have returned := ended []
  by_cases below : drawn low high 0 < high
  · have first : firstBetween low high [0] = .ok (drawn low high 0, []) := if_pos below
    rw [first] at returned
    cases returned
    exact ⟨same, below⟩
  · have passed : firstBetween low high [0] = .error .starved := if_neg below
    rw [passed] at returned
    cases returned

/-- Every word draws a number from the range or is passed over. -/
theorem exists_drawn {x : Float} {words left : List UInt64}
    (returned : between low high words = .ok (x, left)) :
    usable low high = true ∧ ∃ w, drawn low high w < high ∧ x = drawn low high w := by
  unfold between at returned
  split_ifs at returned with isUsable
  refine ⟨isUsable, ?_⟩
  induction words with
  | nil => cases returned
  | cons w rest ih =>
    by_cases below : drawn low high w < high
    · have first : firstBetween low high (w :: rest) = .ok (drawn low high w, rest) := if_pos below
      rw [first] at returned
      cases returned
      exact ⟨w, below, rfl⟩
    · have others : firstBetween low high (w :: rest) = firstBetween low high rest := if_neg below
      exact ih (others ▸ returned)

theorem Escapes.between_usable (escapes : Escapes (between low high)) :
    Draws.usable low high = true := by
  obtain ⟨more, x, left, returned⟩ := escapes []
  exact (exists_drawn returned).1

end Between

end Words

end FractalBreeder.Draws
