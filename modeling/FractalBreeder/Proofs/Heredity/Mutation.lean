import FractalBreeder.Proofs.Expr.Addressing
import FractalBreeder.Proofs.Heredity.Resumption
import FractalBreeder.Proofs.Heredity.Signatures

/-!
Mutation moves constants and nothing else. It goes through the labels of the tree in preorder and
draws at the constants only: once to decide, and once more for the shift of a constant that moves. A
genome is mutated formula by formula in the order of the axes, with what is left of the words.
-/
namespace FractalBreeder

namespace Draws

variable {α β : Type}

/-- A list is passed through choices made one after another, each from the words that the one before
left. -/
inductive Threads (chooses : α → List UInt64 → β → List UInt64 → Prop) :
    List α → List UInt64 → List β → List UInt64 → Prop where
  | nil (words : List UInt64) : Threads chooses [] words [] words
  | cons {a : α} {b : β} {as : List α} {bs : List β} {words rest left : List UInt64}
      (first : chooses a words b rest) (behind : Threads chooses as rest bs left) :
      Threads chooses (a :: as) words (b :: bs) left

theorem bind_eq_error {choice : Draws α} {next : α → Draws β} {words : List UInt64} {halt : Halt} :
    (choice >>= next) words = .error halt ↔
      choice words = .error halt ∨ ∃ a rest, choice words = .ok (a, rest) ∧ next a rest = .error halt := by
  change (choice words >>= fun result => next result.1 result.2) = _ ↔ _
  cases ran : choice words with
  | error other => simp [bind, Except.bind]
  | ok result =>
    obtain ⟨a, rest⟩ := result
    simp [bind, Except.bind]

theorem map_eq_ok {choice : Draws α} {f : α → β} {words left : List UInt64} {b : β} :
    (f <$> choice) words = .ok (b, left) ↔ ∃ a, choice words = .ok (a, left) ∧ f a = b := by
  constructor
  · exact ok_of_map
  · rintro ⟨a, ran, rfl⟩
    rw [map_eq_pure_bind, bind_eq_ok]
    exact ⟨a, left, ran, rfl⟩

/-- A result that can be told from its image is one exactly when its image is. -/
theorem map_eq_ok_of_injective {choice : Draws α} {f : α → β} (injective : Function.Injective f)
    {words left : List UInt64} {a : α} :
    (f <$> choice) words = .ok (f a, left) ↔ choice words = .ok (a, left) := by
  rw [map_eq_ok]
  constructor
  · rintro ⟨a', ran, same⟩
    rwa [injective same] at ran
  · intro ran
    exact ⟨a, ran, rfl⟩

theorem map_eq_error {choice : Draws α} {f : α → β} {words : List UInt64} {halt : Halt} :
    (f <$> choice) words = .error halt ↔ choice words = .error halt := by
  rw [map_eq_pure_bind, bind_eq_error]
  constructor
  · rintro (halted | ⟨a, rest, -, ended⟩)
    · exact halted
    · cases ended
  · exact .inl

theorem mapM_eq_ok {f : α → Draws β} {as : List α} {bs : List β} {words left : List UInt64} :
    as.mapM f words = .ok (bs, left) ↔
      Threads (fun a words b left => f a words = .ok (b, left)) as words bs left := by
  induction as generalizing bs words with
  | nil =>
    constructor
    · rintro ⟨⟩
      exact .nil _
    · rintro ⟨⟩
      rfl
  | cons a as ih =>
    rw [List.mapM_cons, bind_eq_ok]
    constructor
    · rintro ⟨b, rest, first, others⟩
      obtain ⟨bs', rest', behind, ended⟩ := bind_eq_ok.mp others
      cases ended
      exact .cons first (ih.mp behind)
    · rintro (_ | ⟨first, behind⟩)
      exact ⟨_, _, first, bind_eq_ok.mpr ⟨_, _, ih.mpr behind, rfl⟩⟩

/-- The choices end with the first that cannot be made. -/
theorem mapM_eq_error {f : α → Draws β} {as : List α} {words : List UInt64} {halt : Halt} :
    as.mapM f words = .error halt ↔ ∃ front a behind bs rest, as = front ++ a :: behind ∧
      Threads (fun a words b left => f a words = .ok (b, left)) front words bs rest ∧
        f a rest = .error halt := by
  induction as generalizing words with
  | nil =>
    constructor
    · rintro ⟨⟩
    · rintro ⟨front, a, behind, bs, rest, split, -⟩
      simp at split
  | cons a as ih =>
    rw [List.mapM_cons, bind_eq_error]
    constructor
    · rintro (halted | ⟨b, rest, first, others⟩)
      · exact ⟨[], a, as, [], words, rfl, .nil words, halted⟩
      · rcases bind_eq_error.mp others with halted | ⟨bs, left, -, ended⟩
        · obtain ⟨front, c, behind, bs, left, rfl, threads, halted⟩ := ih.mp halted
          exact ⟨a :: front, c, behind, b :: bs, left, rfl, .cons first threads, halted⟩
        · cases ended
    · rintro ⟨front, c, behind, bs, left, split, threads, halted⟩
      cases threads with
      | nil =>
        obtain ⟨rfl, rfl⟩ := List.cons_eq_cons.mp split
        exact .inl halted
      | @cons _ b front bs _ rest _ first threads =>
        obtain ⟨rfl, rfl⟩ := List.cons_eq_cons.mp split
        exact .inr ⟨b, rest, first, bind_eq_error.mpr
          (.inl (ih.mpr ⟨front, c, behind, bs, left, rfl, threads, halted⟩))⟩

theorem Threads.congr {chooses chooses' : α → List UInt64 → β → List UInt64 → Prop}
    (same : ∀ a words b left, chooses a words b left ↔ chooses' a words b left) {as : List α}
    {bs : List β} {words left : List UInt64} :
    Threads chooses as words bs left ↔ Threads chooses' as words bs left := by
  rw [show chooses = chooses' by funext a words b left; exact propext (same a words b left)]

/-- A number drawn from a range is not below its lower end and below its upper one. -/
theorem inside_of_between {low high x : Float} {words left : List UInt64}
    (drawn : between low high words = .ok (x, left)) : low ≤ x ∧ x < high := by
  unfold between at drawn
  split_ifs at drawn with isUsable
  obtain ⟨-, -, finiteLow, finiteHigh⟩ := isFinite_of_usable isUsable
  obtain ⟨finite, above, below⟩ := firstBetween_bounds isUsable drawn
  constructor
  · rw [Binary64.le_iff_rank (Binary64.isNaN_of_isFinite finiteLow) (Binary64.isNaN_of_isFinite finite)]
    exact (Binary64.value_le_iff finiteLow finite).mp above
  · exact (Binary64.value_lt_iff finite finiteHigh).mp below

end Draws

namespace Expr

open Draws (Threads)

section

variable {m : Type → Type} [Monad m] [LawfulMonad m] (f : Number → m Number)

/-- What a visit of the constants does to the label of one node. -/
def Label.onConstant : Label → m Label
  | .const value => .const <$> f value
  | label => pure label

/-- The constants are visited in the order of the labels, and the other labels stay. -/
theorem labels_traverseConstants (e : Expr) :
    labels <$> e.traverseConstants f = e.labels.mapM (Label.onConstant f) := by
  induction e with
  | const value => simp [labels, Label.onConstant]
  | var v => simp [labels, Label.onConstant]
  | unary op a ih => simp [labels, Label.onConstant, ← ih]
  | binary op a b iha ihb => simp [labels, Label.onConstant, ← iha, ← ihb]
  | ternary op a b c iha ihb ihc => simp [labels, Label.onConstant, ← iha, ← ihb, ← ihc]

end

end Expr

namespace Formula

open Draws (Threads)
open FractalBreeder.Expr (Label)

/-- What a mutation makes of the label of one node, with the words before and behind. -/
inductive Stirs (settings : GeneticSettings) : Label → List UInt64 → Label → List UInt64 → Prop where
  /-- Variables and operators stay, and nothing is drawn. -/
  | other {label : Label} (fixed : ∀ value, label ≠ .const value) (words : List UInt64) :
      Stirs settings label words label words
  | kept {value : Number} {chance : Float} {words left : List UInt64}
      (drawn : Draws.unit words = .ok (chance, left)) (above : ¬ chance < settings.mutateChance) :
      Stirs settings (.const value) words (.const value) left
  | moved {value : Number} {chance delta : Float} {words rest left : List UInt64}
      (drawn : Draws.unit words = .ok (chance, rest)) (below : chance < settings.mutateChance)
      (shift : Draws.between (-settings.mutateRange) settings.mutateRange rest = .ok (delta, left))
      (inside : -settings.mutateRange ≤ delta ∧ delta < settings.mutateRange) :
      Stirs settings (.const value) words
        (.const ((value.add delta).remainder settings.mutateFold)) left

/-- A draw for a constant cannot be made. -/
inductive Halts (settings : GeneticSettings) : Label → List UInt64 → Halt → Prop where
  | undecided {value : Number} {words : List UInt64} {halt : Halt}
      (drawn : Draws.unit words = .error halt) : Halts settings (.const value) words halt
  | unshifted {value : Number} {chance : Float} {words rest : List UInt64} {halt : Halt}
      (drawn : Draws.unit words = .ok (chance, rest)) (below : chance < settings.mutateChance)
      (shift : Draws.between (-settings.mutateRange) settings.mutateRange rest = .error halt) :
      Halts settings (.const value) words halt

variable {settings : GeneticSettings} {label : Label} {words left : List UInt64} {halt : Halt}

theorem stirs_iff {label' : Label} :
    Label.onConstant (mutateConstant settings) label words = .ok (label', left) ↔
      Stirs settings label words label' left := by
  constructor
  · intro made
    cases label with
    | const value =>
      obtain ⟨result, ran, rfl⟩ := Draws.map_eq_ok.mp made
      obtain ⟨chance, rest, drawn, decided⟩ := Draws.bind_eq_ok.mp ran
      split_ifs at decided with below
      · obtain ⟨delta, rest', shift, ended⟩ := Draws.bind_eq_ok.mp decided
        cases ended
        exact .moved drawn below shift (Draws.inside_of_between shift)
      · cases decided
        exact .kept drawn below
    | _ =>
      cases made
      exact .other (fun value same => by cases same) _
  · intro stirs
    cases stirs with
    | other fixed =>
      cases label with
      | const value => exact absurd rfl (fixed value)
      | _ => rfl
    | @kept value chance _ _ drawn above =>
      refine Draws.map_eq_ok.mpr ⟨value, Draws.bind_eq_ok.mpr ⟨chance, left, drawn, ?_⟩, rfl⟩
      rw [if_neg above]
      rfl
    | @moved value chance delta _ rest _ drawn below shift =>
      refine Draws.map_eq_ok.mpr ⟨_, Draws.bind_eq_ok.mpr ⟨chance, rest, drawn, ?_⟩, rfl⟩
      rw [if_pos below]
      exact Draws.bind_eq_ok.mpr ⟨delta, left, shift, rfl⟩

theorem halts_iff :
    Label.onConstant (mutateConstant settings) label words = .error halt ↔
      Halts settings label words halt := by
  constructor
  · intro ended
    cases label with
    | const value =>
      rcases Draws.bind_eq_error.mp (Draws.map_eq_error.mp ended) with
        drawn | ⟨chance, rest, drawn, ended⟩
      · exact .undecided drawn
      · split_ifs at ended with below
        · rcases Draws.bind_eq_error.mp ended with shift | ⟨delta, rest', -, ended⟩
          · exact .unshifted drawn below shift
          · cases ended
        · cases ended
    | _ => cases ended
  · intro halts
    cases halts with
    | undecided drawn => exact Draws.map_eq_error.mpr (Draws.bind_eq_error.mpr (.inl drawn))
    | @unshifted value chance _ rest _ drawn below shift =>
      refine Draws.map_eq_error.mpr (Draws.bind_eq_error.mpr (.inr ⟨chance, rest, drawn, ?_⟩))
      rw [if_pos below]
      exact Draws.bind_eq_error.mpr (.inl shift)

variable {f : Formula}

theorem mutate_eq_ok {g : Formula} : f.mutate settings words = .ok (g, left) ↔
    Threads (Stirs settings) f.root.labels words g.root.labels left ∧ g.text = g.root.text := by
  have tree (root : Expr) : f.root.traverseConstants (mutateConstant settings) words =
      .ok (root, left) ↔ Threads (Stirs settings) f.root.labels words root.labels left := by
    rw [← Draws.map_eq_ok_of_injective fun _ _ => Expr.labels_injective,
      Expr.labels_traverseConstants, Draws.mapM_eq_ok]
    exact Threads.congr fun _ _ _ _ => stirs_iff
  rw [mutate, Draws.map_eq_ok]
  constructor
  · rintro ⟨root, made, rfl⟩
    exact ⟨(tree root).mp made, rfl⟩
  · rintro ⟨threads, text⟩
    refine ⟨g.root, (tree g.root).mpr threads, ?_⟩
    rw [ofExpr, ← text]

theorem mutate_eq_error : f.mutate settings words = .error halt ↔
    ∃ front label behind front' rest, f.root.labels = front ++ label :: behind ∧
      Threads (Stirs settings) front words front' rest ∧ Halts settings label rest halt := by
  rw [mutate, Draws.map_eq_error, ← Draws.map_eq_error (f := Expr.labels),
    Expr.labels_traverseConstants, Draws.mapM_eq_error]
  simp only [Threads.congr fun _ _ _ _ => stirs_iff, halts_iff]

end Formula

namespace Genome

open Draws (Threads)

section

variable {m : Type → Type} [Monad m] [LawfulMonad m] (f : Axis → Formula → m Formula)

/-- What a genome has on one axis. -/
def entry (axis : Axis) (formula : Option Formula) : List (Axis × Formula) :=
  formula.toList.map (axis, ·)

theorem entries_eq (genome : Genome) : genome.entries =
    entry .x genome.x ++ (entry .y genome.y ++ (entry .z genome.z ++ (entry .r genome.r ++
      (entry .g genome.g ++ entry .b genome.b)))) := by
  have cut (axis : Axis) (axes : List Axis) :
      ((axis :: axes).filterMap fun axis => (genome.get? axis).map (axis, ·)) =
        entry axis (genome.get? axis) ++
          axes.filterMap fun axis => (genome.get? axis).map (axis, ·) := by
    cases present : genome.get? axis <;> simp [present, entry]
  simp only [entries, Axis.all, cut, List.filterMap_nil, List.append_nil]
  rfl

theorem entry_traverseAxis (axis : Axis) (formula : Option Formula) :
    entry axis <$> traverseAxis (f axis) formula =
      (entry axis formula).mapM fun entry => (entry.1, ·) <$> f entry.1 entry.2 := by
  cases formula with
  | none => simp [entry, traverseAxis]
  | some formula => simp [entry, traverseAxis]

/-- The formulas are passed through in the order of their axes, and the axes stay. -/
theorem entries_traverse (genome : Genome) :
    entries <$> genome.traverse f =
      genome.entries.mapM fun entry => (entry.1, ·) <$> f entry.1 entry.2 := by
  simp only [entries_eq, List.mapM_append, ← entry_traverseAxis, traverse, map_bind, map_pure,
    bind_assoc, pure_bind, bind_map_left]

end

theorem entries_injective {g h : Genome} (same : g.entries = h.entries) : g = h := by
  have each (axis : Axis) : g.get? axis = h.get? axis := by
    apply Option.ext
    intro f
    rw [← mem_entries, ← mem_entries, same]
  obtain ⟨x, y, z, r, g, b⟩ := g
  obtain ⟨x', y', z', r', g', b'⟩ := h
  rw [mk.injEq]
  exact ⟨each .x, each .y, each .z, each .r, each .g, each .b⟩

variable {settings : GeneticSettings} {genome : Genome} {words left : List UInt64} {halt : Halt}

/-- The formula of an axis is mutated, and its axis stays. -/
def Mutates (settings : GeneticSettings) (entry : Axis × Formula) (words : List UInt64)
    (entry' : Axis × Formula) (left : List UInt64) : Prop :=
  entry'.1 = entry.1 ∧ entry.2.mutate settings words = .ok (entry'.2, left)

theorem mutates_iff {entry entry' : Axis × Formula} :
    ((entry.1, ·) <$> entry.2.mutate settings : Draws (Axis × Formula)) words = .ok (entry', left) ↔
      Mutates settings entry words entry' left := by
  rw [Draws.map_eq_ok]
  constructor
  · rintro ⟨f, made, rfl⟩
    exact ⟨rfl, made⟩
  · rintro ⟨axis, made⟩
    exact ⟨entry'.2, made, by rw [← axis]⟩

theorem mutate_eq_ok {genome' : Genome} : genome.mutate settings words = .ok (genome', left) ↔
    Threads (Mutates settings) genome.entries words genome'.entries left := by
  rw [← Draws.map_eq_ok_of_injective fun _ _ => entries_injective, mutate, entries_traverse,
    Draws.mapM_eq_ok]
  exact Threads.congr fun _ _ _ _ => mutates_iff

theorem mutate_eq_error : genome.mutate settings words = .error halt ↔
    ∃ front entry behind front' rest, genome.entries = front ++ entry :: behind ∧
      Threads (Mutates settings) front words front' rest ∧
        entry.2.mutate settings rest = .error halt := by
  rw [← Draws.map_eq_error (f := entries), mutate, entries_traverse, Draws.mapM_eq_error]
  simp only [Threads.congr fun _ _ _ _ => mutates_iff, Draws.map_eq_error]

end Genome

open Draws (Threads)

/-- What mutation does to formulas, to genomes and to fractals. -/
structure MovesConstants (settings : GeneticSettings) : Prop where
  /-- Label by label in preorder, with the words before and behind; a tree is known by its labels. -/
  formula : ∀ (f g : Formula) (words left : List UInt64),
    f.mutate settings words = .ok (g, left) ↔
      Threads (Formula.Stirs settings) f.root.labels words g.root.labels left ∧ g.text = g.root.text
  /-- There is no result exactly where a constant is reached for which a draw cannot be made. -/
  halted : ∀ (f : Formula) (words : List UInt64) (halt : Halt),
    f.mutate settings words = .error halt ↔
      ∃ front label behind front' rest, f.root.labels = front ++ label :: behind ∧
        Threads (Formula.Stirs settings) front words front' rest ∧
          Formula.Halts settings label rest halt
  /-- Where shifts can be drawn only words can be missing. -/
  resumed : (0 < settings.mutateChance →
      Draws.usable (-settings.mutateRange) settings.mutateRange = true) →
    ∀ f : Formula, Draws.Escapes (f.mutate settings)
  /-- Axis by axis in their order, each with the words that the one before left. -/
  genome : ∀ (genome genome' : Genome) (words left : List UInt64),
    genome.mutate settings words = .ok (genome', left) ↔
      Threads (Genome.Mutates settings) genome.entries words genome'.entries left
  genome_halted : ∀ (genome : Genome) (words : List UInt64) (halt : Halt),
    genome.mutate settings words = .error halt ↔
      ∃ front entry behind front' rest, genome.entries = front ++ entry :: behind ∧
        Threads (Genome.Mutates settings) front words front' rest ∧
          entry.2.mutate settings rest = .error halt
  /-- A mutant has the genome that its parent would have, and the parent's stays as it was. -/
  mutant : ∀ (f child : Fractal) (words left : List UInt64),
    f.mutate settings words = .ok (child, left) ↔
      ∃ genome, f.genome.mutate settings words = .ok (genome, left) ∧
        child = .new genome ⟨.mutate, [f.genome]⟩
  in_place : ∀ (f changed : Fractal) (words left : List UInt64),
    f.mutateInPlace settings words = .ok (changed, left) ↔
      ∃ genome, f.genome.mutate settings words = .ok (genome, left) ∧ changed = f.withGenome genome

theorem movesConstants (settings : GeneticSettings) : MovesConstants settings where
  formula _ _ _ _ := Formula.mutate_eq_ok
  halted _ _ _ := Formula.mutate_eq_error
  resumed shifts f := (Formula.resumes_mutate shifts f).escapes
  genome _ _ _ _ := Genome.mutate_eq_ok
  genome_halted _ _ _ := Genome.mutate_eq_error
  mutant f child words left := by
    rw [Fractal.mutate, Draws.bind_eq_ok]
    constructor
    · rintro ⟨genome, rest, made, ended⟩
      cases ended
      exact ⟨genome, made, rfl⟩
    · rintro ⟨genome, made, rfl⟩
      exact ⟨genome, left, made, rfl⟩
  in_place f changed words left := by
    rw [Fractal.mutateInPlace, Draws.map_eq_ok]
    exact exists_congr fun genome => and_congr_right fun _ => eq_comm

/-- The first constant moves by the whole range, and the second stays. -/
example : (Formula.ofExpr (.binary .mul (.const (.float 1.5)) (.unary .sin (.const (.float 2))))).mutate
    { mutateChance := 0.5, mutateRange := 1 } [0, 0, 0xffffffffffffffff, 7] =
      .ok (.ofExpr (.binary .mul (.const (.float 0.5)) (.unary .sin (.const (.float 2)))), [7]) := by
  with_unfolding_all rfl

end FractalBreeder
