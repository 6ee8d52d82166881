import FractalBreeder.Heredity.Variation
import FractalBreeder.Proofs.Chance.Ensures
import FractalBreeder.Proofs.Expr.RoundTrip

/-!
The text of a formula stands for its tree. A formula that was read keeps the text it was read from
until an operator has run that can change the tree; from then on its text is the printed one.
-/
namespace FractalBreeder.Formula

open Draws (Ensures ensures_pure ensures_any)

/-- A formula read from a text or printed from a tree and then passed through any number of
operators, each with settings and words of its own. The flag tells whether one of them could change
the tree: all can, but for a cross with a tree of one node. -/
inductive Derived : Bool → Formula → Prop where
  | read {text : String} {f : Formula} (accepted : parse text = .ok f) : Derived false f
  | built (root : Expr) : Derived false (ofExpr root)
  | mutated {printed : Bool} {f g : Formula} {settings : GeneticSettings} {words left : List UInt64}
      (derived : Derived printed f) (ran : f.mutate settings words = .ok (g, left)) : Derived true g
  | introduced {printed : Bool} {f g : Formula} {settings : GeneticSettings}
      {words left : List UInt64} (derived : Derived printed f)
      (ran : f.introduce settings words = .ok (g, left)) : Derived true g
  | crossed {printed printed' : Bool} {f other g h : Formula} {words left : List UInt64}
      (derived : Derived printed f) (derived' : Derived printed' other)
      (inner : 2 ≤ f.root.size ∧ 2 ≤ other.root.size)
      (ran : f.cross other words = .ok ((g, h), left)) : Derived true g
  | crossedSecond {printed printed' : Bool} {f other g h : Formula} {words left : List UInt64}
      (derived : Derived printed f) (derived' : Derived printed' other)
      (inner : 2 ≤ f.root.size ∧ 2 ≤ other.root.size)
      (ran : f.cross other words = .ok ((g, h), left)) : Derived true h
  | spared {printed printed' : Bool} {f other g h : Formula} {words left : List UInt64}
      (derived : Derived printed f) (derived' : Derived printed' other)
      (leaf : f.root.size < 2 ∨ other.root.size < 2)
      (ran : f.cross other words = .ok ((g, h), left)) : Derived printed g
  | sparedSecond {printed printed' : Bool} {f other g h : Formula} {words left : List UInt64}
      (derived : Derived printed f) (derived' : Derived printed' other)
      (leaf : f.root.size < 2 ∨ other.root.size < 2)
      (ran : f.cross other words = .ok ((g, h), left)) : Derived printed' h

/-- The text is the printed tree. -/
def Printed (f : Formula) : Prop := f.text = f.root.text

theorem printed_ofExpr (root : Expr) : (ofExpr root).Printed := rfl

theorem ensures_printed_mutate (settings : GeneticSettings) (f : Formula) :
    Ensures (f.mutate settings) Printed :=
  Ensures.map ((ensures_any _).mono fun root _ => printed_ofExpr root)

theorem ensures_printed_introduce (settings : GeneticSettings) (f : Formula) :
    Ensures (f.introduce settings) Printed := by
  refine (ensures_any _).bind fun i _ => ?_
  exact (ensures_any _).bind fun grown _ => ensures_pure (printed_ofExpr _)

theorem cross_of_leaf {f other : Formula} (leaf : f.root.size < 2 ∨ other.root.size < 2) :
    f.cross other = pure (f, other) := by
  rw [cross, if_pos]
  simpa using leaf

theorem ensures_printed_cross {f other : Formula} (inner : 2 ≤ f.root.size ∧ 2 ≤ other.root.size) :
    Ensures (f.cross other) (fun children => children.1.Printed ∧ children.2.Printed) := by
  have several : ¬ (f.root.size < 2 || other.root.size < 2) = true := by
    simp only [Bool.or_eq_true, decide_eq_true_eq]
    omega
  rw [cross, if_neg several]
  refine (ensures_any _).bind fun p _ => ?_
  refine (ensures_any _).bind fun q _ => ?_
  exact ensures_pure ⟨printed_ofExpr _, printed_ofExpr _⟩

/-- The text is the printed tree or what the tree was read from. -/
def Faithful (f : Formula) : Prop := f.Printed ∨ parse f.text = .ok f

theorem parse_text_of_printed {f : Formula} (printed : f.Printed) (finite : f.root.isFinite = true) :
    parse f.text = .ok f := by
  rw [parse, printed, Expr.parse_text_of_finite finite, ← printed]
  rfl

theorem faithful_of_parse {text : String} {f : Formula} (accepted : parse text = .ok f) :
    f.Faithful := by
  have same : f.text = text := by
    rw [parse] at accepted
    cases tree : Expr.parse text with
    | error fault =>
        rw [tree] at accepted
        cases accepted
    | ok root =>
        rw [tree] at accepted
        cases accepted
        rfl
  exact .inr (same.symm ▸ accepted)

/-- What each step keeps: the formula is faithful, and printed once its tree may have changed. -/
theorem Derived.faithful {printed : Bool} {f : Formula} (derived : Derived printed f) :
    f.Faithful ∧ (printed = true → f.Printed) := by
  induction derived with
  | read accepted => exact ⟨faithful_of_parse accepted, nofun⟩
  | built root => exact ⟨.inl (printed_ofExpr root), nofun⟩
  | mutated _ ran _ =>
      have printed := ensures_printed_mutate _ _ _ _ _ ran
      exact ⟨.inl printed, fun _ => printed⟩
  | introduced _ ran _ =>
      have printed := ensures_printed_introduce _ _ _ _ _ ran
      exact ⟨.inl printed, fun _ => printed⟩
  | crossed _ _ inner ran _ _ =>
      have printed := (ensures_printed_cross inner _ _ _ ran).1
      exact ⟨.inl printed, fun _ => printed⟩
  | crossedSecond _ _ inner ran _ _ =>
      have printed := (ensures_printed_cross inner _ _ _ ran).2
      exact ⟨.inl printed, fun _ => printed⟩
  | spared _ _ leaf ran ih _ =>
      rw [cross_of_leaf leaf] at ran
      cases ran
      exact ih
  | sparedSecond _ _ leaf ran _ ih =>
      rw [cross_of_leaf leaf] at ran
      cases ran
      exact ih

/-- However a formula came about, if its constants are finite its text reads back to it; and once an
operator has run that can change the tree, the text is the printed one. Where a cross cannot, both
formulas come back as they were. -/
theorem parse_text_of_derived {printed : Bool} {f : Formula} (derived : Derived printed f) :
    (f.root.isFinite = true → parse f.text = .ok f) ∧ (printed = true → f.text = f.root.text) ∧
      ∀ (other : Formula) (words : List UInt64), f.root.size < 2 ∨ other.root.size < 2 →
        f.cross other words = .ok ((f, other), words) := by
  obtain ⟨faithful, once⟩ := derived.faithful
  refine ⟨fun finite => ?_, once, fun other words leaf => ?_⟩
  · rcases faithful with printed | read
    · exact parse_text_of_printed printed finite
    · exact read
  · rw [cross_of_leaf leaf]
    rfl

/-- A text with blanks keeps them until its tree has traded a subtree with another one. -/
theorem parse_text_of_derived_crossed :
    let f : Formula := ⟨"x + 1", .binary .add (.var .x) (.const (.float 1))⟩
    let g := ofExpr (.binary .add (.var .y) (.const (.float 1)))
    parse "x + 1" = .ok f ∧
      f.cross (ofExpr (.unary .sin (.var .y))) [0, 0] =
        .ok ((g, ofExpr (.unary .sin (.var .x))), []) ∧
      parse f.text = .ok f ∧ parse g.text = .ok g ∧ g.text = g.root.text := by
  intro f g
  have accepted : parse "x + 1" = .ok f := by with_unfolding_all rfl
  have crossed : f.cross (ofExpr (.unary .sin (.var .y))) [0, 0] =
      .ok ((g, ofExpr (.unary .sin (.var .x))), []) := by
    with_unfolding_all rfl
  have derived : Derived false f := .read accepted
  have derived' : Derived true g := .crossed derived (.built _) (by decide) crossed
  exact ⟨accepted, crossed, (parse_text_of_derived derived).1 (by decide),
    (parse_text_of_derived derived').1 (by decide), (parse_text_of_derived derived').2.1 rfl⟩

end FractalBreeder.Formula
