import FractalBreeder.Proofs.Expr.Addressing
import FractalBreeder.Proofs.Heredity.Mutation
import FractalBreeder.Proofs.Heredity.Safety

/-!
A tree that is grown stays within a depth, and so within a size, whatever is drawn. Introduction
puts such a tree in the place of one leaf and leaves every other node where it is.
-/
namespace FractalBreeder

namespace Expr

/-! ### Depth -/

theorem depth_pos (e : Expr) : 0 < e.depth := by
  cases e with
  | const | var => exact Nat.one_pos
  | unary | binary | ternary => exact Nat.add_pos_left Nat.one_pos _

/-- No node has more than three operands. -/
theorem size_le_of_depth_le {e : Expr} {levels : Nat} (within : e.depth ≤ levels) :
    2 * e.size + 1 ≤ 3 ^ levels := by
  induction e generalizing levels with
  | const | var =>
    have leaf : 3 ^ 1 ≤ 3 ^ levels := Nat.pow_le_pow_right (by decide) within
    exact leaf
  | unary op a ih =>
    cases levels with
    | zero => exact absurd within (Nat.not_le.mpr (depth_pos _))
    | succ levels =>
      simp only [depth] at within
      have inner := ih (show a.depth ≤ levels by omega)
      simp only [size, Nat.pow_succ]
      omega
  | binary op a b iha ihb =>
    cases levels with
    | zero => exact absurd within (Nat.not_le.mpr (depth_pos _))
    | succ levels =>
      simp only [depth] at within
      have left := iha (show a.depth ≤ levels by omega)
      have right := ihb (show b.depth ≤ levels by omega)
      simp only [size, Nat.pow_succ]
      omega
  | ternary op a b c iha ihb ihc =>
    cases levels with
    | zero => exact absurd within (Nat.not_le.mpr (depth_pos _))
    | succ levels =>
      simp only [depth] at within
      have left := iha (show a.depth ≤ levels by omega)
      have middle := ihb (show b.depth ≤ levels by omega)
      have right := ihc (show c.depth ≤ levels by omega)
      simp only [size, Nat.pow_succ]
      omega

theorem aim_ended {found : Except Focus Nat} {frame : Expr → Expr} {focus : Focus}
    (ended : found.mapError (.inside frame) = .error focus) :
    ∃ inner, found = .error inner ∧ focus = inner.inside frame := by
  cases found with
  | error inner =>
    cases ended
    exact ⟨inner, rfl, rfl⟩
  | ok j => cases ended

theorem aim_ended_or_went_on {found : Except Focus Nat} {next : Nat → Except Focus Nat}
    {focus : Focus} (ended : found >>= next = .error focus) :
    found = .error focus ∨ ∃ j, next j = .error focus := by
  cases found with
  | error inner => exact .inl ended
  | ok j => exact .inr ⟨j, ended⟩

/-- What is put somewhere in a tree hangs below fewer nodes than the tree has levels. -/
theorem depth_put {e : Expr} {i : Nat} {focus : Focus} (aimed : e.aim i = .error focus) (r : Expr) :
    (focus.put r).depth < e.depth + r.depth := by
  have grown := r.depth_pos
  induction e generalizing i focus with
  | const value | var v =>
    cases i with
    | zero =>
      cases aimed
      exact Nat.lt_add_of_pos_left (depth_pos _)
    | succ i => cases aimed
  | unary op a ih =>
    cases i with
    | zero =>
      cases aimed
      exact Nat.lt_add_of_pos_left (depth_pos _)
    | succ i =>
      obtain ⟨inner, found, rfl⟩ := aim_ended aimed
      have deeper := ih found
      simp only [Focus.inside, depth]
      omega
  | binary op a b iha ihb =>
    cases i with
    | zero =>
      cases aimed
      exact Nat.lt_add_of_pos_left (depth_pos _)
    | succ i =>
      rw [aim] at aimed
      obtain left | ⟨j, right⟩ := aim_ended_or_went_on aimed
      · obtain ⟨inner, found, rfl⟩ := aim_ended left
        have deeper := iha found
        simp only [Focus.inside, depth]
        omega
      · obtain ⟨inner, found, rfl⟩ := aim_ended right
        have deeper := ihb found
        simp only [Focus.inside, depth]
        omega
  | ternary op a b c iha ihb ihc =>
    cases i with
    | zero =>
      cases aimed
      exact Nat.lt_add_of_pos_left (depth_pos _)
    | succ i =>
      rw [aim] at aimed
      obtain first | ⟨j, later⟩ := aim_ended_or_went_on aimed
      · obtain ⟨inner, found, rfl⟩ := aim_ended first
        have deeper := iha found
        simp only [Focus.inside, depth]
        omega
      · obtain second | ⟨k, third⟩ := aim_ended_or_went_on later
        · obtain ⟨inner, found, rfl⟩ := aim_ended second
          have deeper := ihb found
          simp only [Focus.inside, depth]
          omega
        · obtain ⟨inner, found, rfl⟩ := aim_ended third
          have deeper := ihc found
          simp only [Focus.inside, depth]
          omega

/-! ### The place of a leaf -/

/-- In `e'` the tree `grown` stands where `e` has a leaf, and all other nodes are those of `e`. -/
structure ReplacesLeaf (e : Expr) (place : Nat) (grown e' : Expr) : Prop where
  leaf : place ∈ e.leaves
  replaced : e.replace? place grown = some e'
  stands : e'.subtree? place = some grown
  /-- The nodes before the leaf and those behind it keep their labels and their order. -/
  labels : ∃ before l after, before.length = place ∧ e.labels = before ++ l :: after ∧
    e'.labels = before ++ grown.labels ++ after
  size : e'.size + 1 = e.size + grown.size
  depth : e'.depth < e.depth + grown.depth

theorem labels_of_isLeaf {e : Expr} (leaf : e.isLeaf = true) : ∃ l, e.labels = [l] := by
  cases e with
  | const value => exact ⟨.const value, rfl⟩
  | var v => exact ⟨.var v, rfl⟩
  | unary | binary | ternary => cases leaf

theorem replacesLeaf_put {e : Expr} {place : Nat} {focus : Focus} (points : Points e place focus)
    (leaf : focus.node.isLeaf = true) (grown : Expr) :
    ReplacesLeaf e place grown (focus.put grown) := by
  obtain ⟨l, single⟩ := labels_of_isLeaf leaf
  obtain ⟨before, after, length, put⟩ := points.between
  have whole : e.labels = before ++ l :: after := by
    calc e.labels = (focus.put focus.node).labels := by rw [points.put_node]
      _ = before ++ l :: after := by rw [put, single, List.append_assoc, List.singleton_append]
  refine
    { leaf := mem_leaves_iff.mpr ⟨focus.node, ?_, leaf⟩
      replaced := by rw [replace?, points.focus?, Option.map_some]
      stands := ?_
      labels := ⟨before, l, after, length, whole, put grown⟩
      size := ?_
      depth := depth_put points.aimed grown }
  · rw [subtree?_eq_getElem?, points.node]
  · rw [← map_node_focus?, Expr.focus?, points.again]
    rfl
  · rw [← length_labels, ← length_labels, ← length_labels, put, whole]
    simp only [List.length_append, List.length_cons]
    omega

/-- A leaf can be replaced by every tree. -/
theorem exists_replacesLeaf {e : Expr} {place : Nat} (leaf : place ∈ e.leaves) (grown : Expr) :
    ∃ e', ReplacesLeaf e place grown e' := by
  obtain ⟨s, found, isLeaf⟩ := mem_leaves_iff.mp leaf
  rw [← map_node_focus?, Option.map_eq_some_iff] at found
  obtain ⟨focus, focused, rfl⟩ := found
  exact ⟨_, replacesLeaf_put (points_of_focus? focused) isLeaf grown⟩

theorem ReplacesLeaf.size_le {e e' grown : Expr} {place : Nat}
    (replaces : ReplacesLeaf e place grown e') : e.size ≤ e'.size := by
  have counted := replaces.size
  have some_node : 0 < grown.size := by cases grown <;> simp only [Expr.size] <;> omega
  omega

end Expr

/-! ### Growth -/

namespace Growth

variable (settings : GeneticSettings)

/-- The levels that a grown tree may have; one leaf is grown even where the settings allow none. -/
def ceiling : Nat := max 1 settings.maxTreeDepth.toNat

theorem ensures_leaf : Draws.Ensures (leaf settings) (·.depth ≤ 1) := by
  refine (Draws.ensures_any _).bind fun i _ => ?_
  cases Variable.all[i]? with
  | some v => exact Draws.ensures_pure (Nat.le_refl 1)
  | none => exact (Draws.ensures_any _).bind fun c _ => Draws.ensures_pure (Nat.le_refl 1)

/-- A tree branches at most as often as it may, whatever the chance of an operator is. -/
theorem ensures_tree (levels : Nat) :
    Draws.Ensures (tree settings levels) (·.depth ≤ levels + 1) := by
  induction levels with
  | zero => exact ensures_leaf settings
  | succ levels ih =>
    refine (Draws.ensures_any _).bind fun chance _ => ?_
    split_ifs
    · exact (ensures_leaf settings).mono fun e shallow => Nat.le_trans shallow (by omega)
    · refine (Draws.ensures_any _).bind fun operator _ => ?_
      cases operator with
      | unary op =>
        refine ih.bind fun a withinA => Draws.ensures_pure ?_
        simp only [Expr.depth]
        omega
      | binary op =>
        refine ih.bind fun a withinA => ?_
        refine ih.bind fun b withinB => Draws.ensures_pure ?_
        simp only [Expr.depth]
        omega
      | ternary op =>
        refine ih.bind fun a withinA => ?_
        refine ih.bind fun b withinB => ?_
        refine ih.bind fun c withinC => Draws.ensures_pure ?_
        simp only [Expr.depth]
        omega

theorem ensures_node : Draws.Ensures (node settings) (·.depth ≤ ceiling settings) := by
  refine (ensures_tree settings _).mono fun e within => Nat.le_trans within ?_
  simp only [ceiling]
  omega

end Growth

/-! ### Introduction -/

namespace Formula

variable {settings : GeneticSettings} {f g : Formula} {words left : List UInt64}

/-- The first draw chooses a leaf, and what is grown from the words behind it takes its place. -/
def Introduces (settings : GeneticSettings) (f : Formula) (words : List UInt64) (g : Formula)
    (left : List UInt64) : Prop :=
  ∃ i rest place grown e', Draws.index f.root.leaves.length words = .ok (i, rest) ∧
    f.root.leaves[i]? = some place ∧ Growth.node settings rest = .ok (grown, left) ∧
    f.root.ReplacesLeaf place grown e' ∧ g = ofExpr e'

theorem introduce_eq_ok : f.introduce settings words = .ok (g, left) ↔
    Introduces settings f words g left := by
  constructor
  · intro returned
    obtain ⟨i, rest, chosen, returned⟩ := Draws.bind_eq_ok.mp returned
    obtain ⟨grown, behind, grew, returned⟩ := Draws.bind_eq_ok.mp returned
    have below := Draws.ensures_index _ _ _ _ chosen
    have place := List.getElem?_eq_getElem below
    obtain ⟨e', replaces⟩ := Expr.exists_replacesLeaf (List.mem_of_getElem? place) grown
    rw [List.getD_eq_getElem?_getD, place, Option.getD_some, replaces.replaced] at returned
    cases returned
    exact ⟨i, rest, _, grown, e', chosen, place, grew, replaces, rfl⟩
  · rintro ⟨i, rest, place, grown, e', chosen, at_, grew, replaces, rfl⟩
    refine Draws.bind_eq_ok.mpr ⟨i, rest, chosen, ?_⟩
    refine Draws.bind_eq_ok.mpr ⟨grown, left, grew, ?_⟩
    rw [List.getD_eq_getElem?_getD, at_, Option.getD_some, replaces.replaced]
    rfl

/-- A leaf to replace is always there. -/
theorem index_leaves_ne_unusable (f : Formula) (words : List UInt64) :
    Draws.index f.root.leaves.length words ≠ .error .unusableRange :=
  (Draws.secures_index f.root.leaves_pos).usable words

/-- The range of the constants is the only one that can be unusable. -/
theorem introduce_usable
    (isUsable : Draws.usable settings.constantMin settings.constantMax = true) :
    f.introduce settings words ≠ .error .unusableRange := by
  intro halted
  obtain unchosen | ⟨i, rest, -, halted⟩ := Draws.bind_eq_error.mp halted
  · exact index_leaves_ne_unusable f words unchosen
  · obtain ungrown | ⟨grown, behind, -, ended⟩ := Draws.bind_eq_error.mp halted
    · exact (Growth.secures_node isUsable).usable rest ungrown
    · cases ended

theorem Introduces.bounded (introduces : Introduces settings f words g left) :
    f.root.size ≤ g.root.size ∧ g.root.depth ≤ f.root.depth + Growth.ceiling settings - 1 := by
  obtain ⟨i, rest, place, grown, e', -, -, grew, replaces, rfl⟩ := introduces
  have shallow := Growth.ensures_node settings rest grown left grew
  have deeper := replaces.depth
  refine ⟨replaces.size_le, ?_⟩
  change e'.depth ≤ _
  omega

/-- What growth and introduction keep to, whatever they draw and however likely operators are. -/
structure GrowsOneLeaf (settings : GeneticSettings) : Prop where
  grown : ∀ words e left, Growth.node settings words = .ok (e, left) →
    e.depth ≤ Growth.ceiling settings ∧ e.size ≤ (3 ^ Growth.ceiling settings - 1) / 2
  /-- The choice of a leaf is never one among none. -/
  chosen : ∀ (f : Formula) words,
    Draws.index f.root.leaves.length words ≠ .error .unusableRange
  /-- No other range is unusable either, unless it is that of the constants. -/
  halted : ∀ (f : Formula) words, f.introduce settings words = .error .unusableRange →
    Draws.usable settings.constantMin settings.constantMax = false
  introduced : ∀ (f g : Formula) words left, f.introduce settings words = .ok (g, left) ↔
    Introduces settings f words g left
  bounds : ∀ (f g : Formula) words left, f.introduce settings words = .ok (g, left) →
    f.root.size ≤ g.root.size ∧ g.root.depth ≤ f.root.depth + Growth.ceiling settings - 1

theorem growsOneLeaf (settings : GeneticSettings) : GrowsOneLeaf settings where
  grown words e left grew := by
    have shallow := Growth.ensures_node settings words e left grew
    have few := Expr.size_le_of_depth_le shallow
    exact ⟨shallow, by omega⟩
  chosen := index_leaves_ne_unusable
  halted f words ended := by
    by_contra usable
    exact introduce_usable (Bool.of_not_eq_false usable) ended
  introduced _ _ _ _ := introduce_eq_ok
  bounds _ _ _ _ returned := (introduce_eq_ok.mp returned).bounded

end Formula

end FractalBreeder
