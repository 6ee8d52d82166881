import Mathlib.Data.List.Basic
import Mathlib.Tactic.ByContra
import FractalBreeder.Expr.Preorder

/-!
One numbering of the nodes. The searches count the places down through the operands, the leaves are
counted up, and a visit just goes on; all of them meet the nodes in the order of `subtrees`.
-/
namespace FractalBreeder.Expr

/-! ### Searches -/

/-- Behind the tree a search goes on with the places that remain. -/
theorem aim_behind {e : Expr} {i : Nat} (behind : e.size ≤ i) : e.aim i = .ok (i - e.size) := by
  induction e generalizing i with
  | const value | var v =>
    cases i with
    | zero => cases behind
    | succ i => rfl
  | unary op a ih =>
    obtain ⟨i, rfl⟩ := Nat.exists_eq_add_of_le behind
    have past : a.size ≤ a.size + i := Nat.le_add_right _ _
    rw [size, Nat.add_assoc, Nat.add_comm 1, aim, ih past]
    exact congrArg Except.ok (by omega)
  | binary op a b iha ihb =>
    obtain ⟨i, rfl⟩ := Nat.exists_eq_add_of_le behind
    rw [size, show 1 + a.size + b.size + i = a.size + (b.size + i) + 1 by omega, aim,
      iha (Nat.le_add_right _ _)]
    change (b.aim (a.size + (b.size + i) - a.size)).mapError _ = _
    rw [Nat.add_sub_cancel_left, ihb (Nat.le_add_right _ _)]
    exact congrArg Except.ok (by omega)
  | ternary op a b c iha ihb ihc =>
    obtain ⟨i, rfl⟩ := Nat.exists_eq_add_of_le behind
    rw [size, show 1 + a.size + b.size + c.size + i = a.size + (b.size + (c.size + i)) + 1 by omega,
      aim, iha (Nat.le_add_right _ _)]
    change (b.aim (a.size + (b.size + (c.size + i)) - a.size)).mapError _ >>= _ = _
    rw [Nat.add_sub_cancel_left, ihb (Nat.le_add_right _ _)]
    change (c.aim (b.size + (c.size + i) - b.size)).mapError _ = _
    rw [Nat.add_sub_cancel_left, ihc (Nat.le_add_right _ _)]
    exact congrArg Except.ok (by omega)

/-- An operand's place in a larger tree: the nodes before it, the nodes behind it, and the search
that comes to it. -/
structure Frames (frame : Expr → Expr) (before after : List Label) : Prop where
  labels : ∀ r, (frame r).labels = before ++ r.labels ++ after
  subtrees : ∀ {r s k}, r.subtrees[k]? = some s → (frame r).subtrees[before.length + k]? = some s
  aim : ∀ {r k focus}, r.aim k = .error focus →
    (frame r).aim (before.length + k) = .error (focus.inside frame)

theorem getElem?_append_before {before : Expr} {rest : List Expr} {k : Nat} :
    (before.subtrees ++ rest)[before.size + k]? = rest[k]? := by
  rw [← length_subtrees, List.getElem?_append_right (Nat.le_add_right _ _), Nat.add_sub_cancel_left]

theorem getElem?_append_of_some {l rest : List Expr} {s : Expr} {k : Nat} (at_ : l[k]? = some s) :
    (l ++ rest)[k]? = some s := by
  rw [List.getElem?_append_left (List.getElem?_eq_some_iff.mp at_).1, at_]

theorem frames_unary (op : Unary) : Frames (unary op) [.unary op] [] where
  labels r := by simp [labels]
  subtrees {r s k} at_ := by rwa [List.length_singleton, Nat.add_comm]
  aim {r k focus} aimed := by
    rw [List.length_singleton, Nat.add_comm, Expr.aim, aimed]
    rfl

theorem frames_left (op : Binary) (b : Expr) :
    Frames (binary op · b) [.binary op] b.labels where
  labels r := by simp [labels]
  subtrees {r s k} at_ := by
    rw [List.length_singleton, Nat.add_comm]
    exact getElem?_append_of_some at_
  aim {r k focus} aimed := by
    rw [List.length_singleton, Nat.add_comm, Expr.aim, aimed]
    rfl

theorem frames_right (op : Binary) (a : Expr) :
    Frames (binary op a) (.binary op :: a.labels) [] where
  labels r := by simp [labels]
  subtrees {r s k} at_ := by
    rw [List.length_cons, length_labels, Nat.add_right_comm]
    exact getElem?_append_before.trans at_
  aim {r k focus} aimed := by
    rw [List.length_cons, length_labels, Nat.add_right_comm, Expr.aim,
      aim_behind (Nat.le_add_right _ _), Nat.add_sub_cancel_left]
    change (r.aim k).mapError _ = _
    rw [aimed]
    rfl

theorem frames_first (op : Ternary) (b c : Expr) :
    Frames (ternary op · b c) [.ternary op] (b.labels ++ c.labels) where
  labels r := by simp [labels]
  subtrees {r s k} at_ := by
    rw [List.length_singleton, Nat.add_comm]
    exact getElem?_append_of_some (getElem?_append_of_some at_)
  aim {r k focus} aimed := by
    rw [List.length_singleton, Nat.add_comm, Expr.aim, aimed]
    rfl

theorem frames_second (op : Ternary) (a c : Expr) :
    Frames (ternary op a · c) (.ternary op :: a.labels) c.labels where
  labels r := by simp [labels]
  subtrees {r s k} at_ := by
    rw [List.length_cons, length_labels, Nat.add_right_comm]
    exact getElem?_append_of_some (getElem?_append_before.trans at_)
  aim {r k focus} aimed := by
    rw [List.length_cons, length_labels, Nat.add_right_comm, Expr.aim,
      aim_behind (Nat.le_add_right _ _), Nat.add_sub_cancel_left]
    change (r.aim k).mapError _ >>= _ = _
    rw [aimed]
    rfl

theorem frames_third (op : Ternary) (a b : Expr) :
    Frames (ternary op a b) (.ternary op :: (a.labels ++ b.labels)) [] where
  labels r := by simp [labels]
  subtrees {r s k} at_ := by
    have place : (Label.ternary op :: (a.labels ++ b.labels)).length + k =
        a.size + (b.size + k) + 1 := by
      simp only [List.length_cons, List.length_append, length_labels]
      omega
    rw [place]
    change (a.subtrees ++ b.subtrees ++ r.subtrees)[a.size + (b.size + k)]? = some s
    rw [List.append_assoc, getElem?_append_before, getElem?_append_before, at_]
  aim {r k focus} aimed := by
    have place : (Label.ternary op :: (a.labels ++ b.labels)).length + k =
        a.size + (b.size + k) + 1 := by
      simp only [List.length_cons, List.length_append, length_labels]
      omega
    rw [place, Expr.aim, aim_behind (Nat.le_add_right _ _), Nat.add_sub_cancel_left]
    change (b.aim (b.size + k)).mapError _ >>= _ = _
    rw [aim_behind (Nat.le_add_right _ _), Nat.add_sub_cancel_left]
    change (r.aim k).mapError _ = _
    rw [aimed]
    rfl

/-- A subtree where it stands, `i` places behind the root: whatever is put there stands between the
same nodes, and is found there again. -/
structure Points (e : Expr) (i : Nat) (focus : Focus) : Prop where
  aimed : e.aim i = .error focus
  node : e.subtrees[i]? = some focus.node
  put_node : focus.put focus.node = e
  again : ∀ r, (focus.put r).aim i = .error ⟨r, focus.put⟩
  between : ∃ before after : List Label, before.length = i ∧
    ∀ r, (focus.put r).labels = before ++ r.labels ++ after

theorem points_root (e : Expr) : Points e 0 ⟨e, id⟩ where
  aimed := by cases e <;> rfl
  node := by cases e <;> rfl
  put_node := rfl
  again r := by cases r <;> rfl
  between := ⟨[], [], rfl, fun r => (List.append_nil r.labels).symm⟩

theorem Points.inside {frame : Expr → Expr} {before after : List Label} {a : Expr} {k : Nat}
    {focus : Focus} (frames : Frames frame before after) (points : Points a k focus) :
    Points (frame a) (before.length + k) (focus.inside frame) where
  aimed := frames.aim points.aimed
  node := frames.subtrees points.node
  put_node := congrArg frame points.put_node
  again r := frames.aim (points.again r)
  between := by
    obtain ⟨near, far, rfl, put⟩ := points.between
    refine ⟨before ++ near, far ++ after, List.length_append, fun r => ?_⟩
    calc (frame (focus.put r)).labels
        = before ++ (focus.put r).labels ++ after := frames.labels _
      _ = before ++ near ++ r.labels ++ (far ++ after) := by simp [put]

/-- Every place up to the size has a node. -/
theorem exists_points {e : Expr} {i : Nat} (inside : i < e.size) : ∃ focus, Points e i focus := by
  induction e generalizing i with
  | const value | var v =>
    obtain rfl := Nat.lt_one_iff.mp inside
    exact ⟨_, points_root _⟩
  | unary op a ih =>
    cases i with
    | zero => exact ⟨_, points_root _⟩
    | succ i =>
      obtain ⟨focus, points⟩ := ih (i := i) (by simp only [size] at inside; omega)
      have deeper := points.inside (frames_unary op)
      rw [List.length_singleton, Nat.add_comm] at deeper
      exact ⟨_, deeper⟩
  | binary op a b iha ihb =>
    cases i with
    | zero => exact ⟨_, points_root _⟩
    | succ i =>
      rcases Nat.lt_or_ge i a.size with left | right
      · obtain ⟨focus, points⟩ := iha left
        have deeper := points.inside (frames_left op b)
        rw [List.length_singleton, Nat.add_comm] at deeper
        exact ⟨_, deeper⟩
      · obtain ⟨k, rfl⟩ := Nat.exists_eq_add_of_le right
        obtain ⟨focus, points⟩ := ihb (i := k) (by simp only [size] at inside; omega)
        have deeper := points.inside (frames_right op a)
        rw [List.length_cons, length_labels, Nat.add_right_comm] at deeper
        exact ⟨_, deeper⟩
  | ternary op a b c iha ihb ihc =>
    cases i with
    | zero => exact ⟨_, points_root _⟩
    | succ i =>
      rcases Nat.lt_or_ge i a.size with first | later
      · obtain ⟨focus, points⟩ := iha first
        have deeper := points.inside (frames_first op b c)
        rw [List.length_singleton, Nat.add_comm] at deeper
        exact ⟨_, deeper⟩
      · obtain ⟨k, rfl⟩ := Nat.exists_eq_add_of_le later
        rcases Nat.lt_or_ge k b.size with second | third
        · obtain ⟨focus, points⟩ := ihb second
          have deeper := points.inside (frames_second op a c)
          rw [List.length_cons, length_labels, Nat.add_right_comm] at deeper
          exact ⟨_, deeper⟩
        · obtain ⟨k, rfl⟩ := Nat.exists_eq_add_of_le third
          obtain ⟨focus, points⟩ := ihc (i := k) (by simp only [size] at inside; omega)
          have deeper := points.inside (frames_third op a b)
          rw [List.length_cons, List.length_append, length_labels, length_labels,
            show a.size + b.size + 1 + k = a.size + (b.size + k) + 1 by omega] at deeper
          exact ⟨_, deeper⟩

/-- The search that only looks takes the same way. -/
theorem seek_eq_aim (e : Expr) (i : Nat) : e.seek i = (e.aim i).mapError Focus.node := by
  have inside (found : Except Focus Nat) (frame : Expr → Expr) :
      (found.mapError (.inside frame)).mapError Focus.node = found.mapError Focus.node := by
    cases found <;> rfl
  have onwards (found : Except Focus Nat) (next : Nat → Except Focus Nat) :
      (found >>= next).mapError Focus.node =
        found.mapError Focus.node >>= fun i => (next i).mapError Focus.node := by
    cases found <;> rfl
  induction e generalizing i with
  | const value | var v => cases i <;> rfl
  | unary op a ih =>
    cases i with
    | zero => rfl
    | succ i => rw [seek, aim, inside, ih]
  | binary op a b iha ihb =>
    cases i with
    | zero => rfl
    | succ i => simp only [seek, aim, onwards, inside, iha, funext ihb]
  | ternary op a b c iha ihb ihc =>
    cases i with
    | zero => rfl
    | succ i => simp only [seek, aim, onwards, inside, iha, funext ihb, funext ihc, bind_assoc]

theorem Points.focus? {e : Expr} {i : Nat} {focus : Focus} (points : Points e i focus) :
    e.focus? i = some focus := by
  rw [Expr.focus?, points.aimed]
  rfl

theorem points_of_focus? {e : Expr} {i : Nat} {focus : Focus} (found : e.focus? i = some focus) :
    Points e i focus := by
  rcases Nat.lt_or_ge i e.size with inside | behind
  · obtain ⟨other, points⟩ := exists_points inside
    obtain rfl := Option.some.inj (found.symm.trans points.focus?)
    exact points
  · rw [Expr.focus?, aim_behind behind] at found
    cases found

theorem focus?_eq_none_iff {e : Expr} {i : Nat} : e.focus? i = none ↔ e.size ≤ i := by
  constructor
  · intro missing
    by_contra inside
    obtain ⟨focus, points⟩ := exists_points (Nat.lt_of_not_le inside)
    rw [points.focus?] at missing
    cases missing
  · intro behind
    rw [Expr.focus?, aim_behind behind]
    rfl

theorem map_node_focus? (e : Expr) (i : Nat) : (e.focus? i).map Focus.node = e.subtree? i := by
  rw [subtree?, seek_eq_aim, Expr.focus?]
  cases e.aim i <;> rfl

theorem subtree?_eq_getElem? (e : Expr) (i : Nat) : e.subtree? i = e.subtrees[i]? := by
  rw [← map_node_focus?]
  cases found : e.focus? i with
  | some focus => exact (points_of_focus? found).node.symm
  | none =>
    have behind := focus?_eq_none_iff.mp found
    rw [List.getElem?_eq_none (by rwa [length_subtrees])]
    rfl

theorem subtree?_eq_none_iff {e : Expr} {i : Nat} : e.subtree? i = none ↔ e.size ≤ i := by
  rw [← map_node_focus?, Option.map_eq_none_iff, focus?_eq_none_iff]

theorem Points.labels {e : Expr} {i : Nat} {focus : Focus} (points : Points e i focus) (r : Expr) :
    (focus.put r).labels =
      e.labels.take i ++ r.labels ++ e.labels.drop (i + focus.node.size) := by
  obtain ⟨before, after, rfl, put⟩ := points.between
  have whole : e.labels = before ++ (focus.node.labels ++ after) := by
    rw [← List.append_assoc, ← put, points.put_node]
  rw [put, whole, List.take_left, ← List.drop_drop, List.drop_left, ← length_labels, List.drop_left]

theorem Points.mem_labels_node {e : Expr} {i : Nat} {focus : Focus} (points : Points e i focus)
    {l : Label} (member : l ∈ focus.node.labels) : l ∈ e.labels := by
  obtain ⟨before, after, -, put⟩ := points.between
  rw [← points.put_node, put]
  exact List.mem_append_left _ (List.mem_append_right _ member)

theorem Points.mem_labels_put {e r : Expr} {i : Nat} {focus : Focus} (points : Points e i focus)
    {l : Label} (member : l ∈ (focus.put r).labels) : l ∈ e.labels ∨ l ∈ r.labels := by
  rw [points.labels, List.mem_append, List.mem_append] at member
  rcases member with (before | within) | after
  · exact .inl (List.mem_of_mem_take before)
  · exact .inr within
  · exact .inl (List.mem_of_mem_drop after)

theorem map_labels_replace? (e : Expr) (i : Nat) (r : Expr) :
    (e.replace? i r).map labels = (e.subtree? i).map fun s =>
      e.labels.take i ++ r.labels ++ e.labels.drop (i + s.size) := by
  rw [replace?, ← map_node_focus?, Option.map_map, Option.map_map]
  cases found : e.focus? i with
  | none => rfl
  | some focus => exact congrArg some ((points_of_focus? found).labels r)

/-! ### Labels -/

theorem labels_eq_map (e : Expr) : e.labels = e.subtrees.map label := by
  induction e with
  | const | var => rfl
  | unary op a ih => rw [labels, subtrees, List.map_cons, ih, label]
  | binary op a b iha ihb => rw [labels, subtrees, List.map_cons, List.map_append, iha, ihb, label]
  | ternary op a b c iha ihb ihc =>
    rw [labels, subtrees, List.map_cons, List.map_append, List.map_append, iha, ihb, ihc, label]

theorem mem_constants_iff {e : Expr} {c : Number} : c ∈ e.constants ↔ .const c ∈ e.labels := by
  induction e with
  | const | var => simp [constants, labels]
  | unary op a ih => simp [constants, labels, ih]
  | binary op a b iha ihb => simp [constants, labels, iha, ihb]
  | ternary op a b c iha ihb ihc => simp [constants, labels, iha, ihb, ihc]

theorem takeTree?_labels {fuel : Nat} {e : Expr} (enough : e.size ≤ fuel) (rest : List Label) :
    takeTree? fuel (e.labels ++ rest) = some (e, rest) := by
  induction e generalizing fuel rest with
  | const value | var v =>
    obtain ⟨fuel, rfl⟩ := Nat.exists_eq_add_of_le' enough
    rfl
  | unary op a ih =>
    obtain ⟨fuel, rfl⟩ := Nat.exists_eq_add_of_le' enough
    have enough' : a.size ≤ fuel + a.size := Nat.le_add_left _ _
    rw [size, ← Nat.add_assoc, Nat.add_right_comm, labels, List.cons_append, takeTree?, ih enough']
    rfl
  | binary op a b iha ihb =>
    obtain ⟨fuel, rfl⟩ := Nat.exists_eq_add_of_le' enough
    rw [size, show fuel + (1 + a.size + b.size) = fuel + a.size + b.size + 1 by omega, labels,
      List.cons_append, List.append_assoc, takeTree?, iha (by omega)]
    change (takeTree? _ (b.labels ++ rest) >>= _) = _
    rw [ihb (by omega)]
    rfl
  | ternary op a b c iha ihb ihc =>
    obtain ⟨fuel, rfl⟩ := Nat.exists_eq_add_of_le' enough
    rw [size, show fuel + (1 + a.size + b.size + c.size) =
      fuel + a.size + b.size + c.size + 1 by omega, labels, List.cons_append, List.append_assoc,
      List.append_assoc, takeTree?, iha (by omega)]
    change (takeTree? _ (b.labels ++ (c.labels ++ rest)) >>= _) = _
    rw [ihb (by omega)]
    change (takeTree? _ (c.labels ++ rest) >>= _) = _
    rw [ihc (by omega)]
    rfl

theorem ofLabels?_labels (e : Expr) : ofLabels? e.labels = some e := by
  have read := takeTree?_labels (Nat.le_of_eq (length_labels e).symm) []
  rw [List.append_nil] at read
  rw [ofLabels?, read]

/-- A tree is known by its labels. -/
theorem labels_injective {e e' : Expr} (same : e.labels = e'.labels) : e = e' := by
  have read := ofLabels?_labels e'
  rw [← same, ofLabels?_labels] at read
  exact Option.some.inj read

/-! ### Leaves -/

/-- The places of the leaves among the subtrees, with the root at `start`. -/
def leavesAmong (start : Nat) (trees : List Expr) : List Nat :=
  ((trees.zipIdx start).filter (·.1.isLeaf)).map Prod.snd

theorem leavesAmong_append (start : Nat) (trees rest : List Expr) :
    leavesAmong start (trees ++ rest) =
      leavesAmong start trees ++ leavesAmong (start + trees.length) rest := by
  simp [leavesAmong, List.zipIdx_append]

theorem leavesAmong_cons (start : Nat) {e : Expr} (trees : List Expr) (inner : e.isLeaf = false) :
    leavesAmong start (e :: trees) = leavesAmong (start + 1) trees := by
  simp [leavesAmong, List.zipIdx_cons, inner]

theorem run_countLeaves (e : Expr) (start : Nat) :
    e.countLeaves.run start = (leavesAmong start e.subtrees, start + e.size) := by
  induction e generalizing start with
  | const value | var v => rfl
  | unary op a ih =>
    change a.countLeaves.run (start + 1) = _
    rw [ih, subtrees, leavesAmong_cons _ _ rfl, size, Nat.add_assoc]
  | binary op a b iha ihb =>
    simp only [countLeaves, StateT.run_bind, StateT.run_modify, StateT.run_pure, iha, ihb, pure_bind,
      subtrees, size, leavesAmong_cons (e := binary op a b) start _ rfl, leavesAmong_append,
      length_subtrees, ← Nat.add_assoc]
    rfl
  | ternary op a b c iha ihb ihc =>
    simp only [countLeaves, StateT.run_bind, StateT.run_modify, StateT.run_pure, iha, ihb, ihc,
      pure_bind, subtrees, size, leavesAmong_cons (e := ternary op a b c) start _ rfl,
      leavesAmong_append, List.length_append, length_subtrees, ← Nat.add_assoc]
    rfl

theorem leaves_eq (e : Expr) : e.leaves = leavesAmong 0 e.subtrees := by
  rw [leaves, run_countLeaves]

theorem mem_leaves_iff {e : Expr} {i : Nat} :
    i ∈ e.leaves ↔ ∃ s, e.subtree? i = some s ∧ s.isLeaf = true := by
  simp only [leaves_eq, leavesAmong, subtree?_eq_getElem?, List.mem_map, List.mem_filter,
    Prod.exists, exists_eq_right, List.mk_mem_zipIdx_iff_getElem?]

theorem sorted_leaves (e : Expr) : e.leaves.Pairwise (· < ·) := by
  rw [leaves_eq, leavesAmong]
  have ascending : ((e.subtrees.zipIdx 0).map Prod.snd).Pairwise (· < ·) := by
    rw [List.zipIdx_map_snd]
    exact List.pairwise_lt_range'
  exact ascending.sublist (List.filter_sublist.map _)

theorem countP_isLeaf (e : Expr) : e.subtrees.countP isLeaf = e.leafCount := by
  induction e with
  | const | var => rfl
  | unary op a ih => rw [subtrees, List.countP_cons_of_neg Bool.false_ne_true, ih, leafCount]
  | binary op a b iha ihb =>
    rw [subtrees, List.countP_cons_of_neg Bool.false_ne_true, List.countP_append, iha, ihb, leafCount]
  | ternary op a b c iha ihb ihc =>
    rw [subtrees, List.countP_cons_of_neg Bool.false_ne_true, List.countP_append, List.countP_append,
      iha, ihb, ihc, leafCount]

theorem length_leaves (e : Expr) : e.leaves.length = e.leafCount := by
  rw [leaves_eq, leavesAmong, List.length_map, ← List.countP_eq_length_filter]
  calc (e.subtrees.zipIdx 0).countP (·.1.isLeaf)
      = ((e.subtrees.zipIdx 0).map Prod.fst).countP isLeaf := by rw [List.countP_map]; rfl
    _ = e.leafCount := by rw [List.zipIdx_map_fst, countP_isLeaf]

theorem leafCount_pos (e : Expr) : 0 < e.leafCount := by
  induction e with
  | const | var => exact Nat.one_pos
  | unary op a ih => exact ih
  | binary op a b iha _ => exact Nat.add_pos_left iha _
  | ternary op a b c iha _ _ => exact Nat.add_pos_left (Nat.add_pos_left iha _) _

theorem leaves_pos (e : Expr) : 0 < e.leaves.length := by
  rw [length_leaves]
  exact leafCount_pos e

/-! ### Visits -/

section

variable {m : Type → Type} [Monad m] [LawfulMonad m]

theorem labels_withChildren {e : Expr} (operands : List Expr)
    (fits : operands.length = e.children.length) :
    (e.withChildren operands).labels = e.label :: operands.flatMap labels := by
  cases e with
  | const value | var v =>
    obtain rfl := List.length_eq_zero_iff.mp fits
    rfl
  | unary op a =>
    obtain ⟨a', rfl⟩ := List.length_eq_one_iff.mp fits
    simp [withChildren, labels, label]
  | binary op a b =>
    obtain ⟨a', b', rfl⟩ := List.length_eq_two.mp fits
    simp [withChildren, labels, label]
  | ternary op a b c =>
    obtain ⟨a', b', c', rfl⟩ := List.length_eq_three.mp fits
    simp [withChildren, labels, label]

theorem Twin.labels_withChildren {e : Expr} (twin : Twin e) (operands : List Expr)
    (fits : operands.length = e.children.length) :
    (twin.node.withChildren operands).labels = twin.node.label :: operands.flatMap labels :=
  Expr.labels_withChildren operands (by rw [fits, twin.children_node])

theorem Twin.labels_leaf {e : Expr} (twin : Twin e) (leaf : e.children = []) :
    twin.node.labels = [twin.node.label] := by
  have same := twin.children_node.trans leaf
  cases node : twin.node with
  | const value | var v => rfl
  | unary | binary | ternary =>
    rw [node] at same
    cases same

theorem bind_labels {β : Type} {x : m Expr} {y : m (List Expr)}
    (same : labels <$> x = List.map label <$> y) (next : List Label → m β) :
    (x >>= fun e => next e.labels) = y >>= fun es => next (es.map label) := by
  calc (x >>= fun e => next e.labels)
      = labels <$> x >>= next := (bind_map_left labels x next).symm
    _ = List.map label <$> y >>= next := by rw [same]
    _ = _ := bind_map_left _ _ _

/-- A visit calls `f` on the subtrees in their order, each once, and the labels are those of what `f`
makes of them. -/
theorem labels_traverse (f : (e : Expr) → m (Twin e)) (e : Expr) :
    labels <$> e.traverse f = List.map label <$> e.subtrees.mapM fun s => Twin.node <$> f s := by
  induction e with
  | const value =>
    have single (twin : Twin (const value)) := twin.labels_leaf rfl
    simp [traverse, subtrees, single]
  | var v =>
    have single (twin : Twin (var v)) := twin.labels_leaf rfl
    simp [traverse, subtrees, single]
  | unary op a ih =>
    simp only [traverse, subtrees, List.mapM_cons, map_bind, map_pure, bind_map_left]
    refine bind_congr fun twin => ?_
    have parts (a' : Expr) : (twin.node.withChildren [a']).labels = twin.node.label :: a'.labels := by
      simp [twin.labels_withChildren [a'] rfl]
    simp only [parts]
    exact bind_labels ih fun rest => pure (twin.node.label :: rest)
  | binary op a b iha ihb =>
    simp only [traverse, subtrees, List.mapM_cons, List.mapM_append, map_bind, map_pure,
      bind_map_left, bind_assoc, pure_bind]
    refine bind_congr fun twin => ?_
    have parts (a' b' : Expr) : (twin.node.withChildren [a', b']).labels =
        twin.node.label :: (a'.labels ++ b'.labels) := by
      simp [twin.labels_withChildren [a', b'] rfl]
    simp only [parts, List.map_cons, List.map_append]
    refine (bind_labels iha fun left => b.traverse f >>= fun b' =>
      pure (twin.node.label :: (left ++ b'.labels))).trans (bind_congr fun left => ?_)
    exact bind_labels ihb fun right => pure (twin.node.label :: (left.map label ++ right))
  | ternary op a b c iha ihb ihc =>
    simp only [traverse, subtrees, List.mapM_cons, List.mapM_append, map_bind, map_pure,
      bind_map_left, bind_assoc, pure_bind]
    refine bind_congr fun twin => ?_
    have parts (a' b' c' : Expr) : (twin.node.withChildren [a', b', c']).labels =
        twin.node.label :: (a'.labels ++ b'.labels ++ c'.labels) := by
      simp [twin.labels_withChildren [a', b', c'] rfl]
    simp only [parts, List.map_cons, List.map_append]
    refine (bind_labels iha fun left => b.traverse f >>= fun b' => c.traverse f >>= fun c' =>
      pure (twin.node.label :: (left ++ b'.labels ++ c'.labels))).trans (bind_congr fun left => ?_)
    refine (bind_labels ihb fun middle => c.traverse f >>= fun c' =>
      pure (twin.node.label :: (left.map label ++ middle ++ c'.labels))).trans
      (bind_congr fun middle => ?_)
    exact bind_labels ihc fun right =>
      pure (twin.node.label :: (left.map label ++ middle.map label ++ right))

end

/-! ### One numbering -/

/-- How the nodes of `e` are reached by their places: the searches, the places of the leaves and the
visits all keep to the order of its subtrees. -/
structure Numbered (e : Expr) : Prop where
  subtree : ∀ i, e.subtree? i = e.subtrees[i]?
  missing : ∀ i, e.subtree? i = none ↔ e.size ≤ i
  leaves_ascend : e.leaves.Pairwise (· < ·)
  leaves_length : e.leaves.length = e.leafCount ∧ 1 ≤ e.leafCount
  leaves_mem : ∀ i, i ∈ e.leaves ↔ ∃ s, e.subtree? i = some s ∧ s.isLeaf = true
  /-- A place that is sought for a change is the one that is found when it is only looked at. -/
  focus : ∀ i, (e.focus? i).map Focus.node = e.subtree? i
  /-- The nodes before the replaced subtree and the nodes behind it stay as they are. -/
  replaced : ∀ i r, (e.replace? i r).map Expr.labels = (e.subtree? i).map fun s =>
    e.labels.take i ++ r.labels ++ e.labels.drop (i + s.size)
  labels : e.labels = e.subtrees.map label
  /-- A tree is known by its labels. -/
  unique : ∀ e', e'.labels = e.labels → e' = e
  /-- Each node is visited once, and the labels are those of what the visit makes of the nodes. -/
  visit : ∀ (σ ε : Type) (f : (s : Expr) → StateT σ (Except ε) (Twin s)),
    Expr.labels <$> e.traverse f = List.map label <$> e.subtrees.mapM fun s => Twin.node <$> f s

theorem numbered (e : Expr) : Numbered e where
  subtree := subtree?_eq_getElem? e
  missing _ := subtree?_eq_none_iff
  leaves_ascend := sorted_leaves e
  leaves_length := ⟨length_leaves e, leafCount_pos e⟩
  leaves_mem _ := mem_leaves_iff
  focus := map_node_focus? e
  replaced := map_labels_replace? e
  labels := labels_eq_map e
  unique _ := labels_injective
  visit _ _ f := labels_traverse f e

end FractalBreeder.Expr
