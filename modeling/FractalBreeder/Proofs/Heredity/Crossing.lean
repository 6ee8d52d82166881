import Mathlib.Algebra.Order.Group.Multiset
import Mathlib.Tactic.Abel
import FractalBreeder.Proofs.Heredity.Faithfulness
import FractalBreeder.Proofs.Heredity.Resumption

/-!
Crossing exchanges two subtrees below the roots. One is lifted out of its tree, carried to the place
of the other, and that one is carried back; what stood in for it meanwhile is in hand at the end. So
no node is made or lost, whatever stood in.
-/
namespace FractalBreeder

namespace Expr

variable {e a b : Expr} {i p q : Nat} {focus : Focus}

theorem trade_of_aim {s : Expr} {put : Expr → Expr} (aimed : e.aim i = .error ⟨s, put⟩) (hand : Expr) :
    e.trade i hand = (put hand, s) := by
  rw [trade, focus?, aimed]
  rfl

/-- The second trade finds its place again, although the tree has changed its size there. -/
theorem exchangeThrough_eq {first second : Focus} (left : Points a p first)
    (right : Points b q second) (blank : Expr) :
    exchangeThrough blank a b p q =
      ((first.put second.node, second.put first.node), blank) := by
  rw [exchangeThrough, trade_of_aim right.aimed]
  dsimp only
  rw [trade_of_aim left.aimed, trade_of_aim (right.again blank)]

/-- What is put in comes on top, and what was there goes. -/
theorem Points.add_labels (points : Points e i focus) (r : Expr) :
    ((focus.put r).labels : Multiset Label) + focus.node.labels = e.labels + r.labels := by
  obtain ⟨before, after, -, put⟩ := points.between
  have whole : e.labels = before ++ focus.node.labels ++ after := by rw [← put, points.put_node]
  rw [put, whole]
  simp only [← Multiset.coe_add]
  abel

theorem head?_labels (e : Expr) : e.labels.head? = some e.label := by
  cases e <;> rfl

theorem Points.label_put (points : Points e i focus) (below : 0 < i) (r : Expr) :
    (focus.put r).label = e.label := by
  have whole := points.labels r
  have start : (e.labels.take i).head? = some e.label := by
    rw [List.head?_take, if_neg below.ne', head?_labels]
  have head := head?_labels (focus.put r)
  rw [whole, List.append_assoc, List.head?_append, start] at head
  exact (Option.some.inj head).symm

/-- `c` and `d` are `a` and `b` with the subtree at `p` of the one and that at `q` of the other in each
other's places. -/
structure Exchanged (a b : Expr) (p q : Nat) (c d : Expr) : Prop where
  exchanged : ∃ s t, a.subtree? p = some s ∧ b.subtree? q = some t ∧
    a.replace? p t = some c ∧ b.replace? q s = some d
  roots : c.label = a.label ∧ d.label = b.label
  size : c.size + d.size = a.size + b.size
  nodes : (c.labels : Multiset Label) + d.labels = a.labels + b.labels
  /-- Whatever stands in while a subtree is in hand, it is in none of the trees at the end. -/
  blank : ∀ blank, exchangeThrough blank a b p q = ((c, d), blank)

theorem exchanged_exchange (inside : p < a.size) (inside' : q < b.size) (below : 0 < p)
    (below' : 0 < q) : Exchanged a b p q (a.exchange b p q).1 (a.exchange b p q).2 := by
  obtain ⟨first, left⟩ := exists_points inside
  obtain ⟨second, right⟩ := exists_points inside'
  have children := exchangeThrough_eq left right
  have pair : a.exchange b p q = (first.put second.node, second.put first.node) := by
    rw [exchange, children]
  have nodes : ((first.put second.node).labels : Multiset Label) + (second.put first.node).labels =
      a.labels + b.labels := by
    refine add_right_cancel (b := (first.node.labels : Multiset Label) + second.node.labels) ?_
    calc _ = ((first.put second.node).labels + first.node.labels : Multiset Label) +
          ((second.put first.node).labels + second.node.labels) := by abel
      _ = (a.labels + second.node.labels : Multiset Label) + (b.labels + first.node.labels) := by
        rw [left.add_labels, right.add_labels]
      _ = _ := by abel
  rw [pair]
  exact {
    exchanged := by
      refine ⟨first.node, second.node, ?_, ?_, ?_, ?_⟩
      · rw [← map_node_focus?, left.focus?]
        rfl
      · rw [← map_node_focus?, right.focus?]
        rfl
      · rw [replace?, left.focus?]
        rfl
      · rw [replace?, right.focus?]
        rfl
    roots := ⟨left.label_put below _, right.label_put below' _⟩
    size := by
      have count := congrArg Multiset.card nodes
      simpa only [Multiset.card_add, Multiset.coe_card, length_labels] using count
    nodes := nodes
    blank := children }

theorem Exchanged.eq_exchange {c d : Expr} (exchanged : Exchanged a b p q c d) :
    a.exchange b p q = (c, d) := by
  rw [exchange, exchanged.blank]

end Expr

namespace Formula

open FractalBreeder.Expr (Exchanged)
open Draws (index)

/-- Two places are drawn, that of the first tree before that of the second. -/
theorem cross_of_inner {a b : Formula} (inner : 1 < a.root.size) (inner' : 1 < b.root.size) :
    a.cross b = index (a.root.size - 1) >>= fun p => index (b.root.size - 1) >>= fun q =>
      pure (ofExpr (a.root.exchange b.root (p + 1) (q + 1)).1,
        ofExpr (a.root.exchange b.root (p + 1) (q + 1)).2) := by
  have large : ¬ (a.root.size < 2 || b.root.size < 2) = true := by
    rw [Bool.or_eq_true, decide_eq_true_eq, decide_eq_true_eq]
    omega
  rw [cross, if_neg large]

theorem cross_eq_ok_iff {a b c d : Formula} {words left : List UInt64} (inner : 1 < a.root.size)
    (inner' : 1 < b.root.size) : a.cross b words = .ok ((c, d), left) ↔
      ∃ p q rest e e', index (a.root.size - 1) words = .ok (p, rest) ∧ p + 1 < a.root.size ∧
        index (b.root.size - 1) rest = .ok (q, left) ∧ q + 1 < b.root.size ∧
        Exchanged a.root b.root (p + 1) (q + 1) e e' ∧ c = ofExpr e ∧ d = ofExpr e' := by
  rw [cross_of_inner inner inner', Draws.bind_eq_ok]
  constructor
  · rintro ⟨p, rest, drawn, returned⟩
    obtain ⟨q, left, drawn', returned⟩ := Draws.bind_eq_ok.mp returned
    cases returned
    have below := Draws.ensures_index _ _ _ _ drawn
    have below' := Draws.ensures_index _ _ _ _ drawn'
    have inside : p + 1 < a.root.size := by omega
    have inside' : q + 1 < b.root.size := by omega
    exact ⟨p, q, rest, _, _, drawn, inside, drawn', inside',
      Expr.exchanged_exchange inside inside' p.succ_pos q.succ_pos, rfl, rfl⟩
  · rintro ⟨p, q, rest, e, e', drawn, -, drawn', -, exchanged, rfl, rfl⟩
    refine ⟨p, rest, drawn, Draws.bind_eq_ok.mpr ⟨q, left, drawn', ?_⟩⟩
    rw [exchanged.eq_exchange]
    rfl

/-- A range that is asked for by a cross is never empty. -/
theorem cross_ne_unusable (a b : Formula) (words : List UInt64) :
    a.cross b words ≠ .error .unusableRange := by
  by_cases leaf : a.root.size < 2 ∨ b.root.size < 2
  · rw [cross_of_leaf leaf]
    intro impossible
    cases impossible
  · rw [cross_of_inner (by omega) (by omega)]
    have secures : Draws.Secures (index (a.root.size - 1) >>= fun p =>
        index (b.root.size - 1) >>= fun q =>
          pure (ofExpr (a.root.exchange b.root (p + 1) (q + 1)).1,
            ofExpr (a.root.exchange b.root (p + 1) (q + 1)).2)) (fun _ => True) :=
      (Draws.secures_index (by omega)).bind fun p _ => (Draws.secures_index (by omega)).bind fun q _ =>
        Draws.secures_pure trivial
    exact secures.usable words

/-- Two formulas that cross come back as they are where one of the trees has a single node, and
nothing is drawn. Otherwise a place below each root is drawn, and the children are the trees with the
subtrees there in each other's places, with the texts printed anew. -/
theorem cross_exchanges (a b : Formula) (words : List UInt64) :
    (a.root.size = 1 ∨ b.root.size = 1 → a.cross b words = .ok ((a, b), words)) ∧
    (1 < a.root.size → 1 < b.root.size → ∀ c d left, a.cross b words = .ok ((c, d), left) ↔
      ∃ p q rest e e', index (a.root.size - 1) words = .ok (p, rest) ∧ p + 1 < a.root.size ∧
        index (b.root.size - 1) rest = .ok (q, left) ∧ q + 1 < b.root.size ∧
        Exchanged a.root b.root (p + 1) (q + 1) e e' ∧ c = ofExpr e ∧ d = ofExpr e') ∧
    a.cross b words ≠ .error .unusableRange ∧
    ∃ more children left, a.cross b (words ++ more) = .ok (children, left) := by
  refine ⟨fun single => ?_, fun inner inner' _ _ _ => cross_eq_ok_iff inner inner',
    cross_ne_unusable a b words, (resumes_cross a b).escapes words⟩
  rw [cross_of_leaf (by omega)]
  rfl

/-- A formula that crosses with itself. -/
theorem cross_exchanges_itself :
    let f := ofExpr (.binary .mul (.unary .sin (.var .x)) (.var .y))
    1 < f.root.size ∧ ∃ c d, f.cross f [0, 0x8000000000000000] = .ok ((c, d), []) ∧
      c.root = .binary .mul (.var .x) (.var .y) ∧
      d.root = .binary .mul (.unary .sin (.unary .sin (.var .x))) (.var .y) := by
  intro f
  have inner : 1 < f.root.size := by decide
  have exchanged : Exchanged f.root f.root 1 2 (.binary .mul (.var .x) (.var .y))
      (.binary .mul (.unary .sin (.unary .sin (.var .x))) (.var .y)) :=
    Expr.exchanged_exchange (by decide) (by decide) (by decide) (by decide)
  have drawn : index 3 [0, 0x8000000000000000] = .ok (0, [0x8000000000000000]) := by decide +kernel
  have drawn' : index 3 [0x8000000000000000] = .ok (1, []) := by decide +kernel
  exact ⟨inner, _, _, ((cross_exchanges f f _).2.1 inner inner _ _ _).mpr
    ⟨0, 1, _, _, _, drawn, by decide, drawn', by decide, exchanged, rfl, rfl⟩, rfl, rfl⟩

end Formula

end FractalBreeder
