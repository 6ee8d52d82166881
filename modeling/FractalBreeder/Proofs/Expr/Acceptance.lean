import FractalBreeder.Expr.Parser
import FractalBreeder.Proofs.Expr.Recognition
import FractalBreeder.Proofs.Expr.Splitting

/-!
A text is read as an expression if and only if it splits into tokens that the grammar derives.
-/
namespace FractalBreeder.Expr

theorem parse_of_derives {text : String} {ts : List Token} {e : Expr}
    (splits : Token.Splits text.toList ts) (derives : Grammar.Derives .sum ts e) :
    parse text = .ok e := by
  rcases Token.lex_of_splits splits 0 with ⟨lexemes, read, rfl⟩
  have nonempty : lexemes.isEmpty = false := by
    cases lexemes with
    | nil => exact absurd rfl (Grammar.derives_nonempty derives)
    | cons _ _ => rfl
  obtain ⟨items, reordered, tree⟩ : ∃ items,
      Postfix.reorder text.utf8ByteSize [] true lexemes = .ok items ∧
        Postfix.tree? items = some e :=
    Postfix.tree_of_derives derives
  unfold parse
  rw [read]
  simp [bind, Except.bind, nonempty, reordered, tree]

theorem derives_of_parse {text : String} {e : Expr} (read : parse text = .ok e) :
    ∃ ts, Token.Splits text.toList ts ∧ Grammar.Derives .sum ts e := by
  have whole := read
  unfold parse at read
  rcases Token.bind_eq_ok.mp read with ⟨lexemes, lexed, read⟩
  simp only at read
  split at read
  · cases read
  · rcases Token.bind_eq_ok.mp read with ⟨items, reordered, read⟩
    rcases Postfix.derives_of_accepts ⟨items, reordered⟩ with ⟨other, derived⟩
    have splits := Token.splits_of_lex lexed
    -- the reader gives the one tree that the grammar gives
    have same : e = other := Except.ok.inj (whole.symm.trans (parse_of_derives splits derived))
    exact ⟨_, splits, same ▸ derived⟩

theorem parse_eq_ok_iff (text : String) (e : Expr) :
    parse text = .ok e ↔ ∃ ts, Token.Splits text.toList ts ∧ Grammar.Derives .sum ts e := by
  constructor
  · exact derives_of_parse
  · rintro ⟨ts, splits, derived⟩
    exact parse_of_derives splits derived

end FractalBreeder.Expr
