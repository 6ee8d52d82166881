import FractalBreeder.Proofs.Expr.Reading

/-!
A token sequence that is read to its end has a derivation. The sequence is cut from the front: each
category takes as much as it can, and what is left is accepted where an operator may come next.
-/
namespace FractalBreeder.Postfix

open Grammar

variable {length : Nat}

/-- No operator comes next that binds at least as strongly as given. -/
def StopsBefore (strength : Nat) (lexemes : List Lexeme) : Prop :=
  ∀ next ∈ lexemes.head?, ∀ op, next.token = .operator op → op.precedence < strength

/-- The front of the sequence has a derivation that nothing behind it can extend. -/
def StartsWith (c : Category) (length : Nat) (lexemes : List Lexeme) : Prop :=
  ∃ front rest e left, lexemes = front ++ rest ∧ Derives c (front.map Lexeme.token) e ∧
    StopsBefore c.strength rest ∧ Accepts length left false rest

/-- Every accepted sequence up to the given size starts with the category. -/
def AlwaysStartsWith (c : Category) (length size : Nat) : Prop :=
  ∀ lexemes pending, lexemes.length ≤ size → Accepts length pending true lexemes →
    StartsWith c length lexemes

theorem accepts_rest {awaiting next : Bool} {pending left : List Pending}
    {lexemes rest : List Lexeme} {items : List Postfix}
    (equal : reorder length pending awaiting lexemes =
      emitting items (reorder length left next rest))
    (accepts : Accepts length pending awaiting lexemes) : Accepts length left next rest := by
  rcases accepts with ⟨all, read⟩
  exact ok_of_map (equal.symm.trans read)

/-- Behind an operand there is an operator that binds strongly enough, or nothing that does. -/
theorem operator_or_stops {left : List Pending} {lexemes : List Lexeme} (strength : Nat)
    (accepts : Accepts length left false lexemes) :
    (∃ position op below rest, lexemes = ⟨position, .operator op⟩ :: rest ∧
      strength ≤ op.precedence ∧ Accepts length (.binary op :: below) true rest) ∨
      StopsBefore strength lexemes := by
  cases continuation_of_accepts accepts with
  | finish _ =>
      right
      intro next member
      cases member
  | @operator position op below rest accepted =>
      by_cases level : strength ≤ op.precedence
      · left
        exact ⟨position, op, below, rest, rfl, level, accepted⟩
      · right
        intro next member other same
        cases member
        cases same
        exact Nat.lt_of_not_le level
  | comma _ _ | closingGroup _ _ | closingCall _ _ _ =>
      right
      intro next member op same
      cases member
      cases same

/-- A chain goes on as long as operators of its own strength follow. -/
theorem chain_extends {outer inner : Category} {size : Nat}
    (step : ∀ op ts us a b, outer.strength ≤ op.precedence → op.precedence < inner.strength →
      Derives outer ts a → Derives inner us b →
      Derives outer (ts ++ .operator op :: us) (.binary op a b))
    (starts : AlwaysStartsWith inner length size) {front : List Lexeme} {a : Expr}
    (lexemes : List Lexeme) (left : List Pending) (bounded : lexemes.length ≤ size)
    (derived : Derives outer (front.map Lexeme.token) a)
    (stops : StopsBefore inner.strength lexemes) (accepts : Accepts length left false lexemes) :
    StartsWith outer length (front ++ lexemes) := by
  rcases operator_or_stops outer.strength accepts with
    ⟨position, op, below, rest, rfl, level, accepted⟩ | stopped
  · simp only [List.length_cons] at bounded
    rcases starts rest _ (by omega) accepted with
      ⟨more, tail, b, after, rfl, derivedMore, stopsMore, acceptsMore⟩
    have weaker : op.precedence < inner.strength := stops _ rfl op rfl
    have extended := step op _ _ a b level weaker derived derivedMore
    have shape : (front ++ ⟨position, .operator op⟩ :: more).map Lexeme.token =
        front.map Lexeme.token ++ .operator op :: more.map Lexeme.token := by simp
    have shorter : tail.length < (⟨position, .operator op⟩ :: (more ++ tail)).length := by
      simp only [List.length_cons, List.length_append]
      omega
    simp only [List.length_append] at bounded
    have whole := chain_extends step starts tail after (by omega) (shape ▸ extended)
      stopsMore acceptsMore
    simpa using whole
  · exact ⟨front, lexemes, a, left, rfl, derived, stopped, accepts⟩
termination_by lexemes.length

theorem alwaysStartsWith_chain {outer inner : Category} {size : Nat}
    (start : ∀ ts e, Derives inner ts e → Derives outer ts e)
    (step : ∀ op ts us a b, outer.strength ≤ op.precedence → op.precedence < inner.strength →
      Derives outer ts a → Derives inner us b →
      Derives outer (ts ++ .operator op :: us) (.binary op a b))
    (starts : AlwaysStartsWith inner length size) : AlwaysStartsWith outer length size := by
  intro lexemes pending bounded accepts
  obtain ⟨front, rest, e, left, rfl, derived, stops, accepted⟩ :=
    starts lexemes pending bounded accepts
  simp only [List.length_append] at bounded
  exact chain_extends step starts rest left (by omega) (start _ _ derived) stops accepted

theorem alwaysStartsWith_sum {size : Nat} (starts : AlwaysStartsWith .factor length size) :
    AlwaysStartsWith .sum length size := by
  have products : AlwaysStartsWith .product length size := by
    refine alwaysStartsWith_chain (fun _ _ => .product_factor) ?_ starts
    intro op ts us a b strong weak first second
    refine .product_step ?_ first second
    cases op with
    | add | sub => exact absurd strong (by decide)
    | mul => exact .inl rfl
    | div => exact .inr rfl
    | pow => exact absurd weak (by decide)
  refine alwaysStartsWith_chain (fun _ _ => .sum_product) ?_ products
  intro op ts us a b strong weak first second
  refine .sum_step ?_ first second
  cases op with
  | add => exact .inl rfl
  | sub => exact .inr rfl
  | mul | div | pow => exact absurd weak (by decide)

/-- How a sequence goes on behind an open parenthesis: a sum, and what may stand behind it. -/
inductive Enclosed (length : Nat) (pending : List Pending) : Pending → List Lexeme → Prop where
  | group {front rest : List Lexeme} {e : Expr} {position : Nat} :
      Derives .sum (front.map Lexeme.token) e → Accepts length pending false rest →
      Enclosed length pending .group (front ++ ⟨position, .closing⟩ :: rest)
  | last {front rest : List Lexeme} {e : Expr} {position opening commas : Nat} {f : Function} :
      Derives .sum (front.map Lexeme.token) e → commas + 1 = f.arity →
      Accepts length pending false rest →
      Enclosed length pending (.call f opening commas) (front ++ ⟨position, .closing⟩ :: rest)
  | more {front rest : List Lexeme} {e : Expr} {position opening commas : Nat} {f : Function} :
      Derives .sum (front.map Lexeme.token) e →
      Accepts length (.call f opening (commas + 1) :: pending) true rest →
      Enclosed length pending (.call f opening commas) (front ++ ⟨position, .comma⟩ :: rest)

theorem precedence_pos (op : Binary) : 1 ≤ op.precedence := by
  cases op <;> decide

theorem enclosed_of_accepts {size : Nat} (starts : AlwaysStartsWith .sum length size)
    {lexemes : List Lexeme} {frame : Pending} {pending : List Pending}
    (silent : frame.item? = none) (bounded : lexemes.length ≤ size)
    (accepts : Accepts length (frame :: pending) true lexemes) :
    Enclosed length pending frame lexemes := by
  rcases starts lexemes _ bounded accepts with ⟨front, rest, e, _, rfl, derived, stops, _⟩
  rcases reads_of_derives derived with ⟨items, ops, bound, _, read⟩
  have opened : ∀ p ∈ (frame :: pending).head?, p.item? = none := by
    intro p top
    obtain rfl := Option.some.inj top
    exact silent
  have drains := drain_append bound opened
  have accepted := accepts_rest
    (read length (frame :: pending) front rest (floor_frame silent 1 pending) rfl) accepts
  cases continuation_of_accepts accepted with
  | finish finished =>
      rw [finish_opened bound silent] at finished
      cases finished
  | operator _ =>
      have weak := stops _ rfl _ rfl
      exact absurd (precedence_pos _) (Nat.not_le_of_lt weak)
  | comma drained after =>
      rw [drains] at drained
      cases drained
      exact .more derived after
  | closingGroup drained after =>
      rw [drains] at drained
      cases drained
      exact .group derived after
  | closingCall drained complete after =>
      rw [drains] at drained
      cases drained
      exact .last derived complete after

/-- The arguments of a call up to its closing parenthesis. -/
inductive Arguments : List Token → List Expr → Prop where
  | last {ts : List Token} {e : Expr} : Derives .sum ts e → Arguments (ts ++ [.closing]) [e]
  | more {ts us : List Token} {e : Expr} {es : List Expr} : Derives .sum ts e → Arguments us es →
      Arguments (ts ++ .comma :: us) (e :: es)

theorem arguments_of_accepts {size : Nat} (starts : AlwaysStartsWith .sum length size)
    {f : Function} {opening commas : Nat} {pending : List Pending} (lexemes : List Lexeme)
    (bounded : lexemes.length ≤ size)
    (accepts : Accepts length (.call f opening commas :: pending) true lexemes) :
    ∃ front rest es, lexemes = front ++ rest ∧ Arguments (front.map Lexeme.token) es ∧
      commas + es.length = f.arity ∧ Accepts length pending false rest := by
  cases enclosed_of_accepts starts rfl bounded accepts with
  | @last front rest e position _ _ _ derived complete after =>
      refine ⟨front ++ [⟨position, .closing⟩], rest, [e], by simp, ?_, complete, after⟩
      simpa using Arguments.last derived
  | @more front rest e position _ _ _ derived after =>
      have shorter : rest.length < (front ++ ⟨position, .comma⟩ :: rest).length := by
        simp only [List.length_append, List.length_cons]
        omega
      obtain ⟨others, tail, es, rfl, arguments, complete, accepted⟩ :=
        arguments_of_accepts starts rest (by omega) after
      refine ⟨front ++ ⟨position, .comma⟩ :: others, tail, e :: es, by simp, ?_, ?_, accepted⟩
      · simpa using Arguments.more derived arguments
      · simp only [List.length_cons]
        omega
termination_by lexemes.length

theorem derives_call {f : Function} {ts : List Token} {es : List Expr}
    (arguments : Arguments ts es) (complete : es.length = f.arity) :
    ∃ e, Derives .atom (.name f.name :: .opening :: ts) e := by
  cases f with
  | unary op =>
      cases arguments with
      | last derived => exact ⟨_, .unary op derived⟩
      | more _ others => cases others <;> simp [Function.arity] at complete
  | ternary op =>
      cases arguments with
      | last _ => simp [Function.arity] at complete
      | more first others =>
          cases others with
          | last _ => simp [Function.arity] at complete
          | more second others =>
              cases others with
              | last third =>
                  have derived := Derives.ternary op first second third
                  simp only [List.append_assoc, List.cons_append] at derived
                  exact ⟨_, derived⟩
              | more _ others => cases others <;> simp [Function.arity] at complete

/-- An atom is a factor by itself, or the base of a power. -/
theorem startsWith_atom {size : Nat} (starts : AlwaysStartsWith .factor length size)
    {front rest : List Lexeme} {a : Expr} {pending : List Pending}
    (bounded : rest.length ≤ size + 1) (derived : Derives .atom (front.map Lexeme.token) a)
    (accepts : Accepts length pending false rest) :
    StartsWith .factor length (front ++ rest) := by
  rcases operator_or_stops Category.factor.strength accepts with
    ⟨position, op, below, others, rfl, level, accepted⟩ | stops
  · obtain rfl : op = .pow := by
      cases op with
      | pow => rfl
      | add | sub | mul | div => exact absurd level (by decide)
    simp only [List.length_cons] at bounded
    rcases starts others _ (by omega) accepted with
      ⟨more, tail, b, after, rfl, derivedMore, stops, acceptsMore⟩
    have power := Derives.factor_power (.power_step derived derivedMore)
    refine ⟨front ++ ⟨position, .operator .pow⟩ :: more, tail, .binary .pow a b, after,
      by simp, ?_, stops, acceptsMore⟩
    simpa using power
  · exact ⟨front, rest, a, pending, rfl, .factor_power (.power_atom derived), stops, accepts⟩

theorem startsWith_minus {position : Nat} {lexemes : List Lexeme}
    (starts : StartsWith .factor length lexemes) :
    StartsWith .factor length (⟨position, .operator .sub⟩ :: lexemes) := by
  rcases starts with ⟨front, rest, e, left, rfl, derived, stops, accepts⟩
  cases plain : e.isConst with
  | true =>
      cases e with
      | const value =>
          exact ⟨⟨position, .operator .sub⟩ :: front, rest, _, left, rfl,
            .factor_minus_const derived, stops, accepts⟩
      | var | unary | binary | ternary => cases plain
  | false =>
      exact ⟨⟨position, .operator .sub⟩ :: front, rest, _, left, rfl,
        .factor_minus derived plain, stops, accepts⟩

theorem startsWith_plus {position : Nat} {lexemes : List Lexeme}
    (starts : StartsWith .factor length lexemes) :
    StartsWith .factor length (⟨position, .operator .add⟩ :: lexemes) := by
  rcases starts with ⟨front, rest, e, left, rfl, derived, stops, accepts⟩
  exact ⟨⟨position, .operator .add⟩ :: front, rest, e, left, rfl, .factor_plus derived, stops,
    accepts⟩

theorem alwaysStartsWith_factor (length size : Nat) : AlwaysStartsWith .factor length size := by
  induction size with
  | zero =>
      intro lexemes pending bounded accepts
      obtain rfl := List.eq_nil_of_length_eq_zero (Nat.le_zero.mp bounded)
      cases operand_of_accepts accepts
  | succ size ih =>
      intro lexemes pending bounded accepts
      cases operand_of_accepts accepts with
      | @number position x rest accepted =>
          simp only [List.length_cons] at bounded
          have atom : Derives .atom ([⟨position, .number x⟩].map Lexeme.token) _ := .number x
          exact startsWith_atom ih (by omega) atom accepted
      | @var position v rest accepted =>
          simp only [List.length_cons] at bounded
          have atom : Derives .atom ([⟨position, .name v.name⟩].map Lexeme.token) _ := .var v
          exact startsWith_atom ih (by omega) atom accepted
      | @call position opening f rest accepted =>
          simp only [List.length_cons] at bounded
          obtain ⟨front, tail, es, rfl, arguments, complete, after⟩ :=
            arguments_of_accepts (alwaysStartsWith_sum ih) rest (by omega) accepted
          rcases derives_call arguments (by simpa using complete) with ⟨e, derived⟩
          have atom : Derives .atom (List.map Lexeme.token
              (⟨position, .name f.name⟩ :: ⟨opening, .opening⟩ :: front)) e := derived
          simp only [List.length_append] at bounded
          exact startsWith_atom ih (by omega) atom after
      | @group position rest accepted =>
          simp only [List.length_cons] at bounded
          cases enclosed_of_accepts (alwaysStartsWith_sum ih) rfl (by omega) accepted with
          | @group front rest e closing derived after =>
              have atom : Derives .atom (List.map Lexeme.token
                  (⟨position, .opening⟩ :: (front ++ [⟨closing, .closing⟩]))) e := by
                simpa using Derives.group derived
              simp only [List.length_append, List.length_cons] at bounded
              have starts := startsWith_atom ih (by omega) atom after
              simpa using starts
      | plus accepted =>
          simp only [List.length_cons] at bounded
          exact startsWith_plus (ih _ _ (by omega) accepted)
      | minus accepted =>
          simp only [List.length_cons] at bounded
          exact startsWith_minus (ih _ _ (by omega) accepted)

theorem derives_of_accepts {lexemes : List Lexeme} (accepts : Accepts length [] true lexemes) :
    ∃ e, Derives .sum (lexemes.map Lexeme.token) e := by
  have starts := alwaysStartsWith_sum (alwaysStartsWith_factor length lexemes.length)
  rcases starts _ _ (Nat.le_refl _) accepts with ⟨front, rest, e, _, rfl, derived, stops, _⟩
  rcases reads_of_derives derived with ⟨items, ops, bound, _, read⟩
  have accepted := accepts_rest (read length [] front rest (Pending.floor_nil 1) rfl) accepts
  have drains : drain (ops ++ []) = (emit ops, []) :=
    drain_append bound (by intro p top; cases top)
  cases continuation_of_accepts accepted with
  | finish _ => exact ⟨e, by simpa using derived⟩
  | operator _ =>
      have weak := stops _ rfl _ rfl
      exact absurd (precedence_pos _) (Nat.not_le_of_lt weak)
  | comma drained _ =>
      rw [drains] at drained
      cases drained
  | closingGroup drained _ =>
      rw [drains] at drained
      cases drained
  | closingCall drained _ _ =>
      rw [drains] at drained
      cases drained

/-- A sum of the grammar is reordered, and its tree is built from the items. -/
theorem tree_of_derives {lexemes : List Lexeme} {e : Expr}
    (derived : Derives .sum (lexemes.map Lexeme.token) e) :
    ∃ items, reorder length [] true lexemes = .ok items ∧ tree? items = some e := by
  rcases reads_of_derives derived with ⟨items, ops, bound, ran, read⟩
  have whole := read length [] lexemes [] (Pending.floor_nil 1) rfl
  simp only [List.append_nil] at whole
  refine ⟨items ++ emit ops, ?_, tree_of_run (ran [])⟩
  rw [whole, reorder]
  simp only [Bool.false_eq_true, ↓reduceIte, finish_of_binds length bound, emitting_ok]

/-- What tokens are reordered to always makes one tree. -/
theorem tree_of_reorder {lexemes : List Lexeme} {items : List Postfix}
    (reordered : reorder length [] true lexemes = .ok items) : ∃ e, tree? items = some e := by
  obtain ⟨e, derived⟩ := derives_of_accepts ⟨items, reordered⟩
  obtain ⟨others, again, built⟩ : ∃ others,
      reorder length [] true lexemes = .ok others ∧ tree? others = some e :=
    tree_of_derives derived
  obtain rfl := Except.ok.inj (reordered.symm.trans again)
  exact ⟨e, built⟩

end FractalBreeder.Postfix
