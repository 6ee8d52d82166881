import FractalBreeder.Proofs.Expr.Steps

/-!
A derivation is read to items that build its tree, whatever waits on the stack.
-/
namespace FractalBreeder

namespace Grammar.Category

/-- How strongly everything binds that a category leaves waiting. -/
def strength : Category → Nat
  | sum => 1
  | product => 2
  | factor | power => 3
  | atom => 5

/-- A sum or a product must not take up an operator that waits for less. -/
def Fits : Category → List Postfix.Pending → Prop
  | sum, pending => Postfix.Pending.Floor 1 pending
  | product, pending => Postfix.Pending.Floor 2 pending
  | factor, _ | power, _ | atom, _ => True

end Grammar.Category

namespace Postfix

open Grammar

/-- Tokens that put one operand on the stack and leave operators waiting above what waited
before. -/
def Reads (c : Category) (ts : List Token) (e : Expr) : Prop :=
  ∃ items ops, (∀ p ∈ ops, p.Binds c.strength) ∧
    (∀ stack, run (items ++ emit ops) stack = some (e :: stack)) ∧
    ∀ length pending lexemes rest, c.Fits pending → lexemes.map Lexeme.token = ts →
      reorder length pending true (lexemes ++ rest) =
        emitting items (reorder length (ops ++ pending) false rest)

theorem reads_weaken {strong weak : Category} {ts : List Token} {e : Expr}
    (less : weak.strength ≤ strong.strength)
    (fits : ∀ pending, weak.Fits pending → strong.Fits pending) (reads : Reads strong ts e) :
    Reads weak ts e := by
  rcases reads with ⟨items, ops, bound, ran, read⟩
  refine ⟨items, ops, fun p member => Pending.binds_mono less (bound p member), ran, ?_⟩
  intro length pending lexemes rest fit tokens
  exact read length pending lexemes rest (fits pending fit) tokens

/-- Sums and products take one more operand of the next category behind an operator. -/
theorem reads_step {outer inner : Category} {op : Binary} {ts us : List Token} {a b : Expr}
    (left : op.isRightAssociative = false) (level : outer.strength = op.precedence)
    (tighter : outer.strength ≤ inner.strength)
    (floor : ∀ pending, outer.Fits pending → Pending.Floor op.precedence pending)
    (fits : ∀ pending, inner.Fits (.binary op :: pending))
    (first : Reads outer ts a) (second : Reads inner us b) :
    Reads outer (ts ++ .operator op :: us) (.binary op a b) := by
  rcases first with ⟨itemsA, opsA, boundA, ranA, readA⟩
  rcases second with ⟨itemsB, opsB, boundB, ranB, readB⟩
  refine ⟨itemsA ++ emit opsA ++ itemsB, opsB ++ [.binary op], ?_, ?_, ?_⟩
  · intro p member
    rcases List.mem_append.mp member with inside | last
    · exact Pending.binds_mono tighter (boundB p inside)
    · obtain rfl := List.mem_singleton.mp last
      exact Nat.le_of_eq level
  · intro stack
    calc
      _ = run ((itemsA ++ emit opsA) ++ (itemsB ++ emit opsB) ++ [.binary op]) stack := by
        simp only [emit_append, emit_binary, emit_nil, List.append_assoc]
      _ = (run (itemsB ++ emit opsB) (a :: stack)).bind (run [.binary op]) := by
        rw [run_append, run_append, ranA, Option.bind_some]
      _ = some (.binary op a b :: stack) := by
        rw [ranB]
        rfl
  · intro length pending lexemes rest fit tokens
    rcases List.map_eq_append_iff.mp tokens with ⟨front, back, rfl, frontTokens, backTokens⟩
    rcases List.map_eq_cons_iff.mp backTokens with ⟨⟨position, token⟩, tail, rfl, rfl, tailTokens⟩
    have released : release op (opsA ++ pending) = (emit opsA, pending) :=
      release_append left (fun p member => level ▸ boundA p member) (floor pending fit)
    calc
      _ = emitting itemsA (reorder length (opsA ++ pending) false
            (⟨position, .operator op⟩ :: (tail ++ rest))) := by
        rw [List.append_assoc, readA length pending front _ fit frontTokens, List.cons_append]
      _ = emitting itemsA (emitting (emit opsA)
            (reorder length (.binary op :: pending) true (tail ++ rest))) := by
        rw [reorder_operator released]
      _ = emitting itemsA (emitting (emit opsA) (emitting itemsB
            (reorder length (opsB ++ .binary op :: pending) false rest))) := by
        rw [readB length _ tail rest (fits pending) tailTokens]
      _ = _ := by simp

theorem reads_atom {ts : List Token} {e : Expr} {items : List Postfix}
    (ran : ∀ stack, run items stack = some (e :: stack))
    (read : ∀ length pending lexemes rest, lexemes.map Lexeme.token = ts →
      reorder length pending true (lexemes ++ rest) =
        emitting items (reorder length pending false rest)) :
    Reads .atom ts e := by
  refine ⟨items, [], by simp, by simpa using ran, ?_⟩
  intro length pending lexemes rest _ tokens
  exact read length pending lexemes rest tokens

theorem reads_lexeme {token : Token} {e : Expr} {item : Postfix}
    (pushed : ∀ stack, item.push? stack = some (e :: stack))
    (step : ∀ length pending position rest,
      reorder length pending true (⟨position, token⟩ :: rest) =
        emitting [item] (reorder length pending false rest)) :
    Reads .atom [token] e := by
  have ran : ∀ stack, run [item] stack = some (e :: stack) := by
    intro stack
    rw [run_cons, pushed]
    rfl
  refine reads_atom ran ?_
  intro length pending lexemes rest tokens
  rcases List.map_eq_singleton_iff.mp tokens with ⟨⟨position, _⟩, rfl, rfl⟩
  exact step length pending position rest

/-- No operator binds as strongly as an atom, so an atom leaves nothing waiting. -/
theorem atom_reads {ts : List Token} {e : Expr} (reads : Reads .atom ts e) :
    ∃ items, (∀ stack, run items stack = some (e :: stack)) ∧
      ∀ length pending lexemes rest, lexemes.map Lexeme.token = ts →
        reorder length pending true (lexemes ++ rest) =
          emitting items (reorder length pending false rest) := by
  rcases reads with ⟨items, ops, bound, ran, read⟩
  have none_waits : ops = [] := by
    apply List.eq_nil_iff_forall_not_mem.mpr
    intro p member
    have binds := bound p member
    cases p with
    | binary op =>
        have high : 5 ≤ op.precedence := binds
        cases op <;> exact absurd high (by decide)
    | negate =>
        have high : 5 ≤ negatePrecedence := binds
        exact absurd high (by decide)
    | group => exact binds
    | call f position commas => exact binds
  subst none_waits
  refine ⟨items, by simpa using ran, ?_⟩
  intro length pending lexemes rest tokens
  exact read length pending lexemes rest trivial tokens

theorem reads_power {ts us : List Token} {a b : Expr} (first : Reads .atom ts a)
    (second : Reads .factor us b) :
    Reads .power (ts ++ .operator .pow :: us) (.binary .pow a b) := by
  rcases atom_reads first with ⟨itemsA, ranA, readA⟩
  rcases second with ⟨itemsB, opsB, boundB, ranB, readB⟩
  refine ⟨itemsA ++ itemsB, opsB ++ [.binary .pow], ?_, ?_, ?_⟩
  · intro p member
    rcases List.mem_append.mp member with inside | last
    · exact boundB p inside
    · obtain rfl := List.mem_singleton.mp last
      exact (by decide : 3 ≤ Binary.pow.precedence)
  · intro stack
    calc
      _ = run (itemsA ++ (itemsB ++ emit opsB) ++ [.binary .pow]) stack := by
        simp only [emit_append, emit_binary, emit_nil, List.append_assoc]
      _ = (run (itemsB ++ emit opsB) (a :: stack)).bind (run [.binary .pow]) := by
        rw [run_append, run_append, ranA, Option.bind_some]
      _ = some (.binary .pow a b :: stack) := by
        rw [ranB]
        rfl
  · intro length pending lexemes rest _ tokens
    rcases List.map_eq_append_iff.mp tokens with ⟨front, back, rfl, frontTokens, backTokens⟩
    rcases List.map_eq_cons_iff.mp backTokens with ⟨⟨position, token⟩, tail, rfl, rfl, tailTokens⟩
    calc
      _ = emitting itemsA (reorder length pending false
            (⟨position, .operator .pow⟩ :: (tail ++ rest))) := by
        rw [List.append_assoc, readA length pending front _ frontTokens, List.cons_append]
      _ = emitting itemsA (emitting []
            (reorder length (.binary .pow :: pending) true (tail ++ rest))) := by
        rw [reorder_operator (release_pow pending)]
      _ = emitting itemsA (emitting [] (emitting itemsB
            (reorder length (opsB ++ .binary .pow :: pending) false rest))) := by
        rw [readB length _ tail rest trivial tailTokens]
      _ = _ := by simp

theorem reads_minus {ts : List Token} {e : Expr} (reads : Reads .factor ts e) :
    Reads .factor (.operator .sub :: ts) (negated e) := by
  rcases reads with ⟨items, ops, bound, ran, read⟩
  refine ⟨items, ops ++ [.negate], ?_, ?_, ?_⟩
  · intro p member
    rcases List.mem_append.mp member with inside | last
    · exact bound p inside
    · obtain rfl := List.mem_singleton.mp last
      exact (by decide : 3 ≤ negatePrecedence)
  · intro stack
    rw [emit_append, ← List.append_assoc, run_append, ran]
    rfl
  · intro length pending lexemes rest _ tokens
    rcases List.map_eq_cons_iff.mp tokens with ⟨⟨position, token⟩, tail, rfl, rfl, tailTokens⟩
    rw [List.cons_append, reorder_minus, read length _ tail rest trivial tailTokens]
    simp

theorem reads_plus {ts : List Token} {e : Expr} (reads : Reads .factor ts e) :
    Reads .factor (.operator .add :: ts) e := by
  rcases reads with ⟨items, ops, bound, ran, read⟩
  refine ⟨items, ops, bound, ran, ?_⟩
  intro length pending lexemes rest _ tokens
  rcases List.map_eq_cons_iff.mp tokens with ⟨⟨position, token⟩, tail, rfl, rfl, tailTokens⟩
  rw [List.cons_append, reorder_plus, read length _ tail rest trivial tailTokens]

/-- A sum between an open parenthesis and the comma or the closing parenthesis behind it. -/
structure Encloses (ts : List Token) (e : Expr) (inner : List Postfix) : Prop where
  ran : ∀ stack, run inner stack = some (e :: stack)
  group : ∀ length pending lexemes position rest, lexemes.map Lexeme.token = ts →
    reorder length (.group :: pending) true (lexemes ++ ⟨position, .closing⟩ :: rest) =
      emitting inner (reorder length pending false rest)
  comma : ∀ length pending lexemes position rest f opening commas,
    lexemes.map Lexeme.token = ts →
    reorder length (.call f opening commas :: pending) true
        (lexemes ++ ⟨position, .comma⟩ :: rest) =
      emitting inner (reorder length (.call f opening (commas + 1) :: pending) true rest)
  call : ∀ length pending lexemes position rest f opening commas, commas + 1 = f.arity →
    lexemes.map Lexeme.token = ts →
    reorder length (.call f opening commas :: pending) true
        (lexemes ++ ⟨position, .closing⟩ :: rest) =
      emitting (inner ++ [.call f]) (reorder length pending false rest)

theorem floor_frame {frame : Pending} (silent : frame.item? = none) (strength : Nat)
    (pending : List Pending) : Pending.Floor strength (frame :: pending) := by
  intro p top binds
  obtain rfl := Option.some.inj top
  rcases item_of_binds binds with ⟨item, output⟩
  rw [silent] at output
  cases output

theorem encloses_of_reads {ts : List Token} {e : Expr} (reads : Reads .sum ts e) :
    ∃ inner, Encloses ts e inner := by
  rcases reads with ⟨items, ops, bound, ran, read⟩
  have drained : ∀ (frame : Pending) (pending : List Pending), frame.item? = none →
      drain (ops ++ frame :: pending) = (emit ops, frame :: pending) := by
    intro frame pending silent
    apply drain_append bound
    intro p top
    obtain rfl := Option.some.inj top
    exact silent
  refine ⟨items ++ emit ops, ran, ?_, ?_, ?_⟩
  · intro length pending lexemes position rest tokens
    rw [read length _ lexemes _ (floor_frame rfl 1 pending) tokens,
      reorder_closing_group (drained .group pending rfl)]
    simp
  · intro length pending lexemes position rest f opening commas tokens
    rw [read length _ lexemes _ (floor_frame rfl 1 pending) tokens,
      reorder_comma (drained (.call f opening commas) pending rfl)]
    simp
  · intro length pending lexemes position rest f opening commas complete tokens
    rw [read length _ lexemes _ (floor_frame rfl 1 pending) tokens,
      reorder_closing_call complete (drained (.call f opening commas) pending rfl)]
    simp

theorem reads_group {ts : List Token} {e : Expr} (reads : Reads .sum ts e) :
    Reads .atom (.opening :: ts ++ [.closing]) e := by
  rcases encloses_of_reads reads with ⟨inner, encloses⟩
  refine reads_atom encloses.ran ?_
  intro length pending lexemes rest tokens
  rcases List.map_eq_append_iff.mp tokens with ⟨front, back, rfl, frontTokens, backTokens⟩
  rcases List.map_eq_cons_iff.mp frontTokens with ⟨⟨opening, _⟩, body, rfl, rfl, bodyTokens⟩
  rcases List.map_eq_singleton_iff.mp backTokens with ⟨⟨closing, _⟩, rfl, rfl⟩
  rw [List.append_assoc, List.cons_append, reorder_opening, List.singleton_append,
    encloses.group length pending body closing rest bodyTokens]

theorem reads_unary (op : Unary) {ts : List Token} {a : Expr} (reads : Reads .sum ts a) :
    Reads .atom (.name op.name :: .opening :: ts ++ [.closing]) (.unary op a) := by
  rcases encloses_of_reads reads with ⟨inner, encloses⟩
  have ran : ∀ stack, run (inner ++ [.call (.unary op)]) stack =
      some (.unary op a :: stack) := by
    intro stack
    rw [run_append, encloses.ran]
    rfl
  refine reads_atom ran ?_
  intro length pending lexemes rest tokens
  rcases List.map_eq_append_iff.mp tokens with ⟨front, last, rfl, frontTokens, lastTokens⟩
  rcases List.map_eq_cons_iff.mp frontTokens with ⟨⟨start, _⟩, call, rfl, rfl, callTokens⟩
  rcases List.map_eq_cons_iff.mp callTokens with ⟨⟨opening, _⟩, body, rfl, rfl, bodyTokens⟩
  rcases List.map_eq_singleton_iff.mp lastTokens with ⟨⟨closing, _⟩, rfl, rfl⟩
  rw [List.append_assoc, List.cons_append, List.cons_append, List.singleton_append]
  exact (reorder_call (.unary op)).trans
    (encloses.call length pending body closing rest (.unary op) opening 0 rfl bodyTokens)

theorem reads_ternary (op : Ternary) {ts us vs : List Token} {a b c : Expr}
    (first : Reads .sum ts a) (second : Reads .sum us b) (third : Reads .sum vs c) :
    Reads .atom
      (.name op.name :: .opening :: ts ++ .comma :: us ++ .comma :: vs ++ [.closing])
      (.ternary op a b c) := by
  rcases encloses_of_reads first with ⟨innerA, enclosesA⟩
  rcases encloses_of_reads second with ⟨innerB, enclosesB⟩
  rcases encloses_of_reads third with ⟨innerC, enclosesC⟩
  have ran : ∀ stack, run (innerA ++ innerB ++ innerC ++ [.call (.ternary op)]) stack =
      some (.ternary op a b c :: stack) := by
    intro stack
    calc
      _ = (run (innerB ++ innerC ++ [.call (.ternary op)]) (a :: stack)) := by
        rw [List.append_assoc, List.append_assoc, run_append, enclosesA.ran, Option.bind_some,
          ← List.append_assoc]
      _ = (run (innerC ++ [.call (.ternary op)]) (b :: a :: stack)) := by
        rw [List.append_assoc, run_append, enclosesB.ran, Option.bind_some]
      _ = (run [.call (.ternary op)] (c :: b :: a :: stack)) := by
        rw [run_append, enclosesC.ran, Option.bind_some]
      _ = some (.ternary op a b c :: stack) := rfl
  refine reads_atom ran ?_
  intro length pending lexemes rest tokens
  rcases List.map_eq_append_iff.mp tokens with ⟨upToC, last, rfl, upToCTokens, lastTokens⟩
  rcases List.map_eq_append_iff.mp upToCTokens with ⟨upToB, fromC, rfl, upToBTokens, fromCTokens⟩
  rcases List.map_eq_append_iff.mp upToBTokens with ⟨upToA, fromB, rfl, upToATokens, fromBTokens⟩
  rcases List.map_eq_cons_iff.mp upToATokens with ⟨⟨start, _⟩, call, rfl, rfl, callTokens⟩
  rcases List.map_eq_cons_iff.mp callTokens with ⟨⟨opening, _⟩, bodyA, rfl, rfl, bodyATokens⟩
  rcases List.map_eq_cons_iff.mp fromBTokens with ⟨⟨commaB, _⟩, bodyB, rfl, rfl, bodyBTokens⟩
  rcases List.map_eq_cons_iff.mp fromCTokens with ⟨⟨commaC, _⟩, bodyC, rfl, rfl, bodyCTokens⟩
  rcases List.map_eq_singleton_iff.mp lastTokens with ⟨⟨closing, _⟩, rfl, rfl⟩
  simp only [List.append_assoc, List.cons_append, List.nil_append]
  refine (reorder_call (.ternary op)).trans ?_
  rw [enclosesA.comma length pending bodyA commaB _ (.ternary op) opening 0 bodyATokens,
    enclosesB.comma length pending bodyB commaC _ (.ternary op) opening 1 bodyBTokens,
    enclosesC.call length pending bodyC closing rest (.ternary op) opening 2 rfl bodyCTokens]
  simp

theorem reads_of_derives {c : Category} {ts : List Token} {e : Expr} (derived : Derives c ts e) :
    Reads c ts e := by
  induction derived with
  | sum_product _ ih =>
      refine reads_weaken ?_ ?_ ih
      · decide
      · intro pending fits
        exact Pending.floor_mono (by decide) fits
  | sum_step isSum _ _ ihA ihB =>
      have floor : ∀ op, op = Binary.add ∨ op = Binary.sub → ∀ pending,
          Category.product.Fits (.binary op :: pending) := by
        intro op isSum pending p top binds
        obtain rfl := Option.some.inj top
        have low : 2 ≤ op.precedence := binds
        rcases isSum with rfl | rfl <;> exact absurd low (by decide)
      rcases isSum with rfl | rfl
      · exact reads_step rfl rfl (by decide) (fun _ fits => fits) (floor _ (.inl rfl)) ihA ihB
      · exact reads_step rfl rfl (by decide) (fun _ fits => fits) (floor _ (.inr rfl)) ihA ihB
  | product_factor _ ih =>
      refine reads_weaken ?_ ?_ ih
      · decide
      · intro pending _
        trivial
  | product_step isProduct _ _ ihA ihB =>
      have floor : ∀ pending, Category.factor.Fits pending := fun _ => trivial
      rcases isProduct with rfl | rfl
      · exact reads_step rfl rfl (by decide) (fun _ fits => fits) (fun _ => floor _) ihA ihB
      · exact reads_step rfl rfl (by decide) (fun _ fits => fits) (fun _ => floor _) ihA ihB
  | factor_power _ ih => exact ih
  | factor_plus _ ih => exact reads_plus ih
  | factor_minus_const _ ih => exact reads_minus ih
  | @factor_minus ts e _ plain ih =>
      have product : negated e = .binary .mul (.const (.float (-1))) e := by
        cases e with
        | const value => cases plain
        | var v => rfl
        | unary op a => rfl
        | binary op a b => rfl
        | ternary op a b c => rfl
      exact product ▸ reads_minus ih
  | power_atom _ ih =>
      refine reads_weaken ?_ ?_ ih
      · decide
      · intro pending _
        trivial
  | power_step _ _ ihA ihB => exact reads_power ihA ihB
  | number x => exact reads_lexeme (fun _ => rfl) fun _ _ _ _ => reorder_number x
  | var v => exact reads_lexeme (fun _ => rfl) fun _ _ _ _ => reorder_variable v
  | group _ ih => exact reads_group ih
  | unary op _ ih => exact reads_unary op ih
  | ternary op _ _ _ ihA ihB ihC => exact reads_ternary op ihA ihB ihC

end Postfix

end FractalBreeder
