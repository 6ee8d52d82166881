import FractalBreeder.Expr.Printer
import FractalBreeder.Proofs.Expr.Splitting

/-!
Characters that split into the same tokens whatever follows them, as long as it begins with neither
a letter nor a part of a number. Such pieces are put together as the printer does.
-/
namespace FractalBreeder.Token

open Literal (Mantissa Exponent IsExponent Longest)

/-- The next character is in no number and no name. -/
def Bounded (rest : List Char) : Prop :=
  ∀ c ∈ rest.head?, isLetter c = false ∧ isNumberChar c = false

/-- The characters split into the tokens, whatever follows them behind a boundary. -/
def Spells (cs : List Char) (ts : List Token) : Prop :=
  ∀ rest us, Bounded rest → Splits rest us → Splits (cs ++ rest) (ts ++ us)

theorem bounded_symbol {c : Char} {token : Token} (symbol : Symbol c token) (rest : List Char) :
    Bounded (c :: rest) := by
  rcases ofChar_of_symbol symbol with ⟨_, _, notNumber, notLetter⟩
  intro d head
  obtain rfl := Option.some.inj head
  exact ⟨notLetter, notNumber⟩

theorem longest_of_bounded {p : Char → Bool} {front rest : List Char}
    (holds : ∀ c ∈ front, p c = true) (stops : ∀ c ∈ rest.head?, p c = false) :
    Longest (fun cs => ∀ c ∈ cs, p c = true) front rest := by
  have longest := Literal.longest_takeWhile p (front ++ rest)
  rw [List.takeWhile_append_of_pos holds, List.dropWhile_append_of_pos holds] at longest
  cases rest with
  | nil => simpa using longest
  | cons c tail => simpa [stops c rfl] using longest

theorem longest_absent {rest : List Char} (bounded : Bounded rest) :
    Longest IsExponent [] rest := by
  refine ⟨⟨0, .absent⟩, ?_⟩
  rintro other ⟨e, exponent⟩ ⟨tail, whole⟩
  cases other with
  | nil => exact Nat.le_refl 0
  | cons c others =>
      have marker := Literal.exponent_head exponent c rfl
      have head : c ∈ rest.head? := by
        rw [List.nil_append] at whole
        rw [← whole]
        rfl
      rcases marker with rfl | rfl
      · exact absurd (bounded _ head).1 (by decide)
      · exact absurd (bounded _ head).1 (by decide)

theorem spells_nil : Spells [] [] := fun _ _ _ splits => splits

theorem Spells.symbol {c : Char} {token : Token} {cs : List Char} {ts : List Token}
    (isSymbol : Symbol c token) (spells : Spells cs ts) : Spells (c :: cs) (token :: ts) :=
  fun rest us bounded splits => .symbol isSymbol (spells rest us bounded splits)

theorem Spells.blank {cs : List Char} {ts : List Token} (spells : Spells cs ts) :
    Spells (' ' :: cs) ts :=
  fun rest us bounded splits => .blank rfl (spells rest us bounded splits)

theorem spells_number {cs : List Char} {coefficient places : Nat}
    (mantissa : Mantissa cs coefficient places)
    (finite : (Literal.value coefficient places 0).isFinite = true) :
    Spells cs [.number (Literal.value coefficient places 0)] := by
  intro rest us bounded splits
  have longest : Longest (fun cs => ∀ c ∈ cs, isNumberChar c = true) cs ([] ++ rest) :=
    longest_of_bounded (Literal.numeric_mantissa mantissa) (fun c head => (bounded c head).2)
  have number := Splits.number mantissa .absent longest (longest_absent bounded) finite splits
  rwa [List.append_nil] at number

theorem spells_name {name : String} (nonempty : name.toList ≠ [])
    (allLetters : name.toList.all isLetter = true) : Spells name.toList [.name name] := by
  intro rest us bounded splits
  have letters := List.all_eq_true.mp allLetters
  have same : String.ofList name.toList = name := String.ofList_toList
  have word : ∀ c ∈ name.toList, isWordChar c = true := by
    intro c member
    rw [isWordChar, letters c member, Bool.true_or]
  have stops : ∀ c ∈ rest.head?, isWordChar c = false := by
    intro c head
    rcases bounded c head with ⟨notLetter, notNumber⟩
    have notDigit : Decimal.isDigit c = false := (Bool.or_eq_false_iff.mp notNumber).1
    rw [isWordChar, notLetter, notDigit, Bool.or_false]
  have longest := longest_of_bounded word stops
  rcases List.exists_cons_of_ne_nil nonempty with ⟨c, others, cons⟩
  have letter := letters c (cons ▸ List.mem_cons_self)
  rw [cons] at same longest ⊢
  rw [← same]
  exact .name letter longest splits

theorem Spells.append {cs ds : List Char} {ts us : List Token} (front : Spells cs ts)
    (back : Spells ds us) (nonempty : ds ≠ []) (bounded : Bounded ds) :
    Spells (cs ++ ds) (ts ++ us) := by
  intro rest vs after splits
  have between : Bounded (ds ++ rest) := by
    rcases List.exists_cons_of_ne_nil nonempty with ⟨c, others, rfl⟩
    exact bounded
  rw [List.append_assoc, List.append_assoc]
  exact front _ _ between (back _ _ after splits)

theorem Spells.followed {c : Char} {token : Token} {cs ds : List Char} {ts us : List Token}
    (front : Spells cs ts) (isSymbol : Symbol c token) (back : Spells ds us) :
    Spells (cs ++ c :: ds) (ts ++ token :: us) :=
  front.append (.symbol isSymbol back) (List.cons_ne_nil _ _) (bounded_symbol isSymbol _)

theorem Spells.parenthesized {cs : List Char} {ts : List Token} (spells : Spells cs ts) :
    Spells (Expr.parenthesized cs) (.opening :: ts ++ [.closing]) :=
  .symbol .opening (spells.followed .closing spells_nil)

end FractalBreeder.Token
