import FractalBreeder.Heredity.Genome
import FractalBreeder.Proofs.Expr.RoundTrip

/-!
The signature of a genome tells the texts of its formulas, because each takes one line. So genomes
whose formulas are printed have different signatures if they differ at all.
-/
namespace FractalBreeder

namespace Expr

/-- The characters that expressions are printed with. -/
def isPrintable (c : Char) : Bool := Token.isWordChar c || "+-*/^()., ".toList.contains c

theorem isPrintable_of_number {c : Char} (numeric : Token.isNumberChar c = true) :
    isPrintable c = true := by
  simp only [Token.isNumberChar, Bool.or_eq_true, beq_iff_eq] at numeric
  rcases numeric with digit | rfl
  · simp [isPrintable, Token.isWordChar, digit]
  · rfl

theorem isPrintable_text (x : Float) : ∀ c ∈ Shortest.text x, isPrintable c = true := by
  rcases Binary64.float_cases x with notANumber | ⟨number, infinite⟩ | finite
  · rw [Shortest.text, if_pos notANumber]
    exact List.all_eq_true.mp (by decide)
  · simp only [Shortest.text, number, infinite, Bool.false_eq_true, if_false, if_true]
    split_ifs
    · exact List.all_eq_true.mp (by decide)
    · exact List.all_eq_true.mp (by decide)
  · obtain ⟨cs, coefficient, places, mantissa, -, shown⟩ := Shortest.text_spec finite
    have plain : ∀ c ∈ cs, isPrintable c = true := fun c member =>
      isPrintable_of_number (Literal.numeric_mantissa mantissa c member)
    rw [shown]
    split_ifs
    · exact List.forall_mem_cons.mpr ⟨rfl, plain⟩
    · exact plain

theorem isPrintable_parenthesized {cs : List Char} (plain : ∀ c ∈ cs, isPrintable c = true) :
    ∀ c ∈ parenthesized cs, isPrintable c = true := by
  intro c member
  simp only [parenthesized, List.cons_append, List.mem_cons, List.mem_append, List.not_mem_nil,
    or_false] at member
  rcases member with rfl | inside | rfl
  · rfl
  · exact plain c inside
  · rfl

theorem isPrintable_print (e : Expr) (top : Bool) : ∀ c ∈ e.print top, isPrintable c = true := by
  induction e generalizing top with
  | const value =>
    have plain : ∀ c ∈ value.text, isPrintable c = true := isPrintable_text value.value
    unfold print
    split_ifs
    · exact isPrintable_parenthesized plain
    · exact plain
  | var v =>
    have name : ∀ c ∈ v.name.toList, isPrintable c = true :=
      List.all_eq_true.mp (by cases v <;> decide)
    exact name
  | unary op a ih =>
    have name : ∀ c ∈ op.name.toList, isPrintable c = true :=
      List.all_eq_true.mp (by cases op <;> decide)
    exact List.forall_mem_append.mpr ⟨name, isPrintable_parenthesized (ih true)⟩
  | binary op a b iha ihb =>
    have symbol : isPrintable op.symbol = true := by cases op <;> rfl
    have inner : ∀ c ∈ a.print false ++ op.symbol :: b.print false, isPrintable c = true :=
      List.forall_mem_append.mpr ⟨iha false, List.forall_mem_cons.mpr ⟨symbol, ihb false⟩⟩
    simp only [print]
    split_ifs
    · exact inner
    · exact isPrintable_parenthesized inner
  | ternary op a b c iha ihb ihc =>
    have name : ∀ c ∈ op.name.toList, isPrintable c = true :=
      List.all_eq_true.mp (by cases op; decide)
    refine List.forall_mem_append.mpr ⟨name, isPrintable_parenthesized ?_⟩
    simp only [List.forall_mem_append, List.forall_mem_cons]
    exact ⟨⟨iha true, rfl, rfl, ihb true⟩, rfl, rfl, ihc true⟩

/-- No other character stands in the text of an expression. -/
theorem notMem_text {c : Char} (foreign : isPrintable c = false) (e : Expr) : c ∉ e.text.toList := by
  intro member
  rw [text, String.toList_ofList] at member
  rw [isPrintable_print e true c member] at foreign
  cases foreign

/-- Expressions with one text are the same. -/
theorem eq_of_text_eq {e e' : Expr} (finite : e.isFinite = true) (finite' : e'.isFinite = true)
    (same : e.text = e'.text) : e = e' := by
  have read := parse_text_of_finite finite
  rw [same, parse_text_of_finite finite'] at read
  exact (Except.ok.inj read).symm

end Expr

section Lines

theorem line_inj {a b rest rest' : List Char} (plain : '\n' ∉ a) (plain' : '\n' ∉ b)
    (same : a ++ '\n' :: rest = b ++ '\n' :: rest') : a = b ∧ rest = rest' := by
  induction a generalizing b with
  | nil =>
    cases b with
    | nil => exact ⟨rfl, List.tail_eq_of_cons_eq same⟩
    | cons c cs =>
      obtain rfl := List.head_eq_of_cons_eq same
      exact absurd List.mem_cons_self plain'
  | cons c cs ih =>
    cases b with
    | nil =>
      obtain rfl := List.head_eq_of_cons_eq same
      exact absurd List.mem_cons_self plain
    | cons d ds =>
      obtain rfl := List.head_eq_of_cons_eq same
      obtain ⟨rfl, behind⟩ := ih (List.not_mem_of_not_mem_cons plain)
        (List.not_mem_of_not_mem_cons plain') (List.tail_eq_of_cons_eq same)
      exact ⟨rfl, behind⟩

/-- Lines are told apart by their ends. -/
theorem lines_inj {as bs : List (List Char)} (plain : ∀ a ∈ as, '\n' ∉ a)
    (plain' : ∀ b ∈ bs, '\n' ∉ b) (same : as.flatMap (· ++ ['\n']) = bs.flatMap (· ++ ['\n'])) :
    as = bs := by
  induction as generalizing bs with
  | nil =>
    cases bs with
    | nil => rfl
    | cons b bs => simp at same
  | cons a as ih =>
    cases bs with
    | nil => simp at same
    | cons b bs =>
      simp only [List.flatMap_cons, List.append_assoc, List.singleton_append] at same
      obtain ⟨rfl, behind⟩ :=
        line_inj (plain a List.mem_cons_self) (plain' b List.mem_cons_self) same
      rw [ih (fun a member => plain a (List.mem_cons_of_mem _ member))
        (fun b member => plain' b (List.mem_cons_of_mem _ member)) behind]

end Lines

namespace Genome

theorem mem_entries {genome : Genome} {axis : Axis} {f : Formula} :
    (axis, f) ∈ genome.entries ↔ genome.get? axis = some f := by
  have listed : axis ∈ Axis.all := by cases axis <;> decide
  simp [entries, listed]

/-- The line of a formula, without its end. -/
def line (entry : Axis × Formula) : List Char := entry.1.label.toList ++ '=' :: entry.2.text.toList

theorem toList_signature (genome : Genome) :
    genome.signature.toList = (genome.entries.map line).flatMap (· ++ ['\n']) := by
  simp [signature, String.toList_join, List.flatMap_map, line]

/-- The formulas take one line each. -/
def Linear (genome : Genome) : Prop :=
  ∀ axis f, genome.get? axis = some f → '\n' ∉ f.text.toList

theorem newline_notMem_line {genome : Genome} (linear : genome.Linear) :
    ∀ cs ∈ genome.entries.map line, '\n' ∉ cs := by
  intro cs member
  obtain ⟨⟨axis, f⟩, inside, rfl⟩ := List.mem_map.mp member
  have label : '\n' ∉ axis.label.toList := by cases axis <;> decide
  simp [line, label, linear axis f (mem_entries.mp inside)]

theorem line_injective {entry entry' : Axis × Formula} (same : line entry = line entry') :
    entry.1 = entry'.1 ∧ entry.2.text = entry'.2.text := by
  rcases entry with ⟨axis, f⟩
  rcases entry' with ⟨axis', f'⟩
  cases axis <;> cases axis' <;> simp [line, Axis.label] at same <;>
    exact ⟨rfl, String.toList_inj.mp same⟩

theorem text_of_lines {g h : Genome} (lines : g.entries.map line = h.entries.map line) {axis : Axis}
    {f : Formula} (present : g.get? axis = some f) :
    ∃ f', h.get? axis = some f' ∧ f'.text = f.text := by
  have listed : line (axis, f) ∈ h.entries.map line :=
    lines ▸ List.mem_map_of_mem (mem_entries.mpr present)
  obtain ⟨⟨axis', f'⟩, inside, told⟩ := List.mem_map.mp listed
  obtain ⟨rfl, texts⟩ := line_injective told
  exact ⟨f', mem_entries.mp inside, texts⟩

/-- Genomes with one signature have the same texts. -/
theorem text_of_signature {g h : Genome} (linear : g.Linear) (linear' : h.Linear)
    (same : g.signature = h.signature) {axis : Axis} {f : Formula}
    (present : g.get? axis = some f) :
    ∃ f', h.get? axis = some f' ∧ f'.text = f.text := by
  refine text_of_lines (lines_inj (newline_notMem_line linear) (newline_notMem_line linear') ?_)
    present
  rw [← toList_signature, ← toList_signature, same]

end Genome

end FractalBreeder
