import FractalBreeder.Proofs.Heredity.Faithfulness
import FractalBreeder.Proofs.Heredity.Signatures

/-!
The bytes that an identity is a digest of determine the texts of the formulas, however these came
about. A text that was read may take several lines, and one of its lines may begin like that of
another axis; but no text has an equals sign, so there is one for each formula, behind its label.
-/
namespace FractalBreeder

theorem Literal.equals_notMem_exponent {cs : List Char} {e : Int} (exponent : Exponent cs e) :
    '=' ∉ cs := by
  have other : ∀ {digits : List Char}, Digits digits → '=' ∉ digits := fun all member =>
    absurd (all '=' member) (by decide)
  cases exponent with
  | absent => exact List.not_mem_nil
  | plain marker _ all =>
    rcases marker with rfl | rfl <;> simp [other all]
  | plus marker _ all | minus marker _ all =>
    rcases marker with rfl | rfl <;> simp [other all]

theorem Token.equals_notMem_of_splits {cs : List Char} {ts : List Token} (splits : Splits cs ts) :
    '=' ∉ cs := by
  induction splits with
  | nil => exact List.not_mem_nil
  | blank blank _ ih =>
    refine List.not_mem_cons_of_ne_of_not_mem ?_ ih
    rintro rfl
    cases blank
  | @number mantissa exponent rest _ _ _ _ isMantissa isExponent _ _ _ _ ih =>
    have front : '=' ∉ mantissa := fun member =>
      absurd (Literal.numeric_mantissa isMantissa '=' member) (by decide)
    have behind : '=' ∉ exponent := Literal.equals_notMem_exponent isExponent
    simp only [List.mem_append, front, behind, ih, or_self, not_false_eq_true]
  | @name c word rest _ letter longest _ ih =>
    have front : '=' ∉ c :: word := fun member => absurd (longest.1 '=' member) (by decide)
    simp only [List.mem_append, front, ih, or_self, not_false_eq_true]
  | symbol symbol _ ih =>
    refine List.not_mem_cons_of_ne_of_not_mem ?_ ih
    cases symbol with
    | operator op => cases op <;> decide
    | _ => decide

theorem Expr.equals_notMem_of_parse {text : String} {e : Expr} (accepted : Expr.parse text = .ok e) :
    '=' ∉ text.toList := by
  obtain ⟨ts, splits, -⟩ := derives_of_parse accepted
  exact Token.equals_notMem_of_splits splits

theorem Formula.equals_notMem_of_derived {printed : Bool} {f : Formula} (derived : Derived printed f) :
    '=' ∉ f.text.toList := by
  rcases derived.faithful.1 with isPrinted | read
  · rw [isPrinted]
    exact Expr.notMem_text (by decide) f.root
  · obtain ⟨root, accepted, -⟩ := Token.bind_eq_ok.mp read
    exact Expr.equals_notMem_of_parse accepted

section Lines

/-- What stands behind the end of a line: nothing, or a line that begins with a label. -/
inductive Continues : List Char → Prop where
  | done : Continues []
  | line {label : Char} (proper : label ≠ '\n') (rest : List Char) : Continues (label :: '=' :: rest)

variable {a b rest rest' : List Char}

/-- No line ends later than another one without an equals sign in between. -/
theorem Continues.eq_nil (continues : Continues rest) (plain : '=' ∉ a)
    (same : '\n' :: rest = a ++ '\n' :: rest') : a = [] := by
  cases a with
  | nil => rfl
  | cons c cs =>
    have behind : rest = cs ++ '\n' :: rest' := List.tail_eq_of_cons_eq same
    have plain : '=' ∉ cs := List.not_mem_of_not_mem_cons plain
    cases continues with
    | done => simp at behind
    | @line label proper tail =>
      match cs with
      | [] => exact absurd (List.head_eq_of_cons_eq behind) proper
      | [d] => exact absurd (List.head_eq_of_cons_eq (List.tail_eq_of_cons_eq behind)) (by decide)
      | d :: d' :: ds =>
        have sign : '=' = d' := List.head_eq_of_cons_eq (List.tail_eq_of_cons_eq behind)
        exact absurd (List.mem_cons_of_mem d (sign ▸ List.mem_cons_self)) plain

theorem Continues.line_inj (continues : Continues rest) (continues' : Continues rest')
    (plain : '=' ∉ a) (plain' : '=' ∉ b) (same : a ++ '\n' :: rest = b ++ '\n' :: rest') :
    a = b ∧ rest = rest' := by
  rcases List.append_eq_append_iff.mp same with ⟨more, rfl, behind⟩ | ⟨more, rfl, behind⟩
  · have nothing : more = [] := continues.eq_nil (fun member => plain' (by simp [member])) behind
    subst nothing
    exact ⟨(List.append_nil a).symm, List.tail_eq_of_cons_eq behind⟩
  · have nothing : more = [] := continues'.eq_nil (fun member => plain (by simp [member])) behind
    subst nothing
    exact ⟨List.append_nil b, (List.tail_eq_of_cons_eq behind).symm⟩

end Lines

theorem Axis.exists_label (axis : Axis) : ∃ c, axis.label.toList = [c] ∧ c ≠ '\n' := by
  cases axis with
  | x => exact ⟨'x', rfl, by decide⟩
  | y => exact ⟨'y', rfl, by decide⟩
  | z => exact ⟨'z', rfl, by decide⟩
  | r => exact ⟨'r', rfl, by decide⟩
  | g => exact ⟨'g', rfl, by decide⟩
  | b => exact ⟨'b', rfl, by decide⟩

namespace Genome

/-- All formulas were read or printed and then passed through the operators. -/
def Derived (genome : Genome) : Prop :=
  ∀ axis f, genome.get? axis = some f → ∃ printed, Formula.Derived printed f

/-- The same axes, with the same text on each. -/
def SameTexts (g h : Genome) : Prop :=
  ∀ axis, (g.get? axis).map Formula.text = (h.get? axis).map Formula.text

/-- The bytes that the identity is a digest of. -/
def hashed (genome : Genome) : List UInt8 := genome.signature.toUTF8.toList

variable {g h : Genome}

theorem continues_lines (entries : List (Axis × Formula)) :
    Continues ((entries.map line).flatMap (· ++ ['\n'])) := by
  cases entries with
  | nil => exact .done
  | cons entry rest =>
    obtain ⟨label, single, proper⟩ := entry.1.exists_label
    rw [List.map_cons, List.flatMap_cons, line, single]
    exact .line proper _

/-- The lines are told apart by their labels and the signs behind them. -/
theorem map_line_inj {entries entries' : List (Axis × Formula)}
    (plain : ∀ entry ∈ entries, '=' ∉ entry.2.text.toList)
    (plain' : ∀ entry ∈ entries', '=' ∉ entry.2.text.toList)
    (same : (entries.map line).flatMap (· ++ ['\n']) = (entries'.map line).flatMap (· ++ ['\n'])) :
    entries.map line = entries'.map line := by
  induction entries generalizing entries' with
  | nil =>
    cases entries' with
    | nil => rfl
    | cons entry rest => simp at same
  | cons entry rest ih =>
    cases entries' with
    | nil => simp at same
    | cons entry' rest' =>
      obtain ⟨axis, f⟩ := entry
      obtain ⟨axis', f'⟩ := entry'
      simp only [List.map_cons, List.flatMap_cons, line, List.append_assoc, List.cons_append]
        at same
      have label : axis = axis' := by
        cases axis <;> cases axis' <;> simp [Axis.label] at same ⊢
      subst label
      have bodies := List.tail_eq_of_cons_eq (List.append_cancel_left same)
      obtain ⟨texts, behind⟩ := (continues_lines rest).line_inj (continues_lines rest')
        (plain _ List.mem_cons_self) (plain' _ List.mem_cons_self) bodies
      have others := ih (fun entry member => plain entry (List.mem_cons_of_mem _ member))
        (fun entry member => plain' entry (List.mem_cons_of_mem _ member)) behind
      rw [List.map_cons, List.map_cons, others, line, line, texts]

theorem equals_notMem_of_mem_entries (derived : g.Derived) :
    ∀ entry ∈ g.entries, '=' ∉ entry.2.text.toList := by
  intro entry member
  obtain ⟨printed, derived⟩ := derived entry.1 entry.2 (mem_entries.mp member)
  exact Formula.equals_notMem_of_derived derived

theorem sameTexts_of_lines (lines : g.entries.map line = h.entries.map line) : g.SameTexts h := by
  intro axis
  cases present : g.get? axis with
  | some f =>
    obtain ⟨f', present', text⟩ := text_of_lines lines present
    rw [present', Option.map_some, Option.map_some, text]
  | none =>
    cases present' : h.get? axis with
    | none => rfl
    | some f' =>
      obtain ⟨f, listed, -⟩ := text_of_lines lines.symm present'
      rw [present] at listed
      cases listed

theorem signature_eq_of_sameTexts (same : g.SameTexts h) : g.signature = h.signature := by
  have lines (genome : Genome) : genome.signature = String.join (Axis.all.filterMap fun axis =>
      ((genome.get? axis).map Formula.text).map fun text => axis.label ++ "=" ++ text ++ "\n") := by
    rw [signature, entries, List.map_filterMap]
    congr 2
    funext axis
    cases genome.get? axis <;> rfl
  rw [lines, lines]
  simp only [same _]

theorem signature_eq_iff (derived : g.Derived) (derived' : h.Derived) :
    g.signature = h.signature ↔ g.SameTexts h := by
  constructor
  · intro same
    apply sameTexts_of_lines
    apply map_line_inj (equals_notMem_of_mem_entries derived) (equals_notMem_of_mem_entries derived')
    rw [← toList_signature, ← toList_signature, same]
  · exact signature_eq_of_sameTexts

theorem toList_loop (bytes : ByteArray) (i : Nat) (front : List UInt8) :
    ByteArray.toList.loop bytes i front = front.reverse ++ bytes.data.toList.drop i := by
  fun_induction ByteArray.toList.loop bytes i front with
  | case1 i front more ih =>
    have here : bytes.get! i = bytes.data.toList[i] := getElem!_pos bytes.data i more
    rw [ih, List.reverse_cons, List.append_assoc, here]
    exact congrArg _ (List.drop_eq_getElem_cons more).symm
  | case2 i front ended =>
    rw [List.drop_eq_nil_of_le (Nat.le_of_not_lt ended), List.append_nil]

theorem hashed_inj : g.hashed = h.hashed ↔ g.signature = h.signature := by
  constructor
  · intro same
    rw [hashed, hashed, ByteArray.toList, ByteArray.toList, toList_loop, toList_loop] at same
    exact String.toByteArray_inj.mp (ByteArray.ext (Array.toList_inj.mp same))
  · intro same
    rw [hashed, hashed, same]

/-- Two inputs of the digest with one beginning, as far as an identity shows it. -/
def Collide (bytes bytes' : List UInt8) : Prop :=
  bytes ≠ bytes' ∧ (Blake3.hex bytes).take 16 = (Blake3.hex bytes').take 16

theorem identity_eq_iff :
    g.identity = h.identity ↔ (Blake3.hex g.hashed).take 16 = (Blake3.hex h.hashed).take 16 := by
  constructor
  · intro same
    have digits := congrArg String.toList same
    simpa only [identity, hashed, String.toList_append, String.toList_ofList,
      List.append_cancel_left_eq] using digits
  · intro same
    exact congrArg ("fractal_" ++ String.ofList ·) same

/-- The hashed bytes are the same exactly for the same axes with the same texts; so other genomes
have one identity only if their bytes collide. -/
theorem hashed_eq_iff_sameTexts (derived : g.Derived) (derived' : h.Derived) :
    (g.hashed = h.hashed ↔ g.SameTexts h) ∧
      (g.identity = h.identity ↔ g.SameTexts h ∨ Collide g.hashed h.hashed) := by
  have determined : g.hashed = h.hashed ↔ g.SameTexts h :=
    hashed_inj.trans (signature_eq_iff derived derived')
  refine ⟨determined, ?_⟩
  rw [identity_eq_iff, ← determined, Collide]
  by_cases same : g.hashed = h.hashed
  · simp [same]
  · simp [same]

theorem derived_of_x {printed : Bool} {f : Formula} (derived : Formula.Derived printed f) :
    Derived { x := some f } := by
  intro axis f' present
  cases axis with
  | x =>
    cases present
    exact ⟨printed, derived⟩
  | _ => cases present

/-- One tree with three texts: one of two lines, one that was read and one that was printed. The last
two are the same. -/
theorem hashed_eq_iff_sameTexts_lines :
    let sum : Expr := .binary .add (.var .x) (.var .y)
    let g : Genome := { x := some ⟨"x+\ny", sum⟩ }
    let h : Genome := { x := some ⟨"x+y", sum⟩ }
    let k : Genome := { x := some (.ofExpr sum) }
    g.Derived ∧ h.Derived ∧ k.Derived ∧ g.hashed ≠ h.hashed ∧ h.hashed = k.hashed ∧
      (g.identity = k.identity → Collide g.hashed k.hashed) := by
  intro sum g h k
  have read : Formula.parse "x+\ny" = .ok ⟨"x+\ny", sum⟩ := by with_unfolding_all rfl
  have read' : Formula.parse "x+y" = .ok ⟨"x+y", sum⟩ := by with_unfolding_all rfl
  have derived : g.Derived := derived_of_x (.read read)
  have derived' : h.Derived := derived_of_x (.read read')
  have derived'' : k.Derived := derived_of_x (.built sum)
  have apart (other : Genome) (text : (other.get? .x).map Formula.text = some "x+y") :
      ¬ g.SameTexts other := by
    intro same
    rw [← same .x] at text
    exact absurd (Option.some.inj text) (by decide)
  have same : h.SameTexts k := by
    intro axis
    cases axis <;> rfl
  refine ⟨derived, derived', derived'', fun equal => ?_, ?_, fun equal => ?_⟩
  · exact apart h rfl ((hashed_eq_iff_sameTexts derived derived').1.mp equal)
  · exact (hashed_eq_iff_sameTexts derived' derived'').1.mpr same
  · exact ((hashed_eq_iff_sameTexts derived derived'').2.mp equal).resolve_left (apart k rfl)

end Genome

end FractalBreeder
