import FractalBreeder.Document.Population
import FractalBreeder.Proofs.Heredity.Safety
import FractalBreeder.Proofs.Heredity.Signatures

/-!
What is saved can be read back, and what was read is saved again in a form that is no deeper than
the one it was read from. This holds of expressions, formulas, genomes and fractals, and of each
because it holds of its parts.
-/
namespace FractalBreeder

namespace Document

/-- A text can hold the document: its numbers are finite, and whole ones fit a machine word. -/
inductive Writable : Document → Prop where
  | null : Writable .null
  | bool (b : Bool) : Writable (.bool b)
  | int {n : Int} (low : -2 ^ 63 ≤ n) (high : n < 2 ^ 64) : Writable (.int n)
  | float {x : Float} (finite : x.isFinite = true) : Writable (.float x)
  | text (s : String) : Writable (.text s)
  | list {items : List Document} (each : ∀ d ∈ items, Writable d) : Writable (.list items)
  | record {fields : List (String × Document)} (each : ∀ field ∈ fields, Writable field.2) :
    Writable (.record fields)

theorem depthOfItems_le {items : List Document} {n : Nat} :
    depthOfItems items ≤ n ↔ ∀ d ∈ items, d.depth ≤ n := by
  induction items with
  | nil => simp [depthOfItems]
  | cons d rest ih => simp [depthOfItems, ih]

theorem depthOfFields_le {fields : List (String × Document)} {n : Nat} :
    depthOfFields fields ≤ n ↔ ∀ field ∈ fields, field.2.depth ≤ n := by
  induction fields with
  | nil => simp [depthOfFields]
  | cons field rest ih =>
      obtain ⟨name, d⟩ := field
      simp only [depthOfFields, max_le_iff, ih, List.forall_mem_cons]

theorem depth_list_le {items : List Document} {n : Nat} (pos : 0 < n)
    (each : ∀ d ∈ items, d.depth < n) : (list items).depth ≤ n := by
  have inner := depthOfItems_le.mpr fun d member => Nat.le_sub_one_of_lt (each d member)
  rw [depth]
  omega

theorem depth_record_le {fields : List (String × Document)} {n : Nat} (pos : 0 < n)
    (each : ∀ field ∈ fields, field.2.depth < n) : (record fields).depth ≤ n := by
  have inner := depthOfFields_le.mpr fun field member => Nat.le_sub_one_of_lt (each field member)
  rw [depth]
  omega

/-- A document that stands in another one. -/
structure Within (part whole : Document) : Prop where
  shallower : part.depth < whole.depth
  writable : whole.Writable → part.Writable

theorem within_list {items : List Document} {part : Document} (member : part ∈ items) :
    part.Within (.list items) where
  shallower := Nat.lt_succ_of_le (depthOfItems_le.mp le_rfl part member)
  writable := fun | .list each => each part member

theorem within_record {fields : List (String × Document)} {field : String × Document}
    (member : field ∈ fields) : field.2.Within (.record fields) where
  shallower := Nat.lt_succ_of_le (depthOfFields_le.mp le_rfl field member)
  writable := fun | .record each => each field member

theorem mem_of_lookup {fields : List (String × Document)} {name : String} {d : Document}
    (found : fields.lookup name = some d) : (name, d) ∈ fields := by
  induction fields with
  | nil => cases found
  | cons field rest ih =>
      obtain ⟨first, value⟩ := field
      rw [List.lookup_cons] at found
      split at found
      next same =>
        obtain rfl := eq_of_beq same
        obtain rfl := Option.some.inj found
        exact List.mem_cons_self
      next => exact List.mem_cons_of_mem _ (ih found)

theorem mapM_eq_some {α β : Type} {f : α → Option β} {as : List α} {bs : List β} :
    as.mapM f = some bs ↔ List.Forall₂ (fun a b => f a = some b) as bs := by
  induction as generalizing bs with
  | nil => simp [eq_comm]
  | cons a rest ih =>
      simp only [List.mapM_cons, Option.bind_eq_bind, Option.bind_eq_some_iff,
        List.forall₂_cons_left_iff, ih, Option.pure_def, Option.some.injEq]
      exact ⟨fun ⟨b, head, bs, tail, whole⟩ => ⟨b, bs, head, tail, whole.symm⟩,
        fun ⟨b, bs, head, tail, whole⟩ => ⟨b, head, bs, tail, whole.symm⟩⟩

theorem mem_of_forall₂ {α β : Type} {related : α → β → Prop} {as : List α} {bs : List β} {b : β}
    (all : List.Forall₂ related as bs) (member : b ∈ bs) : ∃ a ∈ as, related a b := by
  induction all with
  | nil => cases member
  | cons head _ ih =>
      rcases List.mem_cons.mp member with rfl | member
      · exact ⟨_, List.mem_cons_self, head⟩
      · obtain ⟨a, member, found⟩ := ih member
        exact ⟨a, List.mem_cons_of_mem _ member, found⟩

/-- The fields that are read stand in the document. -/
theorem within_fields {names : List String} {d part : Document} {parts : List Document}
    (read : d.fields? names = some parts) (member : part ∈ parts) : part.Within d := by
  cases d with
  | record fields =>
      obtain ⟨name, -, found⟩ := mem_of_forall₂ (mapM_eq_some.mp read) member
      exact within_record (mem_of_lookup found)
  | list items =>
      simp only [fields?, Option.ite_none_right_eq_some, Option.some.injEq] at read
      exact within_list (read.2 ▸ member)
  | null | bool b | int n | float x | text s => cases read

theorem Within.trans {part middle whole : Document} (inner : part.Within middle)
    (outer : middle.Within whole) : part.Within whole where
  shallower := inner.shallower.trans outer.shallower
  writable := inner.writable ∘ outer.writable

section Case

variable {name : String} {parts : List Document}

/-- The parts of a case with content. -/
theorem within_case {part : Document} (member : part ∈ parts) :
    part.Within (.record [(name, .list parts)]) :=
  (within_list member).trans (within_record (List.mem_singleton_self (name, .list parts)))

theorem writable_case (each : ∀ part ∈ parts, part.Writable) :
    Writable (.record [(name, .list parts)]) := by
  refine .record fun field member => ?_
  obtain rfl := List.mem_singleton.mp member
  exact .list each

theorem depth_case_mono {parts' : List Document}
    (each : List.Forall₂ (fun part part' => part.depth ≤ part'.depth) parts parts') :
    (record [(name, .list parts)]).depth ≤ (record [(name, .list parts')]).depth := by
  have inner : depthOfItems parts ≤ depthOfItems parts' := by
    induction each with
    | nil => exact le_rfl
    | cons head _ ih => exact max_le_max head ih
  simp only [depth, depthOfFields]
  omega

end Case

theorem natBelow?_int {n bound : Nat} (below : n < bound) :
    (int n).natBelow? bound = some n :=
  if_pos below

theorem writable_int {n : Nat} (below : n < 2 ^ 64) : Writable (.int n) :=
  .int (by omega) (by omega)

/-- A fitting value is read as it was saved, and a value that was read fits and is saved no deeper
than the document it was read from. -/
structure Faithful {α : Type} (save : α → Document) (read? : Document → Option α)
    (Fit : α → Prop) : Prop where
  of_save : ∀ a, Fit a → (save a).Writable ∧ read? (save a) = some a
  of_read : ∀ d a, read? d = some a → (save a).depth ≤ d.depth ∧ (d.Writable → Fit a)

namespace Faithful

variable {α : Type} {save : α → Document} {read? : Document → Option α} {Fit : α → Prop}

theorem of_within (faithful : Faithful save read? Fit) {part whole : Document} {a : α}
    (within : part.Within whole) (read : read? part = some a) :
    (save a).depth < whole.depth ∧ (whole.Writable → Fit a) := by
  obtain ⟨depth, fit⟩ := faithful.of_read part a read
  exact ⟨Nat.lt_of_le_of_lt depth within.shallower, fun writable => fit (within.writable writable)⟩

protected theorem list (faithful : Faithful save read? Fit) :
    Faithful (fun as => .list (as.map save)) (fun d => do (← d.list?).mapM read?)
      (fun as => ∀ a ∈ as, Fit a) where
  of_save as fit := by
    constructor
    · refine .list fun d member => ?_
      obtain ⟨a, member', rfl⟩ := List.mem_map.mp member
      exact (faithful.of_save a (fit a member')).1
    · change (as.map save).mapM read? = some as
      rw [mapM_eq_some, List.forall₂_map_left_iff, List.forall₂_same]
      exact fun a member => (faithful.of_save a (fit a member)).2
  of_read d as read := by
    obtain ⟨items, isList, read⟩ := Option.bind_eq_some_iff.mp read
    obtain rfl : d = .list items := by
      cases d with
      | list items' => exact congrArg list (Option.some.inj isList)
      | null | bool b | int n | float x | text s | record fields => cases isList
    constructor
    · refine depth_list_le (Nat.succ_pos _) fun d member => ?_
      obtain ⟨a, inside, rfl⟩ := List.mem_map.mp member
      obtain ⟨item, member, read⟩ := mem_of_forall₂ (mapM_eq_some.mp read) inside
      exact (faithful.of_within (within_list member) read).1
    · intro writable a member
      obtain ⟨item, member, read⟩ := mem_of_forall₂ (mapM_eq_some.mp read) member
      exact (faithful.of_within (within_list member) read).2 writable

/-- A value with another form is saved in this one. -/
protected theorem as {β : Type} (faithful : Faithful save read? Fit) {form : β → α}
    {value : α → β} (left : ∀ b, value (form b) = b) (right : ∀ a, form (value a) = a) :
    Faithful (fun b => save (form b)) (fun d => do pure (value (← read? d)))
      (fun b => Fit (form b)) where
  of_save b fit := by
    obtain ⟨writable, read⟩ := faithful.of_save (form b) fit
    exact ⟨writable, by simp [read, left]⟩
  of_read d b read := by
    obtain ⟨a, found, made⟩ := Option.bind_eq_some_iff.mp read
    obtain rfl := Option.some.inj made
    rw [right]
    exact faithful.of_read d a found

/-- A case without content is saved as its name. -/
theorem name {all : List α} {savedName : α → String}
    (distinct : ∀ a, all.find? (savedName · == savedName a) = some a) :
    Faithful (fun a => .text (savedName a))
      (fun d => do
        let name ← d.caseName?
        all.find? (savedName · == name)) (fun _ => True) where
  of_save a _ := ⟨.text _, distinct a⟩
  of_read _ _ _ := ⟨Nat.zero_le _, fun _ => trivial⟩

end Faithful

end Document

namespace Variable

theorem faithful : Document.Faithful toDocument ofDocument? (fun _ => True) :=
  .name fun v => by cases v <;> decide

end Variable

namespace Unary

theorem faithful : Document.Faithful toDocument ofDocument? (fun _ => True) :=
  .name fun op => by cases op <;> decide

end Unary

namespace Binary

theorem faithful : Document.Faithful toDocument ofDocument? (fun _ => True) :=
  .name fun op => by cases op <;> decide

end Binary

namespace Ternary

theorem faithful : Document.Faithful toDocument ofDocument? (fun _ => True) :=
  .name fun op => by cases op; decide

end Ternary

namespace Operation

theorem faithful : Document.Faithful toDocument ofDocument? (fun _ => True) :=
  .name fun op => by cases op <;> decide

end Operation

open Document (Writable within_fields within_case within_record depth_record_le)

namespace Binary64

/-- A whole number that fits a machine word is not rounded to infinity. -/
theorem isFinite_ofInt {n : Int} (low : -2 ^ 63 ≤ n) (high : n < 2 ^ 64) :
    (ofInt n).isFinite = true := by
  apply isFinite_ofRatio
  have bound : (n.natAbs : ℚ) / 1 ≤ (2 ^ 64 : Nat) / 1 := by
    gcongr
    exact_mod_cast (by omega : n.natAbs ≤ 2 ^ 64)
  refine Nat.lt_of_le_of_lt (magnitudeBits_mono Nat.one_pos Nat.one_pos ?_)
    (?_ : magnitudeBits (2 ^ 64) 1 < _)
  · exact_mod_cast bound
  · decide +kernel

end Binary64

namespace Expr

theorem eq_float_of_isFinite {c : Number} (finite : c.value.isFinite = true) :
    c = .float c.value := by
  cases c with
  | float x => rfl
  | negativeNan => exact absurd finite (by decide +kernel)

theorem faithful : Document.Faithful toDocument ofDocument? IsFinite where
  of_save e finite := by
    induction e with
    | const c =>
      have finite := isFinite_const.mp finite
      have saved : Document.ofFloat c.value = .float c.value := if_pos finite
      rw [toDocument, saved]
      refine ⟨.record fun field member => ?_, congrArg some ?_⟩
      · obtain rfl := List.mem_singleton.mp member
        exact .float finite
      · exact congrArg const (eq_float_of_isFinite finite).symm
    | var v => exact ⟨.record fun field member => by
        obtain rfl := List.mem_singleton.mp member
        exact .text _, congrArg (Functor.map var) (Variable.faithful.of_save v trivial).2⟩
    | unary op a ih =>
      obtain ⟨writable, read⟩ := ih finite
      obtain ⟨writableOp, readOp⟩ := Unary.faithful.of_save op trivial
      refine ⟨Document.writable_case (by simp [writable, writableOp]), ?_⟩
      simp [toDocument, ofDocument?, readOp, read]
    | binary op a b iha ihb =>
      obtain ⟨finiteA, finiteB⟩ := isFinite_binary.mp finite
      obtain ⟨writableA, readA⟩ := iha finiteA
      obtain ⟨writableB, readB⟩ := ihb finiteB
      obtain ⟨writableOp, readOp⟩ := Binary.faithful.of_save op trivial
      refine ⟨Document.writable_case (by simp [writableA, writableB, writableOp]), ?_⟩
      simp [toDocument, ofDocument?, readOp, readA, readB]
    | ternary op a b c iha ihb ihc =>
      obtain ⟨finiteA, finiteB, finiteC⟩ := isFinite_ternary.mp finite
      obtain ⟨writableA, readA⟩ := iha finiteA
      obtain ⟨writableB, readB⟩ := ihb finiteB
      obtain ⟨writableC, readC⟩ := ihc finiteC
      obtain ⟨writableOp, readOp⟩ := Ternary.faithful.of_save op trivial
      refine ⟨Document.writable_case (by simp [writableA, writableB, writableC, writableOp]), ?_⟩
      simp [toDocument, ofDocument?, readOp, readA, readB, readC]
  of_read d e read := by
    induction d using ofDocument?.induct generalizing e with
    | case1 value =>
      obtain ⟨x, number, rfl⟩ := Option.map_eq_some_iff.mp read
      have flat : (Document.ofFloat x).depth = 0 := by
        unfold Document.ofFloat
        split <;> rfl
      constructor
      · simp [toDocument, Document.depth, Document.depthOfFields, Number.value, flat]
      · intro writable
        have writable : value.Writable :=
          (within_record (List.mem_singleton_self ("Constant", value))).writable writable
        refine isFinite_const.mpr ?_
        cases writable with
        | float finite =>
          obtain rfl := Option.some.inj number
          exact finite
        | int low high =>
          obtain rfl := Option.some.inj number
          exact Binary64.isFinite_ofInt low high
        | null | bool b | text s | list each | record each => cases number
    | case2 v =>
      obtain ⟨v', read, rfl⟩ := Option.map_eq_some_iff.mp read
      refine ⟨?_, fun _ => isFinite_var v'⟩
      simp [toDocument, Document.depth, Document.depthOfFields, Variable.toDocument]
    | case3 op a ih =>
      simp only [ofDocument?, Option.bind_eq_bind, Option.bind_eq_some_iff, Option.pure_def,
        Option.some.injEq] at read
      obtain ⟨op', readOp, a', readA, rfl⟩ := read
      obtain ⟨depthOp, -⟩ := Unary.faithful.of_read op op' readOp
      obtain ⟨depthA, fitA⟩ := ih a' readA
      exact ⟨Document.depth_case_mono (.cons depthOp (.cons depthA .nil)),
        fun writable => isFinite_unary.mpr (fitA ((within_case (by simp)).writable writable))⟩
    | case4 op a b iha ihb =>
      simp only [ofDocument?, Option.bind_eq_bind, Option.bind_eq_some_iff, Option.pure_def,
        Option.some.injEq] at read
      obtain ⟨op', readOp, a', readA, b', readB, rfl⟩ := read
      obtain ⟨depthOp, -⟩ := Binary.faithful.of_read op op' readOp
      obtain ⟨depthA, fitA⟩ := iha a' readA
      obtain ⟨depthB, fitB⟩ := ihb b' readB
      refine ⟨Document.depth_case_mono (.cons depthOp (.cons depthA (.cons depthB .nil))),
        fun writable => isFinite_binary.mpr ⟨fitA ?_, fitB ?_⟩⟩
      · exact (within_case (by simp)).writable writable
      · exact (within_case (by simp)).writable writable
    | case5 op a b c iha ihb ihc =>
      simp only [ofDocument?, Option.bind_eq_bind, Option.bind_eq_some_iff, Option.pure_def,
        Option.some.injEq] at read
      obtain ⟨op', readOp, a', readA, b', readB, c', readC, rfl⟩ := read
      obtain ⟨depthOp, -⟩ := Ternary.faithful.of_read op op' readOp
      obtain ⟨depthA, fitA⟩ := iha a' readA
      obtain ⟨depthB, fitB⟩ := ihb b' readB
      obtain ⟨depthC, fitC⟩ := ihc c' readC
      refine ⟨Document.depth_case_mono
          (.cons depthOp (.cons depthA (.cons depthB (.cons depthC .nil)))),
        fun writable => isFinite_ternary.mpr ⟨fitA ?_, fitB ?_, fitC ?_⟩⟩
      · exact (within_case (by simp)).writable writable
      · exact (within_case (by simp)).writable writable
      · exact (within_case (by simp)).writable writable
    | case6 d noConst noVar noUnary noBinary noTernary =>
      rw [ofDocument?.eq_6 d noConst noVar noUnary noBinary noTernary] at read
      cases read

end Expr

namespace Formula

theorem fields_of_read {d : Document} {f : Formula} (read : ofDocument? d = some f) :
    ∃ text root, d.fields? ["infix", "root"] = some [text, root] ∧ text.text? = some f.text ∧
      Expr.ofDocument? root = some f.root := by
  obtain ⟨parts, fields, read⟩ := Option.bind_eq_some_iff.mp read
  split at read
  next text root =>
    obtain ⟨t, isText, read⟩ := Option.bind_eq_some_iff.mp read
    obtain ⟨e, isExpr, read⟩ := Option.bind_eq_some_iff.mp read
    obtain rfl := Option.some.inj read
    exact ⟨text, root, fields, isText, isExpr⟩
  next => cases read

theorem faithful : Document.Faithful toDocument ofDocument? (·.root.IsFinite) where
  of_save f finite := by
    obtain ⟨writable, read⟩ := Expr.faithful.of_save f.root finite
    constructor
    · exact .record (by simp [writable, Writable.text])
    · simp [toDocument, ofDocument?, Document.fields?, List.lookup_cons, Document.text?, read]
  of_read d f read := by
    obtain ⟨text, root, fields, isText, read⟩ := fields_of_read read
    obtain ⟨depth, finite⟩ := Expr.faithful.of_within (within_fields fields (by simp)) read
    have pos := Nat.zero_lt_of_lt depth
    exact ⟨depth_record_le pos (by simp [Document.depth, pos, depth]), finite⟩

end Formula

namespace Axis

theorem ofSavedName?_savedName (axis : Axis) : ofSavedName? axis.savedName = some axis := by
  cases axis <;> decide

end Axis

namespace Genome

theorem get?_set (genome : Genome) (axis axis' : Axis) (f : Formula) :
    (genome.set axis f).get? axis' = if axis = axis' then some f else genome.get? axis' := by
  cases axis <;> cases axis' <;> rfl

/-- The entries make up the genome. -/
theorem foldl_entries (genome : Genome) :
    genome.entries.foldl (fun made entry => made.set entry.1 entry.2) {} = genome := by
  rcases genome with ⟨_ | _, _ | _, _ | _, _ | _, _ | _, _ | _⟩ <;> rfl

/-- One more field is read. -/
def readField? (genome : Genome) (field : String × Document) : Option Genome := do
  pure (genome.set (← Axis.ofSavedName? field.1) (← Formula.ofDocument? field.2))

theorem ofDocument?_record (fields : List (String × Document)) :
    ofDocument? (.record fields) = fields.foldlM readField? {} := rfl

theorem readField?_entry {f : Formula} (finite : f.root.IsFinite) (genome : Genome) (axis : Axis) :
    genome.readField? (axis.savedName, f.toDocument) = some (genome.set axis f) := by
  simp [readField?, Axis.ofSavedName?_savedName, (Formula.faithful.of_save f finite).2]

theorem foldlM_readField? {entries : List (Axis × Formula)} (genome : Genome)
    (finite : ∀ entry ∈ entries, entry.2.root.IsFinite) :
    (entries.map fun (axis, f) => (axis.savedName, f.toDocument)).foldlM readField? genome =
      some (entries.foldl (fun made entry => made.set entry.1 entry.2) genome) := by
  induction entries generalizing genome with
  | nil => rfl
  | cons entry rest ih =>
      obtain ⟨first, others⟩ := List.forall_mem_cons.mp finite
      rw [List.map_cons, List.foldlM_cons, readField?_entry first, List.foldl_cons]
      exact ih _ others

/-- Every formula that was read is in a field. -/
theorem field_of_read {fields : List (String × Document)} {genome result : Genome}
    (read : fields.foldlM readField? genome = some result) {axis : Axis} {f : Formula}
    (found : result.get? axis = some f) :
    genome.get? axis = some f ∨ ∃ field ∈ fields, Formula.ofDocument? field.2 = some f := by
  induction fields generalizing genome with
  | nil =>
      obtain rfl := Option.some.inj read
      exact .inl found
  | cons field rest ih =>
      rw [List.foldlM_cons] at read
      obtain ⟨next, first, read⟩ := Option.bind_eq_some_iff.mp read
      obtain ⟨named, -, first⟩ := Option.bind_eq_some_iff.mp first
      obtain ⟨g, isFormula, first⟩ := Option.bind_eq_some_iff.mp first
      obtain rfl := Option.some.inj first
      rcases ih read with before | ⟨field', member, isFormula'⟩
      · rw [get?_set] at before
        split at before
        next =>
          obtain rfl := Option.some.inj before
          exact .inr ⟨field, List.mem_cons_self, isFormula⟩
        next => exact .inl before
      · exact .inr ⟨field', List.mem_cons_of_mem _ member, isFormula'⟩

theorem faithful : Document.Faithful toDocument ofDocument? IsFinite where
  of_save genome finite := by
    have each : ∀ entry ∈ genome.entries, entry.2.root.IsFinite :=
      fun entry member => finite entry.1 entry.2 (mem_entries.mp member)
    constructor
    · refine .record fun field member => ?_
      obtain ⟨entry, inside, rfl⟩ := List.mem_map.mp member
      exact (Formula.faithful.of_save entry.2 (each entry inside)).1
    · rw [toDocument, ofDocument?_record, foldlM_readField? _ each, foldl_entries]
  of_read d genome read := by
    obtain ⟨fields, rfl⟩ : ∃ fields, d = .record fields := by
      cases d with
      | record fields => exact ⟨fields, rfl⟩
      | null | bool b | int n | float x | text s | list items => cases read
    rw [ofDocument?_record] at read
    have each : ∀ axis f, genome.get? axis = some f →
        f.toDocument.depth < (Document.record fields).depth ∧
          ((Document.record fields).Writable → f.root.IsFinite) := by
      intro axis f found
      rcases field_of_read read found with before | ⟨field, member, isFormula⟩
      · cases axis <;> cases before
      · exact Formula.faithful.of_within (within_record member) isFormula
    constructor
    · refine depth_record_le (Nat.succ_pos _) fun field member => ?_
      obtain ⟨entry, inside, rfl⟩ := List.mem_map.mp member
      exact (each entry.1 entry.2 (mem_entries.mp inside)).1
    · exact fun writable axis f found => (each axis f found).2 writable

end Genome

namespace Pedigree

theorem fields_of_read {d : Document} {p : Pedigree} (read : ofDocument? d = some p) :
    ∃ operation parents, d.fields? ["operation", "parents"] = some [operation, parents] ∧
      Operation.ofDocument? operation = some p.operation ∧
      (do (← parents.list?).mapM Genome.ofDocument?) = some p.parents := by
  obtain ⟨parts, fields, read⟩ := Option.bind_eq_some_iff.mp read
  split at read
  next operation parents =>
    obtain ⟨o, isOperation, read⟩ := Option.bind_eq_some_iff.mp read
    obtain ⟨items, isList, read⟩ := Option.bind_eq_some_iff.mp read
    obtain ⟨gs, isGenomes, read⟩ := Option.bind_eq_some_iff.mp read
    obtain rfl := Option.some.inj read
    exact ⟨operation, parents, fields, isOperation,
      Option.bind_eq_some_iff.mpr ⟨items, isList, isGenomes⟩⟩
  next => cases read

theorem faithful : Document.Faithful toDocument ofDocument?
    (fun p => ∀ parent ∈ p.parents, parent.IsFinite) where
  of_save p finite := by
    obtain ⟨writable, read⟩ := Operation.faithful.of_save p.operation trivial
    obtain ⟨writable', read'⟩ := Genome.faithful.list.of_save p.parents finite
    constructor
    · exact .record (by simp [writable, writable'])
    · obtain ⟨items, isList, isGenomes⟩ := Option.bind_eq_some_iff.mp read'
      simp [toDocument, ofDocument?, Document.fields?, List.lookup_cons, read, isList, isGenomes]
  of_read d p read := by
    obtain ⟨operation, parents, fields, read, read'⟩ := fields_of_read read
    obtain ⟨depth, -⟩ := Operation.faithful.of_within (within_fields fields (by simp)) read
    obtain ⟨depth', finite⟩ := Genome.faithful.list.of_within (within_fields fields (by simp)) read'
    exact ⟨depth_record_le (Nat.zero_lt_of_lt depth) (by simp [depth, depth']), finite⟩

end Pedigree

namespace Fractal

/-- The fractal without its picture, as it is before its picture is rendered. -/
def blank (f : Fractal) : Fractal := { f with state := .pending, image := none }

theorem fields_of_read {d : Document} {f : Fractal} (read : ofDocument? d = some f) :
    ∃ id genes lineage, d.fields? ["id", "genes", "lineage"] = some [id, genes, lineage] ∧
      id.text? = some f.id ∧ Genome.ofDocument? genes = some f.genome ∧
      Pedigree.ofDocument? lineage = some f.pedigree ∧ f.blank = f := by
  obtain ⟨parts, fields, read⟩ := Option.bind_eq_some_iff.mp read
  split at read
  next id genes lineage =>
    obtain ⟨t, isText, read⟩ := Option.bind_eq_some_iff.mp read
    obtain ⟨g, isGenome, read⟩ := Option.bind_eq_some_iff.mp read
    obtain ⟨p, isPedigree, read⟩ := Option.bind_eq_some_iff.mp read
    obtain rfl := Option.some.inj read
    exact ⟨id, genes, lineage, fields, isText, isGenome, isPedigree, rfl⟩
  next => cases read

theorem faithful : Document.Faithful toDocument ofDocument? (fun f => f.IsFinite ∧ f.blank = f) where
  of_save f fit := by
    obtain ⟨⟨own, parents⟩, isBlank⟩ := fit
    obtain ⟨writable, read⟩ := Genome.faithful.of_save f.genome own
    obtain ⟨writable', read'⟩ := Pedigree.faithful.of_save f.pedigree parents
    constructor
    · exact .record (by simp [writable, writable', Writable.text])
    · rw [← isBlank]
      simp [toDocument, ofDocument?, Document.fields?, List.lookup_cons, Document.text?, blank, read, read']
  of_read d f read := by
    obtain ⟨id, genes, lineage, fields, -, read, read', isBlank⟩ := fields_of_read read
    obtain ⟨depth, own⟩ := Genome.faithful.of_within (within_fields fields (by simp)) read
    obtain ⟨depth', parents⟩ := Pedigree.faithful.of_within (within_fields fields (by simp)) read'
    have pos := Nat.zero_lt_of_lt depth
    exact ⟨depth_record_le pos (by simp [Document.depth, pos, depth, depth']),
      fun writable => ⟨⟨own writable, parents writable⟩, isBlank⟩⟩

end Fractal

end FractalBreeder
