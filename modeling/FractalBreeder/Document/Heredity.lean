import FractalBreeder.Document.Basic
import FractalBreeder.Heredity.Fractal

/-!
The saved form of expressions, formulas, genomes and fractals. Reading checks the form alone, so
that texts and identities are taken as they are; pictures are not saved.
-/
namespace FractalBreeder

namespace Variable

def savedName : Variable → String
  | x => "X"
  | y => "Y"
  | z => "Z"

def toDocument (v : Variable) : Document := .text v.savedName

def ofDocument? (d : Document) : Option Variable := do
  let name ← d.caseName?
  all.find? (·.savedName == name)

end Variable

namespace Unary

def savedName : Unary → String
  | sin => "Sin"
  | cos => "Cos"
  | tan => "Tan"
  | abs => "Abs"

def toDocument (op : Unary) : Document := .text op.savedName

def ofDocument? (d : Document) : Option Unary := do
  let name ← d.caseName?
  all.find? (·.savedName == name)

end Unary

namespace Binary

def savedName : Binary → String
  | add => "Add"
  | sub => "Sub"
  | mul => "Mul"
  | div => "Div"
  | pow => "Pow"

def toDocument (op : Binary) : Document := .text op.savedName

def ofDocument? (d : Document) : Option Binary := do
  let name ← d.caseName?
  all.find? (·.savedName == name)

end Binary

namespace Ternary

def savedName : Ternary → String
  | choose => "If"

def toDocument (op : Ternary) : Document := .text op.savedName

def ofDocument? (d : Document) : Option Ternary := do
  let name ← d.caseName?
  all.find? (·.savedName == name)

end Ternary

namespace Expr

def toDocument : Expr → Document
  | const c => .record [("Constant", .ofFloat c.value)]
  | var v => .record [("Variable", v.toDocument)]
  | unary op a => .record [("Unary", .list [op.toDocument, a.toDocument])]
  | binary op a b => .record [("Binary", .list [op.toDocument, a.toDocument, b.toDocument])]
  | ternary op a b c =>
    .record [("Ternary", .list [op.toDocument, a.toDocument, b.toDocument, c.toDocument])]

def ofDocument? : Document → Option Expr
  | .record [("Constant", value)] => (const ∘ .float) <$> value.float?
  | .record [("Variable", v)] => var <$> Variable.ofDocument? v
  | .record [("Unary", .list [op, a])] => do
    pure (unary (← Unary.ofDocument? op) (← ofDocument? a))
  | .record [("Binary", .list [op, a, b])] => do
    pure (binary (← Binary.ofDocument? op) (← ofDocument? a) (← ofDocument? b))
  | .record [("Ternary", .list [op, a, b, c])] => do
    pure (ternary (← Ternary.ofDocument? op) (← ofDocument? a) (← ofDocument? b) (← ofDocument? c))
  | _ => none

end Expr

namespace Formula

def toDocument (f : Formula) : Document :=
  .record [("infix", .text f.text), ("root", f.root.toDocument)]

def ofDocument? (d : Document) : Option Formula := do
  match ← d.fields? ["infix", "root"] with
  | [text, root] => pure ⟨← text.text?, ← Expr.ofDocument? root⟩
  | _ => none

end Formula

namespace Axis

def savedName : Axis → String
  | x => "X"
  | y => "Y"
  | z => "Z"
  | r => "R"
  | g => "G"
  | b => "B"

def ofSavedName? (name : String) : Option Axis := all.find? (·.savedName == name)

end Axis

namespace Genome

def toDocument (genome : Genome) : Document :=
  .record (genome.entries.map fun (axis, f) => (axis.savedName, f.toDocument))

/-- Of two formulas for one axis the later counts. -/
def ofDocument? : Document → Option Genome
  | .record fields => fields.foldlM (fun genome (name, f) => do
      pure (genome.set (← Axis.ofSavedName? name) (← Formula.ofDocument? f))) {}
  | _ => none

end Genome

namespace Operation

def savedName : Operation → String
  | cross => "Cross"
  | mutate => "Mutate"
  | introduce => "Introduce"
  | random => "Random"

def toDocument (op : Operation) : Document := .text op.savedName

def ofDocument? (d : Document) : Option Operation := do
  let name ← d.caseName?
  all.find? (·.savedName == name)

end Operation

namespace Pedigree

def toDocument (p : Pedigree) : Document :=
  .record [("operation", p.operation.toDocument), ("parents", .list (p.parents.map (·.toDocument)))]

def ofDocument? (d : Document) : Option Pedigree := do
  match ← d.fields? ["operation", "parents"] with
  | [operation, parents] =>
    pure ⟨← Operation.ofDocument? operation, ← (← parents.list?).mapM Genome.ofDocument?⟩
  | _ => none

end Pedigree

namespace Fractal

def toDocument (f : Fractal) : Document :=
  .record [("id", .text f.id), ("genes", f.genome.toDocument), ("lineage", f.pedigree.toDocument)]

/-- A fractal that was read has no picture yet. -/
def ofDocument? (d : Document) : Option Fractal := do
  match ← d.fields? ["id", "genes", "lineage"] with
  | [id, genes, lineage] =>
    pure { id := ← id.text?, genome := ← Genome.ofDocument? genes,
           pedigree := ← Pedigree.ofDocument? lineage }
  | _ => none

end Fractal

end FractalBreeder
