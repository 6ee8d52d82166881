import FractalBreeder.Number.Binary64

/-!
The values of saved files: numbers, texts, lists and records. A choice among named cases is saved
as the name alone or as a record with one field, whose name is the case.
-/
namespace FractalBreeder

inductive Document where
  | null
  | bool (b : Bool)
  | int (n : Int)
  | float (x : Float)
  | text (s : String)
  | list (items : List Document)
  | record (fields : List (String × Document))
  deriving Inhabited

namespace Document

mutual

/-- How deep lists and records are nested. -/
def depth : Document → Nat
  | .list items => depthOfItems items + 1
  | .record fields => depthOfFields fields + 1
  | _ => 0

def depthOfItems : List Document → Nat
  | [] => 0
  | d :: rest => max d.depth (depthOfItems rest)

def depthOfFields : List (String × Document) → Nat
  | [] => 0
  | (_, d) :: rest => max d.depth (depthOfFields rest)

end

/-- The deepest nesting at which a file is read. -/
def maxDepth : Nat := 127

/-- What is read from the file that a document is saved in. -/
def reread? (d : Document) : Option Document := if d.depth ≤ maxDepth then some d else none

/-- A number that is not finite has no saved form. -/
def ofFloat (x : Float) : Document := if x.isFinite then .float x else .null

def float? : Document → Option Float
  | .float x => some x
  | .int n => some (Binary64.ofInt n)
  | _ => none

def text? : Document → Option String
  | .text s => some s
  | _ => none

def list? : Document → Option (List Document)
  | .list items => some items
  | _ => none

/-- A natural number below the bound. -/
def natBelow? (bound : Nat) : Document → Option Nat
  | .int (.ofNat n) => if n < bound then some n else none
  | _ => none

/-- The fields of a record in the order of the given names. The names may be left out, and then
every field has its place; other fields do no harm. -/
def fields? (names : List String) : Document → Option (List Document)
  | .record fields => names.mapM fun name => fields.lookup name
  | .list items => if items.length = names.length then some items else none
  | _ => none

/-- A case that holds nothing. -/
def caseName? : Document → Option String
  | .text name => some name
  | .record [(name, .null)] => some name
  | _ => none

end Document

end FractalBreeder
