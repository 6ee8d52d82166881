import FractalBreeder.Settings.Convert
import FractalBreeder.Settings.Way

/-!
Layers of settings: a later layer replaces the values of an earlier one key by key, so that a
table keeps the keys that the later layer does not give. A key at the top may be the way to a value
further down.
-/
namespace FractalBreeder

namespace Fields

/-- Puts a value in the place of the one with its key, or behind all others. -/
def put (key : String) (v : Value) : Fields → Fields
  | [] => [(key, v)]
  | (k, old) :: rest => if k = key then (k, v) :: rest else (k, old) :: put key v rest

/-- The fields of a table; anything else has none. -/
def below : Option Value → Fields
  | some (.table fields) => fields
  | _ => []

/-- The elements of a list; anything else has none. -/
def elements : Option Value → List Value
  | some (.list items) => items
  | _ => []

mutual

/-- What a value becomes on top of an older one: tables are joined. -/
def merged : Value → Option Value → Value
  | .table fields, old => .table (mergedAll fields (below old))
  | v, _ => v

def mergedAll : List (String × Value) → Fields → Fields
  | [], target => target
  | (key, v) :: rest, target => mergedAll rest (put key (merged v (target.lookup key)) target)

end

/-- A list that is long enough for an index, and the place that is meant. An index below zero counts
from the end, and places are put in front of the list where it would be before the beginning. -/
def reach (items : List Value) : Int → List Value × Nat
  | .ofNat n => (items ++ List.replicate (n + 1 - items.length) .unset, n)
  | .negSucc n =>
    (List.replicate (n + 1 - items.length) .unset ++ items, items.length - (n + 1))

/-- What an old value becomes when a value is set at the end of a way in it; what is of another kind
on the way is replaced. -/
def setAt : Way → Value → Option Value → Value
  | [], v, old => merged v old
  | .key name :: way, v, old =>
    .table (put name (setAt way v ((below old).lookup name)) (below old))
  | .index i :: way, v, old =>
    let (items, place) := reach (elements old) i
    .list (items.set place (setAt way v items[place]?))

def set (way : Way) (v : Value) (target : Fields) : Fields :=
  below (some (setAt way v (some (.table target))))

/-- A layer on top of what is there. -/
def overlay (layer : Fields) (target : Fields) : Fields :=
  layer.foldl (fun target (key, v) => set (Way.ofKey key) v target) target

end Fields

namespace Environment

/-- Every two underscores become a point. -/
def points : List Char → List Char
  | '_' :: '_' :: rest => '.' :: points rest
  | c :: rest => c :: points rest
  | [] => []

/-- The small form of a letter; the sign of the kelvin is a capital K. -/
def small (c : Char) : Char := if c = '\u212a' then 'k' else c.toLower

/-- The key that a variable sets, if its name begins like that of a setting. -/
def key? (name : String) : Option String :=
  let name := name.toList.map small
  let start := "aesthetic__".toList
  if start.isPrefixOf name then some (String.ofList (points (name.drop start.length))) else none

/-- A signed integer of 64 bits. -/
def integer? (cs : List Char) : Option Int := do
  let (negative, rest) := Decimal.readSign cs
  if rest.isEmpty || !rest.all Decimal.isDigit then none
  else
    let n : Int := Decimal.natOfDigits rest
    Decimal.signed64? (if negative then -n else n)

/-- A text is taken for a truth value, an integer or a float, if it can be. -/
def value (s : String) : Value :=
  if s.toLower = "true" then .bool true
  else if s.toLower = "false" then .bool false
  else match integer? s.toList with
    | some n => .int n
    | none => match Value.decimal? s.toList with
      | some x => .float x
      | none => .text s

/-- The settings that an environment gives. -/
def layer (environment : List (String × String)) : Fields :=
  environment.filterMap fun (name, s) => (key? name).map (·, value s)

end Environment

namespace Settings

/-- The settings of a file and an environment; the environment is the later layer. -/
def ofLayers? (file : Fields) (environment : List (String × String)) : Option Settings :=
  ofFields? (Fields.overlay (Environment.layer environment) (Fields.overlay file []))

end Settings

end FractalBreeder
