import FractalBreeder.Settings.Value

/-!
Tables while a file is read. A table may be made on the way to another one, by a header or by
keys with dots. One that was made on the way may still be opened by a header or extended by keys
with dots, and one with a header has no other; what stands in braces or brackets is closed.
-/
namespace FractalBreeder.Toml

/-- How a table came about. -/
inductive Making where
  | onTheWay
  | byHeader
  | byDottedKey
  deriving DecidableEq, Repr

inductive Item where
  | value (v : Value)
  | table (made : Making) (fields : List (String × Item))
  | tables (elements : List (List (String × Item)))

abbrev Items := List (String × Item)

namespace Items

/-- Puts an item in the place of the one with its key, or behind all others. -/
def put (key : String) (item : Item) : Items → Items
  | [] => [(key, item)]
  | (k, old) :: rest => if k = key then (k, item) :: rest else (k, old) :: put key item rest

/-- Changes the last of a list of tables. -/
def modifyLast (change : Items → Option Items) (elements : List Items) : Option (List Items) :=
  match elements.getLast? with
  | some last => (change last).map fun new => elements.dropLast ++ [new]
  | none => none

/-- Adds a value under a path of keys; `here` tells whether a last key may be put right here. The
tables on the path count as made by it from then on, so that no header may open them. -/
def insert : List String → String → Value → Bool → Items → Option Items
  | [], key, v, here, items =>
    if here && (items.lookup key).isNone then some (put key (.value v) items) else none
  | k :: ks, key, v, _, items =>
    match items.lookup k with
    | none => (insert ks key v true []).map fun sub => put k (.table .byDottedKey sub) items
    | some (.table .byHeader _) => none
    | some (.table _ sub) =>
      (insert ks key v true sub).map fun sub => put k (.table .byDottedKey sub) items
    | some (.tables elements) =>
      (modifyLast (insert ks key v false) elements).map fun elements => put k (.tables elements) items
    | some (.value _) => none

/-- Changes the table that the keys of a header lead to. -/
def within (change : Items → Option Items) : List String → Items → Option Items
  | [], items => change items
  | k :: ks, items =>
    match items.lookup k with
    | none => (within change ks []).map fun sub => put k (.table .onTheWay sub) items
    | some (.table made sub) => (within change ks sub).map fun sub => put k (.table made sub) items
    | some (.tables elements) =>
      (modifyLast (within change ks) elements).map fun elements => put k (.tables elements) items
    | some (.value _) => none

/-- Opens a table by its header. -/
def openTable (key : String) (items : Items) : Option Items :=
  match items.lookup key with
  | none => some (put key (.table .byHeader []) items)
  | some (.table .onTheWay sub) => some (put key (.table .byHeader sub) items)
  | some _ => none

/-- Opens the next table of a list of tables. -/
def openElement (key : String) (items : Items) : Option Items :=
  match items.lookup key with
  | none => some (put key (.tables [[]]) items)
  | some (.tables elements) => some (put key (.tables (elements ++ [[]])) items)
  | some _ => none

end Items

mutual

def Item.toValue : Item → Value
  | .value v => v
  | .table _ fields => .table (fieldsToValues fields)
  | .tables elements => .list (elementsToValues elements)

def fieldsToValues : List (String × Item) → List (String × Value)
  | [] => []
  | (key, item) :: rest => (key, item.toValue) :: fieldsToValues rest

def elementsToValues : List (List (String × Item)) → List Value
  | [] => []
  | fields :: rest => .table (fieldsToValues fields) :: elementsToValues rest

end

end FractalBreeder.Toml
