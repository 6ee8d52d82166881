import FractalBreeder.Number.Basic

/-!
Values as they stand in a file of settings or in the environment, before they are fitted to the
settings that they are meant for.
-/
namespace FractalBreeder

inductive Value where
  /-- A place in a list that nothing was put into. -/
  | unset
  | bool (b : Bool)
  | int (n : Int)
  | float (x : Number)
  | text (s : String)
  | list (items : List Value)
  | table (fields : List (String × Value))
  deriving Inhabited

/-- Values with their keys. -/
abbrev Fields := List (String × Value)

end FractalBreeder
