import FractalBreeder.Settings.Convert
import FractalBreeder.Text.Split

/-!
The commands of the console, one a line: a word, and for some commands the slots that they are
about.
-/
namespace FractalBreeder

inductive Command where
  | breed
  | select (slots : List Nat)
  | toggle (slot : Option Nat)
  | back
  | forward
  | list
  | draw (slots : List Nat)
  | view (slot : Option Nat)
  | quit
  | unknown
  deriving DecidableEq, Repr

namespace Command

/-- A slot is a 64-bit word in digits. -/
def slot? (word : String) : Option Nat := do
  let n ← Value.natural? word.toList
  if n < UInt64.size then some n else none

/-- The command of a line; an empty line has none. Words that are no slots are left out. -/
def ofLine? (line : String) : Option Command :=
  match Text.words line with
  | [] => none
  | word :: others =>
    let slots := others.filterMap slot?
    some (match word with
      | "new" => breed
      | "select" => select slots
      | "toggle" => toggle slots.head?
      | "back" => back
      | "forward" => forward
      | "show" => list
      | "draw" => draw slots
      | "gl" => view slots.head?
      | "quit" | "exit" => quit
      | _ => unknown)

end Command

end FractalBreeder
