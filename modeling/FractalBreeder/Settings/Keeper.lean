import FractalBreeder.Settings.File

/-!
The keeper of the settings in force. A change computes valid settings from those in force, or from
a file and the environment alone; one that fails leaves the settings as they are. Several changes
may be under way at once: each reads, computes and writes in steps of its own.
-/
namespace FractalBreeder

inductive Change where
  | update (f : Settings → Settings)
  | load (disk : Disk) (environment : List (String × String)) (path : String)

namespace Change

/-- What a change makes of the settings it has seen. -/
def outcome (seen : Settings) : Change → Except Failure Settings
  | update f => (f seen).check
  | load disk environment path => Settings.load disk environment path

end Change

/-- The settings after a change that runs alone, and its result. -/
def Settings.change (held : Settings) (c : Change) : Settings × Except Failure Unit :=
  match c.outcome held with
  | .ok s => (s, .ok ())
  | .error fault => (held, .error fault)

/-- How far a change has got. -/
inductive ChangePhase where
  | waiting
  | seen (s : Settings)
  | computed (result : Except Failure Settings)
  | done (result : Except Failure Unit)

structure Keeper where
  held : Settings
  changes : List (Change × ChangePhase)

namespace Keeper

/-- The keeper before any of the changes has begun. -/
def start (held : Settings) (changes : List Change) : Keeper := ⟨held, changes.map (·, .waiting)⟩

/-- The next step of one of the changes; a change that is done has none. -/
def step (k : Keeper) (i : Nat) : Option Keeper := do
  let (c, phase) ← k.changes[i]?
  let put (phase : ChangePhase) : List (Change × ChangePhase) := k.changes.set i (c, phase)
  match phase with
  | .waiting => pure { k with changes := put (.seen k.held) }
  | .seen s => pure { k with changes := put (.computed (c.outcome s)) }
  | .computed (.ok s) => pure ⟨s, put (.done (.ok ()))⟩
  | .computed (.error fault) => pure { k with changes := put (.done (.error fault)) }
  | .done _ => none

end Keeper

end FractalBreeder
