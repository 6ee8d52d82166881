import FractalBreeder.Expr.ParseError
import FractalBreeder.Settings.Basic
import FractalBreeder.Storage.Fault

/-!
Everything that can fail in a session, and how it is told.
-/
namespace FractalBreeder

inductive Failure where
  | parse (position : Nat) (detail : String)
  | renderer (reason : String)
  | timeout (seconds : UInt64)
  | cancelled
  | settings (fault : SettingsFault)
  | unsaved (cause : IoFault)
  | io (cause : IoFault)
  /-- A settings file that is missing, is not well formed or does not fit. -/
  | unreadableSettings
  /-- Settings with a number that the file format cannot hold. -/
  | unwritableSettings
  deriving DecidableEq, Repr

namespace Failure

def ofParseError (e : ParseError) : Failure := .parse e.position e.fault.text

def message : Failure → String
  | parse position detail => s!"Parse error at {position}: {detail}"
  | renderer reason => "Renderer error: " ++ reason
  | timeout seconds => s!"Renderer timed out after {seconds}s"
  | cancelled => "Render cancelled"
  | settings fault => "Configuration error: " ++ fault.text
  | unsaved cause => "Configuration error: Failed to write config: " ++ cause.text
  | io cause => "IO error: " ++ cause.text
  | unreadableSettings => "Config error"
  | unwritableSettings => "TOML error"

end Failure

end FractalBreeder
