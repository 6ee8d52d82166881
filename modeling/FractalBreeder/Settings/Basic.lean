import FractalBreeder.Settings.Genetic
import FractalBreeder.Settings.Render

/-!
All settings of a session, and when they are valid.
-/
namespace FractalBreeder

structure Settings where
  /-- Makes a session repeatable. -/
  seed : Option UInt64 := none
  genetic : GeneticSettings := {}
  render : RenderSettings := {}

inductive SettingsFault where
  | genetic (fault : GeneticFault)
  | render (fault : RenderFault)
  deriving DecidableEq, Repr

namespace SettingsFault

/-- The text names the section of the file that the fault is in. -/
def text : SettingsFault → String
  | genetic fault => "[genetics] " ++ fault.text
  | render fault => "[render] " ++ fault.text

end SettingsFault

namespace Settings

def fault? (s : Settings) : Option SettingsFault :=
  (s.genetic.fault?.map .genetic) <|> (s.render.fault?.map .render)

def isValid (s : Settings) : Bool := s.fault?.isNone

end Settings

end FractalBreeder
