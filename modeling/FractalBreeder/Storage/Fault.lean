/-!
Why an operation on files was refused.
-/
namespace FractalBreeder

inductive IoFault where
  | notFound
  | permissionDenied
  | alreadyExists
  | notADirectory
  | isADirectory
  | nameTooLong
  | zeroInName
  /-- A fault that someone else reports in words. -/
  | reported (text : String)
  deriving DecidableEq, Repr

namespace IoFault

def text : IoFault → String
  | notFound => "No such file or directory (os error 2)"
  | permissionDenied => "Permission denied (os error 13)"
  | alreadyExists => "File exists (os error 17)"
  | notADirectory => "Not a directory (os error 20)"
  | isADirectory => "Is a directory (os error 21)"
  | nameTooLong => "File name too long (os error 36)"
  | zeroInName => "file name contained an unexpected NUL byte"
  | reported text => text

end IoFault

end FractalBreeder
