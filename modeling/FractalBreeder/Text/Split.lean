/-!
Cutting a text at certain characters.
-/
namespace FractalBreeder.Text

/-- The pieces between the characters at which to cut; there is one more piece than such
characters. -/
def split (isCut : Char → Bool) : List Char → List (List Char)
  | [] => [[]]
  | c :: rest =>
    if isCut c then [] :: split isCut rest
    else match split isCut rest with
      | [] => [[c]]
      | piece :: others => (c :: piece) :: others

/-- The blanks within a line. -/
def isBlank (c : Char) : Bool := c = ' ' || c = '\t'

def skipBlanks (cs : List Char) : List Char := cs.dropWhile isBlank

/-- Blanks and line breaks of all scripts. -/
def isSpace (c : Char) : Bool :=
  let n := c.toNat
  (9 ≤ n && n ≤ 13) || n = 0x20 || n = 0x85 || n = 0xa0 || n = 0x1680 ||
    (0x2000 ≤ n && n ≤ 0x200a) || n = 0x2028 || n = 0x2029 || n = 0x202f || n = 0x205f ||
    n = 0x3000

/-- The words of a text. -/
def words (s : String) : List String :=
  ((split isSpace s.toList).filter (!·.isEmpty)).map String.ofList

end FractalBreeder.Text
