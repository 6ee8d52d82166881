import FractalBreeder.Text.Split
import FractalBreeder.Toml.Moment
import FractalBreeder.Toml.Number
import FractalBreeder.Toml.Tables
import FractalBreeder.Toml.Text

/-!
Reading a file of settings: lines that open a table or give a value to a key. A text that breaks
any rule of the format has no value at all.
-/
namespace FractalBreeder.Toml

/-- How deep brackets and braces may be nested, and how many keys a path may have. -/
def maxNesting : Nat := 80

open Text (skipBlanks)

/-- The rest of a line that holds nothing but blanks and a comment; its line break is consumed. -/
def endOfLine? (cs : List Char) : Option (List Char) :=
  let cs := skipBlanks cs
  let cs := match cs with
    | '#' :: rest => rest.dropWhile isPlain
    | cs => cs
  match cs with
  | [] => some []
  | '\n' :: rest => some rest
  | '\r' :: '\n' :: rest => some rest
  | _ => none

/-- Skips blanks, comments and line breaks, at most as many lines as given. -/
def skipLines : Nat → List Char → List Char
  | 0, cs => cs
  | lines + 1, cs =>
    let cs := skipBlanks cs
    match cs with
    | [] => []
    | _ => match endOfLine? cs with
      | some rest => skipLines lines rest
      | none => cs

def skipAllLines (cs : List Char) : List Char := skipLines cs.length cs

def isBare (c : Char) : Bool :=
  ('a' ≤ c && c ≤ 'z') || ('A' ≤ c && c ≤ 'Z') || ('0' ≤ c && c ≤ '9') || c = '_' || c = '-'

/-- One key: bare, or a string on one line. -/
def key? (cs : List Char) : Option (String × List Char) :=
  match cs with
  | '"' :: rest => (basic? rest).map fun (content, rest) => (String.ofList content, rest)
  | '\'' :: rest => (literal? rest).map fun (content, rest) => (String.ofList content, rest)
  | _ =>
    if (cs.takeWhile isBare).isEmpty then none
    else some (String.ofList (cs.takeWhile isBare), cs.dropWhile isBare)

/-- Keys with points between them, at most as many as given, and the blanks behind them. -/
def keys? : Nat → List Char → Option (List String × List Char)
  | 0, _ => none
  | count + 1, cs => do
    let (key, cs) ← key? cs
    match skipBlanks cs with
    | '.' :: rest => do
      let (keys, rest) ← keys? count (skipBlanks rest)
      some (key :: keys, rest)
    | cs => some ([key], cs)

def path? (cs : List Char) : Option (List String × List Char) := keys? maxNesting cs

def isTokenChar (c : Char) : Bool := isBare c || c = '+' || c = '.' || c = ':'

/-- The characters of a value without quotes or brackets. The time of a date may stand behind a
blank. -/
def token (cs : List Char) : List Char × List Char :=
  let first := cs.takeWhile isTokenChar
  let rest := cs.dropWhile isTokenChar
  match rest with
  | ' ' :: c :: more =>
    if Decimal.isDigit c && (date? first).any (·.2.isEmpty) then
      (first ++ ' ' :: (c :: more).takeWhile isTokenChar, (c :: more).dropWhile isTokenChar)
    else (first, rest)
  | rest => (first, rest)

/-- The value of a token. -/
def scalar? (token : List Char) : Option Value :=
  if token = "true".toList then some (.bool true)
  else if token = "false".toList then some (.bool false)
  else match integer? token with
    | some n => some (.int n)
    | none => match float? token with
      | some x => some (.float x)
      | none => (moment? token).map fun shown => .text (String.ofList shown)

/-- The elements of an array, at most as many as given, up to the closing bracket. -/
def elements? (item : List Char → Option (Value × List Char)) :
    Nat → List Char → Option (List Value × List Char)
  | 0, _ => none
  | count + 1, cs =>
    match skipAllLines cs with
    | ']' :: rest => some ([], rest)
    | cs => do
      let (first, cs) ← item cs
      match skipAllLines cs with
      | ']' :: rest => some ([first], rest)
      | ',' :: rest => do
        let (others, rest) ← elements? item count rest
        some (first :: others, rest)
      | _ => none

/-- A key, an equals sign and a value; `gap` skips what may stand on both sides of the sign. -/
def keyValue? (gap : List Char → List Char) (item : List Char → Option (Value × List Char))
    (cs : List Char) : Option (List String × String × Value × List Char) := do
  let (path, cs) ← path? cs
  match path.getLast?, gap cs with
  | some key, '=' :: cs => do
    let (v, cs) ← item (gap cs)
    some (path.dropLast, key, v, cs)
  | _, _ => none

/-- The entries of a table in braces, at most as many as given, up to the closing brace. -/
def entries? (item : List Char → Option (Value × List Char)) :
    Nat → Items → List Char → Option (Items × List Char)
  | 0, _, _ => none
  | count + 1, items, cs =>
    match skipAllLines cs with
    | '\x7d' :: rest => some (items, rest)
    | cs => do
      let (path, key, v, cs) ← keyValue? skipAllLines item cs
      let items ← Items.insert path key v true items
      match skipAllLines cs with
      | '\x7d' :: rest => some (items, rest)
      | ',' :: rest => entries? item count items rest
      | _ => none

/-- A value, in which brackets and braces are nested at most as deep as given. -/
def value? (nesting : Nat) (cs : List Char) : Option (Value × List Char) :=
  match nesting, cs with
  | _, '"' :: _ | _, '\'' :: _ =>
    (text? cs).map fun (content, rest) => (.text (String.ofList content), rest)
  | nesting + 1, '[' :: rest =>
    (elements? (value? nesting) (rest.length + 1) rest).map fun (items, rest) => (.list items, rest)
  | nesting + 1, '\x7b' :: rest =>
    (entries? (value? nesting) (rest.length + 1) [] rest).map fun (items, rest) =>
      (.table (fieldsToValues items), rest)
  | _, _ =>
    let (first, rest) := token cs
    (scalar? first).map (·, rest)

/-- What was read so far, and the header that the next keys belong to. -/
structure Draft where
  root : Items := []
  header : List String := []

/-- A header behind its opening bracket. -/
def header? (opening : String → Items → Option Items) (draft : Draft) (cs : List Char) :
    Option (Draft × List Char) := do
  let (path, cs) ← path? (skipBlanks cs)
  let key ← path.getLast?
  let root ← Items.within (opening key) path.dropLast draft.root
  some (⟨root, path⟩, cs)

/-- A line that is not blank. -/
def line? (draft : Draft) (cs : List Char) : Option (Draft × List Char) :=
  match cs with
  | '[' :: '[' :: rest => do
    let (draft, cs) ← header? Items.openElement draft rest
    match cs with
    | ']' :: ']' :: rest => some (draft, rest)
    | _ => none
  | '[' :: rest => do
    let (draft, cs) ← header? Items.openTable draft rest
    match cs with
    | ']' :: rest => some (draft, rest)
    | _ => none
  | _ => do
    let (path, key, v, rest) ← keyValue? skipBlanks (value? maxNesting) cs
    let root ← Items.within (Items.insert path key v true) draft.header draft.root
    some ({ draft with root }, rest)

/-- Reads at most as many lines as given. -/
def lines? : Nat → Draft → List Char → Option Items
  | 0, draft, cs => if cs.isEmpty then some draft.root else none
  | count + 1, draft, cs =>
    if cs.isEmpty then some draft.root
    else match endOfLine? cs with
      | some rest => lines? count draft rest
      | none => do
        let (draft, rest) ← line? draft (skipBlanks cs)
        let rest ← endOfLine? rest
        lines? count draft rest

/-- A mark of the byte order at the very beginning does not count. -/
def dropMark : List Char → List Char
  | '\ufeff' :: rest => rest
  | cs => cs

/-- The fields of a text. -/
def read? (text : String) : Option Fields :=
  let cs := dropMark text.toList
  (lines? (cs.length + 1) {} cs).map fieldsToValues

end FractalBreeder.Toml
