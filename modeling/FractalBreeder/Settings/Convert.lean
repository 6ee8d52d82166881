import FractalBreeder.Settings.Basic
import FractalBreeder.Settings.Value

/-!
Fitting values to the settings they are meant for. Numbers, truth values and texts stand for each
other where that makes sense; a field that is not given keeps its default.
-/
namespace FractalBreeder

namespace Value

/-- Texts that mean a truth value. -/
def truth? (s : String) : Option Bool :=
  let s := s.toLower
  if s = "true" ∨ s = "on" ∨ s = "yes" then some true
  else if s = "false" ∨ s = "off" ∨ s = "no" then some false
  else none

/-- Digits, with a plus sign or without a sign. -/
def natural? (cs : List Char) : Option Nat :=
  let digits := match cs with
    | '+' :: rest => rest
    | cs => cs
  if digits.isEmpty || !digits.all Decimal.isDigit then none else some (Decimal.natOfDigits digits)

/-- A number with an optional sign, or a spelling of infinity or of what is no number. -/
def decimal? (cs : List Char) : Option Number :=
  let (negative, rest) := Decimal.readSign cs
  let word := rest.map Char.toLower
  if word = "inf".toList ∨ word = "infinity".toList then
    some (.float (Binary64.infinity negative))
  else if word = "nan".toList then some (.nan negative)
  else (Decimal.read? rest).map fun d => .float (d.toFloat negative)

/-- The nearest natural number, a half rounded up; what is negative or no number counts as zero,
and what is too large as the largest 64-bit word. -/
def roundToWord (x : Float) : Nat :=
  if x.isNaN || Binary64.isNegative x then 0
  else if x.isInf then UInt64.size - 1
  else
    let e := Binary64.exponent x
    let m := Binary64.significand x
    min (UInt64.size - 1) (if 0 ≤ e then m <<< e.toNat
      else (2 * m + 1 <<< (-e).toNat) >>> ((-e).toNat + 1))

/-- A natural number below the bound. -/
def toNat? (bound : Nat) (v : Value) : Option Nat := do
  let n ← match v with
    | .int n => if 0 ≤ n then some n.toNat else none
    | .float x => some (roundToWord x.value)
    | .bool b => some b.toNat
    | .text s => match truth? s with
      | some b => some b.toNat
      | none => natural? s.toList
    | _ => none
  if n < bound then some n else none

def toUInt32? (v : Value) : Option UInt32 := (v.toNat? (UInt32.size)).map UInt32.ofNat

def toUInt64? (v : Value) : Option UInt64 := (v.toNat? (UInt64.size)).map UInt64.ofNat

def toNumber? : Value → Option Number
  | .float x => some x
  | .int n => some (.float (Binary64.ofInt n))
  | .bool b => some (.float (if b then 1 else 0))
  | .text s => match truth? s with
    | some b => some (.float (if b then 1 else 0))
    | none => decimal? s.toList
  | _ => none

def toFloat? (v : Value) : Option Float := v.toNumber?.map (·.value)

def toText? : Value → Option String
  | .text s => some s
  | .bool b => some (if b then "true" else "false")
  | .int n => some (toString n)
  | .float x => some (String.ofList x.text)
  | _ => none

/-- The fields of a table. In a list the fields stand in the order of their names. -/
def fields? (names : List String) : Value → Option Fields
  | .table fields => some fields
  | .list items => some (names.zip items)
  | _ => none

end Value

/-- A field by its name, or the default. -/
def readField {α : Type} (fields : Fields) (name : String)
    (convert : Value → Option α) (default : α) : Option α :=
  match fields.lookup name with
  | some v => convert v
  | none => some default

namespace GeneticSettings

/-- All settings with their names. -/
def toFields (s : GeneticSettings) : Fields :=
  [("operator_chance", .float s.operatorChance), ("constant_min", .float s.constantMin),
    ("constant_max", .float s.constantMax), ("mutate_chance", .float s.mutateChance),
    ("mutate_range", .float s.mutateRange), ("mutate_fold", .float s.mutateFold),
    ("max_tree_depth", .int s.maxTreeDepth.toNat),
    ("identity_attempts", .int s.identityAttempts.toNat)]

def ofValue? (v : Value) : Option GeneticSettings := do
  let d : GeneticSettings := {}
  let fields ← v.fields? (d.toFields.map (·.1))
  pure {
    operatorChance := ← readField fields "operator_chance" Value.toFloat? d.operatorChance
    constantMin := ← readField fields "constant_min" Value.toFloat? d.constantMin
    constantMax := ← readField fields "constant_max" Value.toFloat? d.constantMax
    mutateChance := ← readField fields "mutate_chance" Value.toFloat? d.mutateChance
    mutateRange := ← readField fields "mutate_range" Value.toFloat? d.mutateRange
    mutateFold := ← readField fields "mutate_fold" Value.toNumber? d.mutateFold
    maxTreeDepth := ← readField fields "max_tree_depth" Value.toUInt64? d.maxTreeDepth
    identityAttempts := ← readField fields "identity_attempts" Value.toUInt64? d.identityAttempts }

end GeneticSettings

namespace RenderSettings

/-- All settings with their names. -/
def toFields (s : RenderSettings) : Fields :=
  [("renderer_path", .text s.rendererPath), ("image_dir", .text s.imageDir),
    ("extension", .text s.extension), ("width", .int s.width.toNat),
    ("height", .int s.height.toNat), ("points", .int s.points.toNat),
    ("sparse_threshold_kb", .int s.sparseThresholdKb.toNat),
    ("max_sparse_retries", .int s.maxSparseRetries.toNat),
    ("max_regenerations", .int s.maxRegenerations.toNat), ("io_retries", .int s.ioRetries.toNat),
    ("timeout_secs", .int s.timeoutSecs.toNat), ("poll_interval_ms", .int s.pollIntervalMs.toNat)]

def ofValue? (v : Value) : Option RenderSettings := do
  let d : RenderSettings := {}
  let fields ← v.fields? (d.toFields.map (·.1))
  pure {
    rendererPath := ← readField fields "renderer_path" Value.toText? d.rendererPath
    imageDir := ← readField fields "image_dir" Value.toText? d.imageDir
    extension := ← readField fields "extension" Value.toText? d.extension
    width := ← readField fields "width" Value.toUInt32? d.width
    height := ← readField fields "height" Value.toUInt32? d.height
    points := ← readField fields "points" Value.toUInt64? d.points
    sparseThresholdKb := ← readField fields "sparse_threshold_kb" Value.toUInt64? d.sparseThresholdKb
    maxSparseRetries := ← readField fields "max_sparse_retries" Value.toUInt32? d.maxSparseRetries
    maxRegenerations := ← readField fields "max_regenerations" Value.toUInt32? d.maxRegenerations
    ioRetries := ← readField fields "io_retries" Value.toUInt32? d.ioRetries
    timeoutSecs := ← readField fields "timeout_secs" Value.toUInt64? d.timeoutSecs
    pollIntervalMs := ← readField fields "poll_interval_ms" Value.toUInt64? d.pollIntervalMs }

end RenderSettings

namespace Settings

def ofFields? (fields : Fields) : Option Settings := do
  pure {
    seed := ← readField fields "seed" (fun v => v.toUInt64?.map some) none
    genetic := ← readField fields "genetics" GeneticSettings.ofValue? {}
    render := ← readField fields "render" RenderSettings.ofValue? {} }

end Settings

end FractalBreeder
