import FractalBreeder.Proofs.Settings.Restoring

/-!
The settings one by one. Each has a place among the fields of a file, a variable of the environment
whose name is spelled after that place, and a way to fit a value to it. Fields fit settings when
each setting is what its own place says.
-/
namespace FractalBreeder

/-! ### Places -/

/-- Where a setting stands in a file: under a header, or above all headers. -/
structure Place where
  header : Option String
  name : String
  deriving DecidableEq

namespace Place

variable (place : Place)

/-- The fields among which the place is. -/
def table (fields : Fields) : Fields :=
  match place.header with
  | none => fields
  | some header => .below (fields.lookup header)

/-- What the fields of a file give for the place. -/
def entry? (fields : Fields) : Option Value := (place.table fields).lookup place.name

def way : Way := (place.header.toList ++ [place.name]).map .key

/-- Header and name with something between them. -/
def spelled (separator : List Char) : List Char :=
  match place.header with
  | none => place.name.toList
  | some header => header.toList ++ separator ++ place.name.toList

def key : String := .ofList (place.spelled ['.'])

/-- The name of the variable that is set instead of an entry in the file. -/
def variableName : String :=
  .ofList ("AESTHETIC__".toList ++ (place.spelled ['_', '_']).map Char.toUpper)

/-- The headers of a file. -/
def headers : List String := ["genetics", "render"]

/-- The place is under one of the headers, or has a name unlike theirs. -/
def IsProper : Prop :=
  match place.header with
  | none => place.name ∉ headers
  | some header => header ∈ headers

instance : DecidablePred IsProper := fun place => by
  unfold IsProper
  cases place.header <;> infer_instance

def alphabet : List Char := "abcdefghijklmnopqrstuvwxyz_".toList

/-- Header and name have small letters and single underscores only. -/
def IsPlain : Prop :=
  (∀ part ∈ place.header.toList ++ [place.name],
    part.toList ≠ [] ∧ part.toList ⊆ alphabet) ∧
  Environment.points (place.spelled ['_', '_']) = place.spelled ['.']

instance : DecidablePred IsPlain := fun _ => inferInstanceAs (Decidable (_ ∧ _))

variable {place}

theorem small_toUpper {c : Char} (member : c ∈ alphabet) : Environment.small c.toUpper = c := by
  have all : alphabet.all fun c => Environment.small c.toUpper == c := by decide
  exact beq_iff_eq.mp (List.all_eq_true.mp all c member)

theorem isNameChar_of_mem {c : Char} (member : c ∈ alphabet) : Way.isNameChar c = true := by
  have all : alphabet.all Way.isNameChar := by decide
  exact List.all_eq_true.mp all c member

theorem IsPlain.subset_alphabet (plain : place.IsPlain) : place.spelled ['_', '_'] ⊆ alphabet := by
  obtain ⟨⟨header, name⟩, letters, -⟩ := place, plain
  cases header with
  | none => exact (letters name (by simp)).2
  | some header =>
    refine List.append_subset.mpr ⟨List.append_subset.mpr ⟨?_, by decide⟩, ?_⟩
    · exact (letters header (by simp)).2
    · exact (letters name (by simp)).2

/-- The variable of a place sets its key. -/
theorem IsPlain.key?_variableName (plain : place.IsPlain) :
    Environment.key? place.variableName = some place.key := by
  have start : "AESTHETIC__".toList.map Environment.small = "aesthetic__".toList := by decide
  have name : ((place.spelled ['_', '_']).map Char.toUpper).map Environment.small =
      place.spelled ['_', '_'] := by
    rw [List.map_map]
    refine (List.map_congr_left fun c member => ?_).trans (List.map_id _)
    exact small_toUpper (plain.subset_alphabet member)
  have whole : place.variableName.toList.map Environment.small =
      "aesthetic__".toList ++ place.spelled ['_', '_'] := by
    have spelled : place.variableName.toList =
        "AESTHETIC__".toList ++ (place.spelled ['_', '_']).map Char.toUpper := String.toList_ofList
    rw [spelled, List.map_append, start, name]
  unfold Environment.key?
  rw [whole]
  dsimp only
  rw [if_pos (List.isPrefixOf_iff_prefix.mpr (List.prefix_append _ _)), List.drop_left, plain.2]
  rfl

theorem others?_nil (count : Nat) : Way.others? count [] = some [] := by
  cases count <;> rfl

/-- The key of a place is the way to it. -/
theorem IsPlain.ofKey_key (plain : place.IsPlain) : Way.ofKey place.key = place.way := by
  have named {part : String} (member : part ∈ place.header.toList ++ [place.name])
      {rest : List Char} (stops : ∀ c ∈ rest.head?, Way.isNameChar c = false) :
      Way.name? (part.toList ++ rest) = some (.key part, rest) := by
    obtain ⟨nonempty, letters⟩ := plain.1 part member
    obtain ⟨front, back⟩ := Literal.takeWhile_stopped
      (fun c inside => isNameChar_of_mem (letters inside)) stops
    rw [Way.name?, front, back, String.ofList_toList, if_neg (by simpa using nonempty)]
  have alone {part : String} (member : part ∈ place.header.toList ++ [place.name]) :
      Way.name? part.toList = some (.key part, []) := by
    have stops : ∀ c ∈ ([] : List Char).head?, Way.isNameChar c = false := nofun
    simpa using named member stops
  obtain ⟨header, name⟩ := place
  cases header with
  | none =>
    have read : Way.read? (Place.key ⟨none, name⟩) = some [.key name] := by
      rw [Way.read?, key, String.toList_ofList]
      change (Way.name? name.toList).bind _ = _
      rw [alone (by simp)]
      change (Way.others? 0 []).map _ = _
      rw [others?_nil]
      rfl
    rw [Way.ofKey, read]
    rfl
  | some header =>
    have read : Way.read? (Place.key ⟨some header, name⟩) = some [.key header, .key name] := by
      rw [Way.read?, key, String.toList_ofList]
      change (Way.name? (header.toList ++ ['.'] ++ name.toList)).bind _ = _
      rw [List.append_assoc, named (by simp) (by simp [Way.isNameChar])]
      change ((Way.name? name.toList).bind _).map _ = _
      rw [alone (by simp)]
      change ((Way.others? _ []).map _).map _ = _
      rw [others?_nil]
      rfl
    rw [Way.ofKey, read]
    rfl

theorem way_injective {p q : Place} (same : p.way = q.way) : p = q := by
  obtain ⟨header, name⟩ := p
  obtain ⟨header', name'⟩ := q
  cases header <;> cases header' <;> simp_all [way]

/-- Every place has a variable of its own. -/
theorem eq_of_variableName {p q : Place} (plain : p.IsPlain) (plain' : q.IsPlain)
    (same : p.variableName = q.variableName) : p = q := by
  have keys : p.key = q.key := by
    have set := plain.key?_variableName
    rw [same, plain'.key?_variableName] at set
    exact (Option.some.inj set).symm
  apply way_injective
  rw [← plain.ofKey_key, ← plain'.ofKey_key, keys]

end Place

/-- A setting: its place, how a value is fitted to it, and where it is kept. -/
structure Setting where
  {Kind : Type}
  place : Place
  fit : Value → Option Kind
  get : Settings → Kind

namespace Setting

def genetic {α : Type} (name : String) (fit : Value → Option α) (get : GeneticSettings → α) :
    Setting :=
  ⟨⟨some "genetics", name⟩, fit, fun s => get s.genetic⟩

def render {α : Type} (name : String) (fit : Value → Option α) (get : RenderSettings → α) :
    Setting :=
  ⟨⟨some "render", name⟩, fit, fun s => get s.render⟩

def seed : Setting := ⟨⟨none, "seed"⟩, fun v => v.toUInt64?.map some, (·.seed)⟩

def genetics : List Setting :=
  [genetic "operator_chance" Value.toFloat? (·.operatorChance),
    genetic "constant_min" Value.toFloat? (·.constantMin),
    genetic "constant_max" Value.toFloat? (·.constantMax),
    genetic "mutate_chance" Value.toFloat? (·.mutateChance),
    genetic "mutate_range" Value.toFloat? (·.mutateRange),
    genetic "mutate_fold" Value.toNumber? (·.mutateFold),
    genetic "max_tree_depth" Value.toUInt64? (·.maxTreeDepth),
    genetic "identity_attempts" Value.toUInt64? (·.identityAttempts)]

def renders : List Setting :=
  [render "renderer_path" Value.toText? (·.rendererPath),
    render "image_dir" Value.toText? (·.imageDir),
    render "extension" Value.toText? (·.extension),
    render "width" Value.toUInt32? (·.width),
    render "height" Value.toUInt32? (·.height),
    render "points" Value.toUInt64? (·.points),
    render "sparse_threshold_kb" Value.toUInt64? (·.sparseThresholdKb),
    render "max_sparse_retries" Value.toUInt32? (·.maxSparseRetries),
    render "max_regenerations" Value.toUInt32? (·.maxRegenerations),
    render "io_retries" Value.toUInt32? (·.ioRetries),
    render "timeout_secs" Value.toUInt64? (·.timeoutSecs),
    render "poll_interval_ms" Value.toUInt64? (·.pollIntervalMs)]

def all : List Setting := seed :: (genetics ++ renders)

/-- The setting is the fitted value, or the default where there is none. -/
def Takes (k : Setting) (given : Option Value) (s : Settings) : Prop :=
  match given with
  | some v => k.fit v = some (k.get s)
  | none => k.get s = k.get {}

end Setting

example : (Setting.render "io_retries" Value.toUInt32? (·.ioRetries)).place.variableName =
    "AESTHETIC__RENDER__IO_RETRIES" := by decide

namespace Setting

theorem proper : ∀ k ∈ all, k.place.IsProper := by decide

theorem plain : ∀ k ∈ all, k.place.IsPlain := by decide +kernel

/-- No setting is a table. -/
theorem fit_table (inner : Fields) : ∀ k ∈ all, k.fit (.table inner) = none := by
  refine List.forall_iff_forall_mem.mp ?_
  and_intros <;> rfl

theorem fit_merged {k : Setting} (member : k ∈ all) (v : Value) (old : Option Value) :
    k.fit (Fields.merged v old) = k.fit v := by
  by_cases table : ∃ inner, v = .table inner
  · obtain ⟨inner, rfl⟩ := table
    rw [Fields.merged, fit_table _ k member, fit_table _ k member]
  · rw [Fields.merged_leaf (not_exists.mp table)]

end Setting

/-! ### From fields to settings -/

theorem readField_eq_some {α : Type} {fields : Fields} {name : String} {convert : Value → Option α}
    {default a : α} : readField fields name convert default = some a ↔
      match fields.lookup name with
      | some v => convert v = some a
      | none => a = default := by
  unfold readField
  cases fields.lookup name with
  | some v => rfl
  | none => simp [eq_comm]

theorem Setting.takes_iff (k : Setting) (fields : Fields) (s : Settings) :
    k.Takes (k.place.entry? fields) s ↔
      readField (k.place.table fields) k.place.name k.fit (k.get {}) = some (k.get s) :=
  readField_eq_some.symm

theorem GeneticSettings.ofValue?_eq_some {fields : Fields} {s : Settings} :
    ofValue? (.table fields) = some s.genetic ↔ ∀ k ∈ Setting.genetics,
      readField fields k.place.name k.fit (k.get {}) = some (k.get s) := by
  obtain ⟨seed, genetic, render⟩ := s
  unfold ofValue?
  rw [bind_fields?]
  simp only [Setting.genetics, List.forall_mem_cons]
  constructor
  · intro read
    obtain ⟨_, chance, read⟩ := Option.bind_eq_some_iff.mp read
    obtain ⟨_, least, read⟩ := Option.bind_eq_some_iff.mp read
    obtain ⟨_, most, read⟩ := Option.bind_eq_some_iff.mp read
    obtain ⟨_, mutation, read⟩ := Option.bind_eq_some_iff.mp read
    obtain ⟨_, range, read⟩ := Option.bind_eq_some_iff.mp read
    obtain ⟨_, fold, read⟩ := Option.bind_eq_some_iff.mp read
    obtain ⟨_, depth, read⟩ := Option.bind_eq_some_iff.mp read
    obtain ⟨_, attempts, read⟩ := Option.bind_eq_some_iff.mp read
    cases read
    exact ⟨chance, least, most, mutation, range, fold, depth, attempts, List.forall_mem_nil _⟩
  · rintro ⟨chance, least, most, mutation, range, fold, depth, attempts, -⟩
    refine Option.bind_eq_some_iff.mpr ⟨_, chance, ?_⟩
    refine Option.bind_eq_some_iff.mpr ⟨_, least, ?_⟩
    refine Option.bind_eq_some_iff.mpr ⟨_, most, ?_⟩
    refine Option.bind_eq_some_iff.mpr ⟨_, mutation, ?_⟩
    refine Option.bind_eq_some_iff.mpr ⟨_, range, ?_⟩
    refine Option.bind_eq_some_iff.mpr ⟨_, fold, ?_⟩
    refine Option.bind_eq_some_iff.mpr ⟨_, depth, ?_⟩
    refine Option.bind_eq_some_iff.mpr ⟨_, attempts, ?_⟩
    rfl

theorem RenderSettings.ofValue?_eq_some {fields : Fields} {s : Settings} :
    ofValue? (.table fields) = some s.render ↔ ∀ k ∈ Setting.renders,
      readField fields k.place.name k.fit (k.get {}) = some (k.get s) := by
  obtain ⟨seed, genetic, render⟩ := s
  unfold ofValue?
  rw [bind_fields?]
  simp only [Setting.renders, List.forall_mem_cons]
  constructor
  · intro read
    obtain ⟨_, program, read⟩ := Option.bind_eq_some_iff.mp read
    obtain ⟨_, dir, read⟩ := Option.bind_eq_some_iff.mp read
    obtain ⟨_, extension, read⟩ := Option.bind_eq_some_iff.mp read
    obtain ⟨_, width, read⟩ := Option.bind_eq_some_iff.mp read
    obtain ⟨_, height, read⟩ := Option.bind_eq_some_iff.mp read
    obtain ⟨_, points, read⟩ := Option.bind_eq_some_iff.mp read
    obtain ⟨_, threshold, read⟩ := Option.bind_eq_some_iff.mp read
    obtain ⟨_, retries, read⟩ := Option.bind_eq_some_iff.mp read
    obtain ⟨_, regenerations, read⟩ := Option.bind_eq_some_iff.mp read
    obtain ⟨_, io, read⟩ := Option.bind_eq_some_iff.mp read
    obtain ⟨_, timeout, read⟩ := Option.bind_eq_some_iff.mp read
    obtain ⟨_, poll, read⟩ := Option.bind_eq_some_iff.mp read
    cases read
    exact ⟨program, dir, extension, width, height, points, threshold, retries, regenerations,
      io, timeout, poll, List.forall_mem_nil _⟩
  · rintro ⟨program, dir, extension, width, height, points, threshold, retries, regenerations, io,
    timeout, poll, -⟩
    refine Option.bind_eq_some_iff.mpr ⟨_, program, ?_⟩
    refine Option.bind_eq_some_iff.mpr ⟨_, dir, ?_⟩
    refine Option.bind_eq_some_iff.mpr ⟨_, extension, ?_⟩
    refine Option.bind_eq_some_iff.mpr ⟨_, width, ?_⟩
    refine Option.bind_eq_some_iff.mpr ⟨_, height, ?_⟩
    refine Option.bind_eq_some_iff.mpr ⟨_, points, ?_⟩
    refine Option.bind_eq_some_iff.mpr ⟨_, threshold, ?_⟩
    refine Option.bind_eq_some_iff.mpr ⟨_, retries, ?_⟩
    refine Option.bind_eq_some_iff.mpr ⟨_, regenerations, ?_⟩
    refine Option.bind_eq_some_iff.mpr ⟨_, io, ?_⟩
    refine Option.bind_eq_some_iff.mpr ⟨_, timeout, ?_⟩
    refine Option.bind_eq_some_iff.mpr ⟨_, poll, ?_⟩
    rfl

/-- The sections of a file are tables. -/
def Fields.IsTabled (fields : Fields) : Prop :=
  ∀ header ∈ Place.headers, ∀ v, fields.lookup header = some v → ∃ inner, v = .table inner

theorem readField_section {α : Type} {fields : Fields} {header : String}
    {convert : Value → Option α} {default : α} (tabled : fields.IsTabled)
    (member : header ∈ Place.headers) (empty : convert (.table []) = some default) :
    readField fields header convert default =
      convert (.table (Fields.below (fields.lookup header))) := by
  unfold readField
  cases found : fields.lookup header with
  | none => exact empty.symm
  | some v =>
    obtain ⟨inner, rfl⟩ := tabled header member v found
    rfl

theorem takes_section {settings : List Setting} {header : String}
    (under : ∀ k ∈ settings, k.place.header = some header) (fields : Fields) (s : Settings) :
    (∀ k ∈ settings, k.Takes (k.place.entry? fields) s) ↔ ∀ k ∈ settings,
      readField (Fields.below (fields.lookup header)) k.place.name k.fit (k.get {}) =
        some (k.get s) := by
  refine forall₂_congr fun k member => ?_
  rw [Setting.takes_iff, Place.table, under k member]

/-- Fields fit settings when each setting takes what is given at its place. -/
theorem Settings.ofFields?_eq_some {fields : Fields} {s : Settings} (tabled : fields.IsTabled) :
    ofFields? fields = some s ↔ ∀ k ∈ Setting.all, k.Takes (k.place.entry? fields) s := by
  have genetic : readField fields "genetics" GeneticSettings.ofValue? {} = some s.genetic ↔
      ∀ k ∈ Setting.genetics, k.Takes (k.place.entry? fields) s := by
    rw [takes_section (show ∀ k ∈ Setting.genetics, k.place.header = some "genetics" by decide),
      ← GeneticSettings.ofValue?_eq_some, readField_section tabled (by decide)]
    rfl
  have render : readField fields "render" RenderSettings.ofValue? {} = some s.render ↔
      ∀ k ∈ Setting.renders, k.Takes (k.place.entry? fields) s := by
    rw [takes_section (show ∀ k ∈ Setting.renders, k.place.header = some "render" by decide),
      ← RenderSettings.ofValue?_eq_some, readField_section tabled (by decide)]
    rfl
  rw [Setting.all, List.forall_mem_cons, List.forall_mem_append, ← genetic, ← render,
    Setting.takes_iff]
  constructor
  · intro read
    obtain ⟨_, seed, read⟩ := Option.bind_eq_some_iff.mp read
    obtain ⟨_, genetics, read⟩ := Option.bind_eq_some_iff.mp read
    obtain ⟨_, renders, read⟩ := Option.bind_eq_some_iff.mp read
    cases read
    exact ⟨seed, genetics, renders⟩
  · rintro ⟨seed, genetics, renders⟩
    refine Option.bind_eq_some_iff.mpr ⟨_, seed, ?_⟩
    refine Option.bind_eq_some_iff.mpr ⟨_, genetics, ?_⟩
    exact Option.bind_eq_some_iff.mpr ⟨_, renders, rfl⟩

end FractalBreeder
