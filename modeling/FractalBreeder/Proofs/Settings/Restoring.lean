import FractalBreeder.Proofs.Settings.Requests
import FractalBreeder.Proofs.Storage.Directories
import FractalBreeder.Proofs.Toml.Sections

/-!
Settings that were saved are restored from their file, field by field; only what is no number may
lose its sign.
-/
namespace FractalBreeder

open Toml (Makes Draft IsBareKey Items entry)

namespace Fields

/-! ### One layer alone -/

theorem put_new {fields : Fields} {key : String} (new : fields.lookup key = none) (v : Value) :
    put key v fields = fields ++ [(key, v)] := by
  induction fields with
  | nil => rfl
  | cons first fields ih =>
      obtain ⟨k, old⟩ := first
      rw [List.lookup_cons] at new
      split at new
      · cases new
      next other =>
        have differ : k ≠ key := by
          rintro rfl
          simp at other
        rw [put, if_neg differ, ih new, List.cons_append]

/-- Fields with keys of their own are put behind all others. -/
theorem mergedAll_new {fields : Fields} (whole : ∀ field ∈ fields, merged field.2 none = field.2)
    (distinct : (fields.map (·.1)).Nodup) :
    ∀ {target : Fields}, (∀ field ∈ fields, target.lookup field.1 = none) →
      mergedAll fields target = target ++ fields := by
  induction fields with
  | nil => exact fun _ => (List.append_nil _).symm
  | cons field fields ih =>
      obtain ⟨key, v⟩ := field
      intro target new
      obtain ⟨kept, whole⟩ := List.forall_mem_cons.mp whole
      obtain ⟨differ, distinct⟩ := List.nodup_cons.mp distinct
      obtain ⟨first, new⟩ := List.forall_mem_cons.mp new
      rw [mergedAll, first, kept, put_new first, ih whole distinct]
      · simp
      · intro other member
        have apart : other.1 ≠ key := fun same =>
          differ (List.mem_map.mpr ⟨other, member, same⟩)
        simp [List.lookup_append, new other member, apart]

theorem merged_leaf {v : Value} (leaf : ∀ inner, v ≠ .table inner) (old : Option Value) :
    merged v old = v := by
  cases v with
  | table inner => exact absurd rfl (leaf inner)
  | _ => rw [merged]; nofun

/-- Where no key is the way to anything further down, a layer is put on top like a table. -/
theorem overlay_plain {layer : Fields} (plain : ∀ field ∈ layer, Way.ofKey field.1 = [.key field.1])
    (target : Fields) : overlay layer target = mergedAll layer target := by
  induction layer generalizing target with
  | nil => rfl
  | cons field layer ih =>
      obtain ⟨key, v⟩ := field
      obtain ⟨here, plain⟩ := List.forall_mem_cons.mp plain
      have placed : set (Way.ofKey key) v target = put key (merged v (target.lookup key)) target := by
        rw [here]
        rfl
      rw [mergedAll, ← ih plain, ← placed]
      rfl

end Fields

/-! ### Fitting values -/

theorem toUInt64?_toNat (n : UInt64) : (Value.int n.toNat).toUInt64? = some n := by
  have below : n.toNat < UInt64.size := n.toNat_lt
  simp [Value.toUInt64?, Value.toNat?, below]

theorem toUInt32?_toNat (n : UInt32) : (Value.int n.toNat).toUInt32? = some n := by
  have below : n.toNat < UInt32.size := n.toNat_lt
  simp [Value.toUInt32?, Value.toNat?, below]

theorem toFloat?_float (x : Float) : (Value.float x).toFloat? = some x := rfl

theorem toText?_text (s : String) : (Value.text s).toText? = some s := rfl

/-- A field that is given is read on its own, whatever is done with it next. -/
theorem bind_readField {α β : Type} (fields : Fields) (name : String) {convert : Value → Option α}
    {default a : α} {v : Value} {next : α → Option β} (fits : convert v = some a)
    (found : fields.lookup name = some v) :
    (readField fields name convert default >>= next) = next a := by
  rw [readField, found]
  simp only [fits, Option.bind_eq_bind, Option.bind_some]

theorem bind_fields? {β : Type} {names : List String} {fields : Fields} {next : Fields → Option β} :
    ((Value.table fields).fields? names >>= next) = next fields :=
  rfl

theorem GeneticSettings.ofValue?_toFields (s : GeneticSettings) :
    ofValue? (.table s.toFields) = some s := by
  have fold : Value.toNumber? (.float s.mutateFold) = some s.mutateFold := rfl
  unfold ofValue?
  rw [bind_fields?, bind_readField s.toFields "operator_chance" (toFloat?_float _) rfl,
    bind_readField s.toFields "constant_min" (toFloat?_float _) rfl,
    bind_readField s.toFields "constant_max" (toFloat?_float _) rfl,
    bind_readField s.toFields "mutate_chance" (toFloat?_float _) rfl,
    bind_readField s.toFields "mutate_range" (toFloat?_float _) rfl,
    bind_readField s.toFields "mutate_fold" fold rfl,
    bind_readField s.toFields "max_tree_depth" (toUInt64?_toNat _) rfl,
    bind_readField s.toFields "identity_attempts" (toUInt64?_toNat _) rfl]
  rfl

theorem RenderSettings.ofValue?_toFields (s : RenderSettings) :
    ofValue? (.table s.toFields) = some s := by
  unfold ofValue?
  rw [bind_fields?, bind_readField s.toFields "renderer_path" (toText?_text _) rfl,
    bind_readField s.toFields "image_dir" (toText?_text _) rfl,
    bind_readField s.toFields "extension" (toText?_text _) rfl,
    bind_readField s.toFields "width" (toUInt32?_toNat _) rfl,
    bind_readField s.toFields "height" (toUInt32?_toNat _) rfl,
    bind_readField s.toFields "points" (toUInt64?_toNat _) rfl,
    bind_readField s.toFields "sparse_threshold_kb" (toUInt64?_toNat _) rfl,
    bind_readField s.toFields "max_sparse_retries" (toUInt32?_toNat _) rfl,
    bind_readField s.toFields "max_regenerations" (toUInt32?_toNat _) rfl,
    bind_readField s.toFields "io_retries" (toUInt32?_toNat _) rfl,
    bind_readField s.toFields "timeout_secs" (toUInt64?_toNat _) rfl,
    bind_readField s.toFields "poll_interval_ms" (toUInt64?_toNat _) rfl]
  rfl

namespace Settings

/-- All integers of the settings. -/
def integers (s : Settings) : List Nat :=
  s.seed.toList.map (·.toNat) ++
    [s.genetic.maxTreeDepth.toNat, s.genetic.identityAttempts.toNat, s.render.width.toNat,
      s.render.height.toNat, s.render.points.toNat, s.render.sparseThresholdKb.toNat,
      s.render.maxSparseRetries.toNat, s.render.maxRegenerations.toNat, s.render.ioRetries.toNat,
      s.render.timeoutSecs.toNat, s.render.pollIntervalMs.toNat]

/-- The settings as their file keeps them. -/
def unsigned (s : Settings) : Settings :=
  { s with genetic.mutateFold := .float s.genetic.mutateFold.value }

/-- The fields of a file that holds the settings. -/
def file (s : Settings) : Fields :=
  s.seed.toList.map (fun n => ("seed", .int n.toNat)) ++
    [("genetics", .table s.genetic.toFields), ("render", .table s.render.toFields)]

/-! ### From the settings to the file -/

section

variable {s : Settings}

theorem isScalar_nat {n : Nat} : (Value.int n).IsScalar ↔ n < 2 ^ 63 := by
  unfold Value.IsScalar
  omega

theorem seedLines?_isSome {n? : Option UInt64} :
    (seedLines? n?).isSome ↔ ∀ n ∈ n?.toList, n.toNat < 2 ^ 63 := by
  cases n? with
  | none => simp [seedLines?]
  | some n => simp [seedLines?, Toml.writeLine?, Toml.writeScalar?_isSome, isScalar_nat]

/-- Settings have a text exactly when none of their integers needs a bit too many. -/
theorem written?_isSome : s.written?.isSome ↔ ∀ n ∈ s.integers, n < 2 ^ 63 := by
  have parts : s.written?.isSome ↔ (seedLines? s.seed).isSome ∧
      (Toml.writeTable? "genetics" s.genetic.toFields).isSome ∧
      (Toml.writeTable? "render" s.render.toFields).isSome := by
    rw [written?]
    cases seedLines? s.seed <;> cases Toml.writeTable? "genetics" s.genetic.toFields <;>
      cases Toml.writeTable? "render" s.render.toFields <;> simp
  rw [parts, seedLines?_isSome, Toml.writeTable?_isSome, Toml.writeTable?_isSome]
  have float (x : Number) : (Value.float x).IsScalar := trivial
  have word (t : String) : (Value.text t).IsScalar := trivial
  simp only [integers, GeneticSettings.toFields, RenderSettings.toFields, List.forall_mem_append,
    List.forall_mem_map, List.forall_mem_cons, isScalar_nat, float, word]
  simp [and_assoc]

/-- What the line of the seed makes of an empty draft. -/
def seedItems (n? : Option UInt64) : Items :=
  n?.toList.map fun n => ("seed", .value (.int n.toNat))

theorem makes_seed {n? : Option UInt64} {seed rest : List Char} {items : Items}
    (shown : seedLines? n? = some seed) (makes : Makes ⟨seedItems n?, []⟩ rest items) :
    Makes {} (seed ++ rest) items := by
  cases n? with
  | none =>
      obtain rfl := Option.some.inj shown
      exact makes
  | some n =>
      rw [seedLines?] at shown
      obtain ⟨line, written, rfl⟩ := Option.map_eq_some_iff.mp shown
      have bare : IsBareKey "seed" := by decide
      have fits : Items.within (Items.insert [] "seed" (Value.int n.toNat).unsigned true) [] [] =
          some (seedItems (some n)) := rfl
      rw [List.append_assoc]
      exact Toml.makes_writeLine bare written fits makes.blank

theorem keys_genetic : Toml.Keys (s.genetic.toFields.map (·.1)) := by
  change Toml.Keys (({} : GeneticSettings).toFields.map (·.1))
  decide +kernel

theorem keys_render : Toml.Keys (s.render.toFields.map (·.1)) := by
  change Toml.Keys (({} : RenderSettings).toFields.map (·.1))
  decide +kernel

/-- No mark of the byte order comes first. -/
theorem unmarked {n? : Option UInt64} {seed genetic rest : List Char}
    (seedShown : seedLines? n? = some seed)
    (geneticShown : Toml.writeTable? "genetics" s.genetic.toFields = some genetic) :
    Toml.dropMark (seed ++ (genetic ++ rest)) = seed ++ (genetic ++ rest) := by
  cases n? with
  | none =>
      obtain rfl := Option.some.inj seedShown
      obtain ⟨lines, -, rfl⟩ := Option.map_eq_some_iff.mp geneticShown
      rfl
  | some n =>
      rw [seedLines?, Toml.writeLine?] at seedShown
      obtain ⟨line, written, rfl⟩ := Option.map_eq_some_iff.mp seedShown
      obtain ⟨cs, -, rfl⟩ := Option.map_eq_some_iff.mp written
      have named : "seed".toList = ['s', 'e', 'e', 'd'] := rfl
      rw [named]
      rfl

theorem unsigned_genetic : s.genetic.toFields.map (fun field => (field.1, field.2.unsigned)) =
    s.unsigned.genetic.toFields :=
  rfl

theorem unsigned_render : s.render.toFields.map (fun field => (field.1, field.2.unsigned)) =
    s.unsigned.render.toFields :=
  rfl

theorem fieldsToValues_items : Toml.fieldsToValues
    ((seedItems s.seed ++ [("genetics", .table .byHeader (s.genetic.toFields.map entry))]) ++
      [("render", .table .byHeader (s.render.toFields.map entry))]) = s.unsigned.file := by
  unfold file
  rw [← unsigned_genetic, ← unsigned_render, ← Toml.fieldsToValues_entries,
    ← Toml.fieldsToValues_entries]
  cases seeded : s.seed with
  | none => simp [Toml.fieldsToValues, Toml.Item.toValue, unsigned, seedItems, seeded]
  | some n => simp [Toml.fieldsToValues, Toml.Item.toValue, unsigned, seedItems, seeded]

/-- The text of the settings is read as their fields. -/
theorem read?_written {text : String} (written : s.written? = some text) :
    Toml.read? text = some s.unsigned.file ∧ Toml.dropMark text.toList = text.toList := by
  obtain ⟨seed, seedShown, remaining⟩ := Option.bind_eq_some_iff.mp written
  obtain ⟨genetic, geneticShown, remaining⟩ := Option.bind_eq_some_iff.mp remaining
  obtain ⟨render, renderShown, remaining⟩ := Option.bind_eq_some_iff.mp remaining
  obtain rfl := Option.some.inj remaining
  have makes : Makes {} (seed ++ (genetic ++ '\n' :: (render ++ [])))
      ((seedItems s.seed ++ [("genetics", .table .byHeader (s.genetic.toFields.map entry))]) ++
        [("render", .table .byHeader (s.render.toFields.map entry))]) := by
    refine makes_seed seedShown ?_
    refine Toml.makes_writeTable geneticShown (by decide) ?_ keys_genetic (Makes.blank ?_)
    · cases s.seed <;> rfl
    refine Toml.makes_writeTable renderShown (by decide) ?_ keys_render (Makes.done _)
    cases s.seed <;> rfl
  rw [List.append_nil] at makes
  have kept : Toml.dropMark (seed ++ (genetic ++ '\n' :: render)) = _ :=
    unmarked seedShown geneticShown
  have read := makes.read? kept
  rw [fieldsToValues_items] at read
  rw [List.append_assoc, String.toList_ofList]
  exact ⟨read, kept⟩

end

/-! ### From the file to the settings -/

/-- Nothing is lost where the file is the only layer. -/
theorem overlay_file (s : Settings) : Fields.overlay s.file [] = s.file := by
  have genetic : Fields.merged (.table s.genetic.toFields) none = .table s.genetic.toFields := by
    rw [Fields.merged]
    refine congrArg _ (Fields.mergedAll_new ?_ keys_genetic.2 fun _ _ => rfl)
    simp [GeneticSettings.toFields, Fields.merged_leaf]
  have render : Fields.merged (.table s.render.toFields) none = .table s.render.toFields := by
    rw [Fields.merged]
    refine congrArg _ (Fields.mergedAll_new ?_ keys_render.2 fun _ _ => rfl)
    simp [RenderSettings.toFields, Fields.merged_leaf]
  have plain : ∀ key ∈ ["seed", "genetics", "render"], Way.ofKey key = [.key key] := by decide
  rw [Fields.overlay_plain, Fields.mergedAll_new]
  · rfl
  · cases seeded : s.seed <;> simp [file, seeded, genetic, render, Fields.merged_leaf]
  · cases seeded : s.seed <;> simp [file, seeded]
  · exact fun _ _ => rfl
  · cases seeded : s.seed <;> simp [file, seeded, plain]

theorem readField_seed (s : Settings) :
    readField s.file "seed" (fun v => v.toUInt64?.map some) none = some s.seed := by
  cases seeded : s.seed with
  | none => simp [file, seeded, readField, List.lookup_cons]
  | some n => simp [file, seeded, readField, toUInt64?_toNat]

theorem ofLayers?_file (s : Settings) {environment : List (String × String)}
    (clear : Environment.layer environment = []) : ofLayers? s.file environment = some s := by
  have genetic : s.file.lookup "genetics" = some (.table s.genetic.toFields) := by
    cases seeded : s.seed <;> simp [file, seeded, List.lookup_cons]
  have render : s.file.lookup "render" = some (.table s.render.toFields) := by
    cases seeded : s.seed <;> simp [file, seeded, List.lookup_cons]
  unfold ofLayers?
  rw [overlay_file, clear]
  change ofFields? s.file = some s
  unfold ofFields?
  rw [readField_seed]
  change (readField s.file "genetics" _ _ >>= _) = _
  rw [bind_readField s.file "genetics" (GeneticSettings.ofValue?_toFields _) genetic,
    bind_readField s.file "render" (RenderSettings.ofValue?_toFields _) render]
  rfl

/-! ### Saving and loading -/

theorem layer_eq_nil {environment : List (String × String)}
    (unset : ∀ variable_ ∈ environment, Environment.key? variable_.1 = none) :
    Environment.layer environment = [] := by
  unfold Environment.layer
  rw [List.filterMap_eq_nil_iff]
  intro variable_ member
  simp [unset variable_ member]

section

variable {s : Settings} {text path : String} {disk after : Disk}

/-- A file that was written is found, and its text is read. -/
theorem readFile?_write (unmarked : Toml.dropMark text.toList = text.toList)
    (saved : disk.write path text.toUTF8 = .ok after) :
    readFile? after path = Toml.read? text := by
  have located : locate? after path = some path := by
    have found : isFile after path = true := by
      rw [isFile, Disk.stat_write saved]
    rw [locate?, if_pos found]
  have decoded : String.fromUTF8? text.toUTF8 = some text := dif_pos text.isValidUTF8
  unfold readFile?
  rw [located]
  change ((after.read path).toOption.bind _) = _
  rw [Disk.read_write saved]
  change (String.fromUTF8? text.toUTF8).bind _ = _
  rw [decoded]
  change Toml.read? (String.ofList (Toml.dropMark text.toList)) = _
  rw [unmarked, String.ofList_toList]

theorem readFile?_saved (written : s.written? = some text)
    (saved : disk.write path text.toUTF8 = .ok after) :
    readFile? after path = some s.unsigned.file := by
  obtain ⟨read, unmarked⟩ := read?_written written
  rw [readFile?_write unmarked saved, read]

theorem load_saved {environment : List (String × String)} (valid : s.fault? = none)
    (written : s.written? = some text) (saved : disk.write path text.toUTF8 = .ok after)
    (unset : ∀ variable_ ∈ environment, Environment.key? variable_.1 = none) :
    load after environment path = .ok s.unsigned :=
  load_eq_ok.mpr ⟨s.unsigned.file, readFile?_saved written saved,
    ofLayers?_file s.unsigned (layer_eq_nil unset), valid⟩

theorem save_of_written (written : s.written? = some text) (disk : Disk) (path : String) :
    s.save disk path = (disk.write path text.toUTF8).mapError .unsaved := by
  rw [save, written]

theorem write_of_save (written : s.written? = some text) (saved : s.save disk path = .ok after) :
    disk.write path text.toUTF8 = .ok after := by
  rw [save_of_written written] at saved
  cases wrote : disk.write path text.toUTF8 with
  | error fault =>
      rw [wrote] at saved
      cases saved
  | ok made =>
      rw [wrote] at saved
      exact congrArg _ (Except.ok.inj saved)

end

/-- Settings whose integers have 63 bits are always saved where a file can be written, and whoever
loads that file, with nothing set in the environment, has them in force. -/
theorem saved_restored (requests : List Request)
    (small : ∀ n ∈ (serveAll {} requests).integers, n < 2 ^ 63) :
    (∃ bytes, ∀ disk path,
      (serveAll {} requests).save disk path = (disk.write path bytes).mapError .unsaved) ∧
    ∀ disk after path environment other, (serveAll {} requests).save disk path = .ok after →
      (∀ variable_ ∈ environment, Environment.key? variable_.1 = none) →
      serve other (.change (.load after environment path)) =
        ((serveAll {} requests).unsigned, .ok ()) := by
  obtain ⟨text, written⟩ := Option.isSome_iff_exists.mp (written?_isSome.mpr small)
  have valid := fault?_serveAll requests fault?_default
  refine ⟨⟨text.toUTF8, save_of_written written⟩, ?_⟩
  intro disk after path environment other saved unset
  exact change_of_ok (load_saved valid written (write_of_save written saved) unset)

/-- Settings that are all but usual: infinite, negative zero and no number at all, and texts that
need every kind of quotes. -/
def unusual : Settings where
  seed := some 0x7fffffffffffffff
  genetic := { constantMin := Binary64.infinity true, constantMax := -0.0,
               mutateRange := Binary64.infinity false, mutateFold := .negativeNan }
  render := { rendererPath := "C:\\\"quoted\"\n\x07", imageDir := "'''\"\"\"", extension := "é'\"" }

theorem serveAll_unusual : serveAll {} [.change (.update fun _ => unusual)] = unusual := by
  have valid : unusual.fault? = none := by decide +kernel
  simp [serveAll, serve, change, Change.outcome, check, valid]

theorem saved_restored_unusual : ∃ after,
    (serveAll {} [.change (.update fun _ => unusual)]).save ⟨[], []⟩ "cfg.toml" = .ok after ∧
    ∀ other, serve other (.change (.load after [("HOME", "/")] "cfg.toml")) =
      ((serveAll {} [.change (.update fun _ => unusual)]).unsigned, .ok ()) := by
  have small : ∀ n ∈ (serveAll {} [.change (.update fun _ => unusual)]).integers, n < 2 ^ 63 := by
    rw [serveAll_unusual]
    decide +kernel
  obtain ⟨⟨bytes, saves⟩, restores⟩ := saved_restored _ small
  have saved := saves ⟨[], []⟩ "cfg.toml"
  refine ⟨⟨[(["cfg.toml"], .file bytes)], []⟩, saved, fun other => ?_⟩
  exact restores _ _ _ _ other saved (by decide +kernel)

end Settings

end FractalBreeder
