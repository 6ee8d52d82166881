import FractalBreeder.Proofs.Settings.Entries
import FractalBreeder.Proofs.Toml.Distinctness

/-!
Settings from a file and an environment. A setting follows its variable, else its entry in the file,
else it has its default, whatever is given for the others and in whatever order.
-/
namespace FractalBreeder

/-! ### Layers -/

namespace Fields

theorem lookup_cons {α : Type} (key : String) (a : α) (pairs : List (String × α)) (name : String) :
    ((key, a) :: pairs).lookup name = if name = key then some a else pairs.lookup name := by
  by_cases here : name = key
  · rw [if_pos here, here, List.lookup_cons_self]
  · rw [if_neg here, List.lookup_cons, beq_eq_false_iff_ne.mpr here]

theorem lookup_absent {α : Type} {pairs : List (String × α)} {name : String}
    (absent : name ∉ pairs.map Prod.fst) : pairs.lookup name = none := by
  rw [List.lookup_eq_none_iff]
  intro pair member
  have differ : name ≠ pair.1 := fun same => absent (List.mem_map.mpr ⟨pair, member, same.symm⟩)
  simpa using differ

theorem mem_of_lookup {α : Type} {pairs : List (String × α)} {name : String} {a : α}
    (found : pairs.lookup name = some a) : (name, a) ∈ pairs := by
  obtain ⟨before, behind, rfl, -⟩ := List.lookup_eq_some_iff.mp found
  exact List.mem_append_right _ List.mem_cons_self

theorem lookup_put (fields : Fields) (key : String) (v : Value) (name : String) :
    (put key v fields).lookup name = if name = key then some v else fields.lookup name := by
  induction fields with
  | nil => rw [put, lookup_cons]
  | cons first fields ih =>
    obtain ⟨k, old⟩ := first
    rw [put]
    split
    next same =>
      rw [lookup_cons, lookup_cons, same]
      split_ifs <;> rfl
    next differ =>
      rw [lookup_cons, lookup_cons, ih]
      split_ifs with here there
      · exact absurd (here.symm.trans there) differ
      · rfl
      · rfl
      · rfl

theorem lookup_mergedAll {layer : Fields} (distinct : (layer.map Prod.fst).Nodup) (target : Fields)
    (name : String) : (mergedAll layer target).lookup name =
      match layer.lookup name with
      | some v => some (merged v (target.lookup name))
      | none => target.lookup name := by
  induction layer generalizing target with
  | nil => rfl
  | cons first layer ih =>
    obtain ⟨key, v⟩ := first
    obtain ⟨new, distinct⟩ := List.nodup_cons.mp distinct
    rw [mergedAll, ih distinct, lookup_put, lookup_cons]
    by_cases here : name = key
    · rw [if_pos here, if_pos here, here, lookup_absent new]
    · rw [if_neg here, if_neg here]

theorem below_leaf {v : Value} (leaf : ∀ inner, v ≠ .table inner) : below (some v) = [] := by
  cases v with
  | table inner => exact absurd rfl (leaf inner)
  | _ => rfl

/-- The layer of a file alone, as `overlay` makes it: tables are joined with nothing. -/
theorem lookup_alone {fields : Fields} (distinct : (fields.map Prod.fst).Nodup) (name : String) :
    (mergedAll fields []).lookup name = (fields.lookup name).map (merged · none) := by
  rw [lookup_mergedAll distinct]
  cases fields.lookup name <;> rfl

/-- A file of settings: the keys above all headers name no way into a section, and the sections are
tables. -/
structure IsSectioned (file : Fields) : Prop where
  plain : ∀ field ∈ file, Way.ofKey field.1 = [.key field.1]
  tabled : ∀ field ∈ file, field.1 ∈ Place.headers → ∃ inner, field.2 = .table inner

/-- A file with nothing above its headers but the seed, and under the headers anything at all. -/
theorem isSectioned_of_known {file : Fields} (known : ∀ field ∈ file,
    field.1 = "seed" ∨ field.1 ∈ Place.headers ∧ ∃ inner, field.2 = .table inner) :
    file.IsSectioned where
  plain field member := by
    have keys : ∀ key ∈ "seed" :: Place.headers, Way.ofKey key = [.key key] := by decide
    refine keys field.1 (List.mem_cons.mpr ?_)
    exact (known field member).imp_right And.left
  tabled field member under := by
    rcases known field member with seed | ⟨-, table⟩
    · rw [seed] at under
      exact absurd under (by decide)
    · exact table

section

variable {file : Fields}

theorem IsSectioned.isTabled (sectioned : file.IsSectioned) : file.IsTabled :=
  fun header member v found => sectioned.tabled (header, v) (mem_of_lookup found) member

/-- The layer of a file gives at every place what the file gives. -/
theorem entry?_overlay_file (distinct : file.Distinct) (sectioned : file.IsSectioned)
    (place : Place) :
    place.entry? (overlay file []) = (place.entry? file).map (merged · none) := by
  rw [overlay_plain sectioned.plain]
  obtain ⟨header, name⟩ := place
  cases header with
  | none => exact lookup_alone distinct.keys name
  | some header =>
    change (below ((mergedAll file []).lookup header)).lookup name =
      ((below (file.lookup header)).lookup name).map (merged · none)
    rw [lookup_alone distinct.keys]
    cases found : file.lookup header with
    | none => rfl
    | some v =>
      rw [Option.map_some]
      by_cases table : ∃ inner, v = .table inner
      · obtain ⟨inner, rfl⟩ := table
        have once := distinct.inner _ (mem_of_lookup found) inner rfl
        rw [merged]
        exact lookup_alone once name
      · have leaf := not_exists.mp table
        rw [merged_leaf leaf, below_leaf leaf]
        rfl

theorem isTabled_overlay_file (distinct : file.Distinct) (sectioned : file.IsSectioned) :
    (overlay file []).IsTabled := by
  intro header member v found
  rw [overlay_plain sectioned.plain, lookup_alone distinct.keys] at found
  obtain ⟨old, given, rfl⟩ := Option.map_eq_some_iff.mp found
  obtain ⟨inner, rfl⟩ := sectioned.isTabled header member old given
  exact ⟨_, by rw [merged]⟩

end

/-! ### Variables -/

section

variable {p q : Place} {v : Value} {fields : Fields}

theorem set_top (leaf : ∀ inner, v ≠ .table inner) (name : String) :
    set (Place.way ⟨none, name⟩) v fields = put name v fields := by
  change put name (merged v (fields.lookup name)) fields = _
  rw [merged_leaf leaf]

theorem set_under (leaf : ∀ inner, v ≠ .table inner) (header name : String) :
    set (Place.way ⟨some header, name⟩) v fields =
      put header (.table (put name v (below (fields.lookup header)))) fields := by
  change put header (.table (put name (merged v _) (below (fields.lookup header)))) fields = _
  rw [merged_leaf leaf]

/-- What is set at a place is found there, and nothing changes at any other. -/
theorem entry?_set (leaf : ∀ inner, v ≠ .table inner) (proper : p.IsProper) (proper' : q.IsProper) :
    q.entry? (set p.way v fields) = if q = p then some v else q.entry? fields := by
  obtain ⟨header, name⟩ := p
  obtain ⟨header', name'⟩ := q
  cases header with
  | none =>
    rw [set_top leaf]
    cases header' with
    | none =>
      change (put name v fields).lookup name' = if _ then _ else fields.lookup name'
      rw [lookup_put]
      simp
    | some header' =>
      have other : header' ≠ name := fun same => proper (same ▸ proper')
      change (below ((put name v fields).lookup header')).lookup name' = _
      rw [lookup_put, if_neg other, if_neg (by simp)]
      rfl
  | some header =>
    rw [set_under leaf]
    cases header' with
    | none =>
      have other : name' ≠ header := fun same => proper' (same ▸ proper)
      change (put header _ fields).lookup name' = _
      rw [lookup_put, if_neg other, if_neg (by simp)]
      rfl
    | some header' =>
      change (below ((put header _ fields).lookup header')).lookup name' =
        if _ then _ else (below (fields.lookup header')).lookup name'
      rw [lookup_put]
      by_cases same : header' = header
      · subst same
        rw [if_pos rfl]
        change (put name v _).lookup name' = _
        rw [lookup_put]
        simp
      · rw [if_neg same, if_neg (by simp [same])]

theorem isTabled_set (leaf : ∀ inner, v ≠ .table inner) (proper : p.IsProper)
    (tabled : fields.IsTabled) : (set p.way v fields).IsTabled := by
  intro wanted member w found
  obtain ⟨header, name⟩ := p
  cases header with
  | none =>
    have other : wanted ≠ name := fun same => proper (same ▸ member)
    rw [set_top leaf, lookup_put, if_neg other] at found
    exact tabled wanted member w found
  | some header =>
    rw [set_under leaf, lookup_put] at found
    split_ifs at found
    · exact ⟨_, (Option.some.inj found).symm⟩
    · exact tabled wanted member w found

end

end Fields

namespace Environment

/-- An environment in which every name stands once, and those that begin like the name of a setting
are the names of settings. -/
structure NamesSettings (environment : List (String × String)) : Prop where
  once : (environment.map Prod.fst).Nodup
  known : ∀ name ∈ environment.map Prod.fst,
    key? name = none ∨ ∃ k ∈ Setting.all, name = k.place.variableName

theorem value_ne_table (s : String) (inner : Fields) : value s ≠ .table inner := by
  unfold value
  split_ifs
  · nofun
  · nofun
  · split
    · nofun
    · split <;> nofun

theorem overlay_layer_cons {name s : String} {environment : List (String × String)}
    {fields : Fields} : Fields.overlay (layer ((name, s) :: environment)) fields =
      match key? name with
      | none => Fields.overlay (layer environment) fields
      | some key =>
        Fields.overlay (layer environment) (Fields.set (Way.ofKey key) (value s) fields) := by
  rw [layer, List.filterMap_cons]
  dsimp only
  cases key? name with
  | none => rfl
  | some key => rfl

/-- The layer of an environment gives every setting the value of its variable, and leaves those
without one as they were. -/
theorem entry?_overlay_layer {environment : List (String × String)}
    (names : NamesSettings environment) {fields : Fields} {k : Setting} (member : k ∈ Setting.all) :
    k.place.entry? (Fields.overlay (layer environment) fields) =
      ((environment.lookup k.place.variableName).map value).or (k.place.entry? fields) := by
  induction environment generalizing fields with
  | nil => rfl
  | cons first environment ih =>
    obtain ⟨name, s⟩ := first
    obtain ⟨⟨new, once⟩, known, others⟩ : (_ ∧ _) ∧ _ ∧ _ :=
      ⟨List.nodup_cons.mp names.once, List.forall_mem_cons.mp names.known⟩
    have rest : NamesSettings environment := ⟨once, others⟩
    rw [overlay_layer_cons]
    rcases known with unknown | ⟨j, memberJ, rfl⟩
    · have other : k.place.variableName ≠ name := by
        rintro rfl
        rw [(Setting.plain k member).key?_variableName] at unknown
        cases unknown
      rw [unknown, Fields.lookup_cons, if_neg other]
      exact ih rest
    · rw [(Setting.plain j memberJ).key?_variableName]
      dsimp only
      rw [(Setting.plain j memberJ).ofKey_key, ih rest, Fields.lookup_cons,
        Fields.entry?_set (value_ne_table s) (Setting.proper j memberJ) (Setting.proper k member)]
      by_cases same : k.place = j.place
      · rw [if_pos same, if_pos (congrArg _ same), same, Fields.lookup_absent new]
        rfl
      · have other : k.place.variableName ≠ j.place.variableName := fun named =>
          same (Place.eq_of_variableName (Setting.plain k member) (Setting.plain j memberJ) named)
        rw [if_neg same, if_neg other]

theorem isTabled_overlay_layer {environment : List (String × String)}
    (names : NamesSettings environment) {fields : Fields} (tabled : fields.IsTabled) :
    (Fields.overlay (layer environment) fields).IsTabled := by
  induction environment generalizing fields with
  | nil => exact tabled
  | cons first environment ih =>
    obtain ⟨name, s⟩ := first
    obtain ⟨known, others⟩ := List.forall_mem_cons.mp names.known
    have rest : NamesSettings environment := ⟨(List.nodup_cons.mp names.once).2, others⟩
    rw [overlay_layer_cons]
    rcases known with unknown | ⟨j, memberJ, rfl⟩
    · rw [unknown]
      exact ih rest tabled
    · rw [(Setting.plain j memberJ).key?_variableName]
      dsimp only
      rw [(Setting.plain j memberJ).ofKey_key]
      exact ih rest (Fields.isTabled_set (value_ne_table s) (Setting.proper j memberJ) tabled)

end Environment

/-! ### Both layers -/

namespace Setting

/-- What is given for a setting: by its variable, else by the file. -/
def given? (k : Setting) (file : Fields) (environment : List (String × String)) : Option Value :=
  ((environment.lookup k.place.variableName).map Environment.value).or (k.place.entry? file)

section

variable {k : Setting} {s s' : Settings}

theorem Takes.unique {given : Option Value} (takes : k.Takes given s) (takes' : k.Takes given s') :
    k.get s = k.get s' := by
  cases given with
  | none => exact Eq.trans takes (Eq.symm takes')
  | some v => exact Option.some.inj (Eq.trans (Eq.symm takes) takes')

theorem takes_merged (member : k ∈ all) (given : Option Value) (s : Settings) :
    k.Takes (given.map (Fields.merged · none)) s ↔ k.Takes given s := by
  cases given with
  | none => exact Iff.rfl
  | some v =>
    change k.fit (Fields.merged v none) = _ ↔ k.fit v = _
    rw [fit_merged member]

end

end Setting

/-- Two layers fit settings when each setting takes what they give for it. -/
theorem Settings.ofLayers?_eq_some {file : Fields} {environment : List (String × String)}
    {s : Settings} (distinct : file.Distinct) (sectioned : file.IsSectioned)
    (names : Environment.NamesSettings environment) : ofLayers? file environment = some s ↔
      ∀ k ∈ Setting.all, k.Takes (k.given? file environment) s := by
  have tabled := Environment.isTabled_overlay_layer names
    (Fields.isTabled_overlay_file distinct sectioned)
  rw [ofLayers?, ofFields?_eq_some tabled]
  refine forall₂_congr fun k member => ?_
  rw [Environment.entry?_overlay_layer names member, Fields.entry?_overlay_file distinct sectioned,
    Setting.given?]
  cases environment.lookup k.place.variableName with
  | none => exact Setting.takes_merged member _ s
  | some _ => exact Iff.rfl

/-! ### Order -/

/-- The same value; the fields of a table may stand in another order. -/
inductive Value.Reordered : Value → Value → Prop where
  | same (v : Value) : Reordered v v
  | table {fields fields' : Fields} : fields.Perm fields' →
      Reordered (.table fields) (.table fields')

namespace Fields

/-- The same fields in another order, and those of their tables as well. -/
def Reordered (file file' : Fields) : Prop :=
  ∃ between, file.Perm between ∧
    List.Forall₂ (fun field field' => field.1 = field'.1 ∧ field.2.Reordered field'.2) between file'

theorem lookup_eq_some_iff {α : Type} {pairs : List (String × α)}
    (distinct : (pairs.map Prod.fst).Nodup) {name : String} {a : α} :
    pairs.lookup name = some a ↔ (name, a) ∈ pairs := by
  refine ⟨mem_of_lookup, fun member => ?_⟩
  cases found : pairs.lookup name with
  | none =>
    have absent := List.lookup_eq_none_iff.mp found _ member
    simp at absent
  | some b =>
    have same := List.inj_on_of_nodup_map distinct (mem_of_lookup found) member rfl
    exact congrArg some (congrArg Prod.snd same)

theorem lookup_perm {α : Type} {pairs pairs' : List (String × α)}
    (distinct : (pairs.map Prod.fst).Nodup) (perm : pairs.Perm pairs') (name : String) :
    pairs.lookup name = pairs'.lookup name := by
  have distinct' := (perm.map Prod.fst).nodup_iff.mp distinct
  ext a
  rw [lookup_eq_some_iff distinct, lookup_eq_some_iff distinct', perm.mem_iff]

section

variable {file file' : Fields}

theorem Reordered.lookup (reordered : file.Reordered file')
    (distinct : (file.map Prod.fst).Nodup) (name : String) :
    Option.Rel Value.Reordered (file.lookup name) (file'.lookup name) := by
  obtain ⟨between, perm, others⟩ := reordered
  rw [lookup_perm distinct perm]
  clear perm distinct
  induction others with
  | nil => exact .none
  | @cons field field' _ _ first _ ih =>
    obtain ⟨key, v⟩ := field
    obtain ⟨key', w⟩ := field'
    obtain ⟨rfl, values⟩ := first
    rw [lookup_cons, lookup_cons]
    split_ifs
    · exact .some values
    · exact ih

/-- Under a header the order makes no difference at all. -/
theorem lookup_below {given given' : Option Value}
    (values : Option.Rel Value.Reordered given given')
    (distinct : ∀ v ∈ given, v.Distinct) (name : String) :
    (below given').lookup name = (below given).lookup name := by
  cases values with
  | none => rfl
  | some values =>
    cases values with
    | same => rfl
    | table perm => exact (lookup_perm (distinct _ rfl _ rfl) perm name).symm

theorem Reordered.exists_mem (reordered : file.Reordered file') {field' : String × Value}
    (member : field' ∈ file') :
    ∃ field ∈ file, field.1 = field'.1 ∧ field.2.Reordered field'.2 := by
  obtain ⟨between, perm, others⟩ := reordered
  obtain ⟨i, inside, rfl⟩ := List.mem_iff_getElem.mp member
  have inside' : i < between.length := others.length_eq ▸ inside
  exact ⟨between[i], perm.mem_iff.mpr (List.getElem_mem inside'), others.get inside' inside⟩

theorem IsSectioned.reordered (sectioned : file.IsSectioned) (reordered : file.Reordered file') :
    file'.IsSectioned where
  plain field' member := by
    obtain ⟨field, inside, same, -⟩ := reordered.exists_mem member
    rw [← same]
    exact sectioned.plain field inside
  tabled field' member under := by
    obtain ⟨field, inside, same, values⟩ := reordered.exists_mem member
    obtain ⟨inner, table⟩ := sectioned.tabled field inside (same ▸ under)
    rw [table] at values
    generalize field'.2 = w at values
    cases values with
    | same => exact ⟨inner, rfl⟩
    | table _ => exact ⟨_, rfl⟩

end

end Fields

namespace Setting

variable {k : Setting} {file file' : Fields}

theorem takes_of_rel (member : k ∈ all) {given given' : Option Value}
    (values : Option.Rel Value.Reordered given given') (s : Settings) :
    k.Takes given' s ↔ k.Takes given s := by
  cases values with
  | none => exact Iff.rfl
  | some values =>
    cases values with
    | same => exact Iff.rfl
    | table =>
      change k.fit (.table _) = _ ↔ k.fit (.table _) = _
      rw [fit_table _ k member, fit_table _ k member]

theorem takes_entry?_reordered (member : k ∈ all) (distinct : file.Distinct)
    (reordered : file.Reordered file') (s : Settings) :
    k.Takes (k.place.entry? file') s ↔ k.Takes (k.place.entry? file) s := by
  have given := reordered.lookup distinct.keys
  unfold Place.entry? Place.table
  cases k.place.header with
  | none => exact takes_of_rel member (given k.place.name) s
  | some header =>
    dsimp only
    rw [Fields.lookup_below (given header)]
    intro v found
    exact distinct.inner _ (Fields.mem_of_lookup found)

/-- No setting looks at the order of the fields. -/
theorem takes_reordered (member : k ∈ all) (distinct : file.Distinct)
    (reordered : file.Reordered file') (environment : List (String × String)) (s : Settings) :
    k.Takes (k.given? file' environment) s ↔ k.Takes (k.given? file environment) s := by
  unfold given?
  cases environment.lookup k.place.variableName with
  | none => exact takes_entry?_reordered member distinct reordered s
  | some _ => exact Iff.rfl

end Setting

namespace Settings

/-- What the file at a path and the environment make of the settings. -/
structure Layered (disk : Disk) (environment : List (String × String)) (path : String)
    (file : Fields) : Prop where
  /-- The settings that are loaded are those that take what is given for them, if they are valid. -/
  follows : ∀ s, load disk environment path = .ok s ↔
    s.fault? = none ∧ ∀ k ∈ Setting.all, k.Takes (k.given? file environment) s
  /-- A setting for which the same is given elsewhere is the same there: what is set or removed for
  the others, in one layer or in both, makes no difference to it. -/
  apart : ∀ disk' environment' path' file' s s', readFile? disk' path' = some file' →
    file'.IsSectioned → Environment.NamesSettings environment' →
    load disk environment path = .ok s → load disk' environment' path' = .ok s' →
    ∀ k ∈ Setting.all, k.given? file' environment' = k.given? file environment → k.get s' = k.get s
  /-- The order of the keys and of the tables makes no difference to any. -/
  reordered : ∀ disk' path' file', readFile? disk' path' = some file' → file.Reordered file' →
    load disk' environment path' = load disk environment path

variable {disk : Disk} {path : String} {file : Fields} {environment : List (String × String)}

theorem distinct_of_readFile? (read : readFile? disk path = some file) : file.Distinct := by
  obtain ⟨_, -, read⟩ := Option.bind_eq_some_iff.mp read
  obtain ⟨_, -, read⟩ := Option.bind_eq_some_iff.mp read
  obtain ⟨_, -, read⟩ := Option.bind_eq_some_iff.mp read
  exact Toml.distinct_of_read? read

theorem load_of_readFile? (read : readFile? disk path = some file) :
    load disk environment path = match ofLayers? file environment with
      | some s => s.check
      | none => .error .unreadableSettings := by
  unfold load
  rw [read]
  rfl

theorem load_eq_ok_iff (read : readFile? disk path = some file) (sectioned : file.IsSectioned)
    (names : Environment.NamesSettings environment) {s : Settings} :
    load disk environment path = .ok s ↔
      s.fault? = none ∧ ∀ k ∈ Setting.all, k.Takes (k.given? file environment) s := by
  rw [load_eq_ok, ← ofLayers?_eq_some (distinct_of_readFile? read) sectioned names]
  constructor
  · rintro ⟨other, read', fits, valid⟩
    obtain rfl := Option.some.inj (read.symm.trans read')
    exact ⟨valid, fits⟩
  · rintro ⟨valid, fits⟩
    exact ⟨file, read, fits, valid⟩

theorem load_layered (read : readFile? disk path = some file) (sectioned : file.IsSectioned)
    (names : Environment.NamesSettings environment) : Layered disk environment path file where
  follows _ := load_eq_ok_iff read sectioned names
  apart _ _ _ _ s s' read' sectioned' names' loaded loaded' k member same := by
    have takes := ((load_eq_ok_iff read sectioned names).mp loaded).2 k member
    have takes' := ((load_eq_ok_iff read' sectioned' names').mp loaded').2 k member
    rw [same] at takes'
    exact takes'.unique takes
  reordered disk' path' file' read' reordered := by
    have distinct := distinct_of_readFile? read
    have same : ofLayers? file' environment = ofLayers? file environment := by
      ext s
      rw [ofLayers?_eq_some (distinct_of_readFile? read') (sectioned.reordered reordered) names,
        ofLayers?_eq_some distinct sectioned names]
      exact forall₂_congr fun k member =>
        Setting.takes_reordered member distinct reordered environment s
    rw [load_of_readFile? read', load_of_readFile? read, same]

/-- The sections of a file that leaves most settings to their defaults. -/
def scant : List (String × Fields) :=
  [("render", [("width", .int 640), ("extension", .text "jpg")]),
    ("genetics", [("operator_chance", .float (.float 0.5))])]

/-- The same entries, each of them at another place. -/
def scantReordered : List (String × Fields) :=
  [("genetics", [("operator_chance", .float (.float 0.5))]),
    ("render", [("extension", .text "jpg"), ("width", .int 640)])]

/-- The fields of sections without any number that could lose a sign. -/
def fieldsOf (sections : List (String × Fields)) : Fields :=
  sections.map fun written => (written.1, .table written.2)

theorem readFile?_sections {sections : List (String × Fields)} (headed : Toml.Headed sections)
    (signless : ∀ written ∈ sections, ∀ field ∈ written.2, field.2.unsigned = field.2)
    {text : String} (written : Toml.writeSections? sections = some text.toList) :
    readFile? ⟨[(["cfg.toml"], .file text.toUTF8)], []⟩ "cfg.toml" = some (fieldsOf sections) := by
  obtain ⟨unmarked, read⟩ := Toml.read?_writeSections headed written
  rw [String.ofList_toList] at read
  have saved : Disk.write ⟨[], []⟩ "cfg.toml" text.toUTF8 =
      .ok ⟨[(["cfg.toml"], .file text.toUTF8)], []⟩ := rfl
  rw [readFile?_write unmarked saved, read]
  refine congrArg some (List.map_congr_left fun written member => ?_)
  refine congrArg (written.1, Value.table ·) ((List.map_congr_left ?_).trans (List.map_id _))
  exact fun field inside => congrArg (field.1, ·) (signless written member field inside)

theorem load_layered_scant :
    let text := "[render]\nwidth = 640\nextension = \"jpg\"\n[genetics]\noperator_chance = 0.5\n"
    let text' := "[genetics]\noperator_chance = 0.5\n[render]\nextension = \"jpg\"\nwidth = 640\n"
    let environment := [("AESTHETIC__RENDER__HEIGHT", "200"), ("HOME", "/")]
    let loaded : Settings := { genetic := { operatorChance := 0.5 },
                               render := { width := 640, height := 200, extension := "jpg" } }
    load ⟨[(["cfg.toml"], .file text.toUTF8)], []⟩ environment "cfg.toml" = .ok loaded ∧
    load ⟨[(["cfg.toml"], .file text'.toUTF8)], []⟩ environment "cfg.toml" = .ok loaded := by
  intro text text' environment loaded
  have signless : (∀ written ∈ scant, ∀ field ∈ written.2, field.2.unsigned = field.2) ∧
      ∀ written ∈ scantReordered, ∀ field ∈ written.2, field.2.unsigned = field.2 := by
    simp only [scant, scantReordered, List.forall_mem_cons]
    and_intros <;> first | rfl | exact List.forall_mem_nil _
  have read : readFile? ⟨[(["cfg.toml"], .file text.toUTF8)], []⟩ "cfg.toml" =
      some (fieldsOf scant) :=
    readFile?_sections (by decide +kernel) signless.1 (by decide +kernel)
  have read' : readFile? ⟨[(["cfg.toml"], .file text'.toUTF8)], []⟩ "cfg.toml" =
      some (fieldsOf scantReordered) :=
    readFile?_sections (by decide +kernel) signless.2 (by decide +kernel)
  have sectioned : (fieldsOf scant).IsSectioned :=
    Fields.isSectioned_of_known (by simp [fieldsOf, scant, Place.headers])
  have names : Environment.NamesSettings environment := by
    refine ⟨by decide, ?_⟩
    refine List.forall_mem_cons.mpr ⟨.inr ?_, List.forall_mem_cons.mpr ⟨.inl ?_, nofun⟩⟩
    · refine ⟨.render "height" Value.toUInt32? (·.height), ?_, by decide +kernel⟩
      simp [Setting.all, Setting.renders]
    · decide +kernel
  have reordered : (fieldsOf scant).Reordered (fieldsOf scantReordered) := by
    refine ⟨_, .swap _ _ [], .cons ⟨rfl, .same _⟩ (.cons ⟨rfl, .table (.swap _ _ [])⟩ .nil)⟩
  have given : ∀ k ∈ Setting.all, environment.lookup k.place.variableName =
      if k.place = ⟨some "render", "height"⟩ then some "200" else none := by
    decide +kernel
  have height : Environment.value "200" = .int 200 := by with_unfolding_all rfl
  have takes : ∀ k ∈ Setting.all, k.Takes ((if k.place = ⟨some "render", "height"⟩ then
      some (.int 200) else none).or (k.place.entry? (fieldsOf scant))) loaded := by
    refine List.forall_iff_forall_mem.mp ?_
    and_intros <;> rfl
  have layered := load_layered read sectioned names
  have first := (layered.follows loaded).mpr ⟨by decide +kernel, fun k member => by
    rw [Setting.given?, given k member, apply_ite (Option.map Environment.value),
      Option.map_some, height]
    exact takes k member⟩
  exact ⟨first, (layered.reordered _ _ _ read' reordered).trans first⟩

end Settings

end FractalBreeder
