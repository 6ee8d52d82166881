import Mathlib.Data.List.Nodup
import FractalBreeder.Toml.Reader

/-!
No table of a file has a key twice, whether it stands under headers, was made by keys with points or
is written in braces.
-/
namespace FractalBreeder

/-- A table without a key that stands twice, or no table. -/
def Value.Distinct (v : Value) : Prop := ∀ inner, v = .table inner → (inner.map Prod.fst).Nodup

/-- No key stands twice at the top or in one of the tables below. -/
structure Fields.Distinct (fields : Fields) : Prop where
  keys : (fields.map Prod.fst).Nodup
  inner : ∀ field ∈ fields, field.2.Distinct

namespace Toml

mutual

inductive Item.Distinct : Item → Prop where
  | value {v : Value} : v.Distinct → Item.Distinct (.value v)
  | table {made : Making} {fields : List (String × Item)} : Items.Distinct fields →
      Item.Distinct (.table made fields)
  | tables {elements : List (List (String × Item))} :
      (∀ fields ∈ elements, Items.Distinct fields) → Item.Distinct (.tables elements)

inductive Items.Distinct : List (String × Item) → Prop where
  | intro {items : List (String × Item)} : (items.map Prod.fst).Nodup →
      (∀ field ∈ items, Item.Distinct field.2) → Items.Distinct items

end

namespace Items

/-! ### Changes -/

section

variable {key : String} {item : Item} {items : Items}

theorem distinct_nil : Items.Distinct [] := .intro .nil (List.forall_mem_nil _)

theorem Distinct.of_lookup (distinct : Items.Distinct items)
    (found : items.lookup key = some item) : item.Distinct := by
  obtain ⟨-, inner⟩ := distinct
  obtain ⟨before, behind, rfl, -⟩ := List.lookup_eq_some_iff.mp found
  exact inner (key, item) (List.mem_append_right _ List.mem_cons_self)

theorem mem_put {field : String × Item} (member : field ∈ put key item items) :
    field = (key, item) ∨ field ∈ items := by
  induction items with
  | nil => exact .inl (List.mem_singleton.mp member)
  | cons first items ih =>
    obtain ⟨k, old⟩ := first
    rw [put] at member
    split at member
    next same =>
      subst same
      rcases List.mem_cons.mp member with rfl | later
      · exact .inl rfl
      · exact .inr (List.mem_cons_of_mem _ later)
    next =>
      rcases List.mem_cons.mp member with rfl | later
      · exact .inr List.mem_cons_self
      · exact (ih later).imp_right (List.mem_cons_of_mem _)

theorem nodup_put (keys : (items.map Prod.fst).Nodup) :
    ((put key item items).map Prod.fst).Nodup := by
  induction items with
  | nil => exact List.nodup_singleton key
  | cons first items ih =>
    obtain ⟨k, old⟩ := first
    obtain ⟨new, others⟩ := List.nodup_cons.mp keys
    rw [put]
    split
    next => exact keys
    next differ =>
      refine List.nodup_cons.mpr ⟨fun member => ?_, ih others⟩
      obtain ⟨field, inside, same⟩ := List.mem_map.mp member
      rcases mem_put inside with rfl | old
      · exact differ same.symm
      · exact new (List.mem_map.mpr ⟨field, old, same⟩)

theorem Distinct.put (distinct : Items.Distinct items) (fits : item.Distinct) :
    Items.Distinct (put key item items) := by
  obtain ⟨keys, inner⟩ := distinct
  refine .intro (nodup_put keys) fun field member => ?_
  rcases mem_put member with rfl | old
  · exact fits
  · exact inner field old

end

/-- Where no key stood twice, none does after the change. -/
def Preserves (change : Items → Option Items) : Prop :=
  ∀ items after, Items.Distinct items → change items = some after → Items.Distinct after

theorem distinct_modifyLast {change : Items → Option Items} (preserves : Preserves change)
    {elements after : List Items} (distinct : ∀ items ∈ elements, Items.Distinct items)
    (changed : modifyLast change elements = some after) :
    ∀ items ∈ after, Items.Distinct items := by
  unfold modifyLast at changed
  split at changed
  next last found =>
    obtain ⟨new, made, rfl⟩ := Option.map_eq_some_iff.mp changed
    refine List.forall_mem_append.mpr ⟨?_, List.forall_mem_singleton.mpr ?_⟩
    · exact fun items member => distinct items (List.dropLast_subset _ member)
    · exact preserves last new (distinct last (List.mem_of_getLast? found)) made
  next => cases changed

theorem preserves_insert {v : Value} (fits : v.Distinct) (path : List String) (key : String)
    (here : Bool) : Preserves (insert path key v here) := by
  induction path generalizing here with
  | nil =>
    intro items after distinct inserted
    rw [insert] at inserted
    split_ifs at inserted
    cases inserted
    exact distinct.put (.value fits)
  | cons k ks ih =>
    intro items after distinct inserted
    rw [insert] at inserted
    split at inserted
    next =>
      obtain ⟨sub, made, rfl⟩ := Option.map_eq_some_iff.mp inserted
      exact distinct.put (.table (ih true [] sub distinct_nil made))
    next => cases inserted
    next found =>
      obtain ⟨sub, made, rfl⟩ := Option.map_eq_some_iff.mp inserted
      cases distinct.of_lookup found with
      | table inner => exact distinct.put (.table (ih true _ sub inner made))
    next found =>
      obtain ⟨elements, made, rfl⟩ := Option.map_eq_some_iff.mp inserted
      cases distinct.of_lookup found with
      | tables inner => exact distinct.put (.tables (distinct_modifyLast (ih false) inner made))
    next => cases inserted

theorem preserves_within {change : Items → Option Items} (preserves : Preserves change)
    (path : List String) : Preserves (within change path) := by
  induction path with
  | nil => exact preserves
  | cons k ks ih =>
    intro items after distinct changed
    rw [within] at changed
    split at changed
    next =>
      obtain ⟨sub, made, rfl⟩ := Option.map_eq_some_iff.mp changed
      exact distinct.put (.table (ih [] sub distinct_nil made))
    next found =>
      obtain ⟨sub, made, rfl⟩ := Option.map_eq_some_iff.mp changed
      cases distinct.of_lookup found with
      | table inner => exact distinct.put (.table (ih _ sub inner made))
    next found =>
      obtain ⟨elements, made, rfl⟩ := Option.map_eq_some_iff.mp changed
      cases distinct.of_lookup found with
      | tables inner => exact distinct.put (.tables (distinct_modifyLast ih inner made))
    next => cases changed

theorem preserves_openTable (key : String) : Preserves (openTable key) := by
  intro items after distinct opened
  unfold openTable at opened
  split at opened
  next =>
    cases opened
    exact distinct.put (.table distinct_nil)
  next found =>
    cases opened
    cases distinct.of_lookup found with
    | table inner => exact distinct.put (.table inner)
  next => cases opened

theorem preserves_openElement (key : String) : Preserves (openElement key) := by
  intro items after distinct opened
  unfold openElement at opened
  split at opened
  next =>
    cases opened
    exact distinct.put (.tables (List.forall_mem_singleton.mpr distinct_nil))
  next found =>
    cases opened
    cases distinct.of_lookup found with
    | tables inner =>
      exact distinct.put (.tables
        (List.forall_mem_append.mpr ⟨inner, List.forall_mem_singleton.mpr distinct_nil⟩))
  next => cases opened

end Items

/-! ### Values of items -/

theorem map_fst_fieldsToValues (items : Items) :
    (fieldsToValues items).map Prod.fst = items.map Prod.fst := by
  induction items with
  | nil => rfl
  | cons field items ih =>
    rw [fieldsToValues.eq_def]
    exact congrArg (field.1 :: ·) ih

theorem mem_fieldsToValues {items : Items} {field : String × Value}
    (member : field ∈ fieldsToValues items) : ∃ item, (field.1, item) ∈ items ∧
      field.2 = item.toValue := by
  induction items with
  | nil => cases member
  | cons first items ih =>
    rw [fieldsToValues.eq_def] at member
    rcases List.mem_cons.mp member with rfl | later
    · exact ⟨first.2, List.mem_cons_self, rfl⟩
    · obtain ⟨item, inside, same⟩ := ih later
      exact ⟨item, List.mem_cons_of_mem _ inside, same⟩

theorem Item.Distinct.toValue {item : Item} (distinct : item.Distinct) :
    item.toValue.Distinct := by
  cases distinct with
  | value fits => exact fits
  | table inner =>
    intro fields same
    obtain ⟨keys, -⟩ := inner
    cases same
    rwa [map_fst_fieldsToValues]
  | tables => nofun

theorem Items.Distinct.fieldsToValues {items : Items} (distinct : Items.Distinct items) :
    Fields.Distinct (fieldsToValues items) := by
  obtain ⟨keys, inner⟩ := distinct
  constructor
  · rwa [map_fst_fieldsToValues]
  · intro field member
    obtain ⟨item, inside, same⟩ := mem_fieldsToValues member
    rw [same]
    exact (inner _ inside).toValue

/-! ### Reading -/

/-- A reader of values whose tables have no key twice. -/
def Yields (item : List Char → Option (Value × List Char)) : Prop :=
  ∀ cs v rest, item cs = some (v, rest) → v.Distinct

section

variable {gap : List Char → List Char} {item : List Char → Option (Value × List Char)}
  {cs rest : List Char}

theorem distinct_of_keyValue? (yields : Yields item) {path : List String} {key : String} {v : Value}
    (read : keyValue? gap item cs = some (path, key, v, rest)) : v.Distinct := by
  unfold keyValue? at read
  obtain ⟨⟨keys, behind⟩, -, read⟩ := Option.bind_eq_some_iff.mp read
  dsimp only at read
  split at read
  next =>
    obtain ⟨⟨w, left⟩, found, read⟩ := Option.bind_eq_some_iff.mp read
    cases read
    exact yields _ _ _ found
  next => cases read

theorem distinct_of_entries? (yields : Yields item) {count : Nat} {items after : Items}
    (distinct : Items.Distinct items) (read : entries? item count items cs = some (after, rest)) :
    Items.Distinct after := by
  induction count generalizing items cs with
  | zero => cases read
  | succ count ih =>
    rw [entries?] at read
    split at read
    next =>
      cases read
      exact distinct
    next =>
      obtain ⟨⟨path, key, v, behind⟩, found, read⟩ := Option.bind_eq_some_iff.mp read
      obtain ⟨grown, inserted, read⟩ := Option.bind_eq_some_iff.mp read
      have fits := distinct_of_keyValue? yields found
      have kept := Items.preserves_insert fits path key true items grown distinct inserted
      split at read
      next =>
        cases read
        exact kept
      next => exact ih kept read
      next => cases read

end

theorem distinct_of_scalar? {token : List Char} {v : Value} (read : scalar? token = some v) :
    v.Distinct := by
  rintro inner rfl
  unfold scalar? at read
  split_ifs at read
  · cases read
  · cases read
  · split at read
    next => cases read
    next =>
      split at read
      next => cases read
      next =>
        obtain ⟨shown, -, same⟩ := Option.map_eq_some_iff.mp read
        cases same

theorem yields_value? (nesting : Nat) : Yields (value? nesting) := by
  induction nesting using Nat.strongRecOn with
  | ind nesting ih =>
    intro cs v rest read
    unfold value? at read
    split at read
    next =>
      obtain ⟨content, -, same⟩ := Option.map_eq_some_iff.mp read
      cases same
      nofun
    next =>
      obtain ⟨content, -, same⟩ := Option.map_eq_some_iff.mp read
      cases same
      nofun
    next =>
      obtain ⟨elements, -, same⟩ := Option.map_eq_some_iff.mp read
      cases same
      nofun
    next nesting _ =>
      obtain ⟨⟨items, left⟩, entries, same⟩ := Option.map_eq_some_iff.mp read
      have distinct :=
        distinct_of_entries? (ih nesting (Nat.lt_succ_self _)) Items.distinct_nil entries
      cases same
      rintro inner ⟨rfl⟩
      exact distinct.fieldsToValues.keys
    next =>
      obtain ⟨w, scalar, same⟩ := Option.map_eq_some_iff.mp read
      cases same
      exact distinct_of_scalar? scalar

/-! ### Files -/

theorem distinct_of_header? {opening : String → Items → Option Items}
    (preserves : ∀ key, Items.Preserves (opening key)) {draft next : Draft} {cs rest : List Char}
    (distinct : Items.Distinct draft.root)
    (read : header? opening draft cs = some (next, rest)) : Items.Distinct next.root := by
  obtain ⟨⟨path, behind⟩, -, read⟩ := Option.bind_eq_some_iff.mp read
  obtain ⟨key, -, read⟩ := Option.bind_eq_some_iff.mp read
  obtain ⟨root, changed, read⟩ := Option.bind_eq_some_iff.mp read
  cases read
  exact Items.preserves_within (preserves key) _ _ _ distinct changed

theorem distinct_of_line? {draft next : Draft} {cs rest : List Char}
    (distinct : Items.Distinct draft.root) (read : line? draft cs = some (next, rest)) :
    Items.Distinct next.root := by
  unfold line? at read
  split at read
  next =>
    obtain ⟨⟨opened, behind⟩, header, read⟩ := Option.bind_eq_some_iff.mp read
    dsimp only at read
    split at read
    next =>
      cases read
      exact distinct_of_header? Items.preserves_openElement distinct header
    next => cases read
  next =>
    obtain ⟨⟨opened, behind⟩, header, read⟩ := Option.bind_eq_some_iff.mp read
    dsimp only at read
    split at read
    next =>
      cases read
      exact distinct_of_header? Items.preserves_openTable distinct header
    next => cases read
  next =>
    obtain ⟨⟨path, key, v, behind⟩, found, read⟩ := Option.bind_eq_some_iff.mp read
    obtain ⟨root, inserted, read⟩ := Option.bind_eq_some_iff.mp read
    cases read
    have fits := distinct_of_keyValue? (yields_value? maxNesting) found
    exact Items.preserves_within (Items.preserves_insert fits path key true) _ _ _ distinct inserted

theorem distinct_of_lines? {count : Nat} {draft : Draft} {cs : List Char} {items : Items}
    (distinct : Items.Distinct draft.root) (read : lines? count draft cs = some items) :
    Items.Distinct items := by
  induction count generalizing draft cs with
  | zero =>
    rw [lines?] at read
    split_ifs at read
    cases read
    exact distinct
  | succ count ih =>
    rw [lines?] at read
    split_ifs at read
    · cases read
      exact distinct
    · split at read
      next => exact ih distinct read
      next =>
        obtain ⟨⟨next, behind⟩, line, read⟩ := Option.bind_eq_some_iff.mp read
        obtain ⟨left, -, read⟩ := Option.bind_eq_some_iff.mp read
        exact ih (distinct_of_line? distinct line) read

theorem distinct_of_read? {text : String} {fields : Fields} (read : read? text = some fields) :
    fields.Distinct := by
  obtain ⟨items, made, rfl⟩ := Option.map_eq_some_iff.mp read
  exact (distinct_of_lines? Items.distinct_nil made).fieldsToValues

end Toml

end FractalBreeder
