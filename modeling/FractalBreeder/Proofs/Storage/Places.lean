import FractalBreeder.Storage.ImageStore

/-!
The place that a path leads to if it leads anywhere, and what the operations on a disk do to the
files at places.
-/
namespace FractalBreeder

namespace Disk

/-- One name further, whatever is there. -/
def advance (loc : Location) (name : String) : Location :=
  if name = "." then loc else if name = ".." then loc.tail else name :: loc

/-- Where a path leads if there is a way. -/
def place (d : Disk) (path : String) : Location := (names path).foldl advance (d.start path)

def HasFile (d : Disk) (loc : Location) : Prop := ∃ bytes, d.node? loc = some (.file bytes)

/-- A file in the place of a path can be removed by the path. -/
def Removable (d : Disk) (path : String) : Prop :=
  d.HasFile (d.place path) → ∃ after, d.remove path = .ok after

variable {d after : Disk} {path : String} {loc : Location}

theorem step_eq_advance {name : String} {next : Location} (steps : d.step loc name = .ok next) :
    next = advance loc name := by
  unfold step at steps
  unfold advance
  split at steps
  next => cases steps
  next => cases steps
  next =>
    split at steps
    next dot =>
      cases steps
      rw [if_pos dot]
    next other =>
      rw [if_neg other]
      split at steps
      next dots =>
        cases steps
        rw [if_pos dots]
      next other =>
        rw [if_neg other]
        split at steps
        · cases steps
        · cases steps
          rfl

theorem foldlM_step {names : List String} {start next : Location}
    (walked : names.foldlM d.step start = .ok next) : next = names.foldl advance start := by
  induction names generalizing start with
  | nil =>
      cases walked
      rfl
  | cons name rest ih =>
      rw [List.foldlM_cons] at walked
      cases stepped : d.step start name with
      | error fault =>
          rw [stepped] at walked
          cases walked
      | ok between =>
          rw [stepped] at walked
          rw [List.foldl_cons, ← step_eq_advance stepped]
          exact ih walked

theorem resolve_eq_place (resolved : d.resolve path = .ok loc) : loc = d.place path := by
  unfold resolve at resolved
  split at resolved
  · cases resolved
  · exact foldlM_step resolved

/-- Places depend on the disk only by where relative paths start. -/
theorem place_congr (same : after.workplace = d.workplace) (path : String) :
    after.place path = d.place path := by
  unfold place start
  rw [same]

theorem lookup_filter_ne (nodes : List (Location × Node)) (loc other : Location) :
    (nodes.filter (·.1 != loc)).lookup other = if other = loc then none else nodes.lookup other := by
  induction nodes with
  | nil =>
      rw [List.filter_nil, List.lookup_nil]
      split <;> rfl
  | cons entry rest ih =>
      obtain ⟨at_, node⟩ := entry
      by_cases removed : at_ = loc
      · subst removed
        rw [List.filter_cons_of_neg (by simp), ih]
        by_cases same : other = at_
        · rw [if_pos same, if_pos same]
        · have apart : (other == at_) = false := beq_eq_false_iff_ne.mpr same
          rw [if_neg same, if_neg same, List.lookup_cons, apart]
      · rw [List.filter_cons_of_pos (by simpa using removed), List.lookup_cons, List.lookup_cons]
        by_cases same : other = at_
        · subst same
          simp [removed]
        · have apart : (other == at_) = false := beq_eq_false_iff_ne.mpr same
          rw [apart]
          exact ih

theorem node?_put (d : Disk) (loc other : Location) (node : Node) :
    (d.put loc node).node? other =
      if other.isEmpty then some .directory else if other = loc then some node else d.node? other := by
  unfold node? put
  cases empty : other.isEmpty with
  | true => simp
  | false =>
      by_cases same : other = loc
      · subst same
        simp
      · have apart : (other == loc) = false := beq_eq_false_iff_ne.mpr same
        simp [List.lookup_cons, apart, lookup_filter_ne, same]

theorem node?_erase (d : Disk) (loc other : Location) :
    (d.erase loc).node? other =
      if other.isEmpty then some .directory else if other = loc then none else d.node? other := by
  unfold node? erase
  cases empty : other.isEmpty with
  | true => simp
  | false => simp [lookup_filter_ne]

theorem node?_put_of_ne {other : Location} (inner : loc ≠ []) (node : Node) :
    (d.put loc node).node? other = if other = loc then some node else d.node? other := by
  rw [node?_put]
  cases other with
  | nil =>
      rw [if_neg (Ne.symm inner)]
      rfl
  | cons name parent => rfl

theorem node?_erase_of_ne {other : Location} (inner : loc ≠ []) :
    (d.erase loc).node? other = if other = loc then none else d.node? other := by
  rw [node?_erase]
  cases other with
  | nil =>
      rw [if_neg (Ne.symm inner)]
      rfl
  | cons name parent => rfl

/-- The root is a directory. -/
theorem ne_nil_of_node? (other : d.node? loc ≠ some .directory) : loc ≠ [] := by
  rintro rfl
  exact other rfl

/-- A write that succeeds puts its file where the path leads. -/
theorem write_eq_put {bytes : ByteArray} (written : d.write path bytes = .ok after) :
    d.node? (d.place path) ≠ some .directory ∧ after = d.put (d.place path) (.file bytes) := by
  unfold write at written
  cases resolved : d.resolve path with
  | error fault =>
      rw [resolved] at written
      cases written
  | ok target =>
      rw [← resolve_eq_place resolved]
      simp only [resolved, bind, Except.bind] at written
      split at written
      · cases written
      · split at written
        · cases written
        next other =>
          cases written
          exact ⟨other, rfl⟩

/-- What is found by a path is what is in its place. -/
theorem stat_eq_node? {node : Node} (found : d.stat path = .ok (loc, node)) :
    loc = d.place path ∧ d.node? loc = some node := by
  unfold stat at found
  cases resolved : d.resolve path with
  | error fault =>
      rw [resolved] at found
      cases found
  | ok target =>
      simp only [resolved, bind, Except.bind] at found
      split at found
      · cases found
      next at_ =>
        split at found
        · cases found
        · cases found
          exact ⟨resolve_eq_place resolved, at_⟩
      next at_ =>
        cases found
        exact ⟨resolve_eq_place resolved, at_⟩

/-- A removal that succeeds takes away the file where the path leads. -/
theorem remove_eq_erase (removed : d.remove path = .ok after) :
    d.node? (d.place path) ≠ some .directory ∧ after = d.erase (d.place path) := by
  unfold remove at removed
  cases found : d.stat path with
  | error fault =>
      rw [found] at removed
      cases removed
  | ok result =>
      obtain ⟨target, node⟩ := result
      obtain ⟨rfl, at_⟩ := stat_eq_node? found
      simp only [found, bind, Except.bind] at removed
      cases node with
      | file bytes =>
          cases removed
          exact ⟨by rw [at_]; nofun, rfl⟩
      | directory => cases removed

theorem write_cases {bytes : ByteArray} (written : d.write path bytes = .ok after) :
    after.workplace = d.workplace ∧
      ∀ loc, after.HasFile loc → loc = d.place path ∨ d.HasFile loc := by
  obtain ⟨free, rfl⟩ := write_eq_put written
  refine ⟨rfl, ?_⟩
  rintro loc ⟨held, found⟩
  rw [node?_put_of_ne (ne_nil_of_node? free)] at found
  split at found
  next same => exact .inl same
  next => exact .inr ⟨held, found⟩

theorem remove_cases (removed : d.remove path = .ok after) :
    after.workplace = d.workplace ∧
      ∀ loc, after.HasFile loc → loc ≠ d.place path ∧ d.HasFile loc := by
  obtain ⟨free, rfl⟩ := remove_eq_erase removed
  refine ⟨rfl, ?_⟩
  rintro loc ⟨held, found⟩
  rw [node?_erase_of_ne (ne_nil_of_node? free)] at found
  split at found
  next => cases found
  next apart => exact ⟨apart, held, found⟩

/-- Directories are made where nothing was, and nothing else changes. -/
structure Extends (d after : Disk) : Prop where
  workplace : after.workplace = d.workplace
  nodes : ∀ loc, after.node? loc = d.node? loc ∨
    d.node? loc = none ∧ after.node? loc = some .directory

theorem Extends.refl (d : Disk) : Extends d d := ⟨rfl, fun _ => .inl rfl⟩

theorem Extends.trans {last : Disk} (first : Extends d after) (second : Extends after last) :
    Extends d last where
  workplace := second.workplace.trans first.workplace
  nodes loc := by
    rcases first.nodes loc with same | ⟨free, made⟩
    · rw [← same]
      exact second.nodes loc
    · rcases second.nodes loc with same | ⟨missing, -⟩
      · exact .inr ⟨free, same.trans made⟩
      · rw [made] at missing
        cases missing

theorem extends_makePlace {start : Location} {names : List String}
    (made : d.makePlace start names = .ok after) : Extends d after := by
  unfold makePlace at made
  cases walked : names.foldlM d.step start with
  | error fault =>
      rw [walked] at made
      cases made
  | ok target =>
      simp only [walked, bind, Except.bind] at made
      split at made
      next free =>
        cases made
        refine ⟨rfl, fun loc => ?_⟩
        rw [node?_put_of_ne (ne_nil_of_node? (by rw [free]; nofun))]
        split
        next same => exact .inr ⟨same ▸ free, rfl⟩
        next => exact .inl rfl
      next => cases made

theorem extends_ensurePlace (d : Disk) (start : Location) (names : List String) :
    Extends d (d.ensurePlace start names).1 := by
  unfold ensurePlace
  split
  next made => exact extends_makePlace made
  next => exact .refl d

theorem extends_makeAlong (d : Disk) (start : Location) (names before : List String) :
    Extends d (d.makeAlong start names before).1 := by
  induction before generalizing names with
  | nil => exact extends_ensurePlace d start names
  | cons name before ih =>
      unfold makeAlong
      split
      · split
        next along made =>
          have first : Extends d along := by
            have extended := ih (name :: before).reverse
            rwa [made] at extended
          exact first.trans (extends_ensurePlace along start names)
        · exact ih _
      · exact extends_ensurePlace d start names

theorem extends_makeDirectories (d : Disk) (path : String) :
    Extends d (d.makeDirectories path).1 := by
  unfold makeDirectories
  split
  · exact .refl d
  · split
    · exact .refl d
    · exact extends_makeAlong d _ _ _

/-- Making directories changes no file. -/
structure Grows (d after : Disk) : Prop where
  workplace : after.workplace = d.workplace
  files : ∀ loc, after.HasFile loc → d.HasFile loc

theorem grows_makeDirectories (d : Disk) (path : String) : Grows d (d.makeDirectories path).1 := by
  have extended := extends_makeDirectories d path
  refine ⟨extended.workplace, ?_⟩
  rintro loc ⟨bytes, found⟩
  rcases extended.nodes loc with same | ⟨-, made⟩
  · exact ⟨bytes, same ▸ found⟩
  · rw [made] at found
    cases found

end Disk

namespace ImageStore

open Disk (HasFile Removable)

/-- Where the picture of an identity is kept. -/
def spot (s : ImageStore) (d : Disk) (identity : String) : Location := d.place (s.path identity)

theorem spot_congr (s : ImageStore) {d after : Disk} (same : after.workplace = d.workplace)
    (identity : String) : s.spot after identity = s.spot d identity :=
  Disk.place_congr same (s.path identity)

theorem discard_cases (s : ImageStore) (d : Disk) (identity : String) :
    (s.discard d identity).workplace = d.workplace ∧
      ∀ loc, (s.discard d identity).HasFile loc → d.HasFile loc := by
  unfold discard
  cases removed : d.remove (s.path identity) with
  | error fault => exact ⟨rfl, fun _ => id⟩
  | ok after =>
      obtain ⟨same, files⟩ := Disk.remove_cases removed
      exact ⟨same, fun loc held => (files loc held).2⟩

/-- Where files can be removed, nothing is left of a picture that is discarded. -/
theorem not_hasFile_discard {s : ImageStore} {d : Disk} {identity : String}
    (removable : d.Removable (s.path identity)) :
    ¬ (s.discard d identity).HasFile (s.spot d identity) := by
  intro held
  obtain ⟨after, removed⟩ := removable ((s.discard_cases d identity).2 _ held)
  have same : s.discard d identity = after := by rw [discard, removed]; rfl
  rw [same] at held
  exact ((Disk.remove_cases removed).2 _ held).1 rfl

end ImageStore

end FractalBreeder
