import FractalBreeder.Proofs.Storage.Contents

/-!
Making the directory of a store. Once it is made it stays, whatever happens to files, and making it
again changes nothing. If it cannot be made, it never can be, and no file in it can be reached.
-/
namespace FractalBreeder

namespace Disk

variable {d after : Disk} {start loc : Location} {path dir : String} {names before : List String}

/-- Nothing but files is lost. -/
structure Keeps (d after : Disk) : Prop where
  workplace : after.workplace = d.workplace
  directories : ∀ loc, d.node? loc = some .directory → after.node? loc = some .directory

theorem Keeps.refl (d : Disk) : Keeps d d := ⟨rfl, fun _ => id⟩

theorem Extends.keeps (extended : Extends d after) : Keeps d after where
  workplace := extended.workplace
  directories loc found := by
    rcases extended.nodes loc with same | ⟨free, -⟩
    · rw [same, found]
    · rw [free] at found
      cases found

theorem keeps_put (free : d.node? loc ≠ some .directory) (node : Node) : Keeps d (d.put loc node) where
  workplace := rfl
  directories other found := by
    have apart : other ≠ loc := fun same => free (same ▸ found)
    rw [node?_put_of_ne (ne_nil_of_node? free), if_neg apart, found]

theorem keeps_erase (free : d.node? loc ≠ some .directory) : Keeps d (d.erase loc) where
  workplace := rfl
  directories other found := by
    have apart : other ≠ loc := fun same => free (same ▸ found)
    rw [node?_erase_of_ne (ne_nil_of_node? free), if_neg apart, found]

theorem directory_of_step {name : String} {next : Location} (steps : d.step loc name = .ok next) :
    d.node? loc = some .directory := by
  unfold step at steps
  split at steps
  next => cases steps
  next => cases steps
  next found => exact found

namespace Keeps

variable (keeps : Keeps d after)

include keeps

theorem step {name : String} {next : Location} (steps : d.step loc name = .ok next) :
    after.step loc name = .ok next := by
  have found := directory_of_step steps
  rw [← steps]
  unfold Disk.step
  rw [found, keeps.directories loc found]

theorem walk {next : Location} (walked : names.foldlM d.step start = .ok next) :
    names.foldlM after.step start = .ok next := by
  induction names generalizing start with
  | nil => exact walked
  | cons name rest ih =>
      rw [List.foldlM_cons] at walked ⊢
      cases stepped : d.step start name with
      | error fault =>
          rw [stepped] at walked
          cases walked
      | ok between =>
          rw [stepped] at walked
          rw [keeps.step stepped]
          exact ih walked

end Keeps

theorem isDirectory_iff : d.isDirectory start names = true ↔
    ∃ loc, names.foldlM d.step start = .ok loc ∧ d.node? loc = some .directory := by
  unfold isDirectory
  constructor
  · intro found
    split at found
    next loc walked =>
      split at found
      next at_ => exact ⟨loc, walked, at_⟩
      next => cases found
    next => cases found
  · rintro ⟨loc, walked, at_⟩
    simp only [walked, at_]

theorem Keeps.isDirectory (keeps : Keeps d after) (found : d.isDirectory start names = true) :
    after.isDirectory start names = true := by
  obtain ⟨loc, walked, at_⟩ := isDirectory_iff.mp found
  exact isDirectory_iff.mpr ⟨loc, keeps.walk walked, keeps.directories loc at_⟩

theorem ensurePlace_of_isDirectory (found : d.isDirectory start names = true) :
    d.ensurePlace start names = (d, .ok ()) := by
  obtain ⟨loc, walked, at_⟩ := isDirectory_iff.mp found
  have there : d.makePlace start names = .error .alreadyExists := by
    unfold makePlace
    rw [walked]
    simp only [bind, Except.bind, at_]
  unfold ensurePlace
  rw [there]
  simp only [found, if_true]

theorem makeAlong_of_isDirectory (found : d.isDirectory start names = true) (before : List String) :
    d.makeAlong start names before = (d, .ok ()) := by
  cases before with
  | nil => exact ensurePlace_of_isDirectory found
  | cons name before =>
      unfold makeAlong
      rw [ensurePlace_of_isDirectory found]

/-- A place that could be made is a directory then, and there was a way to it. -/
theorem ensurePlace_cases (d : Disk) (start : Location) (names : List String) :
    (∃ loc, names.foldlM d.step start = .ok loc ∧ (d.ensurePlace start names).2 = .ok () ∧
        (d.ensurePlace start names).1.isDirectory start names = true) ∨
      ∃ fault, d.ensurePlace start names = (d, .error fault) := by
  unfold ensurePlace
  cases made : d.makePlace start names with
  | ok after =>
      left
      have extended := extends_makePlace made
      unfold makePlace at made
      cases walked : names.foldlM d.step start with
      | error fault =>
          rw [walked] at made
          cases made
      | ok loc =>
          refine ⟨loc, rfl, rfl, isDirectory_iff.mpr ⟨loc, extended.keeps.walk walked, ?_⟩⟩
          simp only [walked, bind, Except.bind] at made
          split at made
          next free =>
            cases made
            rw [node?_put_of_ne (ne_nil_of_node? (by rw [free]; nofun)), if_pos rfl]
          next => cases made
  | error fault =>
      cases found : d.isDirectory start names with
      | true =>
          obtain ⟨loc, walked, -⟩ := isDirectory_iff.mp found
          exact .inl ⟨loc, walked, rfl, rfl⟩
      | false => exact .inr ⟨fault, rfl⟩

theorem isDirectory_of_ensurePlace (made : (d.ensurePlace start names).2 = .ok ()) :
    (d.ensurePlace start names).1.isDirectory start names = true := by
  rcases ensurePlace_cases d start names with ⟨-, -, -, found⟩ | ⟨fault, failed⟩
  · exact found
  · rw [failed] at made
    cases made

/-- Either there is a way to the place already, or the place before it comes first. -/
theorem makeAlong_cases (d : Disk) (start : Location) (names : List String) (name : String)
    (before : List String) :
    d.ensurePlace start names ≠ (d, .error .notFound) ∧
        d.makeAlong start names (name :: before) = d.ensurePlace start names ∨
      d.ensurePlace start names = (d, .error .notFound) ∧
        ((∃ along, d.makeAlong start (name :: before).reverse before = (along, .ok ()) ∧
            d.makeAlong start names (name :: before) = along.ensurePlace start names) ∨
          ∃ along fault, d.makeAlong start (name :: before).reverse before = (along, .error fault) ∧
            d.makeAlong start names (name :: before) = (along, .error fault)) := by
  rw [makeAlong]
  rcases ensurePlace_cases d start names with ⟨-, -, made, -⟩ | ⟨fault, failed⟩
  · left
    obtain ⟨result, done⟩ : ∃ e, d.ensurePlace start names = (e, .ok ()) :=
      ⟨_, Prod.ext rfl made⟩
    rw [done]
    exact ⟨nofun, rfl⟩
  · rw [failed]
    by_cases missing : fault = .notFound
    · subst missing
      refine .inr ⟨rfl, ?_⟩
      cases along : d.makeAlong start (name :: before).reverse before with
      | mk disk made =>
          cases made with
          | ok _ => exact .inl ⟨disk, rfl, rfl⟩
          | error fault => exact .inr ⟨disk, fault, rfl, rfl⟩
    · refine .inl ⟨fun same => missing (Except.error.inj (Prod.mk.inj same).2), ?_⟩
      split
      next same => exact absurd (Except.error.inj (Prod.mk.inj same).2) missing
      next => rfl

theorem isDirectory_of_makeAlong (made : (d.makeAlong start names before).2 = .ok ()) :
    (d.makeAlong start names before).1.isDirectory start names = true := by
  cases before with
  | nil => exact isDirectory_of_ensurePlace made
  | cons name before =>
      rcases makeAlong_cases d start names name before with
        ⟨-, same⟩ | ⟨-, ⟨along, -, same⟩ | ⟨along, fault, -, same⟩⟩
      · rw [same] at made ⊢
        exact isDirectory_of_ensurePlace made
      · rw [same] at made ⊢
        exact isDirectory_of_ensurePlace made
      · rw [same] at made
        cases made

/-- Who gets through the names passes the place before. -/
def Passes (start : Location) (names before : List String) : Prop :=
  ∀ (d : Disk) (loc : Location), before ≠ [] → names.foldlM d.step start = .ok loc →
    d.isDirectory start before.reverse = true

theorem passes_reverse (start : Location) (name : String) (before : List String) :
    Passes start (name :: before).reverse before := by
  intro d loc _ walked
  rw [List.reverse_cons, List.foldlM_append] at walked
  cases passed : before.reverse.foldlM d.step start with
  | error fault =>
      rw [passed] at walked
      cases walked
  | ok between =>
      rw [passed] at walked
      cases stepped : d.step between name with
      | error fault => simp [bind, Except.bind, stepped] at walked
      | ok next => exact isDirectory_iff.mpr ⟨between, passed, directory_of_step stepped⟩

/-- What could not be made cannot be made from what was made of it, either. -/
theorem makeAlong_again {along : Disk} {fault : IoFault} (passes : Passes start names before)
    (failed : d.makeAlong start names before = (along, .error fault)) :
    ∃ fault, (along.makeAlong start names before).2 = .error fault := by
  induction before generalizing names d along fault with
  | nil =>
      rcases ensurePlace_cases d start names with ⟨-, -, made, -⟩ | ⟨other, refused⟩
      · rw [makeAlong] at failed
        rw [failed] at made
        cases made
      · have same : along = d := by
          rw [makeAlong, refused] at failed
          exact (Prod.mk.inj failed).1.symm
        subst same
        exact ⟨fault, congrArg Prod.snd failed⟩
  | cons name before ih =>
      have still : ∀ {e along : Disk} {fault : IoFault},
          e.ensurePlace start names = (along, .error fault) → along = e := by
        intro e along fault refused
        rcases ensurePlace_cases e start names with ⟨-, -, made, -⟩ | ⟨other, same⟩
        · rw [refused] at made
          cases made
        · exact (Prod.mk.inj (refused.symm.trans same)).1
      rcases makeAlong_cases d start names name before with
        ⟨-, same⟩ | ⟨-, ⟨e, made, same⟩ | ⟨e, other, stuck, same⟩⟩
      · obtain rfl := still (same.symm.trans failed)
        exact ⟨fault, congrArg Prod.snd failed⟩
      · have refused := same.symm.trans failed
        obtain rfl := still refused
        have found : along.isDirectory start (name :: before).reverse = true := by
          have found := isDirectory_of_makeAlong (congrArg Prod.snd made)
          rwa [made] at found
        have passed := makeAlong_of_isDirectory found before
        rcases makeAlong_cases along start names name before with
          ⟨-, again⟩ | ⟨-, ⟨e, made, again⟩ | ⟨e, other, stuck, -⟩⟩
        · exact ⟨fault, congrArg Prod.snd (again.trans refused)⟩
        · obtain rfl := (Prod.mk.inj (passed.symm.trans made)).1
          exact ⟨fault, congrArg Prod.snd (again.trans refused)⟩
        · rw [passed] at stuck
          cases stuck
      · obtain rfl := (Prod.mk.inj (same.symm.trans failed)).1
        obtain ⟨other, stuck⟩ := ih (passes_reverse start name before) stuck
        rcases makeAlong_cases e start names name before with
          ⟨-, again⟩ | ⟨-, ⟨along, made, -⟩ | ⟨along, other, -, again⟩⟩
        · rcases ensurePlace_cases e start names with ⟨loc, walked, -, -⟩ | ⟨fault, refused⟩
          · -- Who gets through the names passes the place that could not be made.
            have found := passes e loc (List.cons_ne_nil _ _) walked
            rw [makeAlong_of_isDirectory found] at stuck
            cases stuck
          · exact ⟨fault, congrArg Prod.snd (again.trans refused)⟩
        · rw [made] at stuck
          cases stuck
        · exact ⟨other, congrArg Prod.snd again⟩

/-- A step on the spot can be left out. -/
theorem walk_filter {next : Location} (walked : names.foldlM d.step loc = .ok next) :
    (names.filter (· != ".")).foldlM d.step loc = .ok next := by
  induction names generalizing loc with
  | nil => exact walked
  | cons name rest ih =>
      rw [List.foldlM_cons] at walked
      cases stepped : d.step loc name with
      | error fault =>
          rw [stepped] at walked
          cases walked
      | ok between =>
          rw [stepped] at walked
          by_cases dot : name = "."
          · have same : between = loc := by
              rw [step_eq_advance stepped, advance, if_pos dot]
            rw [List.filter_cons_of_neg (by simp [dot])]
            exact same ▸ ih walked
          · rw [List.filter_cons_of_pos (by simp [dot]), List.foldlM_cons, stepped]
            exact ih walked

theorem passes_properNames (start : Location) (names : List String) :
    Passes start names (properNames names).dropLast.reverse := by
  intro d loc inner walked
  have proper : (properNames names).foldlM d.step start = .ok loc := by
    cases names with
    | nil => exact walked
    | cons name rest =>
        rw [properNames, List.foldlM_cons]
        rw [List.foldlM_cons] at walked
        cases stepped : d.step start name with
        | error fault =>
            rw [stepped] at walked
            cases walked
        | ok between =>
            rw [stepped] at walked
            exact walk_filter walked
  have filled : properNames names ≠ [] := by
    rintro empty
    rw [empty] at inner
    exact inner rfl
  rw [← List.dropLast_concat_getLast filled] at proper
  rw [List.reverse_reverse]
  rw [← List.reverse_reverse (properNames names).dropLast] at proper ⊢
  exact passes_reverse start _ _ d loc inner (by rwa [List.reverse_cons])

/-- The directory of a path is there, and the path leads to it. -/
def Opens (d : Disk) (path : String) : Prop :=
  path = "" ∨ flaw? path = none ∧ d.isDirectory (d.start path) (Disk.names path) = true

theorem start_congr (same : after.workplace = d.workplace) (path : String) :
    after.start path = d.start path := by
  unfold start
  rw [same]

theorem Keeps.opens (keeps : Keeps d after) (opens : d.Opens path) : after.Opens path := by
  refine opens.imp id fun ⟨sound, found⟩ => ⟨sound, ?_⟩
  rw [start_congr keeps.workplace]
  exact keeps.isDirectory found

/-- A directory that is there is not made again. -/
theorem makeDirectories_of_opens (opens : d.Opens path) : d.makeDirectories path = (d, .ok ()) := by
  unfold makeDirectories
  rcases opens with rfl | ⟨sound, found⟩
  · rfl
  · split
    · rfl
    · rw [sound]
      exact makeAlong_of_isDirectory found _

theorem opens_makeDirectories (made : (d.makeDirectories path).2 = .ok ()) :
    (d.makeDirectories path).1.Opens path := by
  have same := (extends_makeDirectories d path).workplace
  unfold Opens
  rw [start_congr same]
  unfold makeDirectories at made ⊢
  split at made
  next empty => exact .inl (String.isEmpty_iff.mp empty)
  next filled =>
    right
    rw [if_neg filled]
    split at made
    next => cases made
    next sound => exact ⟨sound, isDirectory_of_makeAlong made⟩

/-- A directory that cannot be made cannot be made later, either. -/
theorem makeDirectories_again {fault : IoFault} (failed : (d.makeDirectories path).2 = .error fault) :
    ∃ fault, ((d.makeDirectories path).1.makeDirectories path).2 = .error fault := by
  have same := (extends_makeDirectories d path).workplace
  generalize made : d.makeDirectories path = result at *
  obtain ⟨along, outcome⟩ := result
  change outcome = .error fault at failed
  subst failed
  unfold makeDirectories at made ⊢
  split at made
  next => cases made
  next filled =>
    rw [if_neg filled]
    cases flaw : flaw? path with
    | some other => exact ⟨other, rfl⟩
    | none =>
        rw [flaw] at made
        rw [start_congr same]
        exact makeAlong_again (passes_properNames _ _) made

theorem walk_of_opens (opens : d.Opens path) :
    (Disk.names path).foldlM d.step (d.start path) = .ok (d.place path) := by
  rcases opens with rfl | ⟨-, found⟩
  · rfl
  · obtain ⟨loc, walked, -⟩ := isDirectory_iff.mp found
    rw [walked]
    exact congrArg Except.ok (foldlM_step walked)

theorem flaw?_of_join {name : String} (plain : '/' ∉ name.toList) (filled : dir ≠ "")
    (sound : flaw? (ImageStore.join dir name) = none) : flaw? dir = none := by
  have relative : name.toList.head? ≠ some '/' := fun first => plain (List.mem_of_head? first)
  obtain ⟨rest, joined⟩ : ∃ rest, ImageStore.join dir name = dir ++ rest := by
    unfold ImageStore.join
    rw [if_neg relative]
    split
    · exact ⟨name, rfl⟩
    · exact ⟨"/" ++ name, String.append_assoc⟩
  rw [joined] at sound
  unfold flaw? at sound ⊢
  split at sound
  next => cases sound
  next whole =>
    split at sound
    next => cases sound
    next =>
      split at sound
      next => cases sound
      next short =>
        rw [if_neg, if_neg (by simpa using filled), if_neg]
        · rw [String.utf8ByteSize_append] at short
          omega
        · intro zero
          apply whole
          simp only [List.contains_eq_mem, decide_eq_true_eq] at zero ⊢
          rw [String.toList_append]
          exact List.mem_append_left _ zero

section Join

variable {name : String} (plain : '/' ∉ name.toList) (proper : name ≠ "")

include plain proper

/-- From a directory that is there, a name is one more step. -/
theorem resolve_join (opens : d.Opens dir) : d.resolve (ImageStore.join dir name) =
    match flaw? (ImageStore.join dir name) with
    | some fault => .error fault
    | none => d.step (d.place dir) name := by
  unfold resolve
  rw [names_join dir plain proper, start_join d dir plain, List.foldlM_append, walk_of_opens opens]
  cases flaw? (ImageStore.join dir name) with
  | some fault => rfl
  | none =>
      change [name].foldlM d.step (d.place dir) = d.step (d.place dir) name
      rw [List.foldlM_cons]
      exact bind_pure _

/-- Nobody gets into a directory that is not there. -/
theorem opens_of_resolve (resolved : d.resolve (ImageStore.join dir name) = .ok loc) :
    d.Opens dir := by
  unfold resolve at resolved
  split at resolved
  next => cases resolved
  next sound =>
    rw [names_join dir plain proper, start_join d dir plain, List.foldlM_append] at resolved
    by_cases empty : dir = ""
    · exact .inl empty
    · refine .inr ⟨flaw?_of_join plain empty sound, ?_⟩
      cases walked : (Disk.names dir).foldlM d.step (d.start dir) with
      | error fault =>
          rw [walked] at resolved
          cases resolved
      | ok between =>
          rw [walked] at resolved
          cases stepped : d.step between name with
          | error fault => simp [bind, Except.bind, stepped] at resolved
          | ok next => exact isDirectory_iff.mpr ⟨between, walked, directory_of_step stepped⟩

end Join

section Leads

/-- A path leads to a place where a file can be. -/
def Leads (d : Disk) (path : String) (loc : Location) : Prop :=
  d.resolve path = .ok loc ∧ endsWithSlash path = false

theorem Leads.place (leads : d.Leads path loc) : d.place path = loc :=
  (resolve_eq_place leads.1).symm

theorem Keeps.leads (keeps : Keeps d after) (leads : d.Leads path loc) : after.Leads path loc := by
  obtain ⟨resolved, plain⟩ := leads
  refine ⟨?_, plain⟩
  unfold resolve at resolved ⊢
  split at resolved
  next => cases resolved
  next =>
    rw [start_congr keeps.workplace]
    exact keeps.walk resolved

theorem leads_of_write {bytes : ByteArray} (written : d.write path bytes = .ok after) :
    d.Leads path (d.place path) := by
  unfold write at written
  cases resolved : d.resolve path with
  | error fault =>
      rw [resolved] at written
      cases written
  | ok target =>
      obtain rfl := resolve_eq_place resolved
      refine ⟨resolved, ?_⟩
      simp only [resolved, bind, Except.bind] at written
      split at written
      next => cases written
      next plain => exact Bool.not_eq_true _ ▸ plain

theorem Leads.stat {bytes : ByteArray} (leads : d.Leads path loc)
    (at_ : d.node? loc = some (.file bytes)) : d.stat path = .ok (loc, .file bytes) := by
  unfold Disk.stat
  rw [leads.1]
  simp only [bind, Except.bind, at_, leads.2, Bool.false_eq_true, if_false]

/-- Nothing is in the way of removing a file that a path leads to. -/
theorem Leads.removable (leads : d.Leads path loc) : d.Removable path := by
  rintro ⟨bytes, at_⟩
  rw [leads.place] at at_
  refine ⟨d.erase loc, ?_⟩
  unfold remove
  rw [leads.stat at_]
  rfl

/-- What was written is found again by the same path. -/
theorem stat_write {bytes : ByteArray} (written : d.write path bytes = .ok after) :
    after.stat path = .ok (d.place path, .file bytes) := by
  have leads := leads_of_write written
  obtain ⟨free, rfl⟩ := write_eq_put written
  apply ((keeps_put free _).leads leads).stat
  rw [node?_put_of_ne (ne_nil_of_node? free), if_pos rfl]

theorem read_write {bytes : ByteArray} (written : d.write path bytes = .ok after) :
    after.read path = .ok bytes := by
  unfold Disk.read
  rw [stat_write written]
  rfl

end Leads

end Disk

theorem ImageStore.not_hasFile_of_leads {store : ImageStore} {d : Disk} {identity : String}
    {loc : Location} (leads : d.Leads (store.path identity) loc) :
    ¬ (store.discard d identity).HasFile loc := by
  have gone := ImageStore.not_hasFile_discard leads.removable
  rwa [ImageStore.spot, leads.place] at gone

end FractalBreeder
