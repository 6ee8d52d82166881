import FractalBreeder.Proofs.Storage.Directories

/-!
Two disks that differ only in the places of some pictures. Whatever is done with another picture goes
the same way on both, and they differ in no other place afterwards.
-/
namespace FractalBreeder

open Disk (Keeps)

theorem Disk.keeps_write {d after : Disk} {path : String} {bytes : ByteArray}
    (written : d.write path bytes = .ok after) : Keeps d after := by
  obtain ⟨free, rfl⟩ := Disk.write_eq_put written
  exact Disk.keeps_put free _

theorem Disk.keeps_remove {d after : Disk} {path : String} (removed : d.remove path = .ok after) :
    Keeps d after := by
  obtain ⟨free, rfl⟩ := Disk.remove_eq_erase removed
  exact Disk.keeps_erase free

namespace ImageStore

variable {store : ImageStore} {d e after : Disk} {foreign other : Location → Prop}

theorem workplace_ensureDir (store : ImageStore) (d : Disk) :
    (store.ensureDir d).1.workplace = d.workplace :=
  (Disk.extends_makeDirectories d store.dir).workplace

theorem ensureDir_of_opens (opens : d.Opens store.dir) : store.ensureDir d = (d, .ok ()) :=
  Disk.makeDirectories_of_opens opens

theorem opens_ensureDir (made : (store.ensureDir d).2 = .ok ()) :
    (store.ensureDir d).1.Opens store.dir :=
  Disk.opens_makeDirectories made

theorem keeps_discard (store : ImageStore) (d : Disk) (identity : String) :
    Keeps d (store.discard d identity) := by
  unfold discard
  cases removed : d.remove (store.path identity) with
  | error fault => exact .refl d
  | ok after => exact Disk.keeps_remove removed

theorem node?_discard_of_ne {identity : String} {loc : Location}
    (apart : loc ≠ store.spot d identity) : (store.discard d identity).node? loc = d.node? loc := by
  unfold discard
  cases removed : d.remove (store.path identity) with
  | error fault => rfl
  | ok after =>
      obtain ⟨free, rfl⟩ := Disk.remove_eq_erase removed
      change (d.erase _).node? loc = _
      rw [Disk.node?_erase_of_ne (Disk.ne_nil_of_node? free)]
      exact if_neg apart

/-- Where nobody gets into the directory, nothing can be discarded. -/
theorem discard_of_failed (plain : store.IsPlain) {fault : IoFault}
    (failed : (store.ensureDir d).2 = .error fault) (genome : Genome) :
    store.discard d genome.identity = d := by
  obtain ⟨whole, filled, -⟩ := proper_fileName plain genome
  unfold discard
  cases removed : d.remove (store.path genome.identity) with
  | error fault => rfl
  | ok after =>
      cases resolved : d.resolve (store.path genome.identity) with
      | error fault =>
          simp [Disk.remove, Disk.stat, resolved, bind, Except.bind] at removed
      | ok loc =>
          have opens := Disk.opens_of_resolve whole filled resolved
          rw [ensureDir_of_opens opens] at failed
          cases failed

/-- Disks with the directory of the store, with the same nodes in all but some places of pictures. -/
structure Matched (store : ImageStore) (foreign : Location → Prop) (d e : Disk) : Prop where
  workplace : e.workplace = d.workplace
  left : d.Opens store.dir
  right : e.Opens store.dir
  nodes : ∀ loc, ¬ foreign loc → e.node? loc = d.node? loc
  inside : ∀ loc, foreign loc → ∃ name, loc = name :: d.place store.dir

namespace Matched

variable (matched : Matched store foreign d e)

include matched

theorem place (path : String) : e.place path = d.place path := Disk.place_congr matched.workplace path

/-- A change on one disk in places where the other may differ. -/
theorem change (keeps : Keeps d after)
    (elsewhere : ∀ loc, ¬ foreign loc → after.node? loc = d.node? loc) :
    Matched store foreign after e where
  workplace := matched.workplace.trans keeps.workplace.symm
  left := keeps.opens matched.left
  right := matched.right
  nodes loc own := (matched.nodes loc own).trans (elsewhere loc own).symm
  inside loc apart := by
    rw [Disk.place_congr keeps.workplace]
    exact matched.inside loc apart

/-- The disks may differ in more places. -/
theorem mono (more : ∀ loc, foreign loc → other loc)
    (inside : ∀ loc, other loc → ∃ name, loc = name :: d.place store.dir) :
    Matched store other d e where
  workplace := matched.workplace
  left := matched.left
  right := matched.right
  nodes loc own := matched.nodes loc fun apart => own (more loc apart)
  inside := inside

/-- The same change on both disks. -/
theorem both {after' : Disk} (keeps : Keeps d after) (keeps' : Keeps e after')
    (nodes : ∀ loc, ¬ foreign loc → after'.node? loc = after.node? loc) :
    Matched store foreign after after' where
  workplace := keeps'.workplace.trans (matched.workplace.trans keeps.workplace.symm)
  left := keeps.opens matched.left
  right := keeps'.opens matched.right
  nodes := nodes
  inside loc apart := by
    rw [Disk.place_congr keeps.workplace]
    exact matched.inside loc apart

theorem put {loc : Location} (free : d.node? loc ≠ some .directory)
    (free' : e.node? loc ≠ some .directory) (node : Node) :
    Matched store foreign (d.put loc node) (e.put loc node) := by
  refine matched.both (Disk.keeps_put free node) (Disk.keeps_put free' node) fun other own => ?_
  rw [Disk.node?_put_of_ne (Disk.ne_nil_of_node? free),
    Disk.node?_put_of_ne (Disk.ne_nil_of_node? free'), matched.nodes other own]

theorem erase {loc : Location} (free : d.node? loc ≠ some .directory)
    (free' : e.node? loc ≠ some .directory) :
    Matched store foreign (d.erase loc) (e.erase loc) := by
  refine matched.both (Disk.keeps_erase free) (Disk.keeps_erase free') fun other own => ?_
  rw [Disk.node?_erase_of_ne (Disk.ne_nil_of_node? free),
    Disk.node?_erase_of_ne (Disk.ne_nil_of_node? free'), matched.nodes other own]

variable (plain : store.IsPlain) (genome : Genome)

include plain

theorem resolve : e.resolve (store.path genome.identity) = d.resolve (store.path genome.identity) := by
  obtain ⟨whole, filled, -⟩ := proper_fileName plain genome
  have own : ¬ foreign (d.place store.dir) := by
    intro apart
    obtain ⟨name, same⟩ := matched.inside _ apart
    exact absurd (congrArg List.length same) (by simp)
  unfold path
  rw [Disk.resolve_join whole filled matched.right, Disk.resolve_join whole filled matched.left,
    matched.place store.dir]
  unfold Disk.step
  rw [matched.nodes _ own]

/-- What is found of a picture is the same. -/
theorem stat (own : ¬ foreign (store.spot d genome.identity)) :
    e.stat (store.path genome.identity) = d.stat (store.path genome.identity) := by
  unfold Disk.stat
  rw [matched.resolve plain genome]
  cases resolved : d.resolve (store.path genome.identity) with
  | error fault => rfl
  | ok loc =>
      have here : loc = store.spot d genome.identity := Disk.resolve_eq_place resolved
      simp only [bind, Except.bind]
      rw [matched.nodes loc (here ▸ own)]

/-- A picture is written on both disks or on none. -/
theorem write (own : ¬ foreign (store.spot d genome.identity)) (bytes : ByteArray) :
    (∃ fault, d.write (store.path genome.identity) bytes = .error fault ∧
        e.write (store.path genome.identity) bytes = .error fault) ∨
      ∃ after after', d.write (store.path genome.identity) bytes = .ok after ∧
        e.write (store.path genome.identity) bytes = .ok after' ∧
        Matched store foreign after after' := by
  unfold Disk.write
  rw [matched.resolve plain genome]
  cases resolved : d.resolve (store.path genome.identity) with
  | error fault => exact .inl ⟨fault, rfl, rfl⟩
  | ok loc =>
      have here : loc = store.spot d genome.identity := Disk.resolve_eq_place resolved
      have same := matched.nodes loc (here ▸ own)
      simp only [bind, Except.bind]
      split
      · exact .inl ⟨_, rfl, rfl⟩
      · rw [same]
        split
        · exact .inl ⟨_, rfl, rfl⟩
        next free => exact .inr ⟨_, _, rfl, rfl, matched.put free (same ▸ free) _⟩

/-- A picture is discarded on both disks, where it is there, or is one that may be on one only. -/
theorem discard : Matched store foreign (store.discard d genome.identity)
    (store.discard e genome.identity) := by
  by_cases own : foreign (store.spot d genome.identity)
  · refine matched.both (store.keeps_discard d _) (store.keeps_discard e _) fun loc apart => ?_
    have elsewhere : loc ≠ store.spot d genome.identity := fun here => apart (here ▸ own)
    rw [node?_discard_of_ne elsewhere, node?_discard_of_ne, matched.nodes loc apart]
    rwa [spot_congr store matched.workplace]
  · unfold ImageStore.discard Disk.remove
    rw [matched.stat plain genome own]
    cases found : d.stat (store.path genome.identity) with
    | error fault => exact matched
    | ok result =>
        obtain ⟨loc, node⟩ := result
        obtain ⟨here, at_⟩ := Disk.stat_eq_node? found
        cases node with
        | directory => exact matched
        | file bytes =>
            have free : d.node? loc ≠ some .directory := by
              rw [at_]
              nofun
            exact matched.erase free (matched.nodes loc (here ▸ own) ▸ free)

end Matched

end ImageStore

end FractalBreeder
