import FractalBreeder.Heredity.Genome
import FractalBreeder.Proofs.Storage.Places
import FractalBreeder.Settings.Render

/-!
What the files on a disk hold. Each operation changes the file in the place of its path and no other
one. Where the extension of a store is a bare one, two identities have two places.
-/
namespace FractalBreeder

def Node.content? : Node → Option ByteArray
  | .file bytes => some bytes
  | .directory => none

namespace Disk

variable {d after : Disk} {path : String} {loc other : Location}

/-- What the file in a place holds. -/
def file? (d : Disk) (loc : Location) : Option ByteArray := (d.node? loc).bind Node.content?

theorem file?_eq_some_iff {bytes : ByteArray} :
    d.file? loc = some bytes ↔ d.node? loc = some (.file bytes) := by
  unfold file?
  cases d.node? loc with
  | none => exact ⟨nofun, nofun⟩
  | some node =>
      cases node with
      | file held => simp [Node.content?]
      | directory => simp [Node.content?]

theorem file?_write {bytes : ByteArray} (written : d.write path bytes = .ok after) (loc : Location) :
    after.file? loc = if loc = d.place path then some bytes else d.file? loc := by
  obtain ⟨free, rfl⟩ := write_eq_put written
  rw [file?, node?_put_of_ne (ne_nil_of_node? free), apply_ite (Option.bind · Node.content?)]
  rfl

theorem file?_remove (removed : d.remove path = .ok after) (loc : Location) :
    after.file? loc = if loc = d.place path then none else d.file? loc := by
  obtain ⟨free, rfl⟩ := remove_eq_erase removed
  rw [file?, node?_erase_of_ne (ne_nil_of_node? free), apply_ite (Option.bind · Node.content?)]
  rfl

theorem file?_read {bytes : ByteArray} (read : d.read path = .ok bytes) :
    d.file? (d.place path) = some bytes ∧ ∃ after, d.remove path = .ok after := by
  unfold Disk.read at read
  cases found : d.stat path with
  | error fault =>
      rw [found] at read
      cases read
  | ok result =>
      obtain ⟨target, node⟩ := result
      obtain ⟨rfl, at_⟩ := stat_eq_node? found
      simp only [found, bind, Except.bind] at read
      cases node with
      | file held =>
          cases read
          refine ⟨file?_eq_some_iff.mpr at_, d.erase (d.place path), ?_⟩
          simp only [remove, found, bind, Except.bind]
      | directory => cases read

theorem file?_makeDirectories (d : Disk) (path : String) (loc : Location) :
    (d.makeDirectories path).1.file? loc = d.file? loc := by
  rcases (extends_makeDirectories d path).nodes loc with same | ⟨free, made⟩
  · rw [file?, file?, same]
  · rw [file?, file?, free, made]
    rfl

end Disk

namespace ImageStore

variable {store : ImageStore} {d : Disk} {identity : String}

/-- Discarding a picture makes no file. -/
theorem file?_of_discard {loc : Location} {bytes : ByteArray}
    (held : (store.discard d identity).file? loc = some bytes) : d.file? loc = some bytes := by
  unfold discard at held
  cases removed : d.remove (store.path identity) with
  | error fault =>
      rw [removed] at held
      exact held
  | ok after =>
      rw [removed] at held
      change after.file? loc = some bytes at held
      rw [Disk.file?_remove removed] at held
      split at held
      · cases held
      · exact held

/-- A picture that can be read is gone once it is discarded. -/
theorem file?_discard_of_read {bytes : ByteArray} (read : d.read (store.path identity) = .ok bytes) :
    d.file? (store.spot d identity) = some bytes ∧
      (store.discard d identity).file? (store.spot d identity) = none := by
  obtain ⟨held, after, removed⟩ := Disk.file?_read read
  refine ⟨held, ?_⟩
  have same : store.discard d identity = after := by
    rw [discard, removed]
    rfl
  rw [same, Disk.file?_remove removed]
  exact if_pos rfl

end ImageStore

namespace Text

variable {isCut : Char → Bool}

theorem split_ne_nil (isCut : Char → Bool) (cs : List Char) : split isCut cs ≠ [] := by
  cases cs with
  | nil => exact nofun
  | cons c rest =>
      unfold split
      split
      · exact nofun
      · split
        · exact nofun
        · exact nofun

/-- A text without cuts is one piece. -/
theorem split_of_forall {cs : List Char} (whole : ∀ c ∈ cs, isCut c = false) :
    split isCut cs = [cs] := by
  induction cs with
  | nil => rfl
  | cons c rest ih =>
      unfold split
      rw [whole c List.mem_cons_self, ih fun c member => whole c (List.mem_cons_of_mem _ member)]
      rfl

theorem split_append_cons {c : Char} (cut : isCut c = true) (cs rest : List Char) :
    split isCut (cs ++ c :: rest) = split isCut cs ++ split isCut rest := by
  induction cs with
  | nil =>
      change split isCut (c :: rest) = [] :: split isCut rest
      rw [split, if_pos cut]
  | cons first cs ih =>
      rw [List.cons_append, split, split, ih]
      split
      · rfl
      · cases pieces : split isCut cs with
        | nil => exact absurd pieces (split_ne_nil isCut cs)
        | cons piece others => rfl

end Text

namespace Disk

/-- A way is the one up to a slash, and the one behind it. -/
theorem names_slash {path : String} {before behind : List Char}
    (slash : path.toList = before ++ '/' :: behind) :
    names path = names (String.ofList before) ++ names (String.ofList behind) := by
  unfold names
  rw [slash, Text.split_append_cons (by decide), List.filter_append, List.map_append,
    String.toList_ofList, String.toList_ofList]

theorem names_plain {name : String} (plain : '/' ∉ name.toList) (proper : name ≠ "") :
    names name = [name] := by
  have whole : ∀ c ∈ name.toList, decide (c = '/') = false := by
    intro c member
    exact decide_eq_false fun slash => plain (slash ▸ member)
  have filled : name.toList ≠ [] := fun empty => proper (String.toList_eq_nil_iff.mp empty)
  unfold names
  rw [Text.split_of_forall whole]
  simp [filled]

/-- A name without slashes behind a directory is the last one of the way. -/
theorem names_join (dir : String) {name : String} (plain : '/' ∉ name.toList) (proper : name ≠ "") :
    names (ImageStore.join dir name) = names dir ++ [name] := by
  have relative : name.toList.head? ≠ some '/' := fun first => plain (List.mem_of_head? first)
  have filled : name.toList ≠ [] := fun empty => proper (String.toList_eq_nil_iff.mp empty)
  have behind : names (String.ofList name.toList) = [name] := by
    rw [String.ofList_toList]
    exact names_plain plain proper
  unfold ImageStore.join
  rw [if_neg relative]
  split
  next joined =>
    rcases Bool.or_eq_true_iff.mp joined with empty | ended
    · obtain rfl := String.isEmpty_iff.mp empty
      rw [String.empty_append, names_plain plain proper]
      rfl
    · unfold endsWithSlash at ended
      obtain ⟨before, slash⟩ := List.getLast?_eq_some_iff.mp (beq_iff_eq.mp ended)
      have joined : (dir ++ name).toList = before ++ '/' :: name.toList := by
        rw [String.toList_append, slash, List.append_assoc]
        rfl
      rw [names_slash joined, names_slash slash, behind]
      have none : names (String.ofList []) = [] := rfl
      rw [none, List.append_nil]
  next =>
    have joined : (dir ++ "/" ++ name).toList = dir.toList ++ '/' :: name.toList := by
      simp
    rw [names_slash joined, behind, String.ofList_toList]

/-- A path inside a directory starts where the directory does. -/
theorem start_join (d : Disk) (dir : String) {name : String} (plain : '/' ∉ name.toList) :
    d.start (ImageStore.join dir name) = d.start dir := by
  have relative : name.toList.head? ≠ some '/' := fun first => plain (List.mem_of_head? first)
  unfold ImageStore.join
  rw [if_neg relative]
  unfold start
  by_cases empty : dir = ""
  · subst empty
    simp [relative]
  · have filled : dir.toList ≠ [] := fun nothing => empty (String.toList_eq_nil_iff.mp nothing)
    obtain ⟨first, rest, chars⟩ := List.exists_cons_of_ne_nil filled
    split
    · simp [chars]
    · simp [chars]

/-- The place of a name inside a directory. -/
theorem place_join (d : Disk) (dir : String) {name : String} (plain : '/' ∉ name.toList)
    (proper : name ≠ "") (other : name ≠ "." ∧ name ≠ "..") :
    d.place (ImageStore.join dir name) = name :: d.place dir := by
  rw [place, place, names_join dir plain proper, start_join d dir plain, List.foldl_append]
  rw [List.foldl_cons, List.foldl_nil, advance, if_neg other.1, if_neg other.2]

end Disk

namespace Blake3

theorem hexDigit_ne_slash (n : UInt32) : hexDigit n ≠ '/' := by
  have small : (n % 16).toNat < 16 := by
    rw [UInt32.toNat_mod]
    exact Nat.mod_lt _ (by decide)
  have digits : ∀ m < 16, (Nat.toDigits 16 m).headD '0' ≠ '/' := by decide
  exact digits _ small

theorem slash_not_mem_hex (bytes : List UInt8) : '/' ∉ hex bytes := by
  intro member
  obtain ⟨word, -, member⟩ := List.mem_flatMap.mp member
  obtain ⟨n, -, digit⟩ := List.mem_map.mp member
  exact hexDigit_ne_slash n digit

end Blake3

namespace ImageStore

/-- An extension without slashes, as the check of the settings demands. -/
def IsPlain (store : ImageStore) : Prop := '/' ∉ store.extension.toList

theorem isPlain_of_isBareExtension {store : ImageStore}
    (bare : RenderSettings.isBareExtension store.extension = true) : store.IsPlain := by
  intro slash
  obtain ⟨-, all⟩ := Bool.and_eq_true_iff.mp bare
  have clash := List.all_eq_true.mp all '/' slash
  revert clash
  decide

variable {store : ImageStore}

/-- The name of a picture's file is a plain one. -/
theorem proper_fileName (plain : store.IsPlain) (genome : Genome) :
    '/' ∉ (genome.identity ++ "." ++ store.extension).toList ∧
      genome.identity ++ "." ++ store.extension ≠ "" ∧
      genome.identity ++ "." ++ store.extension ≠ "." ∧
      genome.identity ++ "." ++ store.extension ≠ ".." := by
  have chars : (genome.identity ++ "." ++ store.extension).toList =
      "fractal_".toList ++ ((Blake3.hex genome.signature.toUTF8.toList).take 16 ++
        '.' :: store.extension.toList) := by
    simp [Genome.identity]
  refine ⟨?_, ?_, ?_, ?_⟩
  · rw [chars]
    intro slash
    rcases List.mem_append.mp slash with slash | slash
    · revert slash
      decide
    · rcases List.mem_append.mp slash with slash | slash
      · exact Blake3.slash_not_mem_hex _ (List.mem_of_mem_take slash)
      · rcases List.mem_cons.mp slash with slash | slash
        · revert slash
          decide
        · exact plain slash
  · intro empty
    rw [empty] at chars
    simp at chars
  · intro dot
    rw [dot] at chars
    simp at chars
  · intro dots
    rw [dots] at chars
    simp at chars

/-- The file of a picture is right in the directory of the store. -/
theorem spot_eq (plain : store.IsPlain) (d : Disk) (genome : Genome) :
    store.spot d genome.identity =
      (genome.identity ++ "." ++ store.extension) :: d.place store.dir := by
  obtain ⟨whole, filled, other⟩ := proper_fileName plain genome
  exact Disk.place_join d store.dir whole filled other

/-- Two identities have two files. -/
theorem identity_eq_of_spot (plain : store.IsPlain) {d : Disk} {first second : Genome}
    (same : store.spot d first.identity = store.spot d second.identity) :
    first.identity = second.identity := by
  rw [spot_eq plain, spot_eq plain] at same
  have names := (List.cons.inj same).1
  rw [String.append_assoc, String.append_assoc] at names
  exact String.append_left_inj _ |>.mp names

end ImageStore

end FractalBreeder
