import FractalBreeder.Proofs.Document.Saving
import FractalBreeder.Proofs.Population.Timeline

/-!
What a population loses when it is saved and loaded: the pictures, and nothing else that anything
asked of it later could show. Only a file that is nested too deeply cannot be loaded.
-/
namespace FractalBreeder

open Document (Writable within_fields depth_record_le)
open Draws (Ensures ensures_pure)

theorem Picks.faithful : Document.Faithful toDocument ofDocument? (fun _ => True) where
  of_save p _ := by
    have below : p.bits.toNat < UInt16.size := p.bits.toNat_lt
    refine ⟨Document.writable_int (below.trans (by decide)), ?_⟩
    simp [toDocument, ofDocument?, Document.natBelow?_int below]
  of_read _ _ _ := ⟨Nat.zero_le _, fun _ => trivial⟩

namespace Population

/-- What holds of every fractal of every generation. -/
structure Each (P : Fractal → Prop) (p : Population) : Prop where
  current : ∀ f ∈ p.current, P f
  past : ∀ g ∈ p.past, ∀ f ∈ g.members, P f
  future : ∀ g ∈ p.future, ∀ f ∈ g.members, P f

def numberToDocument (number : UInt32) : Document := .int number.toNat

theorem faithful_number : Document.Faithful numberToDocument numberOfDocument? (fun _ => True) where
  of_save number _ := by
    have below : number.toNat < UInt32.size := number.toNat_lt
    refine ⟨Document.writable_int (below.trans (by decide)), ?_⟩
    simp [numberToDocument, numberOfDocument?, Document.natBelow?_int below]
  of_read _ _ _ := ⟨Nat.zero_le _, fun _ => trivial⟩

theorem faithful_list : Document.Faithful listToDocument listOfDocument?
    (fun fractals => ∀ f ∈ fractals, f.IsFinite ∧ f.blank = f) :=
  Fractal.faithful.list

theorem generation_fields_of_read {d : Document} {g : Generation Fractal}
    (read : generationOfDocument? d = some g) :
    ∃ number fractals, d.fields? ["number", "fractals"] = some [number, fractals] ∧
      numberOfDocument? number = some g.number ∧ listOfDocument? fractals = some g.members := by
  obtain ⟨parts, fields, read⟩ := Option.bind_eq_some_iff.mp read
  split at read
  next number fractals =>
    obtain ⟨n, isNumber, read⟩ := Option.bind_eq_some_iff.mp read
    obtain ⟨fs, isList, read⟩ := Option.bind_eq_some_iff.mp read
    obtain rfl := Option.some.inj read
    exact ⟨number, fractals, fields, isNumber, isList⟩
  next => cases read

theorem faithful_generation : Document.Faithful generationToDocument generationOfDocument?
    (fun g => ∀ f ∈ g.members, f.IsFinite ∧ f.blank = f) where
  of_save g fit := by
    obtain ⟨writable, read⟩ := faithful_number.of_save g.number trivial
    obtain ⟨writable', read'⟩ := faithful_list.of_save g.members fit
    constructor
    · exact .record (List.forall_mem_cons.mpr ⟨writable, List.forall_mem_singleton.mpr writable'⟩)
    · change (do pure (Generation.mk (← numberOfDocument? (numberToDocument g.number))
        (← listOfDocument? (listToDocument g.members)))) = some g
      rw [read, read']
      rfl
  of_read d g read := by
    obtain ⟨number, fractals, fields, read, read'⟩ := generation_fields_of_read read
    obtain ⟨depth, -⟩ := faithful_number.of_within (within_fields fields (by simp)) read
    obtain ⟨depth', fit⟩ := faithful_list.of_within (within_fields fields (by simp)) read'
    exact ⟨depth_record_le (Nat.zero_lt_of_lt depth)
      (List.forall_mem_cons.mpr ⟨depth, List.forall_mem_singleton.mpr depth'⟩), fit⟩

theorem faithful_stack : Document.Faithful stackToDocument stackOfDocument?
    (fun stack => ∀ g ∈ stack, ∀ f ∈ g.members, f.IsFinite ∧ f.blank = f) := by
  have reversed := faithful_generation.list.as List.reverse_reverse List.reverse_reverse
  have read : stackOfDocument? =
      fun d => (do pure (← (do (← d.list?).mapM generationOfDocument?)).reverse) := by
    funext d
    simp [stackOfDocument?, Option.bind_assoc]
  simp only [List.mem_reverse] at reversed
  rw [read]
  exact reversed

theorem fields_of_read {d : Document} {p : Population} (read : ofDocument? d = some p) :
    ∃ number current picks past future,
      d.fields? ["generation", "current", "selected", "past", "future"] =
        some [number, current, picks, past, future] ∧
      numberOfDocument? number = some p.number ∧ listOfDocument? current = some p.current ∧
      Picks.ofDocument? picks = some p.picks ∧ stackOfDocument? past = some p.past ∧
      stackOfDocument? future = some p.future := by
  obtain ⟨parts, fields, read⟩ := Option.bind_eq_some_iff.mp read
  split at read
  next number current picks past future =>
    obtain ⟨n, isNumber, read⟩ := Option.bind_eq_some_iff.mp read
    obtain ⟨fs, isList, read⟩ := Option.bind_eq_some_iff.mp read
    obtain ⟨ps, isPicks, read⟩ := Option.bind_eq_some_iff.mp read
    obtain ⟨before, isPast, read⟩ := Option.bind_eq_some_iff.mp read
    obtain ⟨after, isFuture, read⟩ := Option.bind_eq_some_iff.mp read
    obtain rfl := Option.some.inj read
    exact ⟨number, current, picks, past, future, fields, isNumber, isList, isPicks, isPast, isFuture⟩
  next => cases read

theorem faithful : Document.Faithful toDocument ofDocument? (Each fun f => f.IsFinite ∧ f.blank = f) where
  of_save p each := by
    obtain ⟨writableNumber, readNumber⟩ := faithful_number.of_save p.number trivial
    obtain ⟨writableList, readList⟩ := faithful_list.of_save p.current each.current
    obtain ⟨writablePicks, readPicks⟩ := Picks.faithful.of_save p.picks trivial
    obtain ⟨writablePast, readPast⟩ := faithful_stack.of_save p.past each.past
    obtain ⟨writableFuture, readFuture⟩ := faithful_stack.of_save p.future each.future
    constructor
    · refine .record fun field member => ?_
      simp only [List.mem_cons, List.not_mem_nil, or_false] at member
      rcases member with rfl | rfl | rfl | rfl | rfl
      · exact writableNumber
      · exact writableList
      · exact writablePicks
      · exact writablePast
      · exact writableFuture
    · change (do
        let number ← numberOfDocument? (numberToDocument p.number)
        let current ← listOfDocument? (listToDocument p.current)
        let picks ← Picks.ofDocument? p.picks.toDocument
        let past ← stackOfDocument? (stackToDocument p.past)
        let future ← stackOfDocument? (stackToDocument p.future)
        pure ({ number, current, picks, past, future } : Population)) = some p
      rw [readNumber, readList, readPicks, readPast, readFuture]
      rfl
  of_read d p read := by
    obtain ⟨number, current, picks, past, future, fields, readNumber, readList, readPicks, readPast,
      readFuture⟩ := fields_of_read read
    obtain ⟨depthNumber, -⟩ := faithful_number.of_within (within_fields fields (by simp)) readNumber
    obtain ⟨depthList, fit⟩ := faithful_list.of_within (within_fields fields (by simp)) readList
    obtain ⟨depthPicks, -⟩ := Picks.faithful.of_within (within_fields fields (by simp)) readPicks
    obtain ⟨depthPast, fit'⟩ := faithful_stack.of_within (within_fields fields (by simp)) readPast
    obtain ⟨depthFuture, fit''⟩ :=
      faithful_stack.of_within (within_fields fields (by simp)) readFuture
    constructor
    · refine depth_record_le (Nat.zero_lt_of_lt depthList) fun field member => ?_
      simp only [List.mem_cons, List.not_mem_nil, or_false] at member
      rcases member with rfl | rfl | rfl | rfl | rfl
      · exact depthNumber
      · exact depthList
      · exact depthPicks
      · exact depthPast
      · exact depthFuture
    · exact fun writable => ⟨fit writable, fit' writable, fit'' writable⟩

end Population

section Maps

variable {α β : Type} (f : α → β)

def Generation.map (g : Generation α) : Generation β := ⟨g.number, g.members.map f⟩

namespace History

/-- The same history of other members. -/
def map (h : History α) : History β where
  number := h.number
  current := h.current.map f
  picks := h.picks
  past := h.past.map (·.map f)
  future := h.future.map (·.map f)

theorem picked_map (h : History α) : (h.map f).picked = h.picked.map f := by
  unfold picked map
  rw [List.map_filterMap]
  simp only [List.getElem?_map]

theorem back?_map (h : History α) : (h.map f).back? = h.back?.map (map f) := by
  unfold back?
  cases past : h.past with
  | nil => simp [map, past]
  | cons g rest => simp [map, past, Generation.map, shown]

theorem forward?_map (h : History α) : (h.map f).forward? = h.forward?.map (map f) := by
  unfold forward?
  cases future : h.future with
  | nil => simp [map, future]
  | cons g rest => simp [map, future, Generation.map, shown]

theorem advance_map (h : History α) (members : List α) :
    (h.map f).advance (members.map f) = (h.advance members).map f := by
  rcases h with ⟨number, current, picks, past, future⟩
  cases current with
  | nil => rfl
  | cons first rest => rfl

end History

end Maps

namespace Draws

variable {α β γ : Type}

theorem pick_map (f : α → β) (first : α) (others : List α) :
    pick (f first) (others.map f) = f <$> pick first others := by
  unfold pick
  rw [List.length_map, map_bind]
  apply bind_congr
  intro i
  rw [← List.map_cons, List.getD_map, map_pure]

end Draws

namespace Fractal

/-- Moving the constants does not depend on the picture, and leaves it. -/
theorem mutateInPlace_blank (settings : GeneticSettings) (f : Fractal) :
    f.blank.mutateInPlace settings = blank <$> f.mutateInPlace settings := by
  unfold mutateInPlace
  rw [Functor.map_map]
  rfl

/-- Nor does breeding again. -/
theorem redo_blank (settings : GeneticSettings) (f : Fractal) :
    f.blank.redo settings = blank <$> f.redo settings := by
  unfold redo
  rw [Functor.map_map]
  rfl

theorem redo_of_rebred {settings : GeneticSettings} {f : Fractal} {genome : Genome}
    {words left : List UInt64} (bred : f.rebred settings words = .ok (genome, left)) :
    f.redo settings words = .ok (f.withGenome genome, left) := by
  change (f.rebred settings words >>= fun result => _) = _
  rw [bred]
  rfl

theorem blank_of_bred {ancestors : List Genome} {f : Fractal} (bred : f.Bred ancestors) :
    f.blank = f := by
  obtain ⟨-, pending, unpictured, -⟩ := bred
  cases f
  subst pending unpictured
  rfl

end Fractal

namespace Litter

variable (settings : GeneticSettings)

theorem conceived_blank (parents : List Fractal) (slot : Nat) :
    conceived settings (parents.map Fractal.blank) slot = conceived settings parents slot := by
  cases parents with
  | nil => rfl
  | cons parent others =>
      unfold conceived
      rw [List.map_cons]
      simp only [Draws.pick_map, bind_map_left]
      rfl

/-- Breeding does not depend on the pictures of the parents. -/
theorem breed_blank (parents : List Fractal) :
    breed settings (parents.map Fractal.blank) = breed settings parents := by
  have same : conceived settings (parents.map Fractal.blank) = conceived settings parents :=
    funext (conceived_blank settings parents)
  unfold breed
  rw [children_eq, children_eq, same]

theorem ensures_blank (parents : List Fractal) :
    Ensures (breed settings parents) (fun children => children.map Fractal.blank = children) :=
  (ensures_breed settings parents).mono fun children sound => by
    rw [List.map_congr_left fun f member => Fractal.blank_of_bred (sound.bred f member), List.map_id']

end Litter

namespace Population

/-- The population without its pictures. -/
def blank (p : Population) : Population := p.map Fractal.blank

/-- All constants are finite, those of the recorded parents included. -/
def IsFinite (p : Population) : Prop := p.Each Fractal.IsFinite

theorem breed_blank (settings : GeneticSettings) (p : Population) :
    p.blank.breed settings = blank <$> p.breed settings := by
  unfold breed blank
  rw [History.picked_map, Litter.breed_blank, map_bind]
  refine (Litter.ensures_blank settings p.picked).bind_congr fun children bare => ?_
  rw [map_pure, ← History.advance_map, bare]

theorem edit_blank {change : Fractal → Draws Fractal}
    (blind : ∀ f, change f.blank = Fractal.blank <$> change f) (p : Population) (slot : Nat) :
    p.blank.edit slot change = blank <$> p.edit slot change := by
  have found : p.blank.current[slot]? = p.current[slot]?.map Fractal.blank := List.getElem?_map ..
  unfold edit
  rw [found]
  cases p.current[slot]? with
  | none => rfl
  | some f =>
      simp only [Option.map_some, blind, map_bind, bind_map_left, map_pure]
      apply bind_congr
      intro g
      simp [blank, History.map, List.map_set]

/-- The population without its pictures does alike, and is the same without pictures afterwards. -/
theorem perform_blank {action : Action} (own : action.IsOwn) (p : Population) :
    p.blank.perform action = (fun result => (result.1.blank, result.2)) <$> p.perform action := by
  cases action with
  | breed settings =>
      simp only [perform, breed_blank, map_bind, bind_map_left, map_pure]
  | back =>
      simp only [perform, blank, History.back?_map, map_pure]
      cases p.back? with
      | none => rfl
      | some q => rfl
  | forward =>
      simp only [perform, blank, History.forward?_map, map_pure]
      cases p.forward? with
      | none => rfl
      | some q => rfl
  | select picks => rfl
  | toggle slot => rfl
  | edit slot change =>
      have blind : ∀ f, change f.blank = Fractal.blank <$> change f := by
        obtain ⟨settings, rfl | rfl⟩ := own
        · exact Fractal.mutateInPlace_blank settings
        · exact Fractal.redo_blank settings
      simp only [perform, edit_blank blind, map_bind, bind_map_left, map_pure]

theorem run_blank {actions : List Action} (own : ∀ action ∈ actions, action.IsOwn)
    (p : Population) :
    p.blank.run actions = (fun result => (result.1.blank, result.2)) <$> p.run actions := by
  induction actions generalizing p with
  | nil => rfl
  | cons action rest ih =>
      obtain ⟨first, others⟩ := List.forall_mem_cons.mp own
      simp only [run, perform_blank first, ih others, map_bind, bind_map_left, map_pure]

theorem toDocument_blank (p : Population) : p.blank.toDocument = p.toDocument := by
  have members : ∀ fractals : List Fractal,
      listToDocument (fractals.map Fractal.blank) = listToDocument fractals := by
    intro fractals
    unfold listToDocument
    rw [List.map_map]
    rfl
  have others : ∀ stack : List (Generation Fractal),
      stackToDocument (stack.map (·.map Fractal.blank)) = stackToDocument stack := by
    intro stack
    unfold stackToDocument
    rw [← List.map_reverse, List.map_map]
    simp only [Function.comp_def, generationToDocument, Generation.map, members]
    rfl
  unfold toDocument blank History.map
  simp only [members, others]

theorem Each.blank {p : Population} (finite : p.IsFinite) :
    p.blank.Each fun f => f.IsFinite ∧ f.blank = f := by
  have members : ∀ {fractals : List Fractal}, (∀ f ∈ fractals, f.IsFinite) →
      ∀ f ∈ fractals.map Fractal.blank, f.IsFinite ∧ f.blank = f := by
    intro fractals finite f member
    obtain ⟨g, inside, rfl⟩ := List.mem_map.mp member
    exact ⟨finite g inside, rfl⟩
  have others : ∀ {stack : List (Generation Fractal)},
      (∀ g ∈ stack, ∀ f ∈ g.members, f.IsFinite) →
      ∀ g ∈ stack.map (·.map Fractal.blank), ∀ f ∈ g.members, f.IsFinite ∧ f.blank = f := by
    intro stack finite g member
    obtain ⟨h, inside, rfl⟩ := List.mem_map.mp member
    exact members (finite h inside)
  exact ⟨members finite.current, others finite.past, others finite.future⟩

/-- A population with finite constants is read as it was saved, without its pictures. -/
theorem ofDocument?_toDocument {p : Population} (finite : p.IsFinite) :
    p.toDocument.Writable ∧ ofDocument? p.toDocument = some p.blank := by
  rw [← toDocument_blank]
  exact faithful.of_save p.blank (Each.blank finite)

theorem reload?_eq {p : Population} (finite : p.IsFinite) :
    p.reload? = if p.toDocument.depth ≤ Document.maxDepth then some p.blank else none := by
  unfold reload? Document.reread?
  split
  · exact (ofDocument?_toDocument finite).2
  · rfl

/-- A population that was read is saved no deeper than it was read from, and is read again as it is. -/
theorem reload?_of_read {d : Document} {p : Population} (writable : d.Writable)
    (read : ofDocument? d = some p) :
    ofDocument? p.toDocument = some p ∧ (d.depth ≤ Document.maxDepth → p.reload? = some p) := by
  obtain ⟨depth, fit⟩ := faithful.of_read d p read
  have again := (faithful.of_save p (fit writable)).2
  refine ⟨again, fun shallow => ?_⟩
  unfold reload? Document.reread?
  rw [if_pos (depth.trans shallow)]
  exact again

/-- Saving and loading loses the pictures of a population with finite constants, and nothing that
it could show later, unless its saved form is nested too deeply; and what was loaded once loses
nothing any more. -/
theorem reload_transparent :
    (∀ p : Population, p.IsFinite → ofDocument? p.toDocument = some p.blank ∧
      p.reload? = (if p.toDocument.depth ≤ Document.maxDepth then some p.blank else none) ∧
      ∀ actions, (∀ action ∈ actions, action.IsOwn) →
        p.blank.run actions = (fun result => (result.1.blank, result.2)) <$> p.run actions) ∧
    ∀ d p, d.Writable → ofDocument? d = some p →
      ofDocument? p.toDocument = some p ∧ (d.depth ≤ Document.maxDepth → p.reload? = some p) :=
  ⟨fun p finite => ⟨(ofDocument?_toDocument finite).2, reload?_eq finite,
    fun _ own => run_blank own p⟩, fun _ _ => reload?_of_read⟩

section Examples

instance (e : Expr) : Decidable e.IsFinite :=
  inferInstanceAs (Decidable (∀ c ∈ e.constants, c.value.isFinite = true))

instance (genome : Genome) : Decidable genome.IsFinite :=
  decidable_of_iff (∀ entry ∈ genome.entries, entry.2.root.IsFinite)
    ⟨fun each axis f present => each (axis, f) (Genome.mem_entries.mpr present),
      fun finite entry member => finite entry.1 entry.2 (Genome.mem_entries.mp member)⟩

instance (f : Fractal) : Decidable f.IsFinite :=
  inferInstanceAs (Decidable (f.genome.IsFinite ∧ ∀ parent ∈ f.pedigree.parents, parent.IsFinite))

/-- A second generation on show with its pictures, two of its fractals picked. -/
def pictured : Population where
  number := 2
  current := Litter.firstborn.map fun f => { f with
    pedigree := ⟨.mutate, [f.genome]⟩
    state := .ready
    image := some ⟨f.id, "png", ⟨#[7]⟩⟩ }
  picks := .ofSlots [1, 7]
  past := [⟨1, Litter.firstborn⟩]

/-- Two fractals are changed in place, and the next generation is bred and left again. -/
def changes : List Population.Action :=
  [.edit 0 (Fractal.mutateInPlace {}), .edit 1 (Fractal.redo {}), .toggle 0, .breed {}, .back]

theorem reload_transparent_pictured : pictured.IsFinite ∧ pictured.reload? = some pictured.blank ∧
    (∀ action ∈ changes, action.IsOwn) ∧ pictured.blank.run changes =
      (fun result => (result.1.blank, result.2)) <$> pictured.run changes ∧
    pictured.toDocument.Writable ∧ pictured.blank.reload? = some pictured.blank := by
  have finite : pictured.IsFinite := by
    have shown : ∀ f ∈ pictured.current, f.IsFinite := by decide +kernel
    have before : ∀ g ∈ pictured.past, ∀ f ∈ g.members, f.IsFinite := by decide +kernel
    exact ⟨shown, before, nofun⟩
  have own : ∀ action ∈ changes, action.IsOwn := by
    simp only [changes, List.forall_mem_cons, Action.IsOwn]
    exact ⟨⟨{}, .inl rfl⟩, ⟨{}, .inr rfl⟩, trivial, trivial, trivial, nofun⟩
  have shallow : pictured.toDocument.depth ≤ Document.maxDepth := by decide +kernel
  have writable := (ofDocument?_toDocument finite).1
  obtain ⟨read, loaded, alike⟩ := reload_transparent.1 pictured finite
  rw [if_pos shallow] at loaded
  exact ⟨finite, loaded, own, alike changes own, writable,
    (reload_transparent.2 _ _ writable read).2 shallow⟩

/-- Valid settings by which trees may become deep. -/
def deep : GeneticSettings :=
  { constantMin := 0, constantMax := 4, mutateChance := 0, maxTreeDepth := 80 }

/-- Words by which each of nine fractals is crossed with itself, kept by a mutation or has a
variable replaced by the same. -/
def sameWords : List UInt64 :=
  (List.range 9).flatMap fun i =>
    let pick := UInt64.ofNat ((i * 2 ^ 64 + 8) / 9)
    let second := UInt64.ofNat (3 * 2 ^ 64 / 10)
    let never := UInt64.ofNat (2 ^ 64 - 1)
    match i / 3 with
    | 0 => [pick, pick, 0, 0, 0, 0, 0, 0]
    | 1 => pick :: List.replicate 8 0
    | _ => [pick, second, never, second, second, never, second, second, never, 0]

/-- Words by which the first leaf of x becomes a tree as deep as it may be. -/
def deepWords : List UInt64 :=
  List.replicate 160 0 ++ [0, UInt64.ofNat (2 ^ 64 - 1), 0, 0, UInt64.ofNat (2 ^ 64 - 1), 0]

/-- The first generation bred again. -/
def reborn : List Fractal :=
  Litter.firstborn.mapIdx fun i f => { f with
    pedigree := match i / 3 with
      | 0 => ⟨.cross, [f.genome, f.genome]⟩
      | 1 => ⟨.mutate, [f.genome]⟩
      | _ => ⟨.introduce, [f.genome]⟩ }

theorem new_reborn : ∀ f ∈ reborn, Fractal.new f.genome f.pedigree = f := by
  intro f member
  obtain ⟨i, inside, rfl⟩ := List.mem_mapIdx.mp member
  have other : ∀ (f : Fractal) (pedigree : Pedigree), Fractal.new f.genome pedigree =
      { Fractal.new f.genome f.pedigree with pedigree } := fun _ _ => rfl
  rw [← Litter.new_firstborn _ (List.getElem_mem inside)]
  exact other _ _

theorem breed_reborn :
    Litter.breed deep Litter.firstborn sameWords = .ok (reborn, []) :=
  Litter.breed_of_named _ (by decide +kernel) new_reborn (by decide)

def seventh : Fractal := reborn.getD 6 (Litter.newborn 0 0 0 "")

/-- The seventh of them bred once more. -/
theorem exists_deep : ∃ g, seventh.rebred deep deepWords =
    .ok (g, []) ∧ g.IsFinite ∧ Document.maxDepth < g.toDocument.depth := by
  have made : (seventh.rebred deep deepWords).toOption.any
      (fun result => result.2.isEmpty && decide (result.1.IsFinite ∧
        Document.maxDepth < result.1.toDocument.depth)) = true := by
    decide +kernel
  cases drawn : seventh.rebred deep deepWords with
  | error halt =>
      rw [drawn] at made
      cases made
  | ok result =>
      rw [drawn] at made
      obtain ⟨done, holds⟩ := Bool.and_eq_true_iff.mp made
      refine ⟨result.1, ?_, of_decide_eq_true holds⟩
      rw [← List.isEmpty_iff.mp done]

/-- The first two generations, the first of them picked as a whole. -/
def grown : Population :=
  ({ ({} : Population).advance Litter.firstborn with picks := .ofSlots (List.range 9) }
    : Population).advance reborn

/-- The population once its seventh fractal has another genome. -/
def regrown (g : Genome) : Population :=
  { grown with
    current := reborn.set 6 (seventh.withGenome g) }

theorem reachable_grown : grown.Reachable := by
  have first : Population.perform {} (.breed deep) Litter.firstWords =
      .ok ((({} : Population).advance Litter.firstborn, true), []) :=
    perform_breed (Litter.breed_firstborn rfl rfl)
  have second : Population.perform
      { ({} : Population).advance Litter.firstborn with picks := .ofSlots (List.range 9) }
      (.breed deep) sameWords = .ok ((grown, true), []) :=
    perform_breed breed_reborn
  have picked := (Reachable.empty.perform first trivial).select (.ofSlots (List.range 9))
  exact picked.perform second trivial

/-- A saved population nests deeper than the genomes of the fractals on show. -/
theorem depth_genome {p : Population} {f : Fractal} (shown : f ∈ p.current) :
    f.genome.toDocument.depth < p.toDocument.depth := by
  have genome : f.genome.toDocument.Within f.toDocument := by
    have field : ("genes", f.genome.toDocument) ∈ [("id", Document.text f.id),
      ("genes", f.genome.toDocument), ("lineage", f.pedigree.toDocument)] := by simp
    exact Document.within_record field
  have member : f.toDocument.Within (listToDocument p.current) :=
    Document.within_list (List.mem_map_of_mem shown)
  have list : (listToDocument p.current).Within p.toDocument := by
    have field : ("current", listToDocument p.current) ∈ [("generation", Document.int p.number.toNat),
      ("current", listToDocument p.current), ("selected", p.picks.toDocument),
      ("past", stackToDocument p.past), ("future", stackToDocument p.future)] := by simp
    exact Document.within_record field
  exact ((genome.trans member).trans list).shallower

/-- A population that cannot be loaded can be reached. -/
theorem not_always_reloaded : deep.fault? = none ∧
    ¬ ∀ p : Population, p.Reachable → p.IsFinite → ∃ q, p.reload? = some q := by
  refine ⟨by decide +kernel, fun always => ?_⟩
  obtain ⟨g, drawn, finite, tooDeep⟩ := exists_deep
  have reachable : (regrown g).Reachable := by
    have found : grown.current[6]? = some seventh := rfl
    exact reachable_grown.perform (perform_edit found (Fractal.redo_of_rebred drawn)) ⟨deep, .inr rfl⟩
  have each : (regrown g).IsFinite := by
    have newer : ∀ f ∈ reborn, f.IsFinite := by decide +kernel
    have older : ∀ f ∈ Litter.firstborn, f.IsFinite := by decide +kernel
    refine ⟨fun f member => ?_, fun h member => ?_, nofun⟩
    · rcases List.mem_or_eq_of_mem_set member with member | rfl
      · exact newer f member
      · exact ⟨finite, (newer _ (List.getElem_mem (by decide : 6 < reborn.length))).2⟩
    · obtain rfl := List.mem_singleton.mp member
      exact older
  have shown : seventh.withGenome g ∈ (regrown g).current :=
    List.mem_set (by decide : 6 < reborn.length) _
  obtain ⟨q, loaded⟩ := always (regrown g) reachable each
  rw [reload?_eq each, if_neg (Nat.not_le_of_lt (tooDeep.trans (depth_genome shown)))] at loaded
  cases loaded

end Examples

end Population

end FractalBreeder
