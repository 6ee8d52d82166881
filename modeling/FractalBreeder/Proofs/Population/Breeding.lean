import FractalBreeder.Population.Basic
import FractalBreeder.Proofs.Heredity.Descent

/-!
What a new generation is like: nine fractals with identities of their own, each bred as its row says
or repaired.
-/
namespace FractalBreeder

open Draws (Ensures ensures_pure ensures_error ensures_any ensures_mapM)

namespace Litter

variable {ancestors : List Genome} (settings : GeneticSettings)

/-- The operation of a row of three slots. -/
def rowOperation : Nat → Operation
  | 0 => .cross
  | 1 => .mutate
  | _ => .introduce

/-- What a child is before its identity is looked at. -/
structure Planned (parents : List Fractal) (slot : Nat) (f : Fractal) : Prop where
  bred : f.Bred (parents.map Fractal.genome)
  orphan : parents = [] → f.pedigree = ⟨.random, []⟩
  row : parents ≠ [] → f.pedigree.operation = rowOperation (slot / 3)

/-- How the pedigree of a child may differ once it has an identity of its own. -/
inductive Repaired (pedigree : Pedigree) : Pedigree → Prop where
  | kept : Repaired pedigree pedigree
  | introduced {parent : Genome} : pedigree.parents.head? = some parent →
      Repaired pedigree ⟨.introduce, [parent]⟩
  | random : Repaired pedigree ⟨.random, []⟩

theorem ensures_pick {α : Type} (first : α) (others : List α) :
    Ensures (Draws.pick first others) (· ∈ first :: others) := by
  refine (ensures_any _).bind fun i _ => ensures_pure ?_
  rw [List.getD_eq_getElem?_getD]
  cases found : (first :: others)[i]? with
  | none => exact List.mem_cons_self
  | some a => exact List.mem_of_getElem? found

theorem ensures_planned (parents : List Fractal) (slot : Nat) :
    Ensures (child settings parents slot) (Planned parents slot) := by
  cases parents with
  | nil =>
      have random := Fractal.ensures_random settings []
      exact random.mono fun f bred => ⟨bred.1, fun _ => bred.2, fun picked => absurd rfl picked⟩
  | cons parent others =>
      have known : ∀ f ∈ parent :: others, f.genome ∈ (parent :: others).map Fractal.genome :=
        fun f member => List.mem_map_of_mem member
      have planned : ∀ f : Fractal, f.Bred ((parent :: others).map Fractal.genome) →
          f.pedigree.operation = rowOperation (slot / 3) → Planned (parent :: others) slot f :=
        fun f bred row => ⟨bred, fun empty => absurd empty (List.cons_ne_nil _ _), fun _ => row⟩
      unfold child
      refine (ensures_pick parent others).bind fun first firstMember => ?_
      generalize slot / 3 = row at planned
      match row with
      | 0 =>
          refine (ensures_pick parent others).bind fun second secondMember => ?_
          have crossed := Fractal.ensures_cross (known _ firstMember) (known _ secondMember)
          exact crossed.mono fun f bred => planned f bred.1 (by rw [bred.2]; rfl)
      | 1 =>
          have mutated := Fractal.ensures_mutate settings (known _ firstMember)
          exact mutated.mono fun f bred => planned f bred.1 (by rw [bred.2]; rfl)
      | row + 2 =>
          have introduced := Fractal.ensures_introduced settings (known _ firstMember)
          exact introduced.mono fun f bred => planned f bred.1 (by rw [bred.2]; rfl)

theorem ensures_retry {taken : List String} {again : Fractal → Draws Fractal}
    {invariant : Fractal → Prop} (step : ∀ f, invariant f → Ensures (again f) invariant)
    (attempts : Nat) {f : Fractal} (holds : invariant f) :
    Ensures (retry taken again attempts f) invariant := by
  induction attempts generalizing f with
  | zero => exact ensures_pure holds
  | succ attempts ih =>
      unfold retry
      split
      · exact (step f holds).bind fun g invariant => ih invariant
      · exact ensures_pure holds

/-- A child that was bred, with a pedigree repaired from that of the planned one. -/
structure Settled (ancestors : List Genome) (planned f : Fractal) : Prop where
  bred : f.Bred ancestors
  repaired : Repaired planned.pedigree f.pedigree

theorem not_taken {taken : List String} {id : String} (free : ¬ taken.contains id = true) :
    id ∉ taken :=
  fun member => free (List.contains_iff_mem.mpr member)

section Replace

variable {invariant : Fractal → Prop} (random : Ensures (Fractal.random settings) invariant)
include random

theorem ensures_replaceWithin (taken : List String) (bound : Nat) {f : Fractal}
    (holds : invariant f) :
    Ensures (replaceWithin settings taken bound f) (fun g => invariant g ∧ g.id ∉ taken) := by
  induction bound generalizing f with
  | zero =>
      unfold replaceWithin
      split
      · exact ensures_error
      · next free => exact ensures_pure ⟨holds, not_taken free⟩
  | succ bound ih =>
      unfold replaceWithin
      split
      · exact random.bind fun g holds => ih holds
      · next free => exact ensures_pure ⟨holds, not_taken free⟩

theorem ensures_replace (taken : List String) {f : Fractal} (holds : invariant f) :
    Ensures (replace settings taken f) (fun g => invariant g ∧ g.id ∉ taken) :=
  fun words g left returned =>
    ensures_replaceWithin settings random taken _ holds words g left returned

end Replace

theorem ensures_settle {planned : Fractal} (taken : List String) (bred : planned.Bred ancestors) :
    Ensures (settle settings taken planned)
      (fun f => Settled ancestors planned f ∧ f.id ∉ taken) := by
  have redone : ∀ f : Fractal, f.Bred ancestors ∧ f.pedigree = planned.pedigree →
      Ensures (f.redo settings) (fun g => g.Bred ancestors ∧ g.pedigree = planned.pedigree) := by
    intro f holds
    refine (Fractal.ensures_redo settings holds.1).mono fun g again => ?_
    exact ⟨again.1, again.2.trans holds.2⟩
  unfold settle
  refine (ensures_retry redone _ ⟨bred, rfl⟩).bind fun f kept => ?_
  have settled : Settled ancestors planned f := ⟨kept.1, kept.2 ▸ .kept⟩
  have random : Ensures (Fractal.random settings) (Settled ancestors planned) := by
    refine (Fractal.ensures_random settings ancestors).mono fun g random => ?_
    exact ⟨random.1, random.2 ▸ .random⟩
  have replaced : ∀ g, Settled ancestors planned g →
      Ensures (replace settings taken g) (fun h => Settled ancestors planned h ∧ h.id ∉ taken) :=
    fun g settled => ensures_replace settings random taken settled
  cases parents : f.pedigree.parents with
  | nil =>
      simp only
      exact (ensures_pure settled).bind replaced
  | cons parent others =>
      simp only
      have head : planned.pedigree.parents.head? = some parent := by
        rw [← kept.2, parents]
        rfl
      have known : parent ∈ ancestors := kept.1.descent parent (parents ▸ List.mem_cons_self)
      have introduced : ∀ g, Settled ancestors planned g →
          Ensures (Fractal.introduced settings parent) (Settled ancestors planned) := by
        intro g _
        refine (Fractal.ensures_introduced settings known).mono fun child introduced => ?_
        exact ⟨introduced.1, introduced.2 ▸ .introduced head⟩
      exact (ensures_retry introduced _ settled).bind replaced

section Untaken

variable {taken : List String} {f : Fractal} (free : taken.contains f.id = false)
include free

theorem retry_untaken (again : Fractal → Draws Fractal) (attempts : Nat) :
    retry taken again attempts f = pure f := by
  cases attempts with
  | zero => rfl
  | succ attempts => rw [retry, free, if_neg Bool.false_ne_true]

theorem replaceWithin_untaken (bound : Nat) : replaceWithin settings taken bound f = pure f := by
  cases bound <;> rw [replaceWithin, free, if_neg Bool.false_ne_true]

theorem settle_untaken : settle settings taken f = pure f := by
  have replaced : replace settings taken f = pure f :=
    funext fun words => congrFun (replaceWithin_untaken settings free _) words
  unfold settle
  simp only [retry_untaken free, replaced, pure_bind]
  cases f.pedigree.parents with
  | nil => rfl
  | cons parent others => rfl

end Untaken

/-- Children that differ from each other stay as they are. -/
theorem settleAll_untaken {taken : List String} {children : List Fractal}
    (distinct : (children.map Fractal.id).Nodup) (free : ∀ f ∈ children, f.id ∉ taken) :
    settleAll settings taken children = pure children := by
  induction children generalizing taken with
  | nil => rfl
  | cons f rest ih =>
      have first : taken.contains f.id = false := by simpa using free f List.mem_cons_self
      obtain ⟨apart, distinct⟩ := List.nodup_cons.mp distinct
      have others : ∀ g ∈ rest, g.id ∉ f.id :: taken := by
        intro g member same
        rcases List.mem_cons.mp same with same | same
        · exact apart (same ▸ List.mem_map_of_mem member)
        · exact free g (List.mem_cons_of_mem _ member) same
      rw [settleAll, settle_untaken settings first, pure_bind, ih distinct others]
      rfl

theorem ensures_settleAll (taken : List String) {children : List Fractal}
    (bred : ∀ f ∈ children, f.Bred ancestors) :
    Ensures (settleAll settings taken children)
      (fun settled => List.Forall₂ (Settled ancestors) children settled ∧
        (settled.map Fractal.id).Nodup ∧ ∀ f ∈ settled, f.id ∉ taken) := by
  induction children generalizing taken with
  | nil =>
      refine ensures_pure ⟨.nil, List.nodup_nil, ?_⟩
      intro f member
      cases member
  | cons planned rest ih =>
      have settled := ensures_settle settings taken (bred planned List.mem_cons_self)
      refine settled.bind fun f first => ?_
      have others := ih (f.id :: taken) fun g member => bred g (List.mem_cons_of_mem _ member)
      refine others.bind fun settled last => ensures_pure ?_
      rcases last with ⟨related, distinct, free⟩
      refine ⟨.cons first.1 related, ?_, ?_⟩
      · rw [List.map_cons, List.nodup_cons]
        refine ⟨?_, distinct⟩
        intro member
        rcases List.mem_map.mp member with ⟨g, inside, same⟩
        exact free g inside (same ▸ List.mem_cons_self)
      · intro g member
        rcases List.mem_cons.mp member with rfl | inside
        · exact first.2
        · exact fun taken => free g inside (List.mem_cons_of_mem _ taken)

theorem ensures_head (children : List Fractal) :
    Ensures (settleAll settings [] children) (fun settled => settled.head? = children.head?) := by
  cases children with
  | nil => exact ensures_pure rfl
  | cons f rest =>
      unfold settleAll
      rw [settle_untaken settings rfl, pure_bind]
      exact (ensures_any _).bind fun others _ => ensures_pure rfl

/-- The genome of the child for a slot, with its pedigree. -/
def conceived (parents : List Fractal) (slot : Nat) : Draws (Genome × Pedigree) :=
  match parents with
  | [] => (·, ⟨.random, []⟩) <$> Genome.random settings
  | parent :: others => do
    let first ← Draws.pick parent others
    match slot / 3 with
    | 0 => do
      let second ← Draws.pick parent others
      (·, ⟨.cross, [first.genome, second.genome]⟩) <$> first.genome.cross second.genome
    | 1 => (·, ⟨.mutate, [first.genome]⟩) <$> first.genome.mutate settings
    | _ => (·, ⟨.introduce, [first.genome]⟩) <$> first.genome.introduce settings

theorem child_eq (parents : List Fractal) (slot : Nat) :
    child settings parents slot =
      (fun made => Fractal.new made.1 made.2) <$> conceived settings parents slot := by
  cases parents with
  | nil => simp [child, conceived, Fractal.random]
  | cons parent others =>
      unfold child conceived
      rw [map_bind]
      apply bind_congr
      intro first
      rcases slot / 3 with _ | _ | row
      · simp [Fractal.cross]
      · simp [Fractal.mutate]
      · simp [Fractal.introduce, Fractal.introduced]

theorem children_eq (parents : List Fractal) (slots : List Nat) :
    slots.mapM (child settings parents) =
      List.map (fun made => Fractal.new made.1 made.2) <$>
        slots.mapM (conceived settings parents) := by
  induction slots with
  | nil => rfl
  | cons slot rest ih =>
      rw [List.mapM_cons, List.mapM_cons, ih, child_eq]
      simp

/-- Children with known identities, no two of them the same, are bred from the words that make
their genomes and pedigrees. -/
theorem breed_of_named {parents children : List Fractal} {words left : List UInt64}
    (made : (List.range generationSize).mapM (conceived settings parents) words =
      .ok (children.map fun f => (f.genome, f.pedigree), left))
    (named : ∀ f ∈ children, Fractal.new f.genome f.pedigree = f)
    (distinct : (children.map Fractal.id).Nodup) :
    breed settings parents words = .ok (children, left) := by
  have unnamed : (children.map fun f => (f.genome, f.pedigree)).map
      (fun made => Fractal.new made.1 made.2) = children := by
    rw [List.map_map]
    exact (List.map_congr_left named).trans (List.map_id _)
  have born : (List.range generationSize).mapM (child settings parents) words =
      .ok (children, left) := by
    rw [children_eq]
    change (List.range generationSize).mapM (conceived settings parents) words >>=
      (fun result => .ok (result.1.map _, result.2)) = _
    rw [made]
    exact congrArg (fun fs => Except.ok (fs, left)) unnamed
  change (List.range generationSize).mapM (child settings parents) words >>=
    (fun result => settleAll settings [] result.1 result.2) = _
  rw [born]
  exact congrFun (settleAll_untaken settings distinct fun _ _ => List.not_mem_nil) left

section Firstborn

deriving instance DecidableEq for Number, Expr, Formula, Genome, Pedigree

/-- A fractal without parents, with its identity spelled out. -/
def newborn (c a b : Float) (id : String) : Fractal where
  id
  genome := {
    x := some (.ofExpr (Growth.clifford c c))
    y := some (.ofExpr (Growth.clifford c c))
    z := some (.ofExpr
      (.binary .add (.binary .mul (.const a) (.var .x)) (.binary .mul (.const b) (.var .y)))) }
  pedigree := ⟨.random, []⟩

theorem new_newborn {c a b : Float} {id : String} (named : (newborn c a b id).genome.identity = id) :
    Fractal.new (newborn c a b id).genome (newborn c a b id).pedigree = newborn c a b id := by
  rw [Fractal.new, named]
  rfl

/-- Words, in quarters of the range of a word, by which nine fractals differ in two constants. -/
def firstWords : List UInt64 :=
  ((List.range 9).flatMap fun i => [0, 0, 0, 0, UInt64.ofNat (i / 4), UInt64.ofNat (i % 4)]).map
    (· * 0x4000000000000000)

def firstborn : List Fractal :=
  [newborn 0 0 0 "fractal_239dad5a6e3a11e9", newborn 0 0 1 "fractal_72dc08d2bf33cfe1",
    newborn 0 0 2 "fractal_f948e295fd9d85f5", newborn 0 0 3 "fractal_d651dd50813dc6e2",
    newborn 0 1 0 "fractal_882a98ac76073c94", newborn 0 1 1 "fractal_8b2807e6a6263a0e",
    newborn 0 1 2 "fractal_4b9e798d70407bca", newborn 0 1 3 "fractal_55d72a2eabb8a866",
    newborn 0 2 0 "fractal_56759c514e31bf06"]

theorem new_firstborn : ∀ f ∈ firstborn, Fractal.new f.genome f.pedigree = f := by
  intro f member
  simp only [firstborn, List.mem_cons, List.not_mem_nil, or_false] at member
  rcases member with rfl | rfl | rfl | rfl | rfl | rfl | rfl | rfl | rfl <;>
    exact new_newborn (by decide +kernel)

theorem conceived_firstborn :
    (List.range generationSize).mapM (conceived { constantMin := 0, constantMax := 4 } []) firstWords =
      .ok (firstborn.map fun f => (f.genome, f.pedigree), []) := by
  decide +kernel

/-- Where the constants are between 0 and 4, the words make these fractals. -/
theorem breed_firstborn {settings : GeneticSettings} (low : settings.constantMin = 0)
    (high : settings.constantMax = 4) :
    breed settings [] firstWords = .ok (firstborn, []) := by
  have same : conceived settings [] = conceived { constantMin := 0, constantMax := 4 } [] := by
    funext slot
    simp only [conceived, Genome.random, Growth.attractor, Growth.plane, Growth.constant, low, high]
  refine breed_of_named _ ?_ new_firstborn (by decide)
  rw [same]
  exact conceived_firstborn

end Firstborn

/-- What the pedigree of the child of a slot may be, given the genomes of the picked fractals. -/
structure Policy (ancestors : List Genome) (slot : Nat) (f : Fractal) : Prop where
  orphan : ancestors = [] → f.pedigree = ⟨.random, []⟩
  operation : ancestors ≠ [] → f.pedigree.operation = rowOperation (slot / 3) ∨
    slot ≠ 0 ∧ (f.pedigree.operation = .introduce ∨ f.pedigree.operation = .random)
  count : f.pedigree.parents.length = f.pedigree.operation.parentCount
  descent : ∀ parent ∈ f.pedigree.parents, parent ∈ ancestors
  axes : ∀ parent ∈ f.pedigree.parents.head?, f.genome.SameAxes parent

theorem policy_of_settled {parents : List Fractal} {slot : Nat} {plan f : Fractal}
    (planned : Planned parents slot plan)
    (settled : Settled (parents.map Fractal.genome) plan f) (first : slot = 0 → f = plan) :
    Policy (parents.map Fractal.genome) slot f := by
  refine ⟨?_, ?_, settled.bred.complete.length_parents, settled.bred.descent, settled.bred.axes⟩
  · intro empty
    have orphan := planned.orphan (List.map_eq_nil_iff.mp empty)
    have repaired := settled.repaired
    generalize f.pedigree = pedigree at repaired
    cases repaired with
    | kept => exact orphan
    | introduced head =>
        rw [orphan] at head
        cases head
    | random => rfl
  · intro inhabited
    have row := planned.row fun empty => inhabited (List.map_eq_nil_iff.mpr empty)
    by_cases zero : slot = 0
    · rw [first zero]
      exact .inl row
    · have repaired := settled.repaired
      generalize f.pedigree = pedigree at repaired
      cases repaired with
      | kept => exact .inl row
      | introduced _ => exact .inr ⟨zero, .inl rfl⟩
      | random => exact .inr ⟨zero, .inr rfl⟩

theorem related_at {α β : Type} {related : α → β → Prop} {as : List α} {bs : List β}
    (all : List.Forall₂ related as bs) {i : Nat} {b : β} (found : bs[i]? = some b) :
    ∃ a, as[i]? = some a ∧ related a b := by
  induction all generalizing i with
  | nil => cases found
  | cons head _ ih =>
      cases i with
      | zero =>
          obtain rfl := Option.some.inj found
          exact ⟨_, rfl, head⟩
      | succ i => exact ih found

/-- A litter, with the genomes of the fractals it was bred from. -/
structure Sound (ancestors : List Genome) (children : List Fractal) : Prop where
  count : children.length = generationSize
  bred : ∀ f ∈ children, f.Bred ancestors
  distinct : (children.map Fractal.id).Nodup
  policy : ∀ slot f, children[slot]? = some f → Policy ancestors slot f

theorem ensures_breed (parents : List Fractal) :
    Ensures (breed settings parents) (Sound (parents.map Fractal.genome)) := by
  refine (ensures_mapM fun slot _ => ensures_planned settings parents slot).bind ?_
  intro plans planned
  have plannedAt : ∀ i plan, plans[i]? = some plan → Planned parents i plan := by
    intro i plan found
    rcases related_at planned found with ⟨slot, atSlot, planned⟩
    rw [List.getElem?_eq_some_iff] at atSlot
    rcases atSlot with ⟨inside, same⟩
    rw [List.getElem_range] at same
    exact same ▸ planned
  have bred : ∀ f ∈ plans, f.Bred (parents.map Fractal.genome) := by
    intro f member
    rcases List.getElem?_of_mem member with ⟨i, found⟩
    exact (plannedAt i f found).bred
  have settled := (ensures_settleAll settings [] bred).and (ensures_head settings plans)
  refine settled.mono fun children holds => ?_
  rcases holds with ⟨⟨related, distinct, _⟩, head⟩
  refine ⟨?_, ?_, distinct, ?_⟩
  · rw [← related.length_eq, ← planned.length_eq, List.length_range]
  · intro f member
    rcases List.getElem?_of_mem member with ⟨i, found⟩
    rcases related_at related found with ⟨plan, _, settled⟩
    exact settled.bred
  · intro slot f found
    rcases related_at related found with ⟨plan, atSlot, settled⟩
    apply policy_of_settled (plannedAt slot plan atSlot) settled
    -- nothing is taken yet when the first child is settled
    rintro rfl
    rw [List.head?_eq_getElem?, List.head?_eq_getElem?, found, atSlot] at head
    exact Option.some.inj head

end Litter

namespace Population

variable {settings : GeneticSettings} {p q : Population} {words left : List UInt64}

theorem children_of_breed (returned : breed settings p words = .ok (q, left)) :
    ∃ children, Litter.breed settings p.picked words = .ok (children, left) ∧
      p.advance children = q := by
  unfold breed at returned
  rw [bind_pure_comp] at returned
  exact Draws.ok_of_map returned

/-- Whatever was picked and drawn, a generation is nine fractals that are filed apart and descend
from the picked ones. -/
theorem breed_policy (returned : breed settings p words = .ok (q, left)) :
    q.current.length = 9 ∧
      (∀ f ∈ q.current, f.state = .pending ∧ f.id = f.genome.identity) ∧
      (q.current.map Fractal.id).Nodup ∧ q.picks = .none ∧
      ∀ slot f, q.current[slot]? = some f →
        Litter.Policy (p.picked.map Fractal.genome) slot f := by
  rcases children_of_breed returned with ⟨children, bred, rfl⟩
  have sound := Litter.ensures_breed settings p.picked words children left bred
  refine ⟨sound.count, ?_, sound.distinct, rfl, sound.policy⟩
  intro f member
  exact ⟨(sound.bred f member).pending, (sound.bred f member).identity⟩

/-- A population of one fractal, `x+1`, which is picked. -/
def single : Population where
  number := 1
  current :=
    [.new { x := some (.ofExpr (.binary .add (.var .x) (.const (.float 1)))) } ⟨.random, []⟩]
  picks := .ofSlots [0]

/-- Words, in quarters of the range of a word, that breed nine different children of `x+1`. -/
def singleWords : List UInt64 :=
  let quarters : List UInt64 :=
    [0, 0, 0, 0, 0, 0, 0, 2, 0, 0, 2, 0, 0, 0, 0, 0, 0, 1, 0, 0, 3, 0, 0, 2, 1, 0, 0, 2, 2, 0, 2,
      2, 2]
  quarters.map (· * 0x4000000000000000)

theorem breed_policy_single : ∃ q left, breed {} single singleWords = .ok (q, left) ∧
    (q.current.map Fractal.id).Nodup ∧ ∀ slot f, q.current[slot]? = some f →
      Litter.Policy (single.picked.map Fractal.genome) slot f := by
  have returns : (breed {} single singleWords).isOk = true := by decide +kernel
  cases returned : breed {} single singleWords with
  | error halt =>
      rw [returned] at returns
      cases returns
  | ok result =>
      rcases breed_policy returned with ⟨_, _, distinct, _, policy⟩
      exact ⟨result.1, result.2, rfl, distinct, policy⟩

end Population

end FractalBreeder
