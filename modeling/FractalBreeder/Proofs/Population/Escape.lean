import Mathlib.Data.List.Nodup
import Mathlib.Data.List.Perm.Subperm
import Mathlib.Data.List.ProdSigma
import FractalBreeder.Proofs.Heredity.Resumption
import FractalBreeder.Proofs.Heredity.Signatures
import FractalBreeder.Proofs.Population.Timeline

/-!
When breeding is never trapped. A child whose identity is taken by up to eight others is replaced by
random fractals until one is free, without a bound, so nine identities must be within reach. They
are if two different constants can be drawn, that is, if a number lies strictly inside the range of
the constants. Validation does not ensure it, nor that shifts can be drawn where constants may move.
-/
namespace FractalBreeder

open Draws (Escapes Resumes resumes_pure Yields yields_pure Ensures ensures_pure ensures_any)

namespace GeneticSettings

variable (settings : GeneticSettings)

/-- The constant that the word zero draws. -/
def lowest : Float := Draws.drawn settings.constantMin settings.constantMax 0

/-- The lowest of the three quarters of the range of the constants that is drawn strictly inside. -/
def inner? : Option Float :=
  ([1, 2, 3].map fun k =>
    Draws.drawn settings.constantMin settings.constantMax (Draws.quarters k)).find?
      fun c => settings.constantMin < c && c < settings.constantMax

/-- What keeps breeding from being trapped, besides valid settings: the range of the constants has a
finite length and a number inside, and if constants may move, so has the range of the shifts. -/
structure Roomy : Prop where
  length : (settings.constantMax - settings.constantMin).isFinite = true
  room : ∃ c, settings.constantMin < c ∧ c < settings.constantMax
  shifts : 0 < settings.mutateChance →
    (settings.mutateRange - -settings.mutateRange).isFinite = true

variable {settings}

theorem Roomy.drawable (roomy : settings.Roomy) (valid : settings.fault? = none) :
    settings.Drawable := by
  have checked := checked_of_fault? valid
  refine ⟨checked.usable_constants roomy.length, fun may => ?_⟩
  have length := roomy.shifts may
  obtain ⟨finite, finiteLow⟩ := Binary64.isFinite_of_isFinite_sub length
  have positive := checked.range_pos finite
  have less : -settings.mutateRange < settings.mutateRange := by
    rw [← Binary64.value_lt_iff finiteLow finite, Binary64.value_neg finite]
    linarith
  simp [Draws.usable, less, length]

theorem Roomy.exists_inner (roomy : settings.Roomy) (drawable : settings.Drawable) :
    ∃ c, settings.inner? = some c := by
  obtain ⟨c, above, below⟩ := roomy.room
  obtain ⟨k, inner, inside⟩ := Draws.exists_quarter drawable.constants above below
  rw [← Option.isSome_iff_exists, inner?, List.find?_isSome]
  exact ⟨_, List.mem_map_of_mem inner, by simpa using inside⟩

/-- The two constants can be drawn, and they are different numbers. -/
theorem yields_inner (drawable : settings.Drawable) {c : Float}
    (inner : settings.inner? = some c) :
    Yields (Growth.constant settings) settings.lowest ∧ Yields (Growth.constant settings) c ∧
      settings.lowest ≠ c := by
  have isUsable := drawable.constants
  obtain ⟨same, below⟩ := Draws.drawn_zero isUsable
  have inside := List.find?_some inner
  simp only [Bool.and_eq_true, decide_eq_true_eq] at inside
  obtain ⟨k, -, rfl⟩ := List.mem_map.mp (List.mem_of_find?_eq_some inner)
  refine ⟨Draws.yields_drawn isUsable below, Draws.yields_drawn isUsable inside.2, fun equal => ?_⟩
  have finiteLow := (Draws.isFinite_of_usable isUsable).2.2.1
  have finite := (Draws.drawn_bounds isUsable inside.2).1
  have above := (Binary64.value_lt_iff finiteLow finite).mpr inside.1
  rw [← equal] at above
  exact absurd above (by rw [lowest, same]; exact lt_irrefl _)

end GeneticSettings

section Nine

variable {settings : GeneticSettings} {c d : Float}

namespace Growth

/-- A weighted sum of x and y. -/
def weighted (a b : Float) : Expr :=
  .binary .add (.binary .mul (.const a) (.var .x)) (.binary .mul (.const b) (.var .y))

theorem yields_attractor (scale : Yields (constant settings) c)
    (weight : Yields (constant settings) d) :
    Yields (attractor settings) (.ofExpr (clifford c d)) :=
  scale.bind (weight.bind yields_pure)

theorem yields_plane (first : Yields (constant settings) c) (second : Yields (constant settings) d) :
    Yields (plane settings) (.ofExpr (weighted c d)) :=
  first.bind (second.bind yields_pure)

end Growth

/-- The three pairs of two constants that are not both the second. -/
def pairs (c d : Float) : List (Float × Float) := [(c, c), (c, d), (d, c)]

/-- The random genome with one attractor and one plane of two constants each. -/
def Genome.simple (c : Float) (made : (Float × Float) × (Float × Float)) : Genome where
  x := some (.ofExpr (Growth.clifford c c))
  y := some (.ofExpr (Growth.clifford made.1.1 made.1.2))
  z := some (.ofExpr (Growth.weighted made.2.1 made.2.2))

/-- Nine genomes with two constants. -/
def nineGenomes (c d : Float) : List Genome := (pairs c d ×ˢ pairs c d).map (Genome.simple c)

theorem yields_nineGenomes (first : Yields (Growth.constant settings) c)
    (second : Yields (Growth.constant settings) d) :
    ∀ g ∈ nineGenomes c d, Yields (Genome.random settings) g := by
  have constants : ∀ pair ∈ pairs c d,
      Yields (Growth.constant settings) pair.1 ∧ Yields (Growth.constant settings) pair.2 := by
    simp [pairs, first, second]
  intro g member
  obtain ⟨⟨attractor, plane⟩, inside, rfl⟩ := List.mem_map.mp member
  obtain ⟨inAttractor, inPlane⟩ := List.mem_product.mp inside
  obtain ⟨scale, weight⟩ := constants attractor inAttractor
  obtain ⟨a, b⟩ := constants plane inPlane
  exact (Growth.yields_attractor first first).bind <|
    (Growth.yields_attractor scale weight).bind <| (Growth.yields_plane a b).bind yields_pure

section Texts

variable {a b a' b' : Float}

theorem isFinite_clifford (finite : a.isFinite = true) (finite' : b.isFinite = true) :
    (Growth.clifford a b).isFinite = true := by
  simp [Growth.clifford, Expr.isFinite, Number.value, finite, finite']

theorem isFinite_weighted (finite : a.isFinite = true) (finite' : b.isFinite = true) :
    (Growth.weighted a b).isFinite = true := by
  simp [Growth.weighted, Expr.isFinite, Number.value, finite, finite']

theorem clifford_inj (same : Growth.clifford a b = Growth.clifford a' b') : (a, b) = (a', b') := by
  simp only [Growth.clifford, Expr.binary.injEq, Expr.unary.injEq, Expr.const.injEq,
    Number.float.injEq, true_and, and_true] at same
  exact Prod.ext same.1 same.2.1

theorem weighted_inj (same : Growth.weighted a b = Growth.weighted a' b') :
    (a, b) = (a', b') := by
  simp only [Growth.weighted, Expr.binary.injEq, Expr.const.injEq, Number.float.injEq, true_and,
    and_true] at same
  exact Prod.ext same.1 same.2

theorem linear_simple (c : Float) (made : (Float × Float) × (Float × Float)) :
    (Genome.simple c made).Linear := by
  intro axis f present
  cases axis with
  | x | y | z =>
    cases present
    exact Expr.notMem_text (by decide) _
  | r | g | b => cases present

end Texts

section Distinct

variable (finite : c.isFinite = true) (finite' : d.isFinite = true)
include finite finite'

theorem isFinite_of_mem_pairs {pair : Float × Float} (member : pair ∈ pairs c d) :
    pair.1.isFinite = true ∧ pair.2.isFinite = true := by
  simp only [pairs, List.mem_cons, List.not_mem_nil, or_false] at member
  rcases member with rfl | rfl | rfl
  · exact ⟨finite, finite⟩
  · exact ⟨finite, finite'⟩
  · exact ⟨finite', finite⟩

theorem simple_inj {made made' : (Float × Float) × (Float × Float)}
    (member : made ∈ pairs c d ×ˢ pairs c d) (member' : made' ∈ pairs c d ×ˢ pairs c d)
    (same : (Genome.simple c made).signature = (Genome.simple c made').signature) :
    made = made' := by
  have linear := linear_simple c made
  have linear' := linear_simple c made'
  obtain ⟨inAttractor, inPlane⟩ := List.mem_product.mp member
  obtain ⟨inAttractor', inPlane'⟩ := List.mem_product.mp member'
  obtain ⟨scale, weight⟩ := isFinite_of_mem_pairs finite finite' inAttractor
  obtain ⟨scale', weight'⟩ := isFinite_of_mem_pairs finite finite' inAttractor'
  obtain ⟨a, b⟩ := isFinite_of_mem_pairs finite finite' inPlane
  obtain ⟨a', b'⟩ := isFinite_of_mem_pairs finite finite' inPlane'
  have attractor : (Genome.simple c made).get? .y = some _ := rfl
  have plane : (Genome.simple c made).get? .z = some _ := rfl
  obtain ⟨_, present, text⟩ := Genome.text_of_signature linear linear' same attractor
  cases present
  obtain ⟨_, present, text'⟩ := Genome.text_of_signature linear linear' same plane
  cases present
  have attractors := clifford_inj
    (Expr.eq_of_text_eq (isFinite_clifford scale' weight') (isFinite_clifford scale weight) text)
  have planes := weighted_inj
    (Expr.eq_of_text_eq (isFinite_weighted a' b') (isFinite_weighted a b) text')
  exact Prod.ext attractors.symm planes.symm

/-- The nine genomes have different signatures if the two constants are different. -/
theorem nodup_signatures (different : c ≠ d) : ((nineGenomes c d).map Genome.signature).Nodup := by
  have apart : (pairs c d).Nodup := by simp [pairs, different, different.symm]
  rw [nineGenomes, List.map_map]
  refine (apart.product apart).map_on fun made member made' member' same => ?_
  rw [Function.comp_apply, Function.comp_apply] at same
  exact simple_inj finite finite' member member' same

end Distinct

/-- The digests tell different signatures among the genomes apart. -/
def TellApart (genomes : List Genome) : Prop :=
  ∀ g ∈ genomes, ∀ h ∈ genomes, g.identity = h.identity → g.signature = h.signature

theorem nodup_identities {genomes : List Genome} (digests : TellApart genomes)
    (apart : (genomes.map Genome.signature).Nodup) : (genomes.map Genome.identity).Nodup := by
  have different : genomes.Nodup := List.Nodup.of_map _ apart
  refine different.map_on fun g member h member' same => ?_
  exact List.inj_on_of_nodup_map apart member member' (digests g member h member' same)

/-- Fewer identities than there are genomes leave one of them free. -/
theorem exists_free {genomes : List Genome} (apart : (genomes.map Genome.identity).Nodup)
    {taken : List String} (fewer : taken.length < genomes.length) :
    ∃ g ∈ genomes, g.identity ∉ taken := by
  by_contra nothing
  push Not at nothing
  have covered : genomes.map Genome.identity ⊆ taken := by
    intro id member
    obtain ⟨g, inside, rfl⟩ := List.mem_map.mp member
    exact nothing g inside
  have shorter := (apart.subperm covered).length_le
  rw [List.length_map] at shorter
  omega

end Nine

namespace Litter

variable {settings : GeneticSettings}

theorem resumes_retry {taken : List String} {again : Fractal → Draws Fractal}
    (step : ∀ f, Resumes 0 (again f)) (attempts : Nat) (f : Fractal) :
    Resumes 0 (retry taken again attempts f) := by
  induction attempts generalizing f with
  | zero => exact resumes_pure
  | succ attempts ih =>
    unfold retry
    split_ifs
    · exact (step f).then ih
    · exact resumes_pure

theorem replaceWithin_taken {taken : List String} {f g : Fractal}
    (isTaken : taken.contains f.id = true) (bound : Nat) {words left : List UInt64}
    (drawn : Fractal.random settings words = .ok (g, left)) :
    replaceWithin settings taken (bound + 1) f words = replaceWithin settings taken bound g left := by
  have again : replaceWithin settings taken (bound + 1) f =
      Fractal.random settings >>= replaceWithin settings taken bound := by
    simp only [replaceWithin, isTaken, ↓reduceIte]
  rw [again]
  change (Fractal.random settings words >>= fun result =>
    replaceWithin settings taken bound result.1 result.2) = _
  rw [drawn]
  rfl

/-- If no words are at hand, those of a free genome end the loop. -/
theorem exists_ended {taken : List String} {g : Genome} (yields : Yields (Genome.random settings) g)
    (free : g.identity ∉ taken) (f : Fractal) :
    ∃ more h, ∀ rest bound, (more ++ rest).length < bound →
      replaceWithin settings taken bound f (more ++ rest) = .ok (h, rest) := by
  cases isTaken : taken.contains f.id with
  | true =>
    have random : Yields (Fractal.random settings) (.new g ⟨.random, []⟩) := yields.bind yields_pure
    obtain ⟨more, drawn⟩ := random
    have untaken : taken.contains (Fractal.new g ⟨.random, []⟩).id = false := by
      simpa [Fractal.new] using free
    refine ⟨more, .new g ⟨.random, []⟩, fun rest bound long => ?_⟩
    obtain ⟨bound, rfl⟩ : ∃ n, bound = n + 1 := ⟨bound - 1, by omega⟩
    rw [replaceWithin_taken isTaken bound (drawn rest), replaceWithin_untaken settings untaken]
    rfl
  | false =>
    refine ⟨[], f, fun rest bound _ => ?_⟩
    rw [replaceWithin_untaken settings isTaken]
    rfl

section Resumption

variable (drawable : settings.Drawable)
include drawable

theorem resumes_child (parents : List Fractal) (slot : Nat) :
    Resumes 0 (child settings parents slot) := by
  unfold child
  cases parents with
  | nil => exact (Fractal.resumes_random drawable).weaken
  | cons parent others =>
    refine (Draws.resumes_pick parent others).weaken.then fun first => ?_
    split
    · refine (Draws.resumes_pick parent others).weaken.then fun second => ?_
      exact (Genome.resumes_cross first.genome second.genome).then fun _ => resumes_pure
    · exact (Genome.resumes_mutate drawable.shifts first.genome).then fun _ => resumes_pure
    · exact Fractal.resumes_introduced drawable first.genome

/-- The bound on the replacements is never reached: each uses a word up, and when none is left the
words of a free genome end the loop. -/
theorem exists_replaced {taken : List String} {g : Genome}
    (yields : Yields (Genome.random settings) g) (free : g.identity ∉ taken) (count : Nat)
    {words : List UInt64} (short : words.length ≤ count) (f : Fractal) :
    ∃ more h left, left <:+ words ∧ ∀ rest bound, (words ++ (more ++ rest)).length < bound →
      replaceWithin settings taken bound f (words ++ (more ++ rest)) = .ok (h, left ++ rest) := by
  -- on the words at hand, of which a random fractal leaves fewer; those at the end are chosen
  induction count generalizing words f with
  | zero =>
    obtain rfl := List.eq_nil_of_length_eq_zero (Nat.le_zero.mp short)
    obtain ⟨more, h, ended⟩ := exists_ended yields free f
    exact ⟨more, h, [], List.suffix_rfl, ended⟩
  | succ count ih =>
    cases isTaken : taken.contains f.id with
    | true =>
      cases words with
      | nil => exact ih (by rw [List.length_nil]; exact Nat.zero_le count) f
      | cons w words =>
        obtain ⟨more, h, left, shorter, drawn⟩ := Fractal.resumes_random drawable (w :: words)
        have fewer := shorter.length_le
        rw [List.drop_one, List.tail_cons] at fewer
        rw [List.length_cons] at short
        obtain ⟨more', h', left', shorter', replaced⟩ := ih (by omega : left.length ≤ count) h
        refine ⟨more ++ more', h', left', shorter'.trans (shorter.trans (List.drop_suffix 1 _)),
          fun rest bound long => ?_⟩
        obtain ⟨bound, rfl⟩ : ∃ n, bound = n + 1 := ⟨bound - 1, by omega⟩
        rw [List.append_assoc, replaceWithin_taken isTaken bound (drawn (more' ++ rest))]
        refine replaced rest bound ?_
        simp only [List.length_append, List.length_cons] at long ⊢
        omega
    | false =>
      refine ⟨[], f, words, List.suffix_rfl, fun rest bound _ => ?_⟩
      rw [replaceWithin_untaken settings isTaken]
      rfl

theorem resumes_replace {taken : List String} {g : Genome}
    (yields : Yields (Genome.random settings) g) (free : g.identity ∉ taken) (f : Fractal) :
    Resumes 0 (replace settings taken f) := by
  intro words
  obtain ⟨more, h, left, shorter, replaced⟩ := exists_replaced drawable yields free _ le_rfl f
  exact ⟨more, h, left, shorter, fun rest => replaced rest _ (Nat.lt_succ_self _)⟩

variable {genomes : List Genome} (yields : ∀ g ∈ genomes, Yields (Genome.random settings) g)
  (apart : (genomes.map Genome.identity).Nodup)
include yields apart

theorem resumes_settle {taken : List String} (fewer : taken.length < genomes.length) (f : Fractal) :
    Resumes 0 (settle settings taken f) := by
  obtain ⟨g, member, free⟩ := exists_free apart fewer
  have replaced := resumes_replace drawable (yields g member) free
  unfold settle
  refine (resumes_retry (fun f => Fractal.resumes_redo drawable f) _ f).then fun f => ?_
  cases f.pedigree.parents with
  | nil => exact resumes_pure.then replaced
  | cons parent others =>
    have introduced := fun _ : Fractal => Fractal.resumes_introduced drawable parent
    exact (resumes_retry introduced _ f).then replaced

theorem resumes_settleAll {taken : List String} {children : List Fractal}
    (enough : taken.length + children.length ≤ genomes.length) :
    Resumes 0 (settleAll settings taken children) := by
  induction children generalizing taken with
  | nil => exact resumes_pure
  | cons f rest ih =>
    rw [List.length_cons] at enough
    refine (resumes_settle drawable yields apart (by omega) f).then fun f => ?_
    exact (ih (by rw [List.length_cons]; omega)).then fun _ => resumes_pure

theorem resumes_breed (nine : genomes.length = generationSize) (parents : List Fractal) :
    Resumes 0 (breed settings parents) := by
  have count : Ensures ((List.range generationSize).mapM (child settings parents)) _ :=
    Draws.ensures_mapM fun slot _ => ensures_any (child settings parents slot)
  refine (Draws.resumes_mapM fun slot _ => resumes_child drawable parents slot).bind count ?_
  intro children related
  refine resumes_settleAll drawable yields apart ?_
  rw [nine, ← related.length_eq, List.length_range]
  exact (Nat.zero_add _).le

end Resumption

section Orphans

variable {holds : Genome → Prop} (random : Ensures (Genome.random settings) holds)
include random

/-- A fractal without parents whose genome has the property. -/
def Orphan (holds : Genome → Prop) (f : Fractal) : Prop :=
  f.pedigree = ⟨.random, []⟩ ∧ holds f.genome

theorem ensures_orphan : Ensures (Fractal.random settings) (Orphan holds) :=
  random.bind fun _ holds => ensures_pure ⟨rfl, holds⟩

theorem ensures_settle_orphan (taken : List String) {f : Fractal} (orphan : Orphan holds f) :
    Ensures (settle settings taken f) (Orphan holds) := by
  have redone : ∀ f, Orphan holds f → Ensures (f.redo settings) (Orphan holds) := by
    intro f orphan
    refine Ensures.map ?_
    rw [Fractal.rebred, orphan.1]
    exact random.mono fun _ holds => ⟨orphan.1, holds⟩
  unfold settle
  refine (ensures_retry redone _ orphan).bind fun g orphan => ?_
  have replaced := (ensures_replace settings (ensures_orphan random) taken orphan).mono
    fun _ both => both.1
  have alone : g.pedigree.parents = [] := by rw [orphan.1]
  rw [alone]
  exact replaced

theorem ensures_settleAll_orphan (taken : List String) {children : List Fractal}
    (orphans : ∀ f ∈ children, Orphan holds f) :
    Ensures (settleAll settings taken children) (fun settled => ∀ f ∈ settled, Orphan holds f) := by
  induction children generalizing taken with
  | nil => exact ensures_pure (by simp)
  | cons f rest ih =>
    have first := ensures_settle_orphan random taken (orphans f List.mem_cons_self)
    refine first.bind fun g orphan => ?_
    have settled := ih (g.id :: taken) fun h member => orphans h (List.mem_cons_of_mem _ member)
    refine settled.bind fun gs others => ?_
    exact ensures_pure (List.forall_mem_cons.mpr ⟨orphan, others⟩)

/-- The first generation consists of random genomes. -/
theorem ensures_breed_orphans :
    Ensures (breed settings []) (fun children => ∀ f ∈ children, holds f.genome) := by
  have born : Ensures ((List.range generationSize).mapM (child settings [])) _ :=
    Draws.ensures_mapM fun slot _ =>
      (ensures_orphan random : Ensures (child settings [] slot) (Orphan holds))
  refine born.bind fun children related => ?_
  have orphans : ∀ f ∈ children, Orphan holds f := by
    intro f member
    obtain ⟨i, found⟩ := List.getElem?_of_mem member
    obtain ⟨slot, -, orphan⟩ := related_at related found
    exact orphan
  exact (ensures_settleAll_orphan random [] orphans).mono fun _ all f member => (all f member).2

end Orphans

end Litter

namespace Population

variable {settings : GeneticSettings}

/-- Breeding that is not trapped at the start can draw constants. -/
theorem usable_of_escapes (escapes : Escapes (breed settings {})) :
    Draws.usable settings.constantMin settings.constantMax = true := by
  have slots : List.range generationSize = [] ++ 0 :: [1, 2, 3, 4, 5, 6, 7, 8] := rfl
  have children : Escapes ((List.range generationSize).mapM (Litter.child settings [])) :=
    escapes.first.first
  rw [slots] at children
  have random : Escapes (Fractal.random settings) := children.of_mapM (by simp)
  have constant : Escapes (Growth.constant settings) := random.first.first.first
  exact constant.between_usable

/-- If no number lies inside the range of the constants, all random genomes are the same. -/
theorem ensures_random_lowest
    (nothing : ∀ c, settings.constantMin < c → ¬ c < settings.constantMax) :
    Ensures (Genome.random settings)
      (· = Genome.simple settings.lowest ((settings.lowest, settings.lowest),
        (settings.lowest, settings.lowest))) := by
  have constant : Ensures (Growth.constant settings) (· = settings.lowest) := by
    intro words c left returned
    obtain ⟨isUsable, w, below, rfl⟩ := Draws.exists_drawn returned
    exact Draws.drawn_unique isUsable nothing below (Draws.drawn_zero isUsable).2
  have attractor : Ensures (Growth.attractor settings)
      (· = .ofExpr (Growth.clifford settings.lowest settings.lowest)) :=
    constant.bind fun _ scale => constant.bind fun _ weight => ensures_pure (by rw [scale, weight])
  have plane : Ensures (Growth.plane settings)
      (· = .ofExpr (Growth.weighted settings.lowest settings.lowest)) :=
    constant.bind fun _ a => constant.bind fun _ b => ensures_pure (by rw [a, b]; rfl)
  exact attractor.bind fun _ x => attractor.bind fun _ y => plane.bind fun _ z =>
    ensures_pure (by rw [x, y, z]; rfl)

/-- Then the first generation is never complete. -/
theorem breed_ne_ok (nothing : ∀ c, settings.constantMin < c → ¬ c < settings.constantMax)
    (words left : List UInt64) (p : Population) :
    breed settings {} words ≠ .ok (p, left) := by
  intro returned
  obtain ⟨children, bred, rfl⟩ := children_of_breed returned
  have random := ensures_random_lowest nothing
  have same := Litter.ensures_breed_orphans random words children left bred
  have sound := Litter.ensures_breed settings [] words children left bred
  obtain ⟨f, g, rest, rfl⟩ : ∃ f g rest, children = f :: g :: rest := by
    have count := sound.count
    rcases children with _ | ⟨f, _ | ⟨g, rest⟩⟩
    · cases count
    · cases count
    · exact ⟨f, g, rest, rfl⟩
  have identity : f.id = g.id := by
    rw [(sound.bred f (by simp)).identity, (sound.bred g (by simp)).identity, same f (by simp),
      same g (by simp)]
  have apart := sound.distinct
  rw [List.map_cons, List.map_cons, List.nodup_cons] at apart
  exact apart.1 (by rw [identity]; exact List.mem_cons_self)

/-- Breeding from a parent is not trapped in the second row, which mutates: the first row crosses
without asking for any range. -/
theorem escapes_mutate {f : Fractal} (escapes : Escapes (Litter.breed settings [f])) :
    Escapes (f.mutate settings) := by
  have crossed : ∀ slot ∈ [0, 1, 2], ∃ child, Yields (Litter.child settings [f] slot) child := by
    intro slot member
    have row : slot / 3 = 0 := by
      simp only [List.mem_cons, List.not_mem_nil, or_false] at member
      omega
    have resumes : Resumes 0 (Litter.child settings [f] slot) := by
      unfold Litter.child
      rw [row]
      refine (Draws.resumes_pick f []).weaken.then fun first => ?_
      refine (Draws.resumes_pick f []).weaken.then fun second => ?_
      exact (Genome.resumes_cross first.genome second.genome).then fun _ => resumes_pure
    exact resumes.exists_yields
  have slots : List.range generationSize = [0, 1, 2] ++ 3 :: [4, 5, 6, 7, 8] := rfl
  have children := escapes.first
  rw [slots] at children
  exact (children.of_mapM crossed).after (Draws.yields_pick f [])

/-- A mutation that is not trapped in an attractor can draw shifts, if constants may move. -/
theorem usable_of_escapes_mutate {f : Fractal} {a b : Float}
    (formula : f.genome.x = some (.ofExpr (Growth.clifford a b)))
    (escapes : Escapes (f.mutate settings)) (may : 0 < settings.mutateChance) :
    Draws.usable (-settings.mutateRange) settings.mutateRange = true := by
  have first : Escapes (Genome.traverseAxis (fun f => f.mutate settings) f.genome.x) :=
    escapes.first.first
  rw [formula] at first
  have visited : Escapes ((Growth.clifford a b).traverseConstants (Formula.mutateConstant settings)) :=
    first.of_map.of_map
  simp only [Growth.clifford, Expr.traverseConstants_binary, Expr.traverseConstants_unary,
    Expr.traverseConstants_const] at visited
  have moved : Escapes (Formula.mutateConstant settings a) := visited.first.of_map.first.of_map
  have shifted := moved.after Draws.yields_unit
  rw [if_pos (Draws.least_lt may)] at shifted
  exact shifted.first.between_usable

/-- Breeding that is not trapped after the first generation can draw shifts, if constants may
move. -/
theorem usable_of_escapes_bred {p : Population} {words left : List UInt64}
    (bred : breed settings {} words = .ok (p, left))
    (escapes : Escapes (breed settings { p with picks := .ofSlots [0] }))
    (may : 0 < settings.mutateChance) :
    Draws.usable (-settings.mutateRange) settings.mutateRange = true := by
  obtain ⟨children, litter, rfl⟩ := children_of_breed bred
  have random : Ensures (Genome.random settings)
      (fun g => ∃ a b, g.x = some (.ofExpr (Growth.clifford a b))) := by
    have attractor : Ensures (Growth.attractor settings)
        (fun f => ∃ a b, f = .ofExpr (Growth.clifford a b)) :=
      (ensures_any _).bind fun a _ => (ensures_any _).bind fun b _ => ensures_pure ⟨a, b, rfl⟩
    refine attractor.bind fun x ⟨a, b, made⟩ => (ensures_any _).bind fun y _ => ?_
    exact (ensures_any _).bind fun z _ => ensures_pure ⟨a, b, congrArg some made⟩
  have made := Litter.ensures_breed_orphans random words children left litter
  have count := (Litter.ensures_breed settings [] words children left litter).count
  obtain ⟨f, rest, rfl⟩ : ∃ f rest, children = f :: rest := by
    cases children with
    | nil => cases count
    | cons f rest => exact ⟨f, rest, rfl⟩
  obtain ⟨a, b, formula⟩ := made f List.mem_cons_self
  have picked : ({ ({} : Population).advance (f :: rest) with picks := .ofSlots [0] }
      : Population).picked = [f] := by
    have slots : (Picks.ofSlots [0]).slots = [0] := by decide
    simp [History.picked, History.advance, slots]
  rw [breed, picked] at escapes
  exact usable_of_escapes_mutate formula (escapes_mutate escapes.first) may

/-- With room for another constant nine genomes with different identities can be drawn. -/
theorem exists_nine (drawable : settings.Drawable) {c : Float} (inner : settings.inner? = some c)
    (digests : TellApart (nineGenomes settings.lowest c)) :
    ∃ genomes : List Genome, genomes.length = generationSize ∧
      (∀ g ∈ genomes, Yields (Genome.random settings) g) ∧
      (genomes.map Genome.identity).Nodup := by
  obtain ⟨first, second, different⟩ := GeneticSettings.yields_inner drawable inner
  have finite : ∀ {c}, Yields (Growth.constant settings) c → c.isFinite = true := by
    intro c yields
    obtain ⟨words, returned⟩ := yields
    exact (Growth.secures_constant drawable.constants).ensures _ c [] (returned [])
  refine ⟨nineGenomes settings.lowest c, rfl, yields_nineGenomes first second, ?_⟩
  exact nodup_identities digests (nodup_signatures (finite first) (finite second) different)

variable (settings)

/-- Breeding is never trapped exactly if the settings leave room: a number strictly inside the range
of the constants, and a range for the shifts if constants may move. Then also every fractal whose
identity is taken can be replaced, as long as fewer identities are taken than a generation has. The
digests are asked to tell nine genomes with two constants apart. -/
theorem breed_escapes_iff (valid : settings.fault? = none)
    (digests : ∀ c, settings.inner? = some c → TellApart (nineGenomes settings.lowest c)) :
    ((∀ p : Population, p.Reachable → Escapes (breed settings p)) ↔ settings.Roomy) ∧
      (settings.Roomy → ∀ taken f, taken.length < generationSize → ∀ words, ∃ more g left,
        Litter.replace settings taken f (words ++ more) = .ok (g, left) ∧ g.id ∉ taken) := by
  have within : settings.Roomy → settings.Drawable ∧ ∃ genomes : List Genome,
      genomes.length = generationSize ∧ (∀ g ∈ genomes, Yields (Genome.random settings) g) ∧
      (genomes.map Genome.identity).Nodup := by
    intro roomy
    have drawable := roomy.drawable valid
    obtain ⟨c, inner⟩ := roomy.exists_inner drawable
    exact ⟨drawable, exists_nine drawable inner (digests c inner)⟩
  refine ⟨⟨fun always => ?_, fun roomy p _ => ?_⟩, fun roomy taken f fewer words => ?_⟩
  · have start := always {} .empty
    have isUsable := usable_of_escapes start
    obtain ⟨words, p, left, bred⟩ := start []
    refine ⟨(Draws.isFinite_of_usable isUsable).2.1, ?_, fun may => ?_⟩
    · by_contra nothing
      push Not at nothing
      exact breed_ne_ok nothing _ left p bred
    · have reached : Population.Reachable { p with picks := .ofSlots [0] } := by
        obtain ⟨children, litter, rfl⟩ := children_of_breed bred
        exact (Reachable.empty.perform (perform_breed litter) trivial).select _
      have shifts := usable_of_escapes_bred bred (always _ reached) may
      exact (Draws.isFinite_of_usable shifts).2.1
  · obtain ⟨drawable, genomes, nine, yields, apart⟩ := within roomy
    exact ((Litter.resumes_breed drawable yields apart nine p.picked).then
      fun _ => resumes_pure).escapes
  · obtain ⟨drawable, genomes, nine, yields, apart⟩ := within roomy
    obtain ⟨g, member, free⟩ := exists_free apart (nine ▸ fewer)
    obtain ⟨more, h, left, returned⟩ :=
      (Litter.resumes_replace drawable (yields g member) free f).escapes words
    have untaken := Litter.ensures_replace settings (ensures_any _) taken (f := f) trivial
    exact ⟨more, h, left, returned, (untaken _ h left returned).2⟩

/-- Settings whose constants are between 0 and 4. -/
def ample : GeneticSettings := { constantMin := 0, constantMax := 4 }

/-- The constants of nine genomes with the identities that they have. -/
def ampleNames : List (((Float × Float) × (Float × Float)) × String) :=
  [(((0, 0), (0, 0)), "fractal_239dad5a6e3a11e9"), (((0, 0), (0, 1)), "fractal_72dc08d2bf33cfe1"),
    (((0, 0), (1, 0)), "fractal_882a98ac76073c94"), (((0, 1), (0, 0)), "fractal_54581828192c373d"),
    (((0, 1), (0, 1)), "fractal_60aecfe6bfe339ca"), (((0, 1), (1, 0)), "fractal_38a099c8445a893d"),
    (((1, 0), (0, 0)), "fractal_8e70323e95ee255c"), (((1, 0), (0, 1)), "fractal_a194d8819c771779"),
    (((1, 0), (1, 0)), "fractal_665cb99c637fa42b")]

theorem identity_ampleNames :
    ∀ named ∈ ampleNames, (Genome.simple 0 named.1).identity = named.2 := by
  intro named member
  simp only [ampleNames, List.mem_cons, List.not_mem_nil, or_false] at member
  rcases member with rfl | rfl | rfl | rfl | rfl | rfl | rfl | rfl | rfl <;> decide +kernel

theorem tellApart_ample {c : Float} (inner : ample.inner? = some c) :
    TellApart (nineGenomes ample.lowest c) := by
  have constants : ample.lowest = 0 ∧ ample.inner? = some 1 := by decide +kernel
  rw [constants.2] at inner
  cases inner
  have listed : (pairs 0 1 ×ˢ pairs 0 1) = ampleNames.map Prod.fst := by decide +kernel
  have identities : (nineGenomes 0 1).map Genome.identity = ampleNames.map Prod.snd := by
    rw [nineGenomes, listed, List.map_map, List.map_map]
    exact List.map_congr_left identity_ampleNames
  have apart : (ampleNames.map Prod.snd).Nodup := by decide
  rw [← identities] at apart
  rw [constants.1]
  intro g member h member' same
  rw [List.inj_on_of_nodup_map apart member member' same]

theorem breed_escapes_iff_ample : ample.fault? = none ∧
    ∀ p : Population, p.Reachable → Escapes (breed ample p) := by
  have valid : ample.fault? = none := by decide +kernel
  have roomy : ample.Roomy := ⟨by decide +kernel, ⟨1, by decide +kernel⟩, fun _ => by decide +kernel⟩
  exact ⟨valid, (breed_escapes_iff ample valid fun _ => tellApart_ample).1.mpr roomy⟩

/-- Settings whose constants are between 1 and the next number. -/
def narrow : GeneticSettings := { constantMin := 1, constantMax := Float.ofBits 0x3ff0000000000001 }

/-- They are valid, but there is no number inside; the first generation is never complete. -/
theorem not_always_escapes : narrow.fault? = none ∧ Population.Reachable {} ∧
    ∀ words left p, breed narrow {} words ≠ .ok (p, left) := by
  refine ⟨by decide +kernel, .empty, breed_ne_ok fun c above below => ?_⟩
  have number := (Binary64.isNaN_of_lt above).2
  have least := (Binary64.lt_iff_rank (by decide +kernel) number).mp above
  have most := (Binary64.lt_iff_rank number (by decide +kernel)).mp below
  have next : Binary64.rank narrow.constantMax = Binary64.rank narrow.constantMin + 1 := by
    decide +kernel
  omega

end Population

end FractalBreeder
