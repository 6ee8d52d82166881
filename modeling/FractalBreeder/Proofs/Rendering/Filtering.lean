import FractalBreeder.Proofs.Rendering.Density

/-!
How a job ends that nobody disturbs. What it tells and what it makes of its fractal follow from what
is done for the picture, and every step leads on to the end. So the job takes the first dense picture
over, or the last one of all, unless a render uses up its calls or a change cannot be made.
-/
namespace FractalBreeder

open Deed (sizes Exhausted replay act Alike)

/-! ### What is told -/

namespace Phase

/-- Between the first event and the last one. -/
def isBusy : Phase → Bool
  | .announcing | .reporting _ | .lamenting _ _ | .withdrawing | .repainting | .over => false
  | _ => true

/-- After the first event and not after the last one. -/
def isQuiet : Phase → Bool
  | .announcing | .repainting | .over => false
  | _ => true

end Phase

namespace Bench

variable {setup : Setup} {b after : Bench} {reply : Reply} {notice : Option Notice}
  {events : List RenderEvent} {first : String} {deeds : List Deed}

/-- What a job has told that began with the identity `first`. -/
def Heard (b : Bench) (first : String) (events : List RenderEvent) : Prop :=
  match b.job.phase with
  | .announcing => b.fractal.id = first ∧ events = []
  | .repainting | .over =>
    b.fractal.state = .ready ∧ events =
        [.started b.job.slot first,
          .ready b.job.slot b.fractal.id b.job.attempts b.job.regenerations] ∨
      b.fractal.state = .failed ∧ ∃ reason, events =
        [.started b.job.slot first, .failed b.job.slot b.fractal.id reason]
  | _ => events = [.started b.job.slot first]

theorem heard_of_isQuiet (quiet : b.job.phase.isQuiet = true) :
    b.Heard first events ↔ events = [.started b.job.slot first] := by
  unfold Heard
  cases phase : b.job.phase with
  | announcing | repainting | «over» =>
    rw [phase] at quiet
    cases quiet
  | _ => exact Iff.rfl

/-- Between its first and its last event a job tells nothing. -/
theorem Steps.quiet (steps : Steps setup reply b after notice) (busy : b.job.phase.isBusy = true) :
    after.job.phase.isQuiet = true ∧ Notice.events notice = [] := by
  cases steps <;>
    grind [Phase.isBusy, Phase.isQuiet, Notice.events, Bench.enter, Phase.varies, Job.isOver]

/-- The events are those of the phase. -/
theorem Heard.step (heard : b.Heard first events) (fits : b.job.Fits False setup.store b.fractal)
    (staying : b.job.phase ≠ .withdrawing) :
    (b.step setup reply).1.Heard first (events ++ Notice.events (b.step setup reply).2) := by
  have steps := steps_step setup reply b
  have busy_step (busy : b.job.phase.isBusy = true) (heard : events = [.started b.job.slot first]) :
      (b.step setup reply).1.Heard first (events ++ Notice.events (b.step setup reply).2) := by
    obtain ⟨quiet, silent⟩ := steps.quiet busy
    rw [heard_of_isQuiet quiet, silent, List.append_nil, steps.slot_eq]
    exact heard
  cases phase : b.job.phase with
  | announcing =>
    rw [Heard, phase] at heard
    obtain ⟨rfl, rfl⟩ := heard
    simp only [Bench.step, phase]
    rfl
  | reporting identity =>
    rw [Heard, phase] at heard
    rw [Job.Fits, phase] at fits
    obtain ⟨ready, rfl⟩ := fits
    subst heard
    simp only [Bench.step, phase]
    exact .inl ⟨ready, rfl⟩
  | lamenting identity fault =>
    rw [Heard, phase] at heard
    rw [Job.Fits, phase] at fits
    obtain ⟨failed, rfl⟩ := fits
    subst heard
    simp only [Bench.step, phase]
    exact .inr ⟨failed, _, rfl⟩
  | withdrawing => exact absurd phase staying
  | repainting | «over» =>
    rw [Heard, phase] at heard
    simp only [Bench.step, phase, Notice.events, List.append_nil]
    unfold Heard
    first
    | exact heard
    | rw [phase]
      exact heard
  | _ =>
    rw [Heard, phase] at heard
    exact busy_step (by rw [phase]; rfl) heard

/-! ### What becomes of the fractal -/

/-- The changes have made the fractal out of `work`, or one of them could not be made. -/
def Bred (settings : GeneticSettings) (b : Bench) (work : Fractal × Source) (deeds : List Deed) : Prop :=
  match replay settings deeds work with
  | .ok (g, source) => b.job.phase ≠ .dead ∧ b.job.source = source ∧ Alike b.fractal g
  | .error _ => b.job.phase = .dead

/-- Other steps leave the genome and the words of the job alone. -/
theorem Steps.alike (steps : Steps setup reply b after notice) (still : b.job.phase.varies = false) :
    after.job.source = b.job.source ∧ Alike after.fractal b.fractal := by
  cases steps with
  | varied _ _ _ varies _ | spoiled _ varies =>
    rw [still] at varies
    cases varies
  | _ => exact ⟨rfl, rfl, rfl, rfl⟩

/-- Only a change or a call can take a job down. -/
theorem Steps.dead_iff (steps : Steps setup reply b after notice) (still : b.job.phase.varies = false)
    (answered : ∀ turn, b.job.phase = .calling turn → reply ≠ .crashed) :
    after.job.phase = .dead ↔ b.job.phase = .dead := by
  cases steps <;> grind [Bench.enter, Phase.varies, Job.isOver]

theorem Steps.pedigree_eq (steps : Steps setup reply b after notice) :
    after.fractal.pedigree = b.fractal.pedigree := by
  cases steps <;> rfl

/-- A change is made by the words of the job, and takes it down where they do not allow it. -/
theorem choose_withGenome (b : Bench) (choice : Draws Genome) (next : Phase) :
    (b.clear setup).choose ((b.clear setup).fractal.withGenome <$> choice) next =
      match b.job.source.draw choice with
      | .ok (genome, source) =>
        ⟨{ b.job with source, phase := next }, b.fractal.varied genome,
          setup.store.discard b.disk b.fractal.id⟩
      | .error _ =>
        ⟨{ b.job with phase := .dead }, { b.fractal with state := .discarded, image := none },
          setup.store.discard b.disk b.fractal.id⟩ := by
  have words : (b.clear setup).job.source = b.job.source := rfl
  unfold choose
  rw [Source.draw_map, words]
  cases b.job.source.draw choice with
  | ok _ => rfl
  | error _ => rfl

variable {settings : GeneticSettings} {work : Fractal × Source}

/-- A change makes the same of the fractal as of what was made again. -/
theorem Bred.varied (setup : Setup) (choice : Draws Genome) (d : Deed)
    (bred : b.Bred settings work deeds) (alive : b.job.phase ≠ .dead) {next : Phase}
    (living : next ≠ .dead)
    (acts : ∀ g source, Alike b.fractal g →
      act settings (g, source) d = (source.draw choice).map (Prod.map g.withGenome id)) :
    ((b.clear setup).choose ((b.clear setup).fractal.withGenome <$> choice) next).Bred settings work
      (deeds ++ [d]) := by
  -- the job draws from the words that the changes before have left
  unfold Bred at bred ⊢
  rw [choose_withGenome, Deed.replay_append]
  cases replayed : replay settings deeds work with
  | error halt =>
    rw [replayed] at bred
    exact absurd bred alive
  | ok made =>
    obtain ⟨g, source⟩ := made
    rw [replayed] at bred
    obtain ⟨-, rfl, alike⟩ := bred
    simp only [bind, Except.bind, Deed.replay_singleton, acts g _ alike]
    cases b.job.source.draw choice with
    | error halt => rfl
    | ok drawn => exact ⟨living, rfl, rfl, rfl, alike.pedigree⟩

/-- Calls and all other steps leave the fractal as it was made. -/
theorem Bred.kept (bred : b.Bred settings work deeds) (source : after.job.source = b.job.source)
    (alike : Alike after.fractal b.fractal) (dead : after.job.phase = .dead ↔ b.job.phase = .dead)
    {more : List Deed} (idle : ∀ work, replay settings more work = .ok work) :
    after.Bred settings work (deeds ++ more) := by
  unfold Bred at bred ⊢
  rw [Deed.replay_append]
  cases replayed : replay settings deeds work with
  | error halt =>
    rw [replayed] at bred
    exact dead.mpr bred
  | ok made =>
    obtain ⟨g, left⟩ := made
    rw [replayed] at bred
    obtain ⟨alive, rfl, same⟩ := bred
    simp only [bind, Except.bind, idle]
    exact ⟨fun died => alive (dead.mp died), source, alike.trans same⟩

theorem Bred.step (bred : b.Bred setup.genetic work deeds)
    (answered : ∀ turn, b.job.phase = .calling turn → reply ≠ .crashed) :
    (b.step setup reply).1.Bred setup.genetic work (deeds ++ (b.deed? reply).toList) := by
  have steps := steps_step setup reply b
  have kept (still : b.job.phase.varies = false)
      (idle : ∀ work, replay setup.genetic (b.deed? reply).toList work = .ok work) :
      (b.step setup reply).1.Bred setup.genetic work (deeds ++ (b.deed? reply).toList) :=
    bred.kept (steps.alike still).1 (steps.alike still).2 (steps.dead_iff still answered) idle
  cases phase : b.job.phase with
  | mutating retry =>
    have alive : b.job.phase ≠ .dead := by
      rw [phase]
      intro same
      cases same
    have living : Phase.requesting retry ≠ .dead := by
      intro same
      cases same
    have varied := Bred.varied setup (b.fractal.genome.mutate setup.genetic) .mutated bred alive living
      fun g source alike => by rw [Deed.act_mutated, alike.genome]
    simp only [Bench.step, deed?, phase, Option.toList_some]
    exact varied
  | rebreeding =>
    have alive : b.job.phase ≠ .dead := by
      rw [phase]
      intro same
      cases same
    have living : Phase.opening 0 ≠ .dead := by
      intro same
      cases same
    have varied := Bred.varied setup (b.fractal.rebred setup.genetic) .rebred bred alive living
      fun g source alike => by rw [Deed.act_rebred, alike.rebred_eq]
    simp only [Bench.step, deed?, phase, Option.toList_some]
    exact varied
  | calling turn =>
    refine kept (by rw [phase]; rfl) fun work => ?_
    simp only [deed?, phase, Option.toList_some, Deed.replay_singleton]
    rcases outcome_cases b turn reply with made | ⟨size, made⟩
    · rw [made]
      rfl
    · rw [made]
      rfl
  | _ =>
    refine kept (by rw [phase]; rfl) fun work => ?_
    simp only [deed?, phase]
    rfl

end Bench

namespace Labour

variable {setup : Setup} {f : Fractal} {source : Source} {p : Labour} {o : Occasion}

/-- Nobody else touches the picture of the fractal, and the disk allows what is needed. -/
structure Untouched (setup : Setup) (p : Labour) (o : Occasion) : Prop where
  own : setup.store.picture? (o.others p.bench.disk) p.bench.fractal.id =
    setup.store.picture? p.bench.disk p.bench.fractal.id
  eased : (p.met o).Eased setup

/-- Besides, every call returns. -/
structure Undisturbed (setup : Setup) (p : Labour) (o : Occasion) : Prop
    extends Untouched setup p o where
  lawful : ∀ turn, p.bench.job.phase = .calling turn → o.reply.Lawful p.bench.job.flag

/-- What is known of a job that began with the fractal `f` and the words `source`. -/
structure Sifting (setup : Setup) (f : Fractal) (source : Source) (p : Labour) : Prop where
  fits : p.bench.job.Fits False setup.store p.bench.fractal
  calm : p.bench.job.flag.raised = false
  staged : p.bench.Staged setup p.deeds
  heard : p.bench.Heard f.id p.events
  bred : p.bench.Bred setup.genetic (f, source) p.deeds
  lineage : p.bench.fractal.pedigree = f.pedigree

/-- What the others do meanwhile changes nothing of it. -/
theorem Sifting.met (sifting : p.Sifting setup f source) (untouched : p.Untouched setup o) :
    (p.met o).Staged setup p.deeds := by
  have staged := sifting.staged
  rw [Bench.Staged, ← untouched.own] at staged
  exact staged

/-- What one step keeps. -/
theorem Sifting.step (sifting : p.Sifting setup f source) (ample : setup.render.most < 2 ^ 32)
    (able : 0 < setup.render.attempts.toNat) (undisturbed : p.Undisturbed setup o) :
    (p.step setup o).Sifting setup f source := by
  have steps := Bench.steps_step setup o.reply (p.met o)
  have answered (turn : Turn) (phase : (p.met o).job.phase = .calling turn) : o.reply ≠ .crashed := by
    intro crashed
    have lawful := undisturbed.lawful turn phase
    rw [crashed] at lawful
    exact lawful
  have staying : (p.met o).job.phase ≠ .withdrawing := by
    intro phase
    have staged := sifting.met undisturbed.toUntouched
    rw [Bench.Staged, phase] at staged
    exact staged
  exact {
    fits := steps.fits sifting.fits fun turn phase => .inl (undisturbed.lawful turn phase)
    calm := calm_step sifting.calm o
    staged := (sifting.met undisturbed.toUntouched).step sifting.fits sifting.calm ample able
      undisturbed.eased undisturbed.lawful
    heard := Bench.Heard.step (b := p.met o) sifting.heard sifting.fits staying
    bred := Bench.Bred.step (b := p.met o) sifting.bred answered
    lineage := steps.pedigree_eq.trans sifting.lineage }

/-- A new job, before its first step. -/
def starting (slot place : Nat) (source : Source) (f : Fractal) (disk : Disk) : Labour where
  bench := ⟨{ slot, fractal := place, source }, f, disk⟩

/-- The job has taken the picture `n` over, the first dense one or the last one of all, after a change
before each but the first. -/
structure Chosen (setup : Setup) (slot : Nat) (f : Fractal) (source : Source) (lengths : Nat → Nat)
    (p : Labour) (n : Nat) : Prop where
  phase : p.bench.job.phase = .over
  state : p.bench.fractal.state = .ready
  first : IsLeast {i | 1 ≤ i ∧
    (setup.render.sparseThreshold.toNat ≤ lengths i ∨ i = setup.render.most)} n
  attempts : p.bench.job.attempts.toNat = n
  regenerations : p.bench.job.regenerations.toNat = (n - 1) / (setup.render.maxSparseRetries.toNat + 1)
  told : p.events = [.started slot f.id,
    .ready slot p.bench.fractal.id p.bench.job.attempts p.bench.job.regenerations]
  image : ∃ image, p.bench.fractal.image = some image ∧ image.bytes.size = lengths n
  mutated : p.deeds.count .mutated = n - 1 - (n - 1) / (setup.render.maxSparseRetries.toNat + 1)
  rebred : p.deeds.count .rebred = (n - 1) / (setup.render.maxSparseRetries.toNat + 1)
  made : ∃ g, replay setup.genetic p.deeds (f, source) = .ok (g, p.bench.job.source) ∧
    Alike p.bench.fractal g
  lineage : p.bench.fractal.pedigree = f.pedigree
  able : ¬ Exhausted (setup.render.ioRetries.toNat + 1) p.deeds

/-- All calls for one picture have failed, after sparse pictures only and before the last one. -/
structure GivenUp (setup : Setup) (slot : Nat) (f : Fractal) (p : Labour) : Prop where
  phase : p.bench.job.phase = .over
  state : p.bench.fractal.state = .failed
  exhausted : Exhausted (setup.render.ioRetries.toNat + 1) p.deeds
  sparse : ∀ size ∈ sizes p.deeds, size < setup.render.sparseThreshold.toNat
  fewer : (sizes p.deeds).length < setup.render.most
  told : ∃ reason, p.events = [.started slot f.id, .failed slot p.bench.fractal.id reason]
  lineage : p.bench.fractal.pedigree = f.pedigree

variable {slot place : Nat} {disk : Disk}

/-- A job that leaves its fractal ready has taken the right picture over. -/
theorem Sifting.chosen {lengths : Nat → Nat} (sifting : p.Sifting setup f source)
    (own : p.bench.job.slot = slot)
    (budget : setup.render.attempts.toNat = setup.render.ioRetries.toNat + 1)
    (phase : p.bench.job.phase = .over) (ready : p.bench.fractal.state = .ready)
    (left : ∀ i size, (sizes p.deeds)[i]? = some size → size = lengths (i + 1)) :
    p.Chosen setup slot f source lengths p.bench.job.attempts.toNat := by
  subst own
  obtain ⟨-, -, staged, heard, bred, lineage⟩ := sifting
  rw [Bench.Staged, phase] at staged
  rw [Bench.Heard, phase] at heard
  rcases staged with ⟨-, accepted, bytes, picture, last⟩ | ⟨failed, -⟩
  · replace heard := heard.resolve_right fun unready => by
      rw [ready] at unready
      cases unready.1
    obtain ⟨image, shown, rfl⟩ := Option.map_eq_some_iff.mp picture
    have size : image.bytes.size = lengths p.bench.job.attempts.toNat := by
      rw [List.getLast?_eq_getElem?, accepted.count] at last
      have size := left _ _ last
      rwa [Nat.sub_add_cancel accepted.positive] at size
    have changed := accepted.changed
    rw [Deed.changes, accepted.rebred, accepted.round] at changed
    exact {
      phase := phase
      state := ready
      first := accepted.isLeast left
      attempts := rfl
      regenerations := accepted.round
      told := heard.2
      image := ⟨image, shown, size⟩
      mutated := by omega
      rebred := accepted.rebred.trans accepted.round
      made := by
        unfold Bench.Bred at bred
        split at bred
        next g source' replayed =>
          obtain ⟨-, rfl, alike⟩ := bred
          exact ⟨g, replayed, alike⟩
        next =>
          rw [phase] at bred
          cases bred
      lineage := lineage
      able := budget ▸ accepted.able }
  · rw [ready] at failed
    cases failed

theorem Sifting.givenUp (sifting : p.Sifting setup f source)
    (own : p.bench.job.slot = slot)
    (budget : setup.render.attempts.toNat = setup.render.ioRetries.toNat + 1)
    (phase : p.bench.job.phase = .over) (failed : p.bench.fractal.state = .failed) :
    p.GivenUp setup slot f := by
  subst own
  obtain ⟨-, -, staged, heard, -, lineage⟩ := sifting
  rw [Bench.Staged, phase] at staged
  rw [Bench.Heard, phase] at heard
  rcases staged with ⟨ready, -⟩ | ⟨-, abandoned⟩
  · rw [failed] at ready
    cases ready
  · replace heard := heard.resolve_left fun ready => by
      rw [failed] at ready
      cases ready.1
    exact {
      phase := phase
      state := failed
      exhausted := budget ▸ abandoned.exhausted
      sparse := abandoned.sparse
      fewer := abandoned.fewer
      told := heard.2
      lineage := lineage }

/-- A mutant that waits for its picture. -/
def mutant : Fractal :=
  let genome : Genome := { x := some (.ofExpr (.binary .add (.var .x) (.const (.float 1)))) }
  { Fractal.new genome ⟨.mutate, [genome]⟩ with state := .rendering }

def waiting : Labour := starting 0 0 (.ofWords [] 1) mutant ⟨[], []⟩

/-- As long as a condition is met, every job takes a picture over or fails. -/
def Settles (setup : Setup) (condition : Labour → Occasion → Prop) : Prop :=
  ∀ (slot place : Nat) (source : Source) (f : Fractal) (disk : Disk) (occasions : List Occasion)
    (lengths : Nat → Nat), f.state = .rendering →
    (starting slot place source f disk).Always setup condition occasions →
    setup.render.most * (4 * (setup.render.ioRetries.toNat + 1) + 8) +
      (4 * (setup.render.ioRetries.toNat + 1) + 13) < occasions.length →
    (∀ i size,
      (sizes ((starting slot place source f disk).run setup occasions).deeds)[i]? = some size →
        size = lengths (i + 1)) →
    (∃ n, ((starting slot place source f disk).run setup occasions).Chosen setup slot f source
        lengths n) ∨
      ((starting slot place source f disk).run setup occasions).GivenUp setup slot f

end Labour

end FractalBreeder
