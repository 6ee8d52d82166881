import FractalBreeder.Proofs.Rendering.Schedules

/-!
Jobs that share the directory of the store, and ask for pictures of different identities. Each does
what it would do by itself: its disk differs from the common one only in pictures of the others.
-/
namespace FractalBreeder

open ImageStore (Matched)
open Disk (Keeps)

/-- The phases in which a job touches the file of its picture. -/
def Phase.touches : Phase → Bool
  | .mutating _ | .calling _ | .cleaning _ _ | .rebreeding | .taking | .settling _ => true
  | _ => false

theorem Phase.touches_of_varies {phase : Phase} (varies : phase.varies = true) :
    phase.touches = true := by
  cases phase with
  | mutating _ | rebreeding => rfl
  | _ => cases varies

/-- A picture that is touched or read was asked for. -/
theorem Phase.Asked.requested {phase : Phase} {able asked : Prop} (before : phase.Asked able asked)
    (own : phase.touches = true) (possible : able) : asked := by
  cases phase with
  | mutating _ | calling _ | cleaning _ _ | rebreeding | taking => exact before
  | settling _ => exact before possible
  | _ => cases own

theorem Phase.Asked.of_reads {phase : Phase} {able asked : Prop} (before : phase.Asked able asked)
    (reads : phase.reads = true) : asked := by
  cases phase with
  | calling _ | inspecting _ | measuring _ | taking => exact before
  | _ => cases reads

/-- A job makes the directory, or changes at most the file of its picture. -/
theorem Bench.Effect.elsewhere {setup : Setup} {b : Bench} {f : Fractal} {disk : Disk}
    (effect : Effect setup b f disk) (fits : b.job.Fits True setup.store b.fractal) :
    disk = b.disk ∨ b.job.phase = .preparing ∧ disk = (setup.store.ensureDir b.disk).1 ∨
      b.job.phase.touches = true ∧ Keeps b.disk disk ∧
        ∀ loc ≠ setup.store.spot b.disk b.fractal.id, disk.node? loc = b.disk.node? loc := by
  have discarded : ∀ {identity : String}, identity = b.fractal.id →
      Keeps b.disk (setup.store.discard b.disk identity) ∧
        ∀ loc ≠ setup.store.spot b.disk b.fractal.id,
          (setup.store.discard b.disk identity).node? loc = b.disk.node? loc := by
    rintro _ rfl
    exact ⟨setup.store.keeps_discard b.disk _, fun loc apart => ImageStore.node?_discard_of_ne apart⟩
  cases effect with
  | still => exact .inl rfl
  | prepared phase => exact .inr (.inl ⟨phase, rfl⟩)
  | @received turn bytes _ phase written =>
      obtain ⟨-, asked⟩ := fits.request (.inr (.inl phase))
      refine .inr (.inr ⟨by rw [phase]; rfl, Disk.keeps_write written, fun loc apart => ?_⟩)
      obtain ⟨free, rfl⟩ := Disk.write_eq_put written
      rw [Disk.node?_put_of_ne (Disk.ne_nil_of_node? free), if_neg]
      rw [asked]
      exact apart
  | @cleaned turn fault phase =>
      obtain ⟨-, asked⟩ := fits.request (.inr (.inr (.inr ⟨fault, phase⟩)))
      exact .inr (.inr ⟨by rw [phase]; rfl, discarded (congrArg Request.identity asked)⟩)
  | varied _ varies | spoiled varies =>
      exact .inr (.inr ⟨Phase.touches_of_varies varies, discarded rfl⟩)
  | taken phase _ _ | givenUp phase => exact .inr (.inr ⟨by rw [phase]; rfl, discarded rfl⟩)

namespace Studio

open StateTransition (Reaches)

section Coexistence

variable (setup : Setup) (origin : Disk)

/-- The places of pictures that other jobs asked for. Where no calls are made, no place counts. -/
def foreign (i : Nat) (calls : List Call) (loc : Location) : Prop :=
  (setup.render.attempts.toNat = 0 ∧ ∃ name, loc = name :: origin.place setup.store.dir) ∨
    ∃ call ∈ calls, call.job ≠ i ∧ setup.store.spot origin call.request.identity = loc

/-- Once the directory is made, the disks are the same for a job. -/
def Alike (i : Nat) (calls : List Call) (disk own : Disk) : Prop :=
  Matched setup.store (foreign setup origin i calls) (setup.store.ensureDir disk).1
    (setup.store.ensureDir own).1

/-- The directory is there, or can be made, and a job that has not started finds the disk as it was
at first. -/
structure Common (calls : List Call) (disk : Disk) : Prop where
  workplace : disk.workplace = origin.workplace
  usable : (setup.store.ensureDir disk).2 = .ok ()
  named : ∀ call ∈ calls, ∃ genome : Genome, call.request.identity = genome.identity
  fresh : ∀ i, (∀ call ∈ calls, call.job ≠ i) → Alike setup origin i calls disk origin

/-- A job that has got where it would get by itself, on a disk that is the same for it. -/
structure Undisturbed (renderer : Renderer) (i : Nat) (calls : List Call) (disk : Disk)
    (start p : Solo) : Prop where
  reached : Reaches (Solo.step? renderer setup) start p
  able : p.Able setup
  usable : (setup.store.ensureDir p.bench.disk).2 = .ok ()
  made : p.bench.job.phase ≠ .announcing → p.bench.job.phase ≠ .preparing →
    disk.Opens setup.store.dir ∧ p.bench.disk.Opens setup.store.dir
  alike : Alike setup origin i calls disk p.bench.disk

/-- Calls for two slots are for two identities. -/
def Apart (calls : List Call) : Prop :=
  ∀ call ∈ calls, ∀ other ∈ calls, call.slot ≠ other.slot →
    call.request.identity ≠ other.request.identity

end Coexistence

section

variable {setup : Setup} {origin disk after own : Disk} {calls more : List Call} {i j : Nat}

theorem foreign_append {loc : Location} (there : foreign setup origin i calls loc) :
    foreign setup origin i (calls ++ more) loc :=
  there.imp id fun ⟨call, member, rest⟩ => ⟨call, List.mem_append_left _ member, rest⟩

theorem inside_foreign (plain : setup.store.IsPlain)
    (named : ∀ call ∈ calls, ∃ genome : Genome, call.request.identity = genome.identity)
    {loc : Location} (there : foreign setup origin i calls loc) :
    ∃ name, loc = name :: origin.place setup.store.dir := by
  rcases there with ⟨-, inside⟩ | ⟨call, member, -, rfl⟩
  · exact inside
  · obtain ⟨genome, same⟩ := named call member
    rw [same]
    exact ⟨_, ImageStore.spot_eq plain origin genome⟩

/-- What happens to the disk happens in places that are foreign to a job, or makes the directory. -/
def Contained (setup : Setup) (origin : Disk) (i : Nat) (calls : List Call) (disk after : Disk) :
    Prop :=
  after = disk ∨ after = (setup.store.ensureDir disk).1 ∨
    disk.Opens setup.store.dir ∧ Keeps disk after ∧
      ∀ loc, ¬ foreign setup origin i calls loc → after.node? loc = disk.node? loc

namespace Contained

variable (contained : Contained setup origin i calls disk after)

include contained

theorem keeps : Keeps disk after := by
  rcases contained with rfl | rfl | ⟨-, keeps, -⟩
  · exact .refl _
  · exact (Disk.extends_makeDirectories _ _).keeps
  · exact keeps

variable (possible : (setup.store.ensureDir disk).2 = .ok ())

include possible

theorem usable : (setup.store.ensureDir after).2 = .ok () := by
  have keeps := contained.keeps
  rcases contained with rfl | rfl | ⟨opens, -, -⟩
  · exact possible
  · rw [ImageStore.ensureDir_of_opens (ImageStore.opens_ensureDir possible)]
  · rw [ImageStore.ensureDir_of_opens (keeps.opens opens)]

/-- It is not seen by the job. -/
theorem alike (plain : setup.store.IsPlain) (alike : Alike setup origin i calls disk own)
    (workplace : disk.workplace = origin.workplace)
    (named : ∀ call ∈ calls ++ more, ∃ genome : Genome, call.request.identity = genome.identity) :
    Alike setup origin i (calls ++ more) after own := by
  have alike : Alike setup origin i (calls ++ more) disk own := by
    refine alike.mono (fun loc there => foreign_append there) fun loc there => ?_
    rw [Disk.place_congr ((setup.store.workplace_ensureDir disk).trans workplace)]
    exact inside_foreign plain named there
  rcases contained with rfl | rfl | ⟨opens, keeps, elsewhere⟩
  · exact alike
  · unfold Alike at alike ⊢
    rw [ImageStore.ensureDir_of_opens (ImageStore.opens_ensureDir possible)]
    exact alike
  · unfold Alike at alike ⊢
    rw [ImageStore.ensureDir_of_opens opens] at alike
    rw [ImageStore.ensureDir_of_opens (keeps.opens opens)]
    exact alike.change keeps fun loc own => elsewhere loc fun there => own (foreign_append there)

end Contained

theorem alike_of_opens (opens : disk.Opens setup.store.dir) (opens' : own.Opens setup.store.dir) :
    Alike setup origin i calls disk own ↔
      Matched setup.store (foreign setup origin i calls) disk own := by
  unfold Alike
  rw [ImageStore.ensureDir_of_opens opens, ImageStore.ensureDir_of_opens opens']

/-- A step on the common disk and one on the disk of the job have the same outcome. -/
theorem alike_step (reply : Reply) {b : Bench} {genome : Genome} (plain : setup.store.IsPlain)
    (alike : Alike setup origin i calls disk b.disk) (usable : (setup.store.ensureDir disk).2 = .ok ())
    (usable' : (setup.store.ensureDir b.disk).2 = .ok ())
    (made : b.job.phase ≠ .announcing → b.job.phase ≠ .preparing →
      disk.Opens setup.store.dir ∧ b.disk.Opens setup.store.dir)
    (named : b.fractal.id = genome.identity) (fits : b.job.Fits True setup.store b.fractal)
    (unshared : b.job.phase.reads = true →
      ¬ foreign setup origin i calls (setup.store.spot disk b.fractal.id)) :
    ∃ (job : Job) (f : Fractal) (notice : Option Notice) (here there : Disk),
      Bench.step setup reply { b with disk } = (⟨job, f, here⟩, notice) ∧
      Bench.step setup reply b = (⟨job, f, there⟩, notice) ∧
      Alike setup origin i calls here there ∧ (setup.store.ensureDir there).2 = .ok () ∧
      (job.phase ≠ .announcing → job.phase ≠ .preparing →
        here.Opens setup.store.dir ∧ there.Opens setup.store.dir) := by
  by_cases announcing : b.job.phase = .announcing
  · refine ⟨{ b.job with phase := .preparing }, b.fractal,
      some (.event (.started b.job.slot b.fractal.id)), disk, b.disk, ?_, ?_, alike, usable',
      fun _ other => absurd rfl other⟩
    · simp only [Bench.step, announcing]
      rfl
    · simp only [Bench.step, announcing]
      rfl
  by_cases preparing : b.job.phase = .preparing
  · have opens := ImageStore.opens_ensureDir usable
    have opens' := ImageStore.opens_ensureDir usable'
    refine ⟨{ b.job with phase := .opening 0 }, b.fractal, none, (setup.store.ensureDir disk).1,
      (setup.store.ensureDir b.disk).1, ?_, ?_, (alike_of_opens opens opens').mpr alike,
      congrArg Prod.snd (ImageStore.ensureDir_of_opens opens'), fun _ _ => ⟨opens, opens'⟩⟩
    · simp only [Bench.step, preparing, usable]
      rfl
    · simp only [Bench.step, preparing, usable']
      rfl
  obtain ⟨opens, opens'⟩ := made announcing preparing
  have matched := (alike_of_opens opens opens').mp alike
  have mirrors : Bench.Mirrors setup.store (foreign setup origin i calls) { b with disk } b :=
    ⟨b.disk, rfl, matched⟩
  obtain ⟨⟨there, same, matched⟩, notice⟩ :=
    mirrors.step reply plain named fits preparing unshared
  refine ⟨_, _, _, _, there, rfl, Prod.ext same notice,
    (alike_of_opens matched.left matched.right).mpr matched,
    congrArg Prod.snd (ImageStore.ensureDir_of_opens matched.right),
    fun _ _ => ⟨matched.left, matched.right⟩⟩

/-- What a job does is contained, as far as another one is concerned. -/
theorem Undisturbed.contained {renderer : Renderer} {start p : Solo} {f : Fractal}
    (plain : setup.store.IsPlain) (seen : Undisturbed setup origin renderer j calls disk start p)
    (workplace : disk.workplace = origin.workplace)
    (asked : (calls.filter (·.job == j)).map (·.request) = p.requests)
    (other : ∀ call ∈ calls, call.job = j → call.job ≠ i)
    (effect : Bench.Effect setup { p.bench with disk } f after) :
    Contained setup origin i calls disk after := by
  rcases effect.elsewhere seen.able.fits with same | ⟨-, made⟩ | ⟨touches, keeps, elsewhere⟩
  · exact .inl same
  · exact .inr (.inl made)
  have opens : disk.Opens setup.store.dir := by
    refine (seen.made ?_ ?_).1
    · intro phase
      rw [phase] at touches
      cases touches
    · intro phase
      rw [phase] at touches
      cases touches
  refine .inr (.inr ⟨opens, keeps, fun loc free => elsewhere loc ?_⟩)
  rintro rfl
  apply free
  have here : setup.store.spot disk p.bench.fractal.id =
      setup.store.spot origin p.bench.fractal.id := setup.store.spot_congr workplace _
  rcases Nat.eq_zero_or_pos setup.render.attempts.toNat with none | able
  · left
    have spot := ImageStore.spot_eq plain origin p.bench.fractal.genome
    rw [← seen.able.named, ← here] at spot
    exact ⟨none, _, spot⟩
  · right
    obtain ⟨request, member, same⟩ := seen.able.asked.requested touches able
    rw [← asked] at member
    obtain ⟨call, listed, rfl⟩ := List.mem_map.mp member
    obtain ⟨made, own⟩ := List.mem_filter.mp listed
    refine ⟨call, made, other call made (beq_iff_eq.mp own), ?_⟩
    rw [same]
    exact here.symm

/-- A picture that is read is one that no other job asked for. -/
theorem Undisturbed.unshared {renderer : Renderer} {start p : Solo}
    (plain : setup.store.IsPlain) (seen : Undisturbed setup origin renderer j calls disk start p)
    (named : ∀ call ∈ calls, ∃ genome : Genome, call.request.identity = genome.identity)
    (asked : (calls.filter (·.job == j)).map (·.request) = p.requests)
    (apart : ∀ call ∈ calls, ∀ other ∈ calls, call.job ≠ j → other.job = j →
      call.request.identity ≠ other.request.identity)
    (reads : p.bench.job.phase.reads = true) :
    ¬ foreign setup origin j calls (setup.store.spot origin p.bench.fractal.id) := by
  obtain ⟨request, member, same⟩ := seen.able.asked.of_reads reads
  have able := seen.able.tries (List.ne_nil_of_mem member)
  rw [← asked] at member
  obtain ⟨own, listed, rfl⟩ := List.mem_map.mp member
  obtain ⟨made, here⟩ := List.mem_filter.mp listed
  rintro (⟨none, -⟩ | ⟨call, member', other, spot⟩)
  · omega
  · apply apart call member' own made other (beq_iff_eq.mp here)
    obtain ⟨genome, named⟩ := named call member'
    rw [same]
    rw [named, seen.able.named] at spot ⊢
    exact ImageStore.identity_eq_of_spot plain spot

end

section

variable {setup : Setup} {origin : Disk} {renderer : Renderer} {e s t : Studio} {errand : Errand}
  {visits : List (Nat × Nat)} {i j : Nat}

/-- Nothing happened to a job that starts. -/
theorem Common.start {calls : List Call} {disk : Disk} {job : Job} {f : Fractal}
    (common : Common setup origin calls disk) (usable : (setup.store.ensureDir origin).2 = .ok ())
    (nobody : ∀ call ∈ calls, call.job ≠ i) (announcing : job.phase = .announcing)
    (calm : job.flag.raised = false) (rendering : f.state = .rendering)
    (named : f.id = f.genome.identity) :
    Undisturbed setup origin renderer i calls disk (.start job f origin) (.start job f origin) where
  reached := .refl
  able :=
    { fits := by
        change job.Fits True setup.store f
        rw [Job.Fits, announcing]
        exact rendering
      named := named
      calm := calm
      requests := nofun
      tries := fun filled => absurd rfl filled
      asked := by
        change job.phase.Asked _ _
        rw [announcing]
        trivial }
  usable := usable
  made other := absurd announcing other
  alike := common.fresh i nobody

theorem Undisturbed.other {calls more : List Call} {disk after : Disk} {start p : Solo}
    (seen : Undisturbed setup origin renderer i calls disk start p) (plain : setup.store.IsPlain)
    (common : Common setup origin calls disk) (contained : Contained setup origin i calls disk after)
    (named : ∀ call ∈ calls ++ more, ∃ genome : Genome, call.request.identity = genome.identity) :
    Undisturbed setup origin renderer i (calls ++ more) after start p where
  reached := seen.reached
  able := seen.able
  usable := seen.usable
  made announced prepared := by
    obtain ⟨opens, opens'⟩ := seen.made announced prepared
    exact ⟨contained.keeps.opens opens, opens'⟩
  alike := contained.alike common.usable plain seen.alike common.workplace named

theorem Common.work {calls more : List Call} {disk after : Disk}
    (common : Common setup origin calls disk) (plain : setup.store.IsPlain)
    (contained : ∀ i, (∀ call ∈ calls ++ more, call.job ≠ i) → Contained setup origin i calls disk after)
    (workplace : after.workplace = disk.workplace)
    (usable : (setup.store.ensureDir after).2 = .ok ())
    (named : ∀ call ∈ calls ++ more, ∃ genome : Genome, call.request.identity = genome.identity) :
    Common setup origin (calls ++ more) after where
  workplace := workplace.trans common.workplace
  usable := usable
  named := named
  fresh i nobody :=
    (contained i nobody).alike common.usable plain
      (common.fresh i fun call member => nobody call (List.mem_append_left _ member))
      common.workplace named

/-- A step of the job, with the same outcome on the common disk. -/
theorem Undisturbed.work {calls : List Call} {disk : Disk} {start p : Solo}
    (seen : Undisturbed setup origin renderer j calls disk start p) (plain : setup.store.IsPlain)
    (common : Common setup origin calls disk) (working : p.bench.job.isOver = false)
    (free : ((p.answer renderer).held && !p.bench.job.flag.raised) = false)
    (unshared : p.bench.job.phase.reads = true →
      ¬ foreign setup origin j calls (setup.store.spot disk p.bench.fractal.id)) :
    ∃ (job : Job) (f : Fractal) (notice : Option Notice) (here there : Disk),
      Bench.step setup (p.answer renderer).reply { p.bench with disk } = (⟨job, f, here⟩, notice) ∧
      Bench.step setup (p.answer renderer).reply p.bench = (⟨job, f, there⟩, notice) ∧
      Undisturbed setup origin renderer j
        (calls ++ (Notice.request? notice).toList.map (Call.mk j p.bench.job.slot ·)) here start
        (p.hear (⟨job, f, there⟩, notice)) := by
  obtain ⟨job, f, notice, here, there, together, alone, alike, usable, made⟩ :=
    alike_step (p.answer renderer).reply plain seen.alike common.usable seen.usable
      seen.made seen.able.named seen.able.fits unshared
  refine ⟨job, f, notice, here, there, together, alone, ?_⟩
  have able := seen.able.step (p.answer renderer).reply fun _ => seen.usable
  have steps := Bench.steps_step setup (p.answer renderer).reply { p.bench with disk }
  have reached : p.step? renderer setup =
      some (p.hear (p.bench.step setup (p.answer renderer).reply)) := by
    unfold Solo.step?
    rw [working, free]
    rfl
  rw [alone] at able reached
  rw [together] at steps
  refine ⟨seen.reached.tail reached, able, usable, made, ?_⟩
  refine alike.mono (fun loc there => foreign_append there) fun loc there => ?_
  have workplace : (setup.store.ensureDir here).1.workplace = origin.workplace :=
    (setup.store.workplace_ensureDir here).trans (steps.effect.file?.1.trans common.workplace)
  rw [Disk.place_congr workplace]
  refine inside_foreign plain (fun call member => ?_) there
  rcases List.mem_append.mp member with member | member
  · exact common.named call member
  · obtain ⟨request, asked, rfl⟩ := List.mem_map.mp member
    exact able.requests request (List.mem_append_right _ asked)

/-- A job does in the studio what it would do by itself. -/
theorem Tracks.coexist (plain : setup.store.IsPlain) (staged : Staged errand visits e)
    (tracks : Tracks (Common setup origin) (Undisturbed setup origin renderer) e s)
    (same : e.setup = setup) (apart : Apart s.calls) (went : s.go? renderer (some j) = some t) :
    Tracks (Common setup origin) (Undisturbed setup origin renderer) e t := by
  obtain ⟨job, at_, free, worked⟩ := go?_eq_some went
  obtain ⟨start, f, hired, found⟩ := tracks.hired staged at_
  obtain ⟨p, seen, shows⟩ := tracks.solo hired found
  obtain rfl := Option.some.inj (shows.job.symm.trans at_)
  have own := tracks.caller staged hired
  rw [shows.answer own renderer] at worked free
  have common := tracks.world
  obtain rfl : s.setup = setup := tracks.setup.trans same
  have unshared : p.bench.job.phase.reads = true →
      ¬ foreign s.setup origin j s.calls (s.setup.store.spot s.disk p.bench.fractal.id) := by
    intro reads
    rw [s.setup.store.spot_congr common.workplace]
    refine seen.unshared plain common.named shows.calls ?_ reads
    intro call member other member' differ here
    refine apart call member other member' fun slots => differ ?_
    have called := own other member'
    rw [here, ← slots, beq_self_eq_true, own call member] at called
    exact beq_iff_eq.mp called
  obtain ⟨working, calls, disk⟩ := shows.stepped worked
  obtain ⟨job, g, notice, here, there, together, alone, after⟩ :=
    seen.work plain common working free unshared
  have steps := Bench.steps_step s.setup (p.answer renderer).reply { p.bench with disk := s.disk }
  have shown : Shows e j start t (p.hear (⟨job, g, there⟩, notice)) :=
    shows.work worked (by rw [together]) (by rw [together]) (by rw [together])
  rw [together] at calls disk steps
  have named : ∀ call ∈ t.calls, ∃ genome : Genome, call.request.identity = genome.identity := by
    intro call member
    rw [calls] at member
    rcases List.mem_append.mp member with member | member
    · exact common.named call member
    · obtain ⟨request, asked, rfl⟩ := List.mem_map.mp member
      exact after.able.requests request (List.mem_append_right _ asked)
  have contained : ∀ i, (∀ call ∈ s.calls, call.job = j → call.job ≠ i) →
      Contained s.setup origin i s.calls s.disk here := fun i other =>
    seen.contained plain common.workplace shows.calls other steps.effect
  refine tracks.work staged hired found worked ⟨_, ?_, shown⟩ (fun i differ q r undisturbed => ?_) ?_
  · rw [calls, disk]
    exact after
  · rw [calls] at named ⊢
    rw [disk]
    exact undisturbed.other plain common (contained i fun _ _ same => same ▸ Ne.symm differ) named
  · rw [calls] at named ⊢
    rw [disk]
    refine common.work plain (fun i nobody => contained i fun call member _ => ?_)
      steps.effect.file?.1 ?_ named
    · exact nobody call (List.mem_append_left _ member)
    · exact (contained (j + 1) fun _ _ same => by omega).usable common.usable

end

end Studio

end FractalBreeder
