import FractalBreeder.Settings.Keeper

/-!
Requests to the keeper of the settings, one after another. The settings in force are valid after
each of them; a request that fails leaves them as they are, and one that succeeds makes of them what
was asked for and nothing else.
-/
namespace FractalBreeder.Settings

inductive Request where
  | change (c : Change)
  | save (disk : Disk) (path : String)

/-- The settings in force after a request, and its answer. -/
def serve (held : Settings) : Request → Settings × Except Failure Unit
  | .change c => held.change c
  | .save disk path => (held, (held.save disk path).map fun _ => ())

/-- The settings in force after requests that come one after another. -/
def serveAll (held : Settings) (requests : List Request) : Settings :=
  requests.foldl (fun held r => (held.serve r).1) held

/-- What a keeper promises of a request, of the settings in force before it and after it, and of
its answer. -/
structure Honours (held : Settings) (r : Request) (after : Settings)
    (answer : Except Failure Unit) : Prop where
  valid : after.fault? = none
  untouched : ∀ fault, answer = .error fault → after = held
  updated : ∀ f, r = .change (.update f) → answer = .ok () → after = f held
  /-- What was in force before a load has no part in what it puts in force. -/
  loaded : ∀ disk environment path, r = .change (.load disk environment path) → answer = .ok () →
    ∃ file, readFile? disk path = some file ∧
      ∀ held' disk' environment' path', readFile? disk' path' = some file →
        Environment.layer environment' = Environment.layer environment →
        serve held' (.change (.load disk' environment' path')) = (after, .ok ())
  saved : ∀ disk path, r = .save disk path → after = held

theorem fault?_of_check {s t : Settings} (checked : s.check = .ok t) : s = t ∧ t.fault? = none := by
  unfold check at checked
  cases faulty : s.fault? with
  | some fault => simp [faulty] at checked
  | none =>
    obtain rfl : s = t := by simpa [faulty] using checked
    exact ⟨rfl, faulty⟩

/-- A load that succeeds found fields in its file, and put their valid settings together with the
environment. -/
theorem load_eq_ok {disk : Disk} {environment : List (String × String)} {path : String}
    {s : Settings} : load disk environment path = .ok s ↔
      ∃ file, readFile? disk path = some file ∧ ofLayers? file environment = some s ∧
        s.fault? = none := by
  unfold load
  cases found : readFile? disk path with
  | none => simp
  | some file =>
    cases fits : ofLayers? file environment with
    | none => simp [fits]
    | some t =>
      have checks : t.check = .ok s ↔ t = s ∧ s.fault? = none := by
        refine ⟨fault?_of_check, ?_⟩
        rintro ⟨rfl, faultless⟩
        simp [check, faultless]
      simpa [fits] using checks

theorem ofLayers?_congr {environment environment' : List (String × String)}
    (same : Environment.layer environment' = Environment.layer environment) (file : Fields) :
    ofLayers? file environment' = ofLayers? file environment := by
  rw [ofLayers?, ofLayers?, same]

section Changes

variable {held s : Settings} {c : Change}

theorem change_of_ok (outcome : c.outcome held = .ok s) : held.change c = (s, .ok ()) := by
  rw [change, outcome]

theorem change_of_error {fault : Failure} (outcome : c.outcome held = .error fault) :
    held.change c = (held, .error fault) := by
  rw [change, outcome]

theorem fault?_of_outcome (outcome : c.outcome held = .ok s) : s.fault? = none := by
  cases c with
  | update f => exact (fault?_of_check outcome).2
  | load disk environment path =>
    obtain ⟨-, -, -, faultless⟩ := load_eq_ok.mp outcome
    exact faultless

end Changes

/-- A change that succeeds. -/
theorem Honours.ofOutcome {held s : Settings} {c : Change} (outcome : c.outcome held = .ok s) :
    Honours held (.change c) s (.ok ()) where
  valid := fault?_of_outcome outcome
  untouched _ failed := nomatch failed
  updated := by
    rintro f ⟨rfl⟩ -
    exact (fault?_of_check outcome).1.symm
  loaded := by
    rintro disk environment path ⟨rfl⟩ -
    obtain ⟨file, found, fits, faultless⟩ := load_eq_ok.mp outcome
    refine ⟨file, found, fun held' disk' environment' path' found' same => ?_⟩
    apply change_of_ok
    exact load_eq_ok.mpr ⟨file, found', (ofLayers?_congr same file).trans fits, faultless⟩
  saved _ _ asked := nomatch asked

/-- A request that leaves valid settings as they are. -/
theorem Honours.ofHeld {held : Settings} {r : Request} {answer : Except Failure Unit}
    (faultless : held.fault? = none) (idle : ∀ c, r = .change c → answer ≠ .ok ()) :
    Honours held r held answer where
  valid := faultless
  untouched _ _ := rfl
  updated _ asked succeeded := absurd succeeded (idle _ asked)
  loaded _ _ _ asked succeeded := absurd succeeded (idle _ asked)
  saved _ _ _ := rfl

theorem serve_honours {held : Settings} (faultless : held.fault? = none) (r : Request) :
    Honours held r (held.serve r).1 (held.serve r).2 := by
  cases r with
  | save disk path => exact .ofHeld faultless fun _ asked => nomatch asked
  | change c =>
    cases outcome : c.outcome held with
    | ok s =>
      rw [serve, change_of_ok outcome]
      exact .ofOutcome outcome
    | error fault =>
      rw [serve, change_of_error outcome]
      exact .ofHeld faultless fun _ _ succeeded => nomatch succeeded

theorem fault?_serveAll (requests : List Request) :
    ∀ {held : Settings}, held.fault? = none → (held.serveAll requests).fault? = none := by
  induction requests with
  | nil => exact id
  | cons r rest ih =>
    intro held faultless
    exact ih (serve_honours faultless r).valid

theorem fault?_default : ({} : Settings).fault? = none := rfl

end FractalBreeder.Settings
