import FractalBreeder.Document.Population
import FractalBreeder.Expr.Eval
import FractalBreeder.Main
import FractalBreeder.Proofs.Expr.Recognition
import FractalBreeder.Rendering.Program
import FractalBreeder.Settings.Keeper
import FractalBreeder.Proofs.Expr.Literal
import FractalBreeder.Proofs.Expr.Splitting
import FractalBreeder.Proofs.Expr.Acceptance
import FractalBreeder.Proofs.Number.Bits
import FractalBreeder.Proofs.Number.Rounding
import FractalBreeder.Proofs.Number.ShortestText
import FractalBreeder.Proofs.Expr.RoundTrip
import FractalBreeder.Proofs.Chance.Ensures
import FractalBreeder.Proofs.Heredity.Descent
import FractalBreeder.Proofs.Population.Breeding
import FractalBreeder.Proofs.Population.Timeline
import FractalBreeder.Proofs.Session.Moves
import FractalBreeder.Proofs.Session.Governance
import FractalBreeder.Proofs.Rendering.Phases
import FractalBreeder.Proofs.Rendering.Courses
import FractalBreeder.Proofs.Rendering.Custody
import FractalBreeder.Proofs.Rendering.Direction
import FractalBreeder.Proofs.Session.Agreement
import FractalBreeder.Proofs.Session.Attendance
import FractalBreeder.Proofs.Rendering.Leftovers
import FractalBreeder.Proofs.Rendering.Telling
import FractalBreeder.Proofs.Session.Cancellation
import FractalBreeder.Proofs.Session.Sharing
import FractalBreeder.Proofs.Settings.Concurrency
import FractalBreeder.Proofs.Number.Monotonicity
import FractalBreeder.Proofs.Number.Ranks
import FractalBreeder.Proofs.Number.Arithmetic
import FractalBreeder.Proofs.Chance.Ranges
import FractalBreeder.Proofs.Heredity.Safety
import FractalBreeder.Proofs.Storage.Contents
import FractalBreeder.Proofs.Storage.Directories
import FractalBreeder.Proofs.Storage.Isolation
import FractalBreeder.Proofs.Rendering.Runs
import FractalBreeder.Proofs.Rendering.Renditions
import FractalBreeder.Proofs.Rendering.Provenance
import FractalBreeder.Proofs.Rendering.Solos
import FractalBreeder.Proofs.Rendering.Hiring
import FractalBreeder.Proofs.Rendering.Projections
import FractalBreeder.Proofs.Rendering.Schedules
import FractalBreeder.Proofs.Rendering.Coexistence
import FractalBreeder.Proofs.Rendering.Independence
import FractalBreeder.Proofs.Heredity.Faithfulness
import FractalBreeder.Proofs.Document.Saving
import FractalBreeder.Proofs.Document.Restoration
import FractalBreeder.Proofs.Session.Reporting
import FractalBreeder.Proofs.Population.Escape
import FractalBreeder.Proofs.Session.Permanence
import FractalBreeder.Proofs.Rendering.Leaving
import FractalBreeder.Proofs.Rendering.Sweeping
import FractalBreeder.Proofs.Settings.Requests
import FractalBreeder.Proofs.Toml.Quoting
import FractalBreeder.Proofs.Toml.Numerals
import FractalBreeder.Proofs.Toml.Sections
import FractalBreeder.Proofs.Settings.Restoring
import FractalBreeder.Proofs.Expr.Addressing
import FractalBreeder.Proofs.Heredity.Crossing
import FractalBreeder.Proofs.Rendering.Deeds
import FractalBreeder.Proofs.Rendering.Labours
import FractalBreeder.Proofs.Rendering.Retries
import FractalBreeder.Proofs.Rendering.Density
import FractalBreeder.Proofs.Rendering.Filtering
import FractalBreeder.Proofs.Heredity.Identification
import FractalBreeder.Proofs.Heredity.Mutation
import FractalBreeder.Proofs.Heredity.Replay
import FractalBreeder.Proofs.Rendering.Repetition
import FractalBreeder.Proofs.Population.Picking
import FractalBreeder.Proofs.Heredity.Introduction
import FractalBreeder.Proofs.Expr.Blanks
import FractalBreeder.Proofs.Toml.Distinctness
import FractalBreeder.Proofs.Settings.Entries
import FractalBreeder.Proofs.Settings.Layering
import FractalBreeder.Proofs.Expr.Blame
