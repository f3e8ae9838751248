import Enquanto.Program.Parser
import Enquanto.Report

/-!
# Running a source

A source is read, laid out and run from a fresh environment. Its output is kept also when it fails.
-/

namespace Enquanto

namespace Machine

/-- The greatest number of open calls, unless it is set otherwise. -/
def defaultMaxDepth : Nat := 10000

/-- Fuel beyond what any run can use up in practice. -/
def ampleFuel : Nat := 4611686018427387904

/-- The state in which a module starts: empty frames for its scopes. -/
def start (m : Module) (input : Input) : State := { env := .ofScopes m.scopes, input }

end Machine

/-- What a run showed, and how it ended. -/
structure Outcome where
  output : String
  result : Except Failure Unit

/-- Runs a source on an input. -/
def interpret (source : String) (input : Input) : Outcome :=
  match Module.parse source .initial with
  | (.error e, _) => ⟨"", .error (.parse e)⟩
  | (.ok module, names) =>
    match Machine.run ⟨names, module, Machine.defaultMaxDepth⟩ Machine.ampleFuel
        (Machine.start module input) with
    | .ok _ s => ⟨s.output, .ok ()⟩
    | .error halt s => ⟨s.output, .error (.halt halt)⟩

end Enquanto
