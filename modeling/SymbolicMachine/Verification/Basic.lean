import SymbolicMachine.Execution.Basic
import SymbolicMachine.Program.Multiplier
import SymbolicMachine.Verification.Obligation
import SymbolicMachine.Verification.Decider
import SymbolicMachine.Verification.Settings

namespace SymbolicMachine
namespace Verification

/-!
# Verification of the multiplier

A verification runs the multiplier from the machine that its inputs describe, states
the obligation for the result words, and asks a decider about it.
-/

/-- Why a verification gives no verdict. -/
inductive Error where
  | program (cause : ProgramError)
  | execution (cause : ExecutionError)
  | decider (cause : DeciderError)
  deriving DecidableEq, Repr

namespace Error

/-- What a verification error says is what its cause says. -/
def message : Error -> String
  | program cause => cause.message
  | execution cause => cause.message
  | decider cause => cause.message

end Error

/-- A finished run of the multiplier. -/
structure Run where
  inputs : Inputs
  program : Program
  execution : Execution
  /-- The high word of the product. -/
  high : Word
  /-- The low word of the product. -/
  low : Word
  deriving Repr

/-- The machine from which the multiplier runs. -/
def initialMachine (settings : Settings) (inputs : Inputs) : Checked Machine := do
  let cleared ← Machine.cleared settings.strategy inputs.memoryBase
  let filled ← cleared.fillMemory inputs.memoryFill
  let withX ← filled.withRegister .x inputs.x
  let withA ← withX.withRegister .a inputs.a
  let withFlags := (withA.withFlag .carry inputs.carry).withFlag .zero inputs.zero
  let withFactor ← withFlags.write inputs.factor1Address inputs.factor1
  withFactor.write inputs.factor2Address inputs.factor2

/-- Run the multiplier. -/
def run (settings : Settings) (inputs : Inputs) : ExceptT Error Checked Run := do
  match Multiplier.program inputs.factor1Address inputs.factor2Address inputs.lowAddress with
  | .error cause => throw (.program cause)
  | .ok program =>
      report (.multiplying settings.strategy program.listing)
      let machine ← initialMachine settings inputs
      let execution ← (program.run machine settings.stepLimit).adapt Error.execution
      let low ← execution.machine.read inputs.lowAddress
      return { inputs, program, execution, high := execution.machine.a, low }

namespace Run

/-- What has to hold of the result of a run. -/
def obligation (run : Run) : Checked Obligation :=
  Obligation.ofResult run.inputs run.high run.low

end Run

/-- Run the multiplier and ask a decider whether its obligation holds. -/
def verify (settings : Settings) (inputs : Inputs) (decider : Decider) :
    ExceptT Error Checked Verdict := do
  let run ← run settings inputs
  let obligation ← run.obligation
  if obligation.isVacuous then report .vacuous
  match decider (← obligation.statement) with
  | .error cause => throw (.decider cause)
  | .ok verdict =>
      report (match verdict with
        | .proved => .proved
        | .counterexample _ => .refuted)
      return verdict

end Verification
end SymbolicMachine
