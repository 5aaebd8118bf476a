import SymbolicMachine.Verification.TestVector
import SymbolicMachine.Word.Conversion
import SymbolicMachine.Word.Lemmas
import SymbolicMachine.Proofs.Simplification
import SymbolicMachine.Proofs.MemoryHistory
import SymbolicMachine.Proofs.MachineStep
import SymbolicMachine.Proofs.Exploration
import SymbolicMachine.Proofs.ExecutionSoundness
import SymbolicMachine.Proofs.MultiplierRounds
import SymbolicMachine.Proofs.VerificationRun
import SymbolicMachine.Proofs.Multiplication
import SymbolicMachine.Proofs.ProcessorRuns
import SymbolicMachine.Proofs.Literals
import SymbolicMachine.Proofs.FewThreads
import SymbolicMachine.Proofs.KnownRuns
import SymbolicMachine.Proofs.PathPredicates
import SymbolicMachine.Proofs.Frames
import SymbolicMachine.Proofs.MultiplierExploration
import SymbolicMachine.Proofs.VerificationAgreement
import SymbolicMachine.Proofs.WellFormedMachines
import SymbolicMachine.Proofs.Scheduling
import SymbolicMachine.Proofs.RunOutcomes
import SymbolicMachine.Proofs.InstructionEffects
import SymbolicMachine.Proofs.FinalMachine
import SymbolicMachine.Proofs.MultiplierBudget
import SymbolicMachine.Proofs.RenamedMachines
import SymbolicMachine.Proofs.RenamedRuns
import SymbolicMachine.Proofs.LowestFirst
import SymbolicMachine.Proofs.TraceAccounting
import SymbolicMachine.Proofs.PathCounts
import SymbolicMachine.Proofs.RepeatedRuns
import SymbolicMachine.Proofs.StepLimits
import SymbolicMachine.Proofs.WordNumbers
import SymbolicMachine.Proofs.TestVectors
import SymbolicMachine.Proofs.Rotation
import SymbolicMachine.Proofs.Shifts
import SymbolicMachine.Proofs.LabelResolution
import SymbolicMachine.Proofs.VacuousObligations
import SymbolicMachine.Proofs.UnchangedMerges
import SymbolicMachine.Proofs.PartialEvaluation
import SymbolicMachine.Proofs.Composition
import SymbolicMachine.Proofs.NormalForm
import SymbolicMachine.Proofs.SelfCancellation
import SymbolicMachine.Proofs.Countdown
import SymbolicMachine.Proofs.Recognition
import SymbolicMachine.Proofs.DistinctAddresses
import SymbolicMachine.Proofs.IndependentInputs
import SymbolicMachine.Proofs.NumberConversion
