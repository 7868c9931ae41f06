import ArrayKernels.Pipeline
import ArrayKernels.Program.Emitter
import ArrayKernels.Proofs.Alike
import ArrayKernels.Proofs.Executes
import ArrayKernels.Proofs.Readings
import ArrayKernels.Proofs.GroupFollows
import ArrayKernels.Proofs.Reads
import ArrayKernels.Proofs.Run
import ArrayKernels.Proofs.Simulation
import ArrayKernels.Proofs.Congruence
import ArrayKernels.Proofs.KernelLifting
import ArrayKernels.Proofs.ExpandedKernel
import ArrayKernels.Proofs.ExpandedProgram
import ArrayKernels.Proofs.Frames
import ArrayKernels.Proofs.Rebasing
import ArrayKernels.Proofs.ThreadRange
import ArrayKernels.Proofs.Monotone
import ArrayKernels.Proofs.Known
import ArrayKernels.Proofs.Weight
import ArrayKernels.Proofs.Consumption
import ArrayKernels.Proofs.Fixpoint
import ArrayKernels.Proofs.Moves
import ArrayKernels.Proofs.RuleScoping
import ArrayKernels.Proofs.SweepScoping
import ArrayKernels.Proofs.ThreadInvariance
import ArrayKernels.Proofs.RebaseScoping
import ArrayKernels.Proofs.ExpandScoping
import ArrayKernels.Proofs.WellScoped
import ArrayKernels.Proofs.Holding
import ArrayKernels.Proofs.LevelSoundness
import ArrayKernels.Proofs.KernelSoundness
import ArrayKernels.Proofs.GroupSoundness
import ArrayKernels.Proofs.SweepSoundness
import ArrayKernels.Proofs.Parts
import ArrayKernels.Proofs.Coverage
import ArrayKernels.Proofs.ThreadCode
import ArrayKernels.Proofs.ExpandedLaunches
import ArrayKernels.Proofs.RebasedCode
import ArrayKernels.Proofs.AllocAccount
import ArrayKernels.Proofs.ExpandAgain
import ArrayKernels.Proofs.InputSoundness
import ArrayKernels.Proofs.OutputSoundness
import ArrayKernels.Proofs.StreamSoundness
import ArrayKernels.Proofs.LenientRuns
import ArrayKernels.Proofs.SimplifiedValues
import ArrayKernels.Proofs.SweepEnds
import ArrayKernels.Proofs.KeptPlacements
import ArrayKernels.Proofs.RegularValues
import ArrayKernels.Proofs.RowMajor
import ArrayKernels.Proofs.ArrayViews
import ArrayKernels.Proofs.IndexMeaning
import ArrayKernels.Proofs.IndexInjective
import ArrayKernels.Proofs.ThreadLayouts
import ArrayKernels.Proofs.UnusedInputs
import ArrayKernels.Proofs.InputFusion
import ArrayKernels.Proofs.HoistedOutputs
import ArrayKernels.Proofs.DeadBindings
import ArrayKernels.Proofs.StreamFusion
import ArrayKernels.Proofs.RowStacks
import ArrayKernels.Proofs.RowDivision
import ArrayKernels.Proofs.PointValues
import ArrayKernels.Proofs.ExpandFailures
import ArrayKernels.Proofs.GroupsApart
import ArrayKernels.Proofs.ArrayUpdates
import ArrayKernels.Proofs.ScatterWrites
import ArrayKernels.Proofs.CopyChains
import ArrayKernels.Proofs.KernelPorts
import ArrayKernels.Proofs.BindingOrder
import ArrayKernels.Proofs.SweepCalls
import ArrayKernels.Proofs.UnboundedSweep
import ArrayKernels.Proofs.CopyValues
import ArrayKernels.Proofs.IndexFolding
