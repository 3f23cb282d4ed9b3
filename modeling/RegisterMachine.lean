import RegisterMachine.Chunk.Builder
import RegisterMachine.Files.Tree
import RegisterMachine.Json.Access
import RegisterMachine.Main
import RegisterMachine.Settings.Stored
import RegisterMachine.Proofs.Failing
import RegisterMachine.Proofs.Action
import RegisterMachine.Proofs.Run
import RegisterMachine.Proofs.Operands
import RegisterMachine.Proofs.BuiltChunks
import RegisterMachine.Proofs.ConstantPool
import RegisterMachine.Proofs.PatchedJumps
import RegisterMachine.Proofs.ListedInstructions
import RegisterMachine.Proofs.TableWrites
import RegisterMachine.Proofs.Wrapping
import RegisterMachine.Proofs.Placement
import RegisterMachine.Proofs.Convention
import RegisterMachine.Proofs.Correspondence
import RegisterMachine.Proofs.Soundness
import RegisterMachine.Proofs.Isolation
import RegisterMachine.Proofs.CallTarget
import RegisterMachine.Proofs.Underway
import RegisterMachine.Proofs.Delivery
import RegisterMachine.Proofs.Overflow
import RegisterMachine.Proofs.Restoration
import RegisterMachine.Proofs.Transparency
import RegisterMachine.Proofs.DepthLimit
import RegisterMachine.Proofs.CallClosures
import RegisterMachine.Proofs.Halting
import RegisterMachine.Proofs.FrameChain
import RegisterMachine.Proofs.ExtraArguments
import RegisterMachine.Proofs.FailedSteps
import RegisterMachine.Proofs.ErrorPlace
import RegisterMachine.Proofs.Safety
import RegisterMachine.Proofs.Observation
import RegisterMachine.Proofs.IndexChain
import RegisterMachine.Proofs.Stripping
import RegisterMachine.Proofs.Positions
import RegisterMachine.Proofs.Depth
import RegisterMachine.Proofs.FrameEnding
import RegisterMachine.Proofs.TailCall
import RegisterMachine.Proofs.Installation
import RegisterMachine.Proofs.Layers
import RegisterMachine.Proofs.ProjectSearch
import RegisterMachine.Proofs.TraceLimits
import RegisterMachine.Proofs.Commands
import RegisterMachine.Proofs.Rankings
import RegisterMachine.Proofs.Accounting
import RegisterMachine.Proofs.ArgumentChecks
import RegisterMachine.Proofs.LibraryExpressions
import RegisterMachine.Proofs.Perspectives
import RegisterMachine.Proofs.Numerals
import RegisterMachine.Proofs.JsonText
import RegisterMachine.Proofs.StoredChunks
import RegisterMachine.Proofs.Ranks
import RegisterMachine.Proofs.Rounding
import RegisterMachine.Proofs.SignedRanks
import RegisterMachine.Proofs.ShortestDecimals
import RegisterMachine.Proofs.NumeralValues
import RegisterMachine.Proofs.Scaling
import RegisterMachine.Proofs.StoredNumbers
import RegisterMachine.Proofs.WholeNumbers
import RegisterMachine.Proofs.Merging
import RegisterMachine.Proofs.RegisterHistory
import RegisterMachine.Proofs.NumberKeys
import RegisterMachine.Proofs.InstructionWords
