import LichenVm.ComposeMemory
import LichenVm.FusionRolling
import LichenVm.DeepPass
import LichenVm.ScopeSummaries
import LichenVm.SubArtifact
import LichenVm.TableSearch
import LichenVm.DecidedRun
import LichenVm.BodySound
import LichenVm.IncrementalLexing
import LichenVm.KeyLowering
import LichenVm.ParallelOrder
import LichenVm.KernelFlattening
import LichenVm.KernelHandlesKept
import LichenVm.CellReload
import LichenVm.StoreGrants
import LichenVm.LoadSafety
import LichenVm.GraphAligned
import LichenVm.FusedRoundTrip
import LichenVm.FoldAgreement
import LichenVm.WasmAssembly
import LichenVm.ScalarShapes
import LichenVm.AttributeSlots
import LichenVm.ReleasedFailures
import LichenVm.StructInstances
import LichenVm.PathIdentity
import LichenVm.ErrorBlocks
import LichenVm.ClaimRoles
import LichenVm.BarrierRounds
import LichenVm.LoopReturns
import LichenVm.Positions
import LichenVm.FusionInvert
import LichenVm.DatumFunctions
import LichenVm.ProjectionSize
import LichenVm.SiblingRegions
import LichenVm.GraphConserved
import LichenVm.StoreCollection
import LichenVm.DirtyStatements
import LichenVm.KernelRegistry
import LichenVm.PassChain
import LichenVm.ServedBatch
import LichenVm.StagedInputs
import LichenVm.Tokenizer
