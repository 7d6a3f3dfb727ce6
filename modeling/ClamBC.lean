import ClamBC.AddressOrders
import ClamBC.ApiTables
import ClamBC.ApiTypes
import ClamBC.ConstantPointerRuns
import ClamBC.ConvertIntrinsics
import ClamBC.ExtendPhisRuns
import ClamBC.FindPredecessor
import ClamBC.FunctionRecursion
import ClamBC.HeaderFunctions
import ClamBC.IntrinsicSubstitutes
import ClamBC.LineLengths
import ClamBC.LogicalKinds
import ClamBC.LogicalLayout
import ClamBC.LogicalMerge
import ClamBC.LogicalOrder
import ClamBC.LogicalPaths
import ClamBC.LogicalPrinter
import ClamBC.LogicalRun
import ClamBC.LogicalStore
import ClamBC.PeReading
import ClamBC.PointerLoweringWalk
import ClamBC.PrepareGepArrays
import ClamBC.PreserveAbisRuns
import ClamBC.PublishedSource
import ClamBC.RebuildInstructions
import ClamBC.RebuildWalkRuns
import ClamBC.RegisterMachineRuns
import ClamBC.RemoveFreezeInsts
import ClamBC.RemoveIcmpSle
import ClamBC.ScannerRefill
import ClamBC.SetVirusNameRuns
import ClamBC.SourceSection
import ClamBC.Verifier
