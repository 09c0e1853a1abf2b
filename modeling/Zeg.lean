import Zeg.AccessList.Enumerate
import Zeg.AccessList.RoundTrip
import Zeg.AnalysisCache
import Zeg.CodeTable.Theorems
import Zeg.Evmone.Fused
import Zeg.ExEx.Pipeline.Theorems
import Zeg.Execution.Agreement
import Zeg.Execution.CallTrees
import Zeg.Execution.Runtime
import Zeg.Gas.Metering
import Zeg.InputGen.Lineage
import Zeg.KeccakMemo.Theorems
import Zeg.Memory.Theorems
import Zeg.Run.BlockSize
import Zeg.Run.HeaderRules
import Zeg.Ssz.Agreement
import Zeg.StateDB.Originals
import Zeg.StateDB.Records
import Zeg.StateRoot.Chains
import Zeg.Transactions.Theorems
import Zeg.Zevm.Boundaries
import Zeg.Zevm.U256.Theorems
