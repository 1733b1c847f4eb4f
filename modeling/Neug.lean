import Neug.Execution.AllShortest
import Neug.Execution.AnyShortest
import Neug.Execution.DfsPaths
import Neug.Execution.EdgeDegree
import Neug.Execution.EdgeIds
import Neug.Execution.Intersect
import Neug.Execution.JoinSemantics
import Neug.Execution.OrderBy
import Neug.Execution.PairShortest
import Neug.Execution.PropertyOrder
import Neug.Execution.GeneralComparer
import Neug.Execution.Reducers
import Neug.Execution.ValueOrder
import Neug.Execution.SingleSource
import Neug.Execution.WeightedShortest
import Neug.Extension.Coauthor
import Neug.Extension.KCoreBuild
import Neug.Extension.LouvainBuild
import Neug.Extension.LouvainOptimum
import Neug.Extension.LouvainTeam
import Neug.Storage.BatchDeleteVertices
import Neug.Storage.CompactionInvisible
import Neug.Storage.EdgeCount
import Neug.Storage.IndexerMap
import Neug.Storage.NbrRefinement
import Neug.Storage.RangeScan
import Neug.Storage.TruncateUtf8
import Neug.Storage.VertexEnumeration
import Neug.Transaction.CommitAtomicity
import Neug.Transaction.LocalIds
import Neug.Transaction.LogOrder
import Neug.Transaction.SnapshotPrefix
import Neug.Transaction.UpdateEdge
import Neug.Transaction.WalIngest
