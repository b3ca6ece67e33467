import RowPipeline.CommandLine.Run
import RowPipeline.Host.Session.Action
import RowPipeline.Method.Sample
import RowPipeline.Main
import RowPipeline.Proofs.Method.Sum
import RowPipeline.Proofs.Model.ElementType
import RowPipeline.Proofs.Stage.Safety
import RowPipeline.Proofs.Stage.NullHandling
import RowPipeline.Proofs.Host.Applying
import RowPipeline.Proofs.Host.Forbidding
import RowPipeline.Proofs.Host.Paging
import RowPipeline.Proofs.Value.Text
import RowPipeline.Proofs.Stage.Grouping
import RowPipeline.Proofs.Stage.Summarizing
import RowPipeline.Proofs.Stage.GroupingKeys
import RowPipeline.Proofs.Host.Session.Composing
import RowPipeline.Proofs.CommandLine.Agreement
import RowPipeline.Proofs.Stage.Passing
import RowPipeline.Proofs.Stage.Compiling
import RowPipeline.Proofs.Value.Ordering
import RowPipeline.Proofs.Value.Writing
import RowPipeline.Proofs.Stage.GroupRows
import RowPipeline.Proofs.Stage.Distinctness
import RowPipeline.Proofs.Stage.SortedRows
import RowPipeline.Proofs.Stage.ProjectedRows
import RowPipeline.Proofs.Stage.LeadingRows
import RowPipeline.Proofs.Stage.DistinctKeys
import RowPipeline.Proofs.Stage.Fusing
import RowPipeline.Proofs.Model.PropertyChains
import RowPipeline.Proofs.Model.Naming
import RowPipeline.Proofs.Stage.Failing
import RowPipeline.Proofs.Stage.LetterCase
import RowPipeline.Proofs.Model.BaseTypes
import RowPipeline.Proofs.Model.Primitives
import RowPipeline.Proofs.Model.PathText
import RowPipeline.Proofs.Clause.PathSpacing
import RowPipeline.Proofs.Clause.Bounds
