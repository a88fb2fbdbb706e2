import ChoiceModel.Main
import ChoiceModel.Proofs.Expression.Move
import ChoiceModel.Proofs.Expression.Rendering
import ChoiceModel.Proofs.Expression.Tiling
import ChoiceModel.Proofs.Expression.ForwardPass
import ChoiceModel.Proofs.Expression.Reading
import ChoiceModel.Proofs.Expression.Counting
import ChoiceModel.Proofs.Expression.Loads
import ChoiceModel.Proofs.Model.Order
import ChoiceModel.Proofs.Expression.Assignment
import ChoiceModel.Proofs.Model.File
import ChoiceModel.Proofs.Model.Equations
import ChoiceModel.Proofs.Model.Cycle
import ChoiceModel.Proofs.Store.Operations
import ChoiceModel.Proofs.Alternatives
import ChoiceModel.Proofs.Store.Cell
import ChoiceModel.Proofs.Model.Flow
import ChoiceModel.Proofs.Model.History
import ChoiceModel.Proofs.Model.Errors
import ChoiceModel.Proofs.Expression.LookupCall
import ChoiceModel.Proofs.Expression.Nesting
import ChoiceModel.Proofs.Store.Frame
import ChoiceModel.Proofs.Store.Allocation
import ChoiceModel.Proofs.Store.Coherence
import ChoiceModel.Proofs.Model.Observation
import ChoiceModel.Proofs.Store.Members
import ChoiceModel.Proofs.Model.Reports
import ChoiceModel.Proofs.Rejection
import ChoiceModel.Proofs.Noninterference
import ChoiceModel.Proofs.Expression.Requests
import ChoiceModel.Proofs.Expression.Positions
import ChoiceModel.Proofs.Expression.StaticStack
import ChoiceModel.Proofs.InertRows
import ChoiceModel.Proofs.Model.Transposition
import ChoiceModel.Proofs.Expression.Partners
import ChoiceModel.Proofs.Expression.Gaps
import ChoiceModel.Proofs.Expression.NegativeLiterals
import ChoiceModel.Proofs.Model.Targets
import ChoiceModel.Proofs.Expression.Coverage
import ChoiceModel.Proofs.Store.IndexedScalars
import ChoiceModel.Proofs.Store.SplitTable
import ChoiceModel.Proofs.Expression.Octets
import ChoiceModel.Proofs.Expression.Markers
import ChoiceModel.Proofs.Expression.Pending
import ChoiceModel.Proofs.Store.Places
