import VertexPack.Main
import VertexPack.Predictor
import VertexPack.Proofs.Selector
import VertexPack.Proofs.Packing
import VertexPack.Proofs.Cost
import VertexPack.Proofs.Appending
import VertexPack.Proofs.ChannelBytes
import VertexPack.Proofs.StreamBytes
import VertexPack.Proofs.ChannelForm
import VertexPack.Proofs.StreamForm
import VertexPack.Proofs.Admission
import VertexPack.Proofs.Splitting
import VertexPack.Proofs.StreamLength
import VertexPack.Proofs.Outcome
import VertexPack.Proofs.RoundTrip
import VertexPack.Proofs.Shortest
import VertexPack.Proofs.CapacityBound
import VertexPack.Proofs.Words
import VertexPack.Proofs.PlaneChunks
import VertexPack.Proofs.PlaneForm
import VertexPack.Proofs.PlaneBytes
import VertexPack.Proofs.PlaneRoundTrip
import VertexPack.Proofs.PlaneCanonical
import VertexPack.Proofs.Blocks
import VertexPack.Proofs.Delimiting
import VertexPack.Proofs.Grammar
import VertexPack.Proofs.DeltaGuards
import VertexPack.Proofs.Accounting
import VertexPack.Proofs.Balance
import VertexPack.Proofs.DecodeOutcome
import VertexPack.Proofs.ExactAccount
import VertexPack.Proofs.Partition
import VertexPack.Proofs.Projection
import VertexPack.Proofs.Shift
import VertexPack.Proofs.TailShift
import VertexPack.Proofs.Translation
import VertexPack.Proofs.PlaneLength
import VertexPack.Proofs.PlaneColumns
import VertexPack.Proofs.PlaneProjection
import VertexPack.Proofs.OtherCount
import VertexPack.Proofs.PlaneDimensions
import VertexPack.Proofs.Handover
import VertexPack.Proofs.RecordSets
import VertexPack.Proofs.Headroom
import VertexPack.Proofs.BlockRoundTrip
import VertexPack.Proofs.BlockChannels
import VertexPack.Proofs.BlockCuts
import VertexPack.Proofs.Escapes
import VertexPack.Proofs.SharedBits
import VertexPack.Proofs.Consistency
import VertexPack.Proofs.SmallSteps
import VertexPack.Proofs.ExactBounds
import VertexPack.Proofs.SessionRoundTrip
import VertexPack.Proofs.EventOrder
import VertexPack.Proofs.ProjectionLaws
