import GradientReplay.Decimal.Scientific
import GradientReplay.Descriptor.Json
import GradientReplay.Function.Library
import GradientReplay.Procedure.Sequence
import GradientReplay.Procedure.Text
import GradientReplay.Recorder.Basic
import GradientReplay.Tensor.Double
import GradientReplay.Tensor.Element
import GradientReplay.Tensor.Json
import GradientReplay.Tensor.Random
import GradientReplay.Tensor.Text
import GradientReplay.Proofs.Graph.View
import GradientReplay.Proofs.Tensor.Coordinate
import GradientReplay.Proofs.Recorder.Session
import GradientReplay.Proofs.Recorder.History
import GradientReplay.Proofs.Recorder.Build
import GradientReplay.Proofs.Recorder.Lineage
import GradientReplay.Proofs.Recorder.Faithful
import GradientReplay.Proofs.Recorder.Flow
import GradientReplay.Proofs.Recorder.Search
import GradientReplay.Proofs.Procedure.Plan
import GradientReplay.Proofs.Procedure.Replay
import GradientReplay.Proofs.Procedure.Forward
import GradientReplay.Proofs.Procedure.Evaluation
import GradientReplay.Proofs.Procedure.Backward
import GradientReplay.Proofs.Procedure.Order
import GradientReplay.Proofs.Procedure.Recurrence
import GradientReplay.Proofs.Procedure.Determined
import GradientReplay.Proofs.Procedure.Supply
import GradientReplay.Proofs.Procedure.Closure
import GradientReplay.Proofs.Tensor.Matrix
import GradientReplay.Proofs.Tensor.Elementwise
import GradientReplay.Proofs.Gradient.Rule
import GradientReplay.Proofs.Gradient.Sweep
import GradientReplay.Proofs.Gradient.Step
import GradientReplay.Proofs.Gradient.Exact
import GradientReplay.Proofs.Procedure.Sequence
import GradientReplay.Proofs.Gradient.Sum
import GradientReplay.Proofs.Gradient.ThroughTime
import GradientReplay.Proofs.Procedure.Locality
import GradientReplay.Proofs.Procedure.Independence
import GradientReplay.Proofs.Recorder.Links
import GradientReplay.Proofs.Gradient.Fit
import GradientReplay.Proofs.Json.Fields
import GradientReplay.Proofs.Json.RoundTrip
import GradientReplay.Proofs.Descriptor.RoundTrip
import GradientReplay.Proofs.Recorder.Building
import GradientReplay.Proofs.Recorder.Rebuild
import GradientReplay.Proofs.Procedure.Missing
import GradientReplay.Proofs.Procedure.Repetition
import GradientReplay.Proofs.Procedure.Restart
import GradientReplay.Proofs.Procedure.Stopping
import GradientReplay.Proofs.Series.Parts
import GradientReplay.Proofs.Procedure.Splitting
import GradientReplay.Proofs.Procedure.Sight
import GradientReplay.Proofs.Procedure.Memory
import GradientReplay.Proofs.Gradient.Accumulation
import GradientReplay.Proofs.Gradient.Aggregate
import GradientReplay.Proofs.Procedure.Neighbour
import GradientReplay.Proofs.Descriptor.Slots
import GradientReplay.Proofs.Descriptor.Spelling
import GradientReplay.Proofs.Tensor.Offset
import GradientReplay.Proofs.Tensor.Holding
import GradientReplay.Proofs.Function.Slope
