import LayerNet.GradientCheck
import LayerNet.Network.Compile
import LayerNet.Network.Render
import LayerNet.Network.Run
import LayerNet.Optimizer
import LayerNet.Proofs.Digraph.Acyclic
import LayerNet.Proofs.Digraph.Search
import LayerNet.Proofs.Digraph.Rewiring
import LayerNet.Proofs.Component.Invariance
import LayerNet.Proofs.Digraph.Degree
import LayerNet.Proofs.Component.Passes
import LayerNet.Proofs.Component.NormalForm
import LayerNet.Proofs.Component.Closing
import LayerNet.Proofs.Addressing
import LayerNet.Proofs.Operation.Sound
import LayerNet.Proofs.Operation.Values
import LayerNet.Proofs.Operation.Places
import LayerNet.Proofs.Operation.Calls
import LayerNet.Proofs.Session.Runs
import LayerNet.Proofs.Session.Watching
import LayerNet.Proofs.Session.Protocol
import LayerNet.Proofs.Session.Recording
import LayerNet.Proofs.Session.Additions
import LayerNet.Proofs.Session.Replay
import LayerNet.Proofs.Digraph.Execution
import LayerNet.Proofs.Operation.Shapes
import LayerNet.Proofs.Session.Shapes
import LayerNet.Proofs.Layer.Contract
import LayerNet.Proofs.Layer.Forward
import LayerNet.Proofs.Blueprint.Placement
import LayerNet.Proofs.Digraph.Neighbours
import LayerNet.Proofs.Network.Fit
import LayerNet.Proofs.Network.Build
import LayerNet.Proofs.Network.Run
import LayerNet.Proofs.Component.Termination
import LayerNet.Proofs.Architecture.Reading
import LayerNet.Proofs.Network.Rendering
import LayerNet.Proofs.Session.Abreast
import LayerNet.Proofs.Layer.Abreast
import LayerNet.Proofs.Network.Calls
import LayerNet.Proofs.Network.Abreast
import LayerNet.Proofs.Network.Meaning
import LayerNet.Proofs.Operation.SampleAxes
import LayerNet.Proofs.Network.Batching
import LayerNet.Proofs.Component.Origins
import LayerNet.Proofs.Network.Concatenation
import LayerNet.Proofs.Failures
import LayerNet.Proofs.Layer.Refusals
import LayerNet.Proofs.Component.Refusals
import LayerNet.Proofs.Network.Promises
import LayerNet.Proofs.Operation.Shapeless
import LayerNet.Proofs.Session.Recasting
import LayerNet.Proofs.Operation.Exact
import LayerNet.Proofs.Operation.Returns
import LayerNet.Proofs.Session.Returns
import LayerNet.Proofs.Operation.Parting
import LayerNet.Proofs.Operation.Made
import LayerNet.Proofs.Store.Regular
import LayerNet.Proofs.Session.Regular
import LayerNet.Proofs.Session.Parting
import LayerNet.Proofs.Network.Regular
import LayerNet.Proofs.Network.Reachable
import LayerNet.Proofs.Coordinates
import LayerNet.Proofs.Operation.Interleaving
import LayerNet.Proofs.Operation.Stacks
import LayerNet.Proofs.Session.Yielding
import LayerNet.Proofs.Session.Stacks
import LayerNet.Proofs.Operation.Slicing
import LayerNet.Proofs.Session.Handing
import LayerNet.Proofs.Session.Seeding
import LayerNet.Proofs.Session.Slices
import LayerNet.Proofs.Operation.Tiling
import LayerNet.Proofs.Session.Tiles
import LayerNet.Proofs.Operation.Grouped
import LayerNet.Proofs.Session.Unary
import LayerNet.Proofs.Operation.Products
import LayerNet.Proofs.Session.Hinging
import LayerNet.Proofs.Session.Operands
import LayerNet.Proofs.Operation.Convolutions
import LayerNet.Proofs.Operation.Recurrence
import LayerNet.Proofs.Session.Computing
import LayerNet.Proofs.Layer.Recurrence
import LayerNet.Proofs.Operation.Windows
import LayerNet.Proofs.Session.Chains
import LayerNet.Proofs.Layer.Pooling
import LayerNet.Proofs.Positions
import LayerNet.Proofs.Network.Seeding
import LayerNet.Proofs.Digraph.Grafting
import LayerNet.Proofs.Network.Grafting
import LayerNet.Proofs.Network.Completion
import LayerNet.Proofs.Component.Keys
import LayerNet.Proofs.Network.Keys
import LayerNet.Proofs.Agreement
import LayerNet.Proofs.Architecture.Rearranging
import LayerNet.Proofs.Component.Frames
import LayerNet.Proofs.Component.Rearranging
import LayerNet.Proofs.Component.Journal
import LayerNet.Proofs.Component.Occurrences
import LayerNet.Proofs.Component.Accounting
import LayerNet.Proofs.Component.Sharing
import LayerNet.Proofs.Decimal.Rounding
import LayerNet.Proofs.Decimal.RoundTrip
import LayerNet.Proofs.Blueprint.Scanning
import LayerNet.Proofs.Blueprint.Spelling
import LayerNet.Proofs.Layer.Redrawing
import LayerNet.Proofs.Blueprint.Telling
import LayerNet.Proofs.Blueprint.Rebuilding
import LayerNet.Proofs.Component.Progress
import LayerNet.Proofs.Architecture.Inlining
import LayerNet.Proofs.Component.Joining
import LayerNet.Proofs.Component.Watching
import LayerNet.Proofs.Component.Scopes
import LayerNet.Proofs.Component.Lagging
import LayerNet.Proofs.Component.Splicing
import LayerNet.Proofs.Component.Inlining
import LayerNet.Proofs.Component.Nesting
import LayerNet.Proofs.Operation.Limits
import LayerNet.Proofs.Optimizer.Alone
import LayerNet.Proofs.Network.Walking
import LayerNet.Proofs.Network.Once
import LayerNet.Proofs.Layer.Parameters
import LayerNet.Proofs.Network.Parameters
import LayerNet.Proofs.Network.Rectifying
import LayerNet.Proofs.Session.Consuming
import LayerNet.Proofs.Layer.Consuming
import LayerNet.Proofs.Network.Reaching
import LayerNet.Proofs.Architecture.Braces
import LayerNet.Proofs.Session.Damping
