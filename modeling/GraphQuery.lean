import GraphQuery.Proofs.Arena.AppendOnly
import GraphQuery.Proofs.Arena.Appending
import GraphQuery.Proofs.Arena.Assembly
import GraphQuery.Proofs.Arena.Atomicity
import GraphQuery.Proofs.Arena.TreeCheck
import GraphQuery.Proofs.Binding
import GraphQuery.Proofs.Compile.Checks
import GraphQuery.Proofs.Compile.Hygiene
import GraphQuery.Proofs.Compile.Iterators
import GraphQuery.Proofs.Compile.Preservation
import GraphQuery.Proofs.Compile.Printing
import GraphQuery.Proofs.Compile.ReadOnly
import GraphQuery.Proofs.Compile.Supported
import GraphQuery.Proofs.Expr.Redisplay
import GraphQuery.Proofs.Expr.Slices
import GraphQuery.Proofs.Graph.Adjacency
import GraphQuery.Proofs.Machine.Arithmetic
import GraphQuery.Proofs.Machine.Closed
import GraphQuery.Proofs.Machine.Failures
import GraphQuery.Proofs.Machine.Blame
import GraphQuery.Proofs.Script.BinaryForm
import GraphQuery.Proofs.Script.FreeOccurrences
import GraphQuery.Proofs.Script.JsonForm
import GraphQuery.Proofs.Script.Preorder
import GraphQuery.Proofs.Settings
import GraphQuery.Proofs.Token.Tiling
import GraphQuery.Proofs.Value.Comparison
import GraphQuery.Proofs.Value.Deduplication
import GraphQuery.Query
import GraphQuery.Script.Walk
