import HolLambdas.Fuel
import HolLambdas.Signature
import HolLambdas.Scalar.Nodes
import HolLambdas.Scalar.Inject
import HolLambdas.Scalar.Fold
import HolLambdas.Scalar.Exec
import HolLambdas.Scalar.Typing
import HolLambdas.Scalar.Meaning
import HolLambdas.Scalar.Parametric
import HolLambdas.Scalar.Substitution
import HolLambdas.Scalar.Application
import HolLambdas.Scalar.Interpreter
import HolLambdas.Scalar.Flatten
import HolLambdas.Scalar.Preservation
import HolLambdas.Scalar.ByName
import HolLambdas.Scalar.Folding
import HolLambdas.Scalar.Hoisting
import HolLambdas.Scalar.Residual
import HolLambdas.Scalar.FoldedWalk
import HolLambdas.Scalar.Compose
import HolLambdas.Scalar.Renumber
import HolLambdas.Scalar.FoldRun
import HolLambdas.Scalar.StagedErrors
import HolLambdas.Scalar.Embedded
import HolLambdas.Parse.Transform
import HolLambdas.Parse.Insert
import HolLambdas.Parse.Literal
import HolLambdas.Scalar.WellCalled
import HolLambdas.Parse.Calls
import HolLambdas.Lru
import HolLambdas.LruContent
import HolLambdas.Scalar.Cache
import HolLambdas.Scalar.CacheOrder
import HolLambdas.Scalar.Sites
import HolLambdas.Scalar.SiteTree
import HolLambdas.Scalar.Nested
import HolLambdas.MachineInt
import HolLambdas.Catalog.SigKey
import HolLambdas.Catalog.SigText
import HolLambdas.Catalog.Intern
import HolLambdas.Runs
import HolLambdas.Catalog.Concurrent
import HolLambdas.WorkPool
import HolLambdas.Parallel.Jobs
import HolLambdas.Parallel.Workers
import HolLambdas.Parallel.Output
import HolLambdas.Parallel.Threads
import HolLambdas.Parallel.Nulls
import HolLambdas.Parallel.Buffers
import HolLambdas.Row.Inject
import HolLambdas.Row.Meaning
import HolLambdas.Row.Embed
import HolLambdas.Row.Complete
import HolLambdas.Parse.RowContext
import HolLambdas.Row.Names
import HolLambdas.Rounding
import HolLambdas.Jit.Functions
import HolLambdas.Jit.Simple
import HolLambdas.Jit.Agree
import HolLambdas.Jit.Whitelist
import HolLambdas.Jit.Injected
import HolLambdas.Jit.Flattened
import HolLambdas.Jit.Registers
import HolLambdas.Jit.Gate
import HolLambdas.Parse.Arity
import HolLambdas.Parse.Assign
import HolLambdas.Parse.Narrow
import HolLambdas.LinkedQueue
import HolLambdas.Parallel.PoolSteps
import HolLambdas.Parallel.PoolInvariant
import HolLambdas.Parallel.ThreadPool
import HolLambdas.Parallel.Pack
import HolLambdas.Bytes
import HolLambdas.Parallel.PackBytes
import HolLambdas.Parallel.MinimalTuple
import HolLambdas.Parallel.Aggregate
import HolLambdas.ChunkHeap
import HolLambdas.Tuplestore.Store
import HolLambdas.Tuplestore.Spool
import HolLambdas.Tuplestore.Slots
import HolLambdas.Tuplestore.Simulation
import HolLambdas.Tuplestore.Blocks
import HolLambdas.Tuplestore.Reads
import HolLambdas.Tuplestore.Upkeep
import HolLambdas.Tuplestore.Histories
import HolLambdas.Row.Display
import HolLambdas.ForkJoin
import HolLambdas.Kmeans.Scan
import HolLambdas.Kmeans.Threads
import HolLambdas.Kmeans.Buffers
import HolLambdas.Jit.Folded
import HolLambdas.Kmeans.Distance
import HolLambdas.RowMajor
import HolLambdas.Arrays.ArrayType
import HolLambdas.Arrays.Product
import HolLambdas.Arrays.Transpose
import HolLambdas.Arrays.Elementwise
import HolLambdas.Arrays.Softmax
import HolLambdas.Arrays.CopyBytes
