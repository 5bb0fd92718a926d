import Hiko.Vm.Soundness
import Hiko.Vm.Memory
import Hiko.Heap.Accounting
import Hiko.Heap.Slots
import Hiko.Runtime.FuelBudget
import Hiko.Runtime.Admission
import Hiko.Runtime.Lifecycle
import Hiko.Runtime.JoinErrors
import Hiko.Runtime.Snapshot
import Hiko.Io.Pool
import Hiko.Types.Drivers
import Hiko.Types.Rectangular
import Hiko.Syntax.Scoping
import Hiko.Compile.TailPosition
import Hiko.Compile.Operators
import Hiko.Compile.Sealed
import Hiko.Compile.Cases
import Hiko.Types.Exhaustive
import Hiko.Types.Mgu
import Hiko.Syntax.Nesting
import Hiko.Syntax.LexPartition
import Hiko.Vm.RecursiveGroups
import Hiko.Heap.MessageCheck
import Hiko.Heap.SentCache
import Hiko.Fs.CapPaths
import Hiko.Builtins.JsonRoundTrip
import Hiko.Vm.Equality
import Hiko.Fs.Lockfile
import Hiko.Fs.DirListing
import Hiko.Runtime.Interleavings
import Hiko.Lib.Congruential
import Hiko.Builtins.Random
