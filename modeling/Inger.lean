import Inger.L1Pool.Timers
import Inger.L1Pool.Poison
import Inger.L1Pool.ControlBlock
import Inger.L2Machine.Budget
import Inger.L3Slice.Deferred
import Inger.L3Slice.Errno
import Inger.L3Slice.Yield
import Inger.L3Slice.Timeout
import Inger.L4Linger.Tcb
import Inger.L4Linger.Builds
import Inger.L4Linger.Memory
import Inger.L4Linger.ZeroBudget
import Inger.L4Linger.Abort
import Inger.L5Future.Channel
import Inger.L6Compiler.Meaning
import Inger.L6Compiler.Room
