import Thrust.Memory
import Thrust.SequentialCopy
import Thrust.OverlappedCopy
import Thrust.Parallel
import Thrust.ScatterGather
import Thrust.SwapRanges
import Thrust.Remove
import Thrust.TransformScan
import Thrust.TbbCopy
