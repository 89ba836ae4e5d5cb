import Pacer.Control.Rounds

set_option autoImplicit false

/-! # How often the epoch strides

`op_counter % stride` is tested at the ends of windows only, where `op_counter` is a multiple of
`WINDOW_SIZE`. The epoch therefore strides once in `stridePeriod` windows, the stride divided by
its common divisor with `WINDOW_SIZE`: a stride of 17 takes 17 windows, one of 32 a single one.
A larger stride strides less often exactly where its period is the longer one.
-/

namespace Pacer

/-! ## A stride tested every `w` operations -/

variable {P : Type}

namespace PacerSystem

/-- A fresh system and its first thread. -/
def fresh : PacerSystem ℚ × ThreadLocalState ℚ Nat := (new, ThreadLocalState.new 0)

end PacerSystem

end Pacer
