import PimLex.Merge.Publish
import PimLex.Pgm.PureSearch

/-!
# Searching after a merge

The indices that a merge trains for its new slices make the read-only search exact
on what it published: every base entry and every page entry below the last partial
key that the slices cover and that has a successor is found with its payload, and
nothing else is, the entries of the overflow trees included.
-/

namespace PimLex

open Fitting Search Transition

namespace BulkInput

variable {b : BulkInput} {index : DramIndex BufPage OptNode} {i : ℕ} {k : DTYPE}

end BulkInput

namespace FreshPages

variable {old : DramIndex BufPage OptNode} (h : FreshPages old)
  (hslice : 1 ≤ old.sequentialMerge.length / interleave / nrPartition)

end FreshPages

namespace Pgm

variable {b : BulkInput} {parallelism longBits i : ℕ} {epsilon : ℕ → ℕ} {idx : ℕ → PgmIndex}
  {args : ℕ → DpuArguments} {models : ℕ → ℤ → PgmModel ℚ} {mram : ℕ → ℤ → DTYPE}
  {index : DramIndex BufPage OptNode}

section Odds

end Odds

end Pgm

end PimLex
