import TreeRepair.Basic

/-!
# `build_seq_ranges`

The gap detector of `tree-status`. The ascending missing sequence numbers are compressed into
contiguous ranges; then a range is joined into the one before it when it starts at most
`maximum_join_gap` after that one ends, so that each range costs one paginated
`getSignaturesForAddress` search. Each loop of the source is a recursion whose parameters are the
loop's accumulator `(current_start, current_end)`; the two additions are on `i64`.
-/

namespace TreeRepair

/-- `maximum_join_gap`: two ranges are joined if within this gap. -/
def maximumJoinGap : Int := 10

/-- The first loop of `build_seq_ranges`: the current range is extended while the next number is
`current_end + 1`, and otherwise pushed, the next number starting a new one. -/
def contiguousRanges (currentStart currentEnd : Int) : List Int → List (Int × Int)
  | [] => [(currentStart, currentEnd)]
  | num :: seqs =>
    if wrapI64 (currentEnd + 1) = num then contiguousRanges currentStart num seqs
    else (currentStart, currentEnd) :: contiguousRanges num num seqs

/-- The second loop: the next range is joined into the current one when
`current_end + maximum_join_gap >= start`, and otherwise the current one is pushed. -/
def joinRanges (currentStart currentEnd : Int) : List (Int × Int) → List (Int × Int)
  | [] => [(currentStart, currentEnd)]
  | (start, rangeEnd) :: ranges =>
    if start ≤ wrapI64 (currentEnd + maximumJoinGap) then joinRanges currentStart rangeEnd ranges
    else (currentStart, currentEnd) :: joinRanges start rangeEnd ranges

/-- `ranges[0]` starts the second loop over `ranges.iter().skip(1)`. The first loop always pushes
a range, so the empty case is never taken. -/
def joinFirst : List (Int × Int) → List (Int × Int)
  | [] => []
  | (currentStart, currentEnd) :: ranges => joinRanges currentStart currentEnd ranges

/-- `build_seq_ranges(seqs)`. -/
def buildSeqRanges : List Int → List (Int × Int)
  | [] => []
  | s :: seqs => joinFirst (contiguousRanges s s seqs)

end TreeRepair
