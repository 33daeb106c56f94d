import TreeRepair.CheckTree
import TreeRepair.Proofs.SeqRanges
import Mathlib.Data.Int.Interval

/-!
# What `fix_tree` repairs

`fix_tree` decides from `max(seq)` and `count(distinct seq)` alone. When they differ it hands
`find_and_forward_txns_for_missing_seqs` every number of `[1, onchain_seq]` that has no row, once
each, in the database's order; returned ascending, the ranges `build_seq_ranges` makes of them
cover each. When they agree, the indexed seqs, all positive, are exactly `1..max(seq)`: nothing
is repaired, and the index misses exactly the seqs above `max(seq)` (`fixTree_skips_missing_tip`).
-/

namespace TreeRepair

/-- The distinct sequence numbers indexed for the tree. -/
def indexedSeqs (rows : List ClAudit) : Finset Int := (rows.map ClAudit.seq).toFinset

section Reads

variable {rows : List ClAudit} {n : Nat} {m : Int}

theorem readTreeSeqs_ok (hn : n < 2 ^ 63) (hm : (rows.map ClAudit.seq).max? = some m) :
    readTreeSeqs (.ok n) rows = .ok (n, ⟨m, (indexedSeqs rows).card⟩) := by
  simp [readTreeSeqs, Outcome.withContext, Outcome.unwrap, Outcome.okOr,
    u64TryIntoI64_eq_some.mpr ⟨hn, rfl⟩, getTreeMaxSeq, hm, indexedSeqs, List.card_toFinset]

/-- An index without rows for the tree fails the aggregate query. -/
theorem readTreeSeqs_of_nil (hn : n < 2 ^ 63) :
    readTreeSeqs (.ok n) [] = .err "counldn't query tree from index: max_seq is NULL" := by
  simp [readTreeSeqs, Outcome.withContext, Outcome.unwrap, u64TryIntoI64_eq_some.mpr ⟨hn, rfl⟩,
    getTreeMaxSeq]

section Inspect

variable {onGaps : List Int → List TreeLog × Outcome Unit} {noGaps : MaxSeqItem → TreeLog}
  {order : RowOrder} {onchain : Except String Nat} {s : Int} {item : MaxSeqItem}

theorem inspectTree_of_gap (h : readTreeSeqs onchain rows = .ok (s, item))
    (hne : item.maxSeq ≠ item.cntSeq) :
    inspectTree onGaps noGaps order onchain rows =
      (tipLog s item :: .hasGaps item.maxSeq item.cntSeq :: (onGaps (getMissingSeq order rows s)).1,
        (onGaps (getMissingSeq order rows s)).2) := by
  simp [inspectTree, h, hne]

theorem inspectTree_of_no_gap (h : readTreeSeqs onchain rows = .ok (s, item))
    (heq : item.maxSeq = item.cntSeq) :
    inspectTree onGaps noGaps order onchain rows = ([tipLog s item, noGaps item], .ok ()) := by
  simp [inspectTree, h, heq]

theorem inspectTree_of_err {e : String} (h : readTreeSeqs onchain rows = .err e) :
    inspectTree onGaps noGaps order onchain rows = ([], .err e) := by
  simp [inspectTree, h]

end Inspect

/-- The query of `get_missing_seq` produces the numbers of `[1, max_seq]` that are not indexed. -/
theorem mem_missingSeries {k : Int} :
    k ∈ missingSeries rows m ↔ 1 ≤ k ∧ k ≤ m ∧ k ∉ indexedSeqs rows := by
  simp only [missingSeries, List.mem_filter, List.mem_map, List.mem_range, Bool.not_eq_true',
    List.any_eq_false, beq_iff_eq, indexedSeqs, List.mem_toFinset]
  constructor
  · rintro ⟨⟨i, hi, rfl⟩, h⟩
    exact ⟨by omega, by omega, fun ⟨r, hr, he⟩ => h r hr he⟩
  · rintro ⟨h1, h2, h3⟩
    exact ⟨⟨(k - 1).toNat, by omega, by omega⟩, fun r hr he => h3 ⟨r, hr, he⟩⟩

/-- ... in ascending order. -/
theorem missingSeries_sorted : (missingSeries rows m).Sorted (· < ·) := by
  refine List.Sorted.filter _ (List.pairwise_map.mpr ?_)
  exact (List.pairwise_lt_range _).imp fun h => by omega

/-- In whatever order the database returns them, `get_missing_seq` returns those numbers, once
each. -/
theorem mem_getMissingSeq {order : RowOrder} {k : Int} :
    k ∈ getMissingSeq order rows m ↔ 1 ≤ k ∧ k ≤ m ∧ k ∉ indexedSeqs rows :=
  ((order.perm _).mem_iff).trans mem_missingSeries

theorem getMissingSeq_nodup (order : RowOrder) : (getMissingSeq order rows m).Nodup :=
  (order.perm _).nodup_iff.mpr (missingSeries_sorted.imp ne_of_lt)

/-- Returned in ascending order, they are the series' order. -/
theorem getMissingSeq_eq_of_sorted {order : RowOrder} (h : (getMissingSeq order rows m).Sorted (· < ·)) :
    getMissingSeq order rows m = missingSeries rows m :=
  List.eq_of_perm_of_sorted (order.perm _) h missingSeries_sorted

/-- Positive sequence numbers whose maximum equals their count are exactly `1..max`. -/
theorem indexedSeqs_eq_Icc (hpos : ∀ r ∈ rows, 0 < r.seq)
    (hm : (rows.map ClAudit.seq).max? = some m) (hc : m = (indexedSeqs rows).card) :
    indexedSeqs rows = Finset.Icc 1 m := by
  have hle := (List.max?_le_iff (fun _ _ _ => max_le_iff) hm).mp le_rfl
  refine Finset.eq_of_subset_of_card_le (fun k hk => ?_) ?_
  · obtain ⟨r, hr, rfl⟩ := List.mem_map.mp (List.mem_toFinset.mp hk)
    exact Finset.mem_Icc.mpr ⟨hpos r hr, hle _ (List.mem_map_of_mem _ hr)⟩
  · rw [Int.card_Icc]; omega

end Reads

/-- What `fix_tree` does for a tree whose index holds the positive sequence numbers of `rows`,
with largest one `m`, whose on-chain seq `n` fits in `i64`, and whose missing seqs the database
returns in the order `order`. -/
structure FixTreeContract (order : RowOrder) (rows : List ClAudit) (n : Nat) (m : Int) : Prop where
  /-- With `max(seq) ≠ count(distinct seq)`, the tip and the gaps are logged, and the pipeline
  runs on `get_missing_seq`'s rows and gives the call's result. -/
  forwards_of_gap : m ≠ (indexedSeqs rows).card → ∀ f, fixTree f order (.ok n) rows =
    ([tipLog n ⟨m, (indexedSeqs rows).card⟩, .hasGaps m (indexedSeqs rows).card],
      f (getMissingSeq order rows n))
  /-- Those rows are the numbers of `[1, n]` that are not indexed, ... -/
  mem_missing_iff : ∀ k : Int, k ∈ getMissingSeq order rows n ↔ 1 ≤ k ∧ k ≤ n ∧ k ∉ indexedSeqs rows
  /-- ... each once. -/
  missing_nodup : (getMissingSeq order rows n).Nodup
  /-- Returned in ascending order, their ranges contain every one of them. -/
  covers_of_sorted : (getMissingSeq order rows n).Sorted (· < ·) → ∀ k : Int, 1 ≤ k → k ≤ n →
    k ∉ indexedSeqs rows → ∃ r ∈ buildSeqRanges (getMissingSeq order rows n), r.1 ≤ k ∧ k ≤ r.2
  /-- With `max(seq) = count(distinct seq)`, "no gaps" is logged and no repair starts. -/
  no_repair_of_no_gap : m = (indexedSeqs rows).card → ∀ f, fixTree f order (.ok n) rows =
    ([tipLog n ⟨m, (indexedSeqs rows).card⟩, .noGaps (some m)], .ok ())
  /-- Then the numbers of `[1, n]` the index misses are those above `max(seq)`. -/
  missing_above_max_of_no_gap : m = (indexedSeqs rows).card →
    ∀ k : Int, (1 ≤ k ∧ k ≤ n ∧ k ∉ indexedSeqs rows ↔ m < k ∧ k ≤ n)
  /-- An index without rows for the tree fails the aggregate query, before any repair. -/
  fails_on_empty_index : ∀ f, fixTree f order (.ok n) [] =
    ([], .err "counldn't query tree from index: max_seq is NULL")

/-- For every index of positive sequence numbers with largest one `m`, every on-chain seq
`n < 2^63` and every order of the database's rows, what `fix_tree` logs, repairs and returns. -/
theorem fixTree_forwards_missing_seqs (order : RowOrder) (rows : List ClAudit)
    (hpos : ∀ r ∈ rows, 0 < r.seq) (n : Nat) (hn : n < 2 ^ 63) (m : Int)
    (hm : (rows.map ClAudit.seq).max? = some m) : FixTreeContract order rows n m where
  forwards_of_gap hne _ := inspectTree_of_gap (readTreeSeqs_ok hn hm) hne
  mem_missing_iff _ := mem_getMissingSeq
  missing_nodup := getMissingSeq_nodup order
  covers_of_sorted hs k h1 h2 h3 :=
    buildSeqRanges_covers (List.chain'_iff_pairwise.mpr hs) k (mem_getMissingSeq.mpr ⟨h1, h2, h3⟩)
  no_repair_of_no_gap heq _ := inspectTree_of_no_gap (readTreeSeqs_ok hn hm) heq
  missing_above_max_of_no_gap heq k := by
    rw [indexedSeqs_eq_Icc hpos hm heq, Finset.mem_Icc]
    omega
  fails_on_empty_index _ := inspectTree_of_err (readTreeSeqs_of_nil hn)

/-- An index with seqs `1` and `3` under an on-chain seq `4`. -/
theorem fixTree_forwards_missing_seqs_example :
    (∀ r ∈ [⟨1, "a"⟩, ⟨3, "b"⟩], 0 < ClAudit.seq r) ∧ 4 < 2 ^ 63 ∧
      ([⟨1, "a"⟩, ⟨3, "b"⟩].map ClAudit.seq).max? = some 3 ∧
      FixTreeContract .series [⟨1, "a"⟩, ⟨3, "b"⟩] 4 3 :=
  ⟨by decide, by decide, by decide,
    fixTree_forwards_missing_seqs .series _ (by decide) 4 (by decide) 3 (by decide)⟩

/-- An index that holds `1` under an on-chain seq `2`: `max = count`, so `fix_tree` logs that
the tree has no gaps and starts no repair, although `2` is missing. -/
theorem fixTree_skips_missing_tip :
    (2 : Int) ∉ indexedSeqs [⟨1, "a"⟩] ∧
      ∀ order, ¬ ∃ seqs, ∀ f, (fixTree f order (.ok 2) [⟨1, "a"⟩]).2 = f seqs := by
  refine ⟨by decide, fun order ⟨seqs, h⟩ => absurd (h fun _ => .err "") ?_⟩
  rw [fixTree, inspectTree_of_no_gap (readTreeSeqs_ok (m := 1) (by decide) (by decide)) (by decide)]
  decide

end TreeRepair
