import TreeRepair.SeqRanges
import Mathlib.Data.List.Dedup

/-!
# `check_tree` and `fix_tree`

Both compare the tree's on-chain sequence counter with the index's aggregate over the tree's
`cl_audits` rows: they log where the index's largest sequence number stands against the chain's
("Check tip"), and, when that number differs from the number of distinct indexed sequence
numbers ("Check completeness"), compute the numbers of `[1, onchain_seq]` that have no row.
`check_tree` logs their ranges; `fix_tree` hands them to `find_and_forward_txns_for_missing_seqs`,
which this module takes as a parameter. The query for them has no `ORDER BY`, so the database
returns them in an order of its own (`RowOrder`). The shared skeleton is `inspectTree`. Log lines
and error messages carry the tree's pubkey in the source; here they do not.
-/

namespace TreeRepair

/-- A `cl_audits` row of the tree, with the columns the tool reads. -/
structure ClAudit where
  /-- The sequence number of the change the row records. -/
  seq : Int
  /-- The signature of the transaction that made the change. -/
  tx : String
  deriving DecidableEq, Repr

/-- `MaxSeqItem`, the aggregate row of `get_tree_max_seq`. -/
structure MaxSeqItem where
  maxSeq : Int
  cntSeq : Int
  deriving DecidableEq, Repr

/-- `get_tree_max_seq`: `max(seq)` and `count(distinct seq)` over the tree's rows. The aggregate
query always returns one row; over no rows `max(seq)` is NULL, which does not decode into the
`i64` field `max_seq`, so the query fails. -/
def getTreeMaxSeq (rows : List ClAudit) : Except String (Option MaxSeqItem) :=
  match (rows.map ClAudit.seq).max? with
  | none => .error "max_seq is NULL"
  | some m => .ok (some ⟨m, (rows.map ClAudit.seq).dedup.length⟩)

/-- The order in which the database returns the rows of a query without `ORDER BY`: any
rearrangement of them. -/
structure RowOrder where
  /-- The rows as returned, from the rows in the order the query produces them. -/
  arrange : List Int → List Int
  /-- Every row is returned, once. -/
  perm : ∀ l, (arrange l).Perm l

/-- The rows in the order the query produces them. -/
def RowOrder.series : RowOrder := ⟨id, List.Perm.refl⟩

/-- The numbers of `generate_series(1, max_seq)` for which no row of the tree exists, in the order
of the series. -/
def missingSeries (rows : List ClAudit) (maxSeq : Int) : List Int :=
  ((List.range maxSeq.toNat).map fun (i : Nat) => (i : Int) + 1).filter fun s =>
    !rows.any (·.seq == s)

/-- `get_missing_seq(tree, max_seq)`: the rows of its query, in the order `order` the database
returns them. -/
def getMissingSeq (order : RowOrder) (rows : List ClAudit) (maxSeq : Int) : List Int :=
  order.arrange (missingSeries rows maxSeq)

/-- The log lines of `check_tree` and `fix_tree`. -/
inductive TreeLog where
  /-- warn: "Tree not fully indexed. On-chain seq: {}. Indexed seq: {}" -/
  | notFullyIndexed (onchainSeq maxSeq : Int)
  /-- info: "Tree is up-to-date! Seq: {}" -/
  | upToDate (onchainSeq : Int)
  /-- error: "Something went wrong. Indexer is ahead of the chain? ..." -/
  | indexerAhead (onchainSeq maxSeq : Int)
  /-- warn: "Tree has gaps. Max indexed seq: {}. Distinct seqs: {}" -/
  | hasGaps (maxSeq cntSeq : Int)
  /-- warn: "missing seq ranges: {:?}" (`check_tree` only) -/
  | missingSeqRanges (ranges : List (Int × Int))
  /-- info: "Tree has no gaps!"; `fix_tree` adds "Indexed Seq: {:?}" -/
  | noGaps (indexedSeq : Option Int)
  deriving DecidableEq, Repr

/-- "Check tip": the log line of `indexed_seq.max_seq.cmp(&onchain_seq)`. -/
def tipLog (onchainSeq : Int) (indexedSeq : MaxSeqItem) : TreeLog :=
  match compare indexedSeq.maxSeq onchainSeq with
  | .lt => .notFullyIndexed onchainSeq indexedSeq.maxSeq
  | .eq => .upToDate onchainSeq
  | .gt => .indexerAhead onchainSeq indexedSeq.maxSeq

/-- The reads both functions start with: the on-chain seq (`get_onchain_tree_seq`, whose result is
`onchain`), converted by `try_into().unwrap()`, and the index's aggregate. -/
def readTreeSeqs (onchain : Except String Nat) (rows : List ClAudit) :
    Outcome (Int × MaxSeqItem) := do
  let seq ← Outcome.withContext "tree is missing from chain or error occured" onchain
  let onchainSeq ← Outcome.unwrap (u64TryIntoI64 seq)
  let maybeItem ← Outcome.withContext "counldn't query tree from index" (getTreeMaxSeq rows)
  let indexedSeq ← Outcome.okOr "tree missing from index" maybeItem
  pure (onchainSeq, indexedSeq)

/-- The skeleton of `check_tree` and `fix_tree`, with the log lines written and how the call
ends. On `max_seq != cnt_seq` the missing seqs go to `onGaps`; otherwise `noGaps` is logged. -/
def inspectTree (onGaps : List Int → List TreeLog × Outcome Unit) (noGaps : MaxSeqItem → TreeLog)
    (order : RowOrder) (onchain : Except String Nat) (rows : List ClAudit) :
    List TreeLog × Outcome Unit :=
  match readTreeSeqs onchain rows with
  | .err m => ([], .err m)
  | .panic m => ([], .panic m)
  | .ok (onchainSeq, indexedSeq) =>
    if indexedSeq.maxSeq ≠ indexedSeq.cntSeq then
      let (logs, result) := onGaps (getMissingSeq order rows onchainSeq)
      (tipLog onchainSeq indexedSeq :: .hasGaps indexedSeq.maxSeq indexedSeq.cntSeq :: logs, result)
    else ([tipLog onchainSeq indexedSeq, noGaps indexedSeq], .ok ())

/-- `check_tree`: the missing seqs are logged as the ranges of `build_seq_ranges`. -/
def checkTree (order : RowOrder) (onchain : Except String Nat) (rows : List ClAudit) :
    List TreeLog × Outcome Unit :=
  inspectTree (fun missingSeqs => ([.missingSeqRanges (buildSeqRanges missingSeqs)], .ok ()))
    (fun _ => .noGaps none) order onchain rows

/-- `fix_tree`: the missing seqs are passed to `find_and_forward_txns_for_missing_seqs`, whose
outcome is `findAndForward`'s. -/
def fixTree (findAndForward : List Int → Outcome Unit) (order : RowOrder)
    (onchain : Except String Nat) (rows : List ClAudit) : List TreeLog × Outcome Unit :=
  inspectTree (fun missingSeqs => ([], findAndForward missingSeqs))
    (fun indexedSeq => .noGaps (some indexedSeq.maxSeq)) order onchain rows

end TreeRepair
