import TreeRepair.Basic

/-!
# `check_tree_leafs`

`check_tree_leafs` reads the tree's history with the workers of `read_tree_start` and keeps, for
each leaf index, the largest sequence number observed and the signature of a transaction that
produced it. It then walks the database's rows `(leaf_idx, MAX(seq))`: a row whose leaf was
observed is removed from the map and checked (`invalid seq` when the sequence numbers disagree),
and a row whose leaf was not observed is reported `not found in blockchain`. What is left in the
map is reported `not found in db`, and each such signature is written to `output`.

The signatures are of any type `Sig`. The log lines are the `LeafReport`s; the database query, its
errors and the decoding of its rows, and the errors of the writes to `output`, are left out.
-/

namespace TreeRepair

/-- `LeafNode`: the leaf index of a change-log event. -/
structure LeafNode where
  index : Int
  deriving DecidableEq, Repr

/-- `AssetMaxSeq`, a row of the database query: a leaf index and its largest sequence number. -/
structure AssetMaxSeq where
  leafIdx : Int
  seq : Int
  deriving DecidableEq, Repr

/-- The lines `check_tree_leafs` logs for a leaf. -/
inductive LeafReport (Sig : Type) where
  /-- `leaf index {}: invalid seq {} vs {} (db vs blockchain, tx={:?})`. -/
  | invalidSeq (leafIdx dbSeq : Int) (seq : Nat) (sig : Sig)
  /-- `leaf index {}: not found in blockchain`. -/
  | notFoundInBlockchain (leafIdx : Int)
  /-- `leaf index {leaf_idx}: not found in db, seq {seq} tx={signature:?}`. -/
  | notFoundInDb (leafIdx : Int) (seq : Nat) (sig : Sig)
  deriving DecidableEq, Repr

/-- The leaf index a report is about. -/
def LeafReport.leafIdx {Sig : Type} : LeafReport Sig → Int
  | .invalidSeq i _ _ _ => i
  | .notFoundInBlockchain i => i
  | .notFoundInDb i _ _ => i

variable {Sig : Type}

/-- The collector's map: for each leaf index, a signature and the largest seq seen. -/
abbrev LeafMap (Sig : Type) := AList fun _ : Int => Sig × Nat

/-- `leafs.entry(leaf_idx).or_insert((signature, seq))`, then `*entry = (signature, seq)` when
`entry.1 < seq`. -/
def leafsInsert (leafs : LeafMap Sig) (sig : Sig) (seq : Nat) (idx : Int) : LeafMap Sig :=
  match leafs.lookup idx with
  | none => leafs.insert idx (sig, seq)
  | some e => if e.2 < seq then leafs.insert idx (sig, seq) else leafs

/-- The inner loop, over one transaction's `(seq, maybe_leaf)` pairs. -/
def collectTxLeafs (sig : Sig) : LeafMap Sig → List (Nat × Option LeafNode) → LeafMap Sig
  | leafs, [] => leafs
  | leafs, (seq, some leaf) :: rest => collectTxLeafs sig (leafsInsert leafs sig seq leaf.index) rest
  | leafs, (_, none) :: rest => collectTxLeafs sig leafs rest

/-- `while let Some((_id, signature, vec)) = leafs_rx.recv().await`, over the messages in the
order the channel delivers them; `vec.unwrap_or_default()`. -/
def collectLeafs : LeafMap Sig → List (Nat × Sig × Option (List (Nat × Option LeafNode))) →
    LeafMap Sig
  | leafs, [] => leafs
  | leafs, (_, sig, seqs) :: msgs => collectLeafs (collectTxLeafs sig leafs (seqs.getD [])) msgs

/-- One database row: `leafs.remove(&leaf_db.leaf_idx)`, then the check `leaf_db.seq != seq as
i64`, or `not found in blockchain`. -/
def checkDbRow (leafs : LeafMap Sig) (row : AssetMaxSeq) : List (LeafReport Sig) × LeafMap Sig :=
  match leafs.extract row.leafIdx with
  | (some (sig, seq), leafs) =>
    (if row.seq ≠ u64AsI64 seq then [.invalidSeq row.leafIdx row.seq seq sig] else [], leafs)
  | (none, leafs) => ([.notFoundInBlockchain row.leafIdx], leafs)

/-- `for leaf_db in leafs_db.iter()`. -/
def checkDbRows : LeafMap Sig → List AssetMaxSeq → List (LeafReport Sig) × LeafMap Sig
  | leafs, [] => ([], leafs)
  | leafs, row :: rows =>
    let (r, leafs) := checkDbRow leafs row
    let (rs, leafs) := checkDbRows leafs rows
    (r ++ rs, leafs)

/-- `check_tree_leafs` after the read: the reports it logs, in order, and the signatures it writes
to `output`, when one is given. `msgs` are the messages the collector receives and `rows` the
database's answer; `vec` holds the map's leftovers in the order its `into_iter` yields them. -/
def checkTreeLeafs (msgs : List (Nat × Sig × Option (List (Nat × Option LeafNode))))
    (rows : List AssetMaxSeq) (vec : List (Int × Sig × Nat)) : List (LeafReport Sig) × List Sig :=
  ((checkDbRows (collectLeafs ∅ msgs) rows).1 ++ vec.map fun e => .notFoundInDb e.1 e.2.2 e.2.1,
    vec.map fun e => e.2.1)

end TreeRepair
