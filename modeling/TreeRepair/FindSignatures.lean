import TreeRepair.CheckTree

/-!
# Resolving a missing seq range to signatures

`find_signatures_for_missing_seq_range` bounds the range `(start, end)` by two indexed
transactions: the row with the smallest seq `≥ end` gives `before`, the row with the largest seq
`≤ start` gives `until`. It then pages through `getSignaturesForAddress(before, until, 1000)`,
newest first, sending every signature on the channel and moving `before` to the last one, until a
page comes back empty.

The ledger is the tree's history, oldest first: each transaction with its signature and the seqs
it emitted. `getSignaturesForAddress` answers as the RPC documents it: newest first, up to `limit`
signatures strictly older than `before` and strictly newer than `until`, an absent bound meaning
unbounded. Each of the two `cl_audits` queries and each RPC call may fail, and its `?` then ends
the search with the error (`SearchFaults`); `Signature::from_str` is a parameter.
-/

namespace TreeRepair

/-- A transaction of the tree's history: its signature and the seqs it emitted. -/
structure HistTx (Sig : Type) where
  sig : Sig
  seqs : List Int
  deriving DecidableEq, Repr

variable {Sig : Type} [DecidableEq Sig]

/-- The signatures of the history `hist`, oldest first, listed newest first. -/
def newestFirst (hist : List (HistTx Sig)) : List Sig := hist.reverse.map HistTx.sig

/-- The signatures strictly older than `before`, newest first; none when the node does not find
`before`. -/
def olderThan (hist : List (HistTx Sig)) : Option Sig → List Sig
  | some b => ((newestFirst hist).dropWhile fun s => s ≠ b).drop 1
  | none => newestFirst hist

/-- The signatures strictly newer than `until`, newest first; all of them when the node does not
find `until`, and then scans down to its first block. -/
def newerThan (hist : List (HistTx Sig)) : Option Sig → List Sig
  | some u => (newestFirst hist).takeWhile fun s => s ≠ u
  | none => newestFirst hist

/-- `getSignaturesForAddress(before, until, limit)` over the history `hist`. -/
def getSignaturesForAddress (hist : List (HistTx Sig)) (before until_ : Option Sig) (limit : Nat) :
    List Sig :=
  ((olderThan hist before).takeWhile fun s => s ∈ newerThan hist until_).take limit

/-- The first of the rows with the smallest seq `≥ end`: `filter(Seq.gte(end))`,
`order_by_asc(Seq)`, `limit(1)`. -/
def beforeTxn (rows : List ClAudit) (end_ : Int) : Option ClAudit :=
  (rows.filter fun r => end_ ≤ r.seq).foldl (fun best r => match best with
    | some b => if r.seq < b.seq then some r else best
    | none => some r) none

/-- The first of the rows with the largest seq `≤ start`: `filter(Seq.lte(start))`,
`order_by_desc(Seq)`, `limit(1)`. -/
def untilTxn (rows : List ClAudit) (start : Int) : Option ClAudit :=
  (rows.filter fun r => r.seq ≤ start).foldl (fun best r => match best with
    | some b => if b.seq < r.seq then some r else best
    | none => some r) none

/-- The paging `loop`, with at most `fuel` calls of `page`, which answers a page or gives the error
of the call: each page is sent, `before` moves to its last signature, an empty page ends the loop,
and an error ends it after the pages sent. `none` when the fuel runs out. -/
def findSignaturesLoopOrErr (page : Option Sig → Except String (List Sig)) :
    Nat → Option Sig → Option (List Sig × Except String Unit)
  | 0, _ => none
  | fuel + 1, before =>
    match page before with
    | .error e => some ([], .error e)
    | .ok sigs =>
      match sigs.getLast? with
      | none => some ([], .ok ())
      | some last => (findSignaturesLoopOrErr page fuel (some last)).map fun r => (sigs ++ r.1, r.2)

/-- What the paging loop sends when every call answers. -/
def findSignaturesLoop (page : Option Sig → List Sig) (fuel : Nat) (before : Option Sig) :
    Option (List Sig) :=
  (findSignaturesLoopOrErr (fun b => .ok (page b)) fuel before).map Prod.fst

/-- The calls of a search that fail, with their errors: the `cl_audits` query for `before`, the one
for `until`, and the call of `getSignaturesForAddress` with a given `before`. -/
structure SearchFaults (Sig : Type) where
  beforeQuery : Option String
  untilQuery : Option String
  page : Option Sig → Option String

/-- Every call answers. -/
def SearchFaults.noFailure : SearchFaults Sig := ⟨none, none, fun _ => none⟩

/-- `find_signatures_for_missing_seq_range(tree, (start, end), ..)` over the history `hist` and the
tree's `cl_audits` rows, with the calls `faults` names failing and at most `fuel` RPC calls: the
signatures it sends on the channel, and its result. `parseSig` is `Signature::from_str(..).ok()`. -/
def findSignaturesForMissingSeqRangeOrErr (hist : List (HistTx Sig)) (rows : List ClAudit)
    (parseSig : String → Option Sig) (faults : SearchFaults Sig) (range : Int × Int) (fuel : Nat) :
    Option (List Sig × Except String Unit) :=
  let (start, end_) := range
  match faults.beforeQuery, faults.untilQuery with
  | some e, _ => some ([], .error e)
  | none, some e => some ([], .error e)
  | none, none =>
    let before := (beforeTxn rows end_).bind fun txn => parseSig txn.tx
    let until_ := (untilTxn rows start).bind fun txn => parseSig txn.tx
    findSignaturesLoopOrErr (fun b => match faults.page b with
      | some e => .error e
      | none => .ok (getSignaturesForAddress hist b until_ 1000)) fuel before

/-- What `find_signatures_for_missing_seq_range` sends when every call answers. -/
def findSignaturesForMissingSeqRange (hist : List (HistTx Sig)) (rows : List ClAudit)
    (parseSig : String → Option Sig) (range : Int × Int) (fuel : Nat) : Option (List Sig) :=
  (findSignaturesForMissingSeqRangeOrErr hist rows parseSig .noFailure range fuel).map Prod.fst

end TreeRepair
