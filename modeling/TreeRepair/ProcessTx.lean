import TreeRepair.ParseTx
import TreeRepair.FetchWorkers

/-!
# `process_tx` in the fetch workers of `read_tree_start`

`process_tx` fetches a transaction with `rpc_tx_with_retries` and reads its change-log events with
`parse_tx_sequence`, whose `ParseError` becomes the `anyhow` error of its text. A fetch worker of
`read_tree_start` then sends `map.remove(&pubkey)`: the tree's `(seq, leaf)` pairs, if the
transaction has any.

`rpc_tx_with_retries` belongs to the `txn_forwarder` crate. Here it is a function from signatures
to the transaction the RPC node returns, or its error: the transactions are finalized, so one
signature has one answer over a run. `FetchReachableBy` runs the workers with that `process_tx`,
so that the scheduler chooses only the interleaving.
-/

namespace TreeRepair

/-- The text of a `ParseError`, from its `#[error(..)]` attribute. -/
def ParseError.message : ParseError → String
  | .transactionMeta => "failed to load Transaction Meta"
  | .transaction => "failed to decode Transaction"
  | .instruction e => "failed to decode instruction data: " ++ e
  | .pubkey e => "failed to parse pubkey: " ++ e

variable {K Sig : Type} [DecidableEq K]

/-- `process_tx(signature, &client, max_retries)`: `rpc_tx_with_retries(..).await?`, then
`parse_tx_sequence(tx).map_err(Into::into)`. -/
def processTx (codec : TxCodec K) (rpcTxWithRetries : Sig → Except String (EncodedTx K))
    (signature : Sig) : Except String (SeqUpdates K) := do
  let tx ← rpcTxWithRetries signature
  (parseTxSequence codec tx).mapError ParseError.message

/-- What a fetch worker of `read_tree_start` sends for `signature`: `process_tx(..).await?`, then
`map.remove(&pubkey)`. -/
def fetchTreeSeqs (codec : TxCodec K) (rpcTxWithRetries : Sig → Except String (EncodedTx K))
    (pubkey : K) (signature : Sig) : Except String (Option (List (Nat × Option LeafNode))) := do
  let map ← processTx codec rpcTxWithRetries signature
  pure (map.lookup pubkey)

variable {P : Type}

/-- The states `n` workers of `read_tree_start` reach over `feed` when `process_tx` answers
`process`: in every interleaving, a fetching worker's `process_tx` returns what `process` gives for
its signature. -/
inductive FetchReachableBy (feed : List (FeedItem Sig)) (n : Nat) (process : Sig → Except String P) :
    FetchState Sig P → Prop where
  | init : FetchReachableBy feed n process fetchInit
  | step {s s' : FetchState Sig P} {w : Nat} {outcome : Except String P} :
      FetchReachableBy feed n process s → w < n →
      (∀ id sig, s.workers w = .fetching id sig → outcome = process sig) →
      fetchStep feed s w outcome = some s' → FetchReachableBy feed n process s'

end TreeRepair
