import TreeRepair.CheckLeafs

/-!
# `parse_tx_sequence`

`process_tx` fetches a transaction and `parse_tx_sequence` reads from it the change-log events that
the account-compression program logs through the noop program. A failed transaction, or one
without metadata, has none. Otherwise the program ids of the transaction's compiled inner
instructions are resolved in its account keys, the static keys then the loaded writable and
read-only addresses. The data of each noop instruction is base58-decoded, and when it decodes
as a change-log event, the event's `(seq, leaf)` is pushed onto the vector of the event's tree.
The leaf is the first node of the event's path, with its index in the tree turned into a leaf
index by `node_idx_to_leaf_idx`.

The decoders belong to other crates and are the fields of `TxCodec`: base58, the borsh decoding of
`AccountCompressionEvent`, and `Pubkey::from_str`. So does the decoding of the transaction's
encoded message, which the model takes as its result, the static account keys. Pubkeys are of any
type `K` with decidable equality. A `LeafNode` keeps its index; its `leaf`, the node's bytes, is
read by no caller and is left out.
-/

namespace TreeRepair

/-! ## Machine arithmetic -/

/-- `n as u32` for a `usize` `n`. -/
def usizeAsU32 (n : Nat) : Nat := n % 2 ^ 32

/-- `a - b` on `u32` in a release build: wraps below zero. -/
def u32WrappingSub (a b : Nat) : Nat := (a + 2 ^ 32 - b % 2 ^ 32) % 2 ^ 32

/-- `2i64.pow(exp)` in a release build: the products wrap, so the result is `2^exp` modulo
`2^64` read as an `i64`; every power from `2^64` on is `0` modulo `2^64`, which the `min` uses to
keep the power small. -/
def i64Pow2 (exp : Nat) : Int := wrapI64 (2 ^ min exp 64)

/-- `node_idx_to_leaf_idx`: `index - 2i64.pow(tree_height)`, wrapping in a release build. -/
def nodeIdxToLeafIdx (index : Int) (treeHeight : Nat) : Int := wrapI64 (index - i64Pow2 treeHeight)

/-! ## Change-log events -/

/-- `PathNode`: a node of the path from a leaf to the root, with its index in the tree (the root is
`1`, the children of node `i` are `2i` and `2i + 1`). Its 32 bytes are left out. -/
structure PathNode where
  index : UInt32
  deriving DecidableEq, Repr

/-- `ChangeLogEventV1`, as borsh decodes it: the path is a `Vec`, whose length borsh reads as a
`u32`. The event's own leaf index is read by no caller and is left out. -/
structure ChangeLogEventV1 (K : Type) where
  /-- The tree's pubkey. -/
  id : K
  path : List PathNode
  seq : UInt64
  path_length_lt : path.length < 2 ^ 32

variable {K : Type}

/-- The leaf of an event: `cl_data.path.get(0).map(..)`, the first node's index turned into a leaf
index with the tree height `path.len() as u32 - 1`. -/
def leafOf (cl : ChangeLogEventV1 K) : Option LeafNode :=
  cl.path.head?.map fun node =>
    ⟨nodeIdxToLeafIdx node.index.toNat (u32WrappingSub (usizeAsU32 cl.path.length) 1)⟩

/-- The pair an event pushes: `(cl_data.seq, leaf)`. -/
def seqUpdate (cl : ChangeLogEventV1 K) : Nat × Option LeafNode := (cl.seq.toNat, leafOf cl)

/-! ## Transactions -/

/-- `UiInstruction`: an inner instruction as the RPC node encodes it. A compiled one carries the
index of its program id in the account keys and its data in base58. -/
inductive UiInstruction where
  | compiled (programIdIndex : UInt8) (data : String)
  | parsed
  deriving DecidableEq, Repr

/-- The fields of `UiTransactionStatusMeta` that `parse_tx_sequence` reads. An `OptionSerializer`
that is `None` or `Skip` is `none`. -/
structure UiTransactionStatusMeta where
  status : Except String Unit
  /-- The instructions of each `UiInnerInstructions`, in order. -/
  innerInstructions : Option (List (List UiInstruction))
  /-- `UiLoadedAddresses`: the writable and the read-only addresses, as strings. -/
  loadedAddresses : Option (List String × List String)

/-- The parts of `EncodedConfirmedTransactionWithStatusMeta` that `parse_tx_sequence` reads: the
metadata, and the static account keys of the transaction that `decode()` gives, if it decodes. -/
structure EncodedTx (K : Type) where
  meta : Option UiTransactionStatusMeta
  staticAccountKeys : Option (List K)

/-- `ParseError`. -/
inductive ParseError where
  /-- "failed to load Transaction Meta" -/
  | transactionMeta
  /-- "failed to decode Transaction" -/
  | transaction
  /-- "failed to decode instruction data: {0}" -/
  | instruction (e : String)
  /-- "failed to parse pubkey: {0}" -/
  | pubkey (e : String)
  deriving DecidableEq, Repr

/-- The decoders of other crates that `parse_tx_sequence` calls. -/
structure TxCodec (K : Type) where
  /-- `spl_noop::id()`. -/
  noopId : K
  /-- `bs58::decode(data).into_vec()`. -/
  bs58Decode : String → Except String (List UInt8)
  /-- `AccountCompressionEvent::try_from_slice(&data)`, when it is `Ok(ChangeLog(V1(..)))`. -/
  decodeChangeLog : List UInt8 → Option (ChangeLogEventV1 K)
  /-- `Pubkey::from_str`. -/
  pubkeyFromStr : String → Except String K

/-- `HashMap<Pubkey, Vec<(u64, MaybeLeafNode)>>`. -/
abbrev SeqUpdates (K : Type) [DecidableEq K] := AList fun _ : K => List (Nat × Option LeafNode)

variable [DecidableEq K] (codec : TxCodec K)

/-- `seq_updates.entry(id).or_default().push(update)`. -/
def pushSeqUpdate (seqUpdates : SeqUpdates K) (id : K) (update : Nat × Option LeafNode) :
    SeqUpdates K :=
  seqUpdates.insert id ((seqUpdates.lookup id).getD [] ++ [update])

/-- `account_keys.push(Pubkey::from_str(pubkey)?)` for each address, in order. -/
def pushPubkeys (accountKeys : List K) : List String → Except ParseError (List K)
  | [] => .ok accountKeys
  | pubkey :: pubkeys =>
    match codec.pubkeyFromStr pubkey with
    | .error e => .error (.pubkey e)
    | .ok key => pushPubkeys (accountKeys ++ [key]) pubkeys

/-- The account keys: the static keys, then the loaded writable and read-only addresses. -/
def loadAccountKeys (staticKeys : List K) :
    Option (List String × List String) → Except ParseError (List K)
  | none => .ok staticKeys
  | some (writable, readonly) => do
    let accountKeys ← pushPubkeys codec staticKeys writable
    pushPubkeys codec accountKeys readonly

/-- The checks of the loop body for one inner instruction: a compiled instruction whose program id
resolves to the noop program has its data decoded (`?` on a base58 error), and gives the event
when the data is a change-log event. -/
def innerIxEvent (accountKeys : List K) : UiInstruction → Except ParseError (Option (ChangeLogEventV1 K))
  | .compiled programIdIndex data =>
    match accountKeys.get? programIdIndex.toNat with
    | some program =>
      if program = codec.noopId then
        match codec.bs58Decode data with
        | .error e => .error (.instruction e)
        | .ok bytes => .ok (codec.decodeChangeLog bytes)
      else .ok none
    | none => .ok none
  | .parsed => .ok none

/-- The loop body for one inner instruction: the event it gives is pushed onto its tree's vector. -/
def parseInnerIx (accountKeys : List K) (seqUpdates : SeqUpdates K) (ix : UiInstruction) :
    Except ParseError (SeqUpdates K) := do
  match ← innerIxEvent codec accountKeys ix with
  | some cl => pure (pushSeqUpdate seqUpdates cl.id (seqUpdate cl))
  | none => pure seqUpdates

/-- `for inner_ix in inner_ixs.instructions.iter() { .. }`. -/
def parseInnerIxs (accountKeys : List K) :
    SeqUpdates K → List UiInstruction → Except ParseError (SeqUpdates K)
  | seqUpdates, [] => .ok seqUpdates
  | seqUpdates, ix :: ixs => do
    let seqUpdates ← parseInnerIx codec accountKeys seqUpdates ix
    parseInnerIxs accountKeys seqUpdates ixs

/-- `for inner_ixs in inner_instructions_vec.iter() { .. }`. -/
def parseInnerInstructions (accountKeys : List K) :
    SeqUpdates K → List (List UiInstruction) → Except ParseError (SeqUpdates K)
  | seqUpdates, [] => .ok seqUpdates
  | seqUpdates, ixs :: rest => do
    let seqUpdates ← parseInnerIxs codec accountKeys seqUpdates ixs
    parseInnerInstructions accountKeys seqUpdates rest

/-- `parse_tx_sequence`. -/
def parseTxSequence (tx : EncodedTx K) : Except ParseError (SeqUpdates K) :=
  let seqUpdates : SeqUpdates K := ∅
  if (tx.meta.map fun meta => !meta.status.toBool).getD true then .ok seqUpdates
  else do
    let meta ← tx.meta.elim (.error .transactionMeta) .ok
    match meta.innerInstructions with
    | some innerInstructionsVec =>
      let staticKeys ← tx.staticAccountKeys.elim (.error .transaction) .ok
      let accountKeys ← loadAccountKeys codec staticKeys meta.loadedAddresses
      parseInnerInstructions codec accountKeys seqUpdates innerInstructionsVec
    | none => .ok seqUpdates

end TreeRepair
