import TreeRepair.Basic

/-!
# The ingester's streams

`service_transaction_stream` and `service_account_stream` receive batches of messages from their
stream and acknowledge the ids that `handle_transaction`, respectively `handle_account`, returns;
a panic ends the task, which is spawned again. `handle_transaction` decodes each message as a
`TransactionInfo` flatbuffer, lets the program transformer break it into instructions, and runs
`process_instruction` on each: that function resolves the instruction's account indices against
the transaction's keys and hands the bundle to the program transformer's `handle_instruction`.
`handle_account` decodes each message as an `AccountInfo` flatbuffer, unwraps its owner, and hands
it to `handle_account_update`.

The program transformer is not in the source; it is a parameter here, whose handlers may read and
change the database state `σ`. Metrics and log lines are left out.
-/

namespace TreeRepair

/-- The variants of `IngesterError` this module names; `handle_instruction` may return any. -/
inductive IngesterError where
  | deserializationError (msg : String)
  | other (msg : String)
  deriving DecidableEq, Repr

/-- A compiled instruction of a `TransactionInfo` flatbuffer. -/
structure Instruction where
  /-- `accounts()`: indices into the transaction's account keys, when present. -/
  accounts : Option (List UInt8)
  /-- The instruction data, which only the program transformer reads. -/
  data : List UInt8
  deriving DecidableEq, Repr

/-- `IxPair`: an instruction with the key of the program it calls. -/
abbrev IxPair (K : Type) := K × Instruction

/-- `InstructionBundle`, what `handle_instruction` receives. -/
structure InstructionBundle (K : Type) where
  txnId : String
  program : K
  instruction : Instruction
  innerIx : Option (List (IxPair K))
  keys : List K
  slot : Nat

/-- The fields of a `TransactionInfo` flatbuffer that `handle_transaction` reads. -/
structure TransactionInfo (K : Type) where
  accountKeys : Option (List K)
  slot : Nat

/-- The fields of an `AccountInfo` flatbuffer that `handle_account` reads. -/
structure AccountInfo (K : Type) where
  /-- `owner()`: the account's owner program, absent when the flatbuffer has none. -/
  owner : Option K
  /-- The rest of the flatbuffer, which only the program transformer reads. -/
  data : List UInt8
  deriving DecidableEq, Repr

/-- `RecvData`: a message of the stream, with its stream id. -/
structure RecvData where
  id : String
  data : List UInt8

/-- The `ProgramTransformer` collaborator: how it breaks a transaction into its instructions (each
with its inner instructions), and the outcome of handling a bundle, or an account update, in
database state `σ`. -/
structure ProgramTransformer (K σ : Type) where
  breakTransaction : TransactionInfo K → List (IxPair K × Option (List (IxPair K)))
  handleInstruction : InstructionBundle K → σ → Except IngesterError Unit × σ
  handleAccountUpdate : AccountInfo K → σ → Except IngesterError Unit × σ

variable {K σ : Type}

/-- The fold of `process_instruction` that collects `keys.get(a)` for each account index `a`,
skipping the indices that are out of range. -/
def instructionKeys (keys : List K) (ixAccounts : List UInt8) : List K :=
  ixAccounts.foldl (fun acc a => match keys[a.toNat]? with
    | some key => acc ++ [key]
    | none => acc) []

/-- `ix_accounts.iter().max().copied().unwrap_or(0) as usize`: the largest account index. -/
def maxAccountIndex (ixAccounts : List UInt8) : Nat :=
  ((ixAccounts.map UInt8.toNat).max?).getD 0

/-- `process_instruction`: the guard `keys.len() < max` refuses the instruction, and otherwise
`handle_instruction` gets the bundle with the resolved keys. -/
def processInstruction (manager : ProgramTransformer K σ) (slot : Nat) (keys : List K)
    (outerIx : IxPair K) (innerIx : Option (List (IxPair K))) (st : σ) :
    Except IngesterError Unit × σ :=
  let (program, instruction) := outerIx
  let ixAccounts := instruction.accounts.getD []
  if keys.length < maxAccountIndex ixAccounts then
    (.error (.deserializationError "Missing Accounts in Serialized Ixn/Txn"), st)
  else
    manager.handleInstruction
      { txnId := "", program, instruction, innerIx, keys := instructionKeys keys ixAccounts, slot }
      st

/-- The instruction loop of `handle_transaction`: every instruction processed with `Ok` pushes the
message's id. -/
def handleInstructions (manager : ProgramTransformer K σ) (slot : Nat) (keys : List K)
    (id : String) : List (IxPair K × Option (List (IxPair K))) → σ → List String × σ
  | [], st => ([], st)
  | (outerIx, innerIx) :: instructions, st =>
    let (res, st) := processInstruction manager slot keys outerIx innerIx st
    let (ids, st) := handleInstructions manager slot keys id instructions st
    (match res with
      | .ok () => id :: ids
      | .error _ => ids, st)

/-- `handle_transaction`: the ids to acknowledge, for a batch of messages. `decode` is
`root_as_transaction_info`; a message that does not decode is skipped. -/
def handleTransaction (decode : List UInt8 → Option (TransactionInfo K))
    (manager : ProgramTransformer K σ) : List RecvData → σ → List String × σ
  | [], st => ([], st)
  | item :: data, st =>
    let (ids, st) := match decode item.data with
      | some tx => handleInstructions manager tx.slot (tx.accountKeys.getD []) item.id
          (manager.breakTransaction tx) st
      | none => ([], st)
    let (rest, st) := handleTransaction decode manager data st
    (ids ++ rest, st)

/-- The loop of `handle_account` from the ids `ids` pushed so far: a message that does not decode is
skipped, `owner().unwrap()` panics on an update without owner, and an update handled with `Ok`
pushes the message's id. -/
def handleAccountLoop (decode : List UInt8 → Option (AccountInfo K))
    (manager : ProgramTransformer K σ) : List String → List RecvData → σ → Outcome (List String) × σ
  | ids, [], st => (.ok ids, st)
  | ids, item :: data, st =>
    match decode item.data with
    | none => handleAccountLoop decode manager ids data st
    | some update =>
      match update.owner with
      | none => (.panic "called Option::unwrap() on a None value", st)
      | some _ =>
        let (res, st) := manager.handleAccountUpdate update st
        handleAccountLoop decode manager
          (match res with
            | .ok () => ids ++ [item.id]
            | .error _ => ids) data st

/-- `handle_account`: the ids to acknowledge, for a batch of messages, or the panic of its
`unwrap`. `decode` is `root_as_account_info`. -/
def handleAccount (decode : List UInt8 → Option (AccountInfo K)) (manager : ProgramTransformer K σ)
    (data : List RecvData) (st : σ) : Outcome (List String) × σ :=
  handleAccountLoop decode manager [] data st

/-- The loop of a stream service, over the results of `messenger.recv` in the order they come:
each batch received is handled, and the ids returned are acknowledged with `ack_msg` when there are
any. A handler that panics ends the task, and the outer loop spawns a new one, with a new messenger
and a new program transformer over the same database, so the batch is not acknowledged. The result
is the list of `ack_msg` calls. -/
def serviceStream (handle : List RecvData → σ → Outcome (List String) × σ) :
    List (Except String (List RecvData)) → σ → List (List String) × σ
  | [], st => ([], st)
  | .error _ :: recvs, st => serviceStream handle recvs st
  | .ok data :: recvs, st =>
    let (res, st) := handle data st
    let (acks, st) := serviceStream handle recvs st
    (match res with
      | .ok ids => if ids.isEmpty then acks else ids :: acks
      | _ => acks, st)

/-- `service_transaction_stream`: `handle_transaction` never panics here. -/
def serviceTransactionStream (decode : List UInt8 → Option (TransactionInfo K))
    (manager : ProgramTransformer K σ) : List (Except String (List RecvData)) → σ →
    List (List String) × σ :=
  serviceStream fun data st =>
    let (ids, st) := handleTransaction decode manager data st
    (.ok ids, st)

/-- `service_account_stream`. -/
def serviceAccountStream (decode : List UInt8 → Option (AccountInfo K))
    (manager : ProgramTransformer K σ) : List (Except String (List RecvData)) → σ →
    List (List String) × σ :=
  serviceStream (handleAccount decode manager)

end TreeRepair
