import TreeRepair.Basic

/-!
# Forwarding the missing transactions

`find_and_forward_txns_for_missing_seqs` runs its pipeline inside `crossbeam::scope`: one thread
sends the seq ranges on channel `r`, `get_sigs_concurrency` resolver threads turn each range into
signatures (`find_signatures_for_missing_seq_range`) and send them on channel `s`, and
`get_txn_concurrency` sender threads receive signatures from `s` and run `send_txn` on each,
unwrapping its result. When every thread has ended, the scope's result is unwrapped: a thread that
panicked makes the whole call panic.

The resolvers are abstracted by the sequence `emits` of the signatures they send on `s`, in the
order those enter the channel; any interleaving of the resolvers gives one such sequence. The
channel is unbounded and the function keeps its receiving end, so an emission never blocks or
fails, and the channel holds `emits[received, emitted)`. `send_txn` reads the RPC and the stream
through a `TxnSource`. The messenger's setup, the runtime's, and the log lines are left out.
-/

namespace TreeRepair

/-- What `send_txn` reads: the transaction `rpc_tx_with_retries` fetches for a signature, the
status in the transaction's metadata, its flatbuffer serialization, and the stream's answer to a
push. -/
structure TxnSource (Sig Txn : Type) where
  fetch : Sig → Except String Txn
  meta : Txn → Option (Except String Unit)
  serialize : Txn → Except String (List UInt8)
  push : List UInt8 → Except String Unit

variable {Sig Txn : Type}

/-- `send_txn`: the bytes pushed to the stream, `none` for a failed transaction or one without
metadata, or the error. The error texts carry the signature in the source; here they do not. -/
def sendTxn (src : TxnSource Sig Txn) (sig : Sig) : Except String (Option (List UInt8)) := do
  let txn ← src.fetch sig
  match src.meta txn with
  | some (.ok ()) =>
    let bytes ← (src.serialize txn).mapError ("failed to serialize transaction: " ++ ·)
    src.push bytes
    return some bytes
  | _ => return none

/-- `send_txn` returns an error for `sig`: its `unwrap` panics. -/
def sendFails (src : TxnSource Sig Txn) (sig : Sig) : Bool :=
  match sendTxn src sig with
  | .error _ => true
  | .ok _ => false

/-- Where a sender thread is. -/
inductive SenderPc (Sig : Type) where
  /-- At `for sig in s_recv.iter()`. -/
  | idle
  /-- Running `send_txn(sig)` and unwrapping its result. -/
  | busy (sig : Sig)
  /-- The unwrap panicked, ending the thread. -/
  | panicked
  /-- The channel was empty and disconnected: the loop ended. -/
  | exited

/-- The pipeline's state. -/
structure ForwardState (Sig : Type) where
  /-- How many signatures the resolvers have sent on `s`. -/
  emitted : Nat
  /-- How many of them the sender threads have received. -/
  received : Nat
  /-- Each sender thread's position. -/
  workers : Nat → SenderPc Sig
  /-- The messages pushed to the stream, each with the signature whose transaction it carries. -/
  stream : List (Sig × List UInt8)

/-- Nothing emitted, every sender thread at its loop's head. -/
def forwardInit : ForwardState Sig := ⟨0, 0, fun _ => .idle, []⟩

/-- Sender thread `w` moves to `pc`. -/
def ForwardState.setW (s : ForwardState Sig) (w : Nat) (pc : SenderPc Sig) : ForwardState Sig :=
  { s with workers := Function.update s.workers w pc }

/-- Who moves: the resolvers, sending their next signature, or sender thread `w`. -/
inductive ForwardAction where
  | emit
  | sender (w : Nat)

/-- Sender thread `w` moves, with `emits` the signatures sent on `s` so far and `closed` whether
every sending end of `s` has been dropped; `none` when it cannot move. -/
def senderStep (src : TxnSource Sig Txn) (emits : List Sig) (closed : Bool) (s : ForwardState Sig)
    (w : Nat) : Option (ForwardState Sig) :=
  match s.workers w with
  | .idle =>
    if s.received < s.emitted then
      (emits[s.received]?).map fun sig => { s.setW w (.busy sig) with received := s.received + 1 }
    else if closed then some (s.setW w .exited)
    else none
  | .busy sig =>
    match sendTxn src sig with
    | .ok (some bytes) => some { s.setW w .idle with stream := s.stream ++ [(sig, bytes)] }
    | .ok none => some (s.setW w .idle)
    | .error _ => some (s.setW w .panicked)
  | .panicked => none
  | .exited => none

/-- One step of the pipeline; `none` when the mover cannot move. The resolvers drop their sending
ends once they have sent all of `emits`. -/
def forwardStep (src : TxnSource Sig Txn) (emits : List Sig) (s : ForwardState Sig) :
    ForwardAction → Option (ForwardState Sig)
  | .emit => if s.emitted < emits.length then some { s with emitted := s.emitted + 1 } else none
  | .sender w => senderStep src emits (decide (s.emitted = emits.length)) s w

/-- The movers of a pipeline with `k` sender threads. -/
def ForwardAction.Valid (k : Nat) : ForwardAction → Prop
  | .emit => True
  | .sender w => w < k

instance ForwardAction.decValid (k : Nat) : (a : ForwardAction) → Decidable (a.Valid k)
  | .emit => isTrue trivial
  | .sender w => inferInstanceAs (Decidable (w < k))

/-- The states the pipeline reaches with `k` sender threads, in every interleaving. -/
inductive ForwardReachable (src : TxnSource Sig Txn) (emits : List Sig) (k : Nat) :
    ForwardState Sig → Prop where
  | init : ForwardReachable src emits k forwardInit
  | step {s s' : ForwardState Sig} {a : ForwardAction} :
      ForwardReachable src emits k s → a.Valid k → forwardStep src emits s a = some s' →
      ForwardReachable src emits k s'

/-- Replays a schedule of movers. -/
def forwardRun (src : TxnSource Sig Txn) (emits : List Sig) :
    ForwardState Sig → List ForwardAction → Option (ForwardState Sig)
  | s, [] => some s
  | s, a :: sched => (forwardStep src emits s a).bind fun s' => forwardRun src emits s' sched

/-- A sender thread that panicked. -/
def SenderPc.isPanicked : SenderPc Sig → Bool
  | .panicked => true
  | _ => false

/-- `crossbeam::scope(..).unwrap()` once every thread has ended, then `anyhow::Ok(())`. -/
def forwardResult (k : Nat) (s : ForwardState Sig) : Outcome Unit :=
  if (List.range k).any fun w => (s.workers w).isPanicked then
    .panic "called Result::unwrap() on an Err value"
  else .ok ()

end TreeRepair
