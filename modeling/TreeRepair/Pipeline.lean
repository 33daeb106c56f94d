import TreeRepair.Resolvers
import TreeRepair.Forward

/-!
# The whole pipeline of `find_and_forward_txns_for_missing_seqs`

Inside `crossbeam::scope` the producer, the `get_sigs_concurrency` resolver threads and the
`get_txn_concurrency` sender threads all run at once. A signature a resolver sends on `s` can be
received at once, and the senders find `s` closed only when every resolver has left its loop: the
function drops its own sending end right after spawning the resolvers, and each resolver drops its
clone when its thread ends.
-/

namespace TreeRepair

variable {Sig Txn : Type}

/-- The state of the pipeline: the producer and the resolver threads, and the sender threads,
whose count of the signatures sent on `s` follows the resolvers'. -/
structure PipelineState (Sig : Type) where
  resolvers : ResolverState Sig
  senders : ForwardState Sig

/-- Nothing sent on either channel, every thread at its loop's head. -/
def pipelineInit : PipelineState Sig := ⟨resolverInit, forwardInit⟩

/-- Who moves: the producer or a resolver thread, or sender thread `w`. -/
inductive PipelineAction where
  | resolvers (a : ResolverAction)
  | sender (w : Nat)

/-- A resolver thread that has left its loop. -/
def ResolverPc.isExited : ResolverPc Sig → Bool
  | .exited => true
  | _ => false

/-- Every one of the `k` resolver threads has left its loop, so `s` has no sending end left. -/
def resolversDone (k : Nat) (r : ResolverState Sig) : Bool :=
  (List.range k).all fun w => (r.workers w).isExited

/-- One step of the pipeline with `k` resolver threads; `none` when the mover cannot move. -/
def pipelineStep (ranges : List (Int × Int)) (resolve : Int × Int → List Sig) (k : Nat)
    (src : TxnSource Sig Txn) (p : PipelineState Sig) : PipelineAction → Option (PipelineState Sig)
  | .resolvers a => (resolverStep ranges resolve p.resolvers a).map fun r =>
      ⟨r, { p.senders with emitted := r.emitted.length }⟩
  | .sender w => (senderStep src (p.resolvers.emitted.map Prod.snd) (resolversDone k p.resolvers)
      p.senders w).map fun f => { p with senders := f }

/-- The movers with `k` resolver and `m` sender threads. -/
def PipelineAction.Valid (k m : Nat) : PipelineAction → Prop
  | .resolvers a => a.Valid k
  | .sender w => w < m

instance PipelineAction.decValid (k m : Nat) : (a : PipelineAction) → Decidable (a.Valid k m)
  | .resolvers a => inferInstanceAs (Decidable (a.Valid k))
  | .sender w => inferInstanceAs (Decidable (w < m))

/-- The states the pipeline reaches with `k` resolver and `m` sender threads, in every
interleaving. -/
inductive PipelineReachable (ranges : List (Int × Int)) (resolve : Int × Int → List Sig) (k : Nat)
    (src : TxnSource Sig Txn) (m : Nat) : PipelineState Sig → Prop where
  | init : PipelineReachable ranges resolve k src m pipelineInit
  | step {p p' : PipelineState Sig} {a : PipelineAction} :
      PipelineReachable ranges resolve k src m p → a.Valid k m →
      pipelineStep ranges resolve k src p a = some p' → PipelineReachable ranges resolve k src m p'

/-- Replays a schedule of movers. -/
def pipelineRun (ranges : List (Int × Int)) (resolve : Int × Int → List Sig) (k : Nat)
    (src : TxnSource Sig Txn) : PipelineState Sig → List PipelineAction → Option (PipelineState Sig)
  | p, [] => some p
  | p, a :: sched => (pipelineStep ranges resolve k src p a).bind fun p' =>
      pipelineRun ranges resolve k src p' sched

end TreeRepair
