import Mathlib.Logic.Function.Basic

/-!
# The fetch workers of `read_tree_start`

`read_tree_start` shares one signature feed (the receiver that `find_signatures` fills with the
tree's signature history, behind a mutex) and one atomic counter `sig_id` between `concurrency`
workers. Each worker loops: it locks the feed, receives the next item, takes an id with
`sig_id.fetch_add(1)` and unlocks; a signature is then fetched and decoded (`process_tx`), and
`(id, signature, observations)` is sent on the result channel; an error item or a failed
`process_tx` ends the worker with that error, and a closed feed ends it with `Ok`.
`try_join_all` completes with the first error, dropping the other workers.

A worker is a program counter (`FetchPc`) that moves at the await points and lock operations of
its loop; a run interleaves the workers' steps in any order, and the outcome of each `process_tx`
is chosen by the step. The observations are of any type `P`.
-/

namespace TreeRepair

/-- An item of the signature feed, as `lock.recv()` yields it. -/
abbrev FeedItem (Sig : Type) := Except String Sig

/-- Where a fetch worker is in its loop. -/
inductive FetchPc (Sig : Type) where
  /-- At the top of `loop`: `rx_sig.lock().await`. -/
  | start
  /-- Holds the feed's mutex, at `lock.recv().await`. -/
  | locked
  /-- Holds the mutex and received `msg` (`None` once the feed is closed), at `fetch_add`. -/
  | received (msg : Option (FeedItem Sig))
  /-- Holds the mutex with id `id`, at `drop(lock)` and the `match` on `msg`. -/
  | counted (id : Nat) (msg : Option (FeedItem Sig))
  /-- Fetching `sig` for id `id`: `process_tx(...).await?`, then `tx.send`. -/
  | fetching (id : Nat) (sig : Sig)
  /-- Returned `Ok(())`: the feed was closed. -/
  | doneOk
  /-- Returned an error: a feed error or a failed `process_tx`. -/
  | doneErr

/-- The worker's next state after `drop(lock)`: the `match maybe_msg`. -/
def FetchPc.ofMsg {Sig : Type} (id : Nat) : Option (FeedItem Sig) → FetchPc Sig
  | some (.ok sig) => .fetching id sig
  | some (.error _) => .doneErr
  | none => .doneOk

/-- The `?` on a received item: an error item ends the worker with that error. -/
def FetchPc.errMsg {Sig : Type} : Option (FeedItem Sig) → Bool
  | some (.error _) => true
  | _ => false

/-- The shared state of `read_tree_start` and its workers. -/
structure FetchState (Sig P : Type) where
  /-- How many items of the feed have been received. -/
  feedPos : Nat
  /-- The atomic counter `sig_id`. -/
  sigId : Nat
  /-- The worker holding the feed's mutex. -/
  lock : Option Nat
  /-- Each worker's program counter. -/
  workers : Nat → FetchPc Sig
  /-- The messages sent on the result channel, in order. -/
  sent : List (Nat × Sig × P)
  /-- `try_join_all` has completed with a worker's error. -/
  joinErr : Bool

variable {Sig P : Type}

/-- Before any worker has run. -/
def fetchInit : FetchState Sig P :=
  ⟨0, 0, none, fun _ => .start, [], false⟩

/-- Worker `w` moves to `pc`. -/
def FetchState.setPc (s : FetchState Sig P) (w : Nat) (pc : FetchPc Sig) : FetchState Sig P :=
  { s with workers := Function.update s.workers w pc }

/-- One step of worker `w`; `outcome` is what its `process_tx` returns, if this step runs it.
`none` when the worker cannot move: it waits for the mutex, it has returned, or `try_join_all`
has completed. -/
def fetchStep (feed : List (FeedItem Sig)) (s : FetchState Sig P) (w : Nat)
    (outcome : Except String P) : Option (FetchState Sig P) :=
  if s.joinErr then none else
  match s.workers w with
  | .start => if s.lock = none then some { s.setPc w .locked with lock := some w } else none
  | .locked =>
    let msg := feed[s.feedPos]?
    some { s.setPc w (.received msg) with
      feedPos := if msg.isSome then s.feedPos + 1 else s.feedPos }
  | .received msg => some { s.setPc w (.counted s.sigId msg) with sigId := s.sigId + 1 }
  | .counted id msg =>
    some { s.setPc w (.ofMsg id msg) with
      lock := none, joinErr := FetchPc.errMsg msg }
  | .fetching id sig =>
    match outcome with
    | .ok obs => some { s.setPc w .start with sent := s.sent ++ [(id, sig, obs)] }
    | .error _ => some { s.setPc w .doneErr with joinErr := true }
  | .doneOk => none
  | .doneErr => none

/-- Replays a schedule: each entry is the worker that moves and the outcome of its `process_tx`.
`none` when some entry names a worker that cannot move. -/
def fetchRun (feed : List (FeedItem Sig)) :
    FetchState Sig P → List (Nat × Except String P) → Option (FetchState Sig P)
  | s, [] => some s
  | s, (w, outcome) :: sched => (fetchStep feed s w outcome).bind fun s' => fetchRun feed s' sched

/-- The states a run of `n` workers can reach, in every interleaving and with every outcome of
`process_tx`. -/
inductive FetchReachable (feed : List (FeedItem Sig)) (n : Nat) : FetchState Sig P → Prop where
  | init : FetchReachable feed n fetchInit
  | step {s s' : FetchState Sig P} {w : Nat} {outcome : Except String P} :
      FetchReachable feed n s → w < n → fetchStep feed s w outcome = some s' →
      FetchReachable feed n s'

end TreeRepair
