import Mathlib.Logic.Function.Basic

/-!
# The resolver threads of `find_and_forward_txns_for_missing_seqs`

Inside `crossbeam::scope`, one thread sends the seq ranges that `build_seq_ranges` gives on the
unbounded channel `r` and drops its sender; `get_sigs_concurrency` resolver threads each loop
`for range in r_recv.iter()`, running `find_signatures_for_missing_seq_range` on the range they
receive. That call sends the signatures it finds on the channel `s`, one at a time, and its error,
if any, is logged before the thread takes the next range. A resolver leaves its loop once `r` is
empty and closed.

What the search sends for a range is `resolve range`: the signatures in order, those sent before
an error included. A resolver thread is a program counter, and a run interleaves the producer and
the resolvers in any order. The signatures sent on `s` are recorded with the index of the range
whose search sent them; the channel itself carries the signature only.
-/

namespace TreeRepair

/-- Where a resolver thread is. -/
inductive ResolverPc (Sig : Type) where
  /-- At `for range in r_recv.iter()`. -/
  | idle
  /-- In `find_signatures_for_missing_seq_range` for the `i`-th range, with the signatures it has
  yet to send on `s`. -/
  | searching (i : Nat) (rest : List Sig)
  /-- The range channel was empty and closed: the loop ended. -/
  | exited

/-- The state of the range producer and the resolver threads. -/
structure ResolverState (Sig : Type) where
  /-- How many ranges the producer thread has sent on `r`. -/
  produced : Nat
  /-- How many of them the resolvers have received. -/
  taken : Nat
  /-- Each resolver thread's position. -/
  workers : Nat → ResolverPc Sig
  /-- The signatures sent on `s`, in order, each with the index of its range. -/
  emitted : List (Nat × Sig)

variable {Sig : Type}

/-- Nothing sent on either channel, every resolver at its loop's head. -/
def resolverInit : ResolverState Sig := ⟨0, 0, fun _ => .idle, []⟩

/-- Resolver `w` moves to `pc`. -/
def ResolverState.setW (s : ResolverState Sig) (w : Nat) (pc : ResolverPc Sig) : ResolverState Sig :=
  { s with workers := Function.update s.workers w pc }

/-- Who moves: the producer, sending its next range, or resolver thread `w`. -/
inductive ResolverAction where
  | produce
  | resolver (w : Nat)
  deriving DecidableEq, Repr

/-- One step; `none` when the mover cannot move: the producer has sent every range, or the
resolver waits for a range, or has left its loop. -/
def resolverStep (ranges : List (Int × Int)) (resolve : Int × Int → List Sig) (s : ResolverState Sig) :
    ResolverAction → Option (ResolverState Sig)
  | .produce => if s.produced < ranges.length then some { s with produced := s.produced + 1 } else none
  | .resolver w =>
    match s.workers w with
    | .idle =>
      if s.taken < s.produced then
        (ranges[s.taken]?).map fun range =>
          { s.setW w (.searching s.taken (resolve range)) with taken := s.taken + 1 }
      else if s.produced = ranges.length then some (s.setW w .exited)
      else none
    | .searching i (sig :: rest) =>
      some { s.setW w (.searching i rest) with emitted := s.emitted ++ [(i, sig)] }
    | .searching _ [] => some (s.setW w .idle)
    | .exited => none

/-- The movers with `k` resolver threads. -/
def ResolverAction.Valid (k : Nat) : ResolverAction → Prop
  | .produce => True
  | .resolver w => w < k

instance ResolverAction.decValid (k : Nat) : (a : ResolverAction) → Decidable (a.Valid k)
  | .produce => isTrue trivial
  | .resolver w => inferInstanceAs (Decidable (w < k))

/-- The states the producer and `k` resolver threads reach, in every interleaving. -/
inductive ResolverReachable (ranges : List (Int × Int)) (resolve : Int × Int → List Sig) (k : Nat) :
    ResolverState Sig → Prop where
  | init : ResolverReachable ranges resolve k resolverInit
  | step {s s' : ResolverState Sig} {a : ResolverAction} :
      ResolverReachable ranges resolve k s → a.Valid k → resolverStep ranges resolve s a = some s' →
      ResolverReachable ranges resolve k s'

/-- Replays a schedule of movers. -/
def resolverRun (ranges : List (Int × Int)) (resolve : Int × Int → List Sig) :
    ResolverState Sig → List ResolverAction → Option (ResolverState Sig)
  | s, [] => some s
  | s, a :: sched => (resolverStep ranges resolve s a).bind fun s' => resolverRun ranges resolve s' sched

end TreeRepair
