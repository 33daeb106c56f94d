import TreeRepair.Basic

/-!
# The collector of `read_tree`

`read_tree` prints, in id order, what the fetch workers of `read_tree_start` send. Its collector
receives `(id, sig, seqs)` until the channel closes: it inserts the result into a map and, when the
map holds `next_id`, removes that entry, prints it with `print_seqs` and advances `next_id`. When
the channel has closed, the map's leftovers are collected into a vector in the map's iteration
order, sorted by id and printed.

A result `(sig, seqs)` is of any type `V`: the collector never looks inside it. The model records
each call of `print_seqs` as the pair `(id, (sig, seqs))`; the log lines it writes are left out.
-/

namespace TreeRepair

variable {V : Type}

/-- The collector's state: `next_id`, the map of results not yet printed, and the calls to
`print_seqs` made so far. -/
structure Collector (V : Type) where
  nextId : Nat
  map : AList fun _ : Nat => V
  printed : List (Nat × V)

/-- `next_id = 0`, an empty map, nothing printed. -/
def Collector.init : Collector V := ⟨0, ∅, []⟩

/-- The loop body for a received `(id, sig, seqs)`: `map.insert(id, ..)`, then
`map.remove(&next_id)`; a removed result is printed and `next_id` advances. -/
def Collector.recv (c : Collector V) (id : Nat) (v : V) : Collector V :=
  match (c.map.insert id v).extract c.nextId with
  | (some v', map) => ⟨c.nextId + 1, map, c.printed ++ [(c.nextId, v')]⟩
  | (none, map) => { c with map }

/-- `while let Some((id, sig, seqs)) = print_rx.recv().await`, over the messages in the order the
channel delivers them. -/
def Collector.recvAll (c : Collector V) : List (Nat × V) → Collector V
  | [] => c
  | (id, v) :: msgs => (c.recv id v).recvAll msgs

/-- `vec.sort_by_key(|(id, _)| *id)`: a stable sort by id. -/
def sortById (vec : List (Nat × V)) : List (Nat × V) :=
  vec.mergeSort fun a b => a.1 ≤ b.1

/-- The calls to `print_seqs` of `read_tree`'s collector over the received messages `msgs`: those
of the loop, then the leftovers sorted by id. `vec` holds the leftovers in the order the map's
`into_iter` yields them. -/
def readTreePrints (msgs vec : List (Nat × V)) : List (Nat × V) :=
  (Collector.init.recvAll msgs).printed ++ sortById vec

end TreeRepair
