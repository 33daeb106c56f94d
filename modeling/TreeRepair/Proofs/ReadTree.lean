import TreeRepair.ReadTree
import TreeRepair.Proofs.FetchWorkers
import Mathlib.Data.List.Sort

/-!
# `read_tree` prints each result once, in id order

The receive loop prints `0, 1, …, next_id - 1` and keeps every other result in its map, each with
an id at or above `next_id` (`CollectorInv`). The flush sorts the leftovers by id, so the ids of
the whole output ascend across the two phases, and the output holds each received message once
(`readTreePrints_perm_sorted`), whatever the arrival order and whatever ids are missing.

The loop prints at most one buffered result per message (`if let`, not `while let`), so the buffer
holds every received id at or above `next_id` (`collector_buffer`), and after arrivals `1, 0` it
still holds `1`, whose predecessors have all arrived (`collector_lags_after_out_of_order`).

Fed by the workers of `read_tree_start`, whose channel delivers what they send in order, a read
that ends without error prints every signature of the feed once, in the feed's order
(`readTree_prints_feed_in_order`).
-/

namespace TreeRepair

variable {V : Type}

/-- The collector's invariant after receiving the messages `seen`. -/
structure CollectorInv (seen : List (Nat × V)) (c : Collector V) : Prop where
  /-- The loop has printed the ids `0, …, next_id - 1`, in order. -/
  printed_ids : c.printed.map Prod.fst = List.range c.nextId
  /-- Every result in the map has an id at or above `next_id`. -/
  map_ge : ∀ k v, c.map.lookup k = some v → c.nextId ≤ k
  /-- A result is printed or in the map exactly when it was received. -/
  mem_iff : ∀ k v, (k, v) ∈ c.printed ∨ c.map.lookup k = some v ↔ (k, v) ∈ seen

theorem collectorInv_init : CollectorInv [] (Collector.init : Collector V) :=
  ⟨rfl, by simp [Collector.init, AList.lookup_empty], by simp [Collector.init, AList.lookup_empty]⟩

section Recv

variable {seen : List (Nat × V)} {c : Collector V} {id : Nat} {v : V}

/-- A fresh id is at or above `next_id`: the ids below it were received and printed. -/
theorem CollectorInv.nextId_le (h : CollectorInv seen c) (hnew : id ∉ seen.map Prod.fst) :
    c.nextId ≤ id := by
  by_contra hlt
  have hp : id ∈ c.printed.map Prod.fst := by
    rw [h.printed_ids]; exact List.mem_range.mpr (by omega)
  obtain ⟨⟨k, w⟩, hk, rfl⟩ := List.mem_map.mp hp
  exact hnew (List.mem_map_of_mem _ ((h.mem_iff _ _).mp (.inl hk)))

/-- Inserting a fresh message keeps "printed or in the map" equal to "received". -/
theorem CollectorInv.mem_iff_insert (h : CollectorInv seen c) (hnew : id ∉ seen.map Prod.fst)
    (k : Nat) (w : V) :
    (k, w) ∈ c.printed ∨ (c.map.insert id v).lookup k = some w ↔ (k, w) ∈ seen ++ [(id, v)] := by
  by_cases hk : k = id
  · subst hk
    have hnot : (k, w) ∉ seen := fun hs => hnew (List.mem_map_of_mem Prod.fst hs)
    have hnp : (k, w) ∉ c.printed := fun hp => hnot ((h.mem_iff k w).mp (.inl hp))
    simp [AList.lookup_insert, hnot, hnp, eq_comm]
  · rw [AList.lookup_insert_ne hk, h.mem_iff]
    simp [hk]

/-- Moving the entry of `n` from the map to the printed calls keeps "printed or in the map". -/
theorem mem_printed_or_lookup_extract {printed : List (Nat × V)} {m : AList fun _ : Nat => V}
    {n : Nat} {v' : V} (hn : m.lookup n = some v') (k : Nat) (w : V) :
    (k, w) ∈ printed ++ [(n, v')] ∨ (m.erase n).lookup k = some w ↔
      (k, w) ∈ printed ∨ m.lookup k = some w := by
  by_cases hk : k = n
  · subst hk; simp [AList.lookup_erase, hn, eq_comm]
  · simp [AList.lookup_erase_ne hk, hk]

/-- One received message with a fresh id keeps the invariant. -/
theorem CollectorInv.recv (h : CollectorInv seen c) (hnew : id ∉ seen.map Prod.fst) :
    CollectorInv (seen ++ [(id, v)]) (c.recv id v) := by
  have hge := h.nextId_le hnew
  have hmap : ∀ k w, (c.map.insert id v).lookup k = some w → c.nextId ≤ k := fun k w hk => by
    by_cases e : k = id
    · omega
    · exact h.map_ge k w (by rwa [AList.lookup_insert_ne e] at hk)
  unfold Collector.recv
  rw [AList.extract_eq_lookup_erase]
  cases hn : (c.map.insert id v).lookup c.nextId with
  | none =>
    refine ⟨h.printed_ids, fun k w hk => ?_, fun k w => ?_⟩
    · have e : k ≠ c.nextId := by rintro rfl; rw [AList.lookup_erase] at hk; cases hk
      exact hmap k w (by rwa [AList.lookup_erase_ne e] at hk)
    · rw [← h.mem_iff_insert hnew]
      by_cases e : k = c.nextId
      · subst e; simp [AList.lookup_erase, hn]
      · simp [AList.lookup_erase_ne e]
  | some v' =>
    refine ⟨by simp [h.printed_ids, List.range_succ], fun k w hk => ?_, fun k w => ?_⟩
    · have e : k ≠ c.nextId := by rintro rfl; rw [AList.lookup_erase] at hk; cases hk
      have := hmap k w (by rwa [AList.lookup_erase_ne e] at hk)
      show c.nextId + 1 ≤ k
      omega
    · exact (mem_printed_or_lookup_extract hn k w).trans (h.mem_iff_insert hnew k w)

/-- The receive loop keeps the invariant over messages with fresh, pairwise distinct ids. -/
theorem CollectorInv.recvAll (h : CollectorInv seen c) {msgs : List (Nat × V)}
    (hids : ((seen ++ msgs).map Prod.fst).Nodup) :
    CollectorInv (seen ++ msgs) (c.recvAll msgs) := by
  induction msgs generalizing seen c with
  | nil => simpa using h
  | cons m msgs ih =>
    obtain ⟨id, v⟩ := m
    have hnew : id ∉ seen.map Prod.fst := by
      simp only [List.map_append, List.map_cons, List.nodup_append] at hids
      exact fun hs => hids.2.2 hs (List.mem_cons_self _ _)
    have := ih (h.recv (v := v) hnew) (by simpa using hids)
    simpa [Collector.recvAll] using this

/-- A message prints at most one result. -/
theorem Collector.recv_nextId_le (c : Collector V) (id : Nat) (v : V) :
    (c.recv id v).nextId ≤ c.nextId + 1 := by
  unfold Collector.recv
  split <;> simp

theorem Collector.recvAll_nextId_le (c : Collector V) (msgs : List (Nat × V)) :
    (c.recvAll msgs).nextId ≤ c.nextId + msgs.length := by
  induction msgs generalizing c with
  | nil => simp [Collector.recvAll]
  | cons m msgs ih =>
    have := ih (c.recv m.1 m.2)
    have := c.recv_nextId_le m.1 m.2
    simp only [Collector.recvAll, List.length_cons]
    omega

end Recv

/-! ## The buffer -/

/-- The collector's buffer after the messages `msgs`. -/
structure CollectorBuffer (msgs : List (Nat × V)) (c : Collector V) : Prop where
  /-- The buffer holds exactly the received ids at or above `next_id`. -/
  buffer_iff : ∀ i, (∃ v, c.map.lookup i = some v) ↔ i ∈ msgs.map Prod.fst ∧ c.nextId ≤ i
  /-- Every id below `next_id` was received, so `next_id` is at most the smallest id not received. -/
  received_below : ∀ i < c.nextId, i ∈ msgs.map Prod.fst
  /-- `next_id` advances by at most one per message. -/
  nextId_le : c.nextId ≤ msgs.length

/-- For every arrival order of messages with pairwise distinct ids, after each message: the buffer
holds exactly the received ids at or above `next_id`, every id below `next_id` was received, and
`next_id` is at most the number of messages received. -/
theorem collector_buffer (msgs : List (Nat × V)) (hids : (msgs.map Prod.fst).Nodup) :
    CollectorBuffer msgs (Collector.init.recvAll msgs) := by
  have hI := collectorInv_init.recvAll (c := Collector.init) (by simpa using hids)
  simp only [List.nil_append] at hI
  have hprinted : ∀ i, i ∈ (Collector.init.recvAll msgs).printed.map Prod.fst ↔
      i < (Collector.init.recvAll msgs).nextId := fun i => by
    rw [hI.printed_ids, List.mem_range]
  refine ⟨fun i => ⟨fun ⟨v, hv⟩ => ?_, fun ⟨hi, hle⟩ => ?_⟩, fun i hi => ?_, ?_⟩
  · exact ⟨List.mem_map_of_mem Prod.fst ((hI.mem_iff i v).mp (.inr hv)), hI.map_ge i v hv⟩
  · obtain ⟨⟨_, v⟩, hm, rfl⟩ := List.mem_map.mp hi
    rcases (hI.mem_iff _ v).mpr hm with hp | hl
    · have := (hprinted _).mp (List.mem_map_of_mem Prod.fst hp)
      omega
    · exact ⟨v, hl⟩
  · obtain ⟨⟨_, v⟩, hp, rfl⟩ := List.mem_map.mp ((hprinted i).mpr hi)
    exact List.mem_map_of_mem Prod.fst ((hI.mem_iff _ v).mp (.inl hp))
  · simpa [Collector.init] using Collector.init.recvAll_nextId_le msgs

/-- Arrivals `1, 0`: after both, `next_id` is `1` and the buffer still holds `1`, above `next_id`
but below `2`, the smallest id not received. -/
theorem collector_buffer_example :
    ([(1, "b"), (0, "a")].map Prod.fst).Nodup ∧
      (Collector.init.recvAll [(1, "b"), (0, "a")]).nextId = 1 ∧
      CollectorBuffer [(1, "b"), (0, "a")] (Collector.init.recvAll [(1, "b"), (0, "a")]) :=
  ⟨by decide, rfl, collector_buffer _ (by decide)⟩

/-- Arrivals `1, 0`: both ids have arrived, so the smallest id not received is `2`, yet after the
second message the buffer still holds `1`, whose predecessors have all arrived: the loop prints one
buffered result per message. -/
theorem collector_lags_after_out_of_order :
    (∀ i < 2, i ∈ ([(1, "b"), (0, "a")] : List (Nat × String)).map Prod.fst) ∧
      (Collector.init.recvAll [(1, "b"), (0, "a")]).map.lookup 1 = some "b" ∧
      (Collector.init.recvAll [(1, "b"), (0, "a")]).printed = [(0, "a")] := by
  refine ⟨by decide, rfl, rfl⟩

section Flush

variable {msgs vec : List (Nat × V)}

/-- The sorted flush ascends strictly: the map's ids are distinct. -/
theorem sortById_ids_sorted (hvec : (vec.map Prod.fst).Nodup) :
    ((sortById vec).map Prod.fst).Sorted (· < ·) := by
  have hle : ((sortById vec).map Prod.fst).Sorted (· ≤ ·) := by
    refine List.pairwise_map.mpr ((List.sorted_mergeSort ?_ ?_ vec).imp fun h => by simpa using h)
    · intro a b c hab hbc; simp only [decide_eq_true_eq] at *; omega
    · intro a b; simp only [Bool.or_eq_true, decide_eq_true_eq]; omega
  exact hle.lt_of_le ((List.mergeSort_perm vec _).map Prod.fst |>.nodup_iff.mpr hvec)

/-- The ids `read_tree` prints ascend strictly. -/
theorem readTreePrints_ids_sorted (hids : (msgs.map Prod.fst).Nodup)
    (hvec : vec.Perm (mapEntries (Collector.init.recvAll msgs).map)) :
    ((readTreePrints msgs vec).map Prod.fst).Sorted (· < ·) := by
  have hI := collectorInv_init.recvAll (c := Collector.init) (by simpa using hids)
  set c := Collector.init.recvAll msgs
  have hvids : (vec.map Prod.fst).Nodup :=
    (hvec.map Prod.fst).nodup_iff.mpr (mapEntries_keys_nodup c.map)
  rw [readTreePrints, List.map_append, hI.printed_ids, List.Sorted, List.pairwise_append]
  refine ⟨List.pairwise_lt_range _, sortById_ids_sorted hvids, fun a ha b hb => ?_⟩
  obtain ⟨⟨k, w⟩, hk, rfl⟩ := List.mem_map.mp hb
  have hk' := mem_mapEntries.mp (hvec.mem_iff.mp (List.mem_mergeSort.mp hk))
  exact lt_of_lt_of_le (List.mem_range.mp ha) (hI.map_ge k w hk')

/-- `read_tree` prints exactly the received messages. -/
theorem mem_readTreePrints (hids : (msgs.map Prod.fst).Nodup)
    (hvec : vec.Perm (mapEntries (Collector.init.recvAll msgs).map)) (x : Nat × V) :
    x ∈ readTreePrints msgs vec ↔ x ∈ msgs := by
  have hI := collectorInv_init.recvAll (c := Collector.init) (by simpa using hids)
  obtain ⟨k, w⟩ := x
  rw [readTreePrints, List.mem_append, sortById, List.mem_mergeSort, hvec.mem_iff, mem_mapEntries]
  simpa using hI.mem_iff k w

end Flush

section Read

variable {Sig P : Type}

/-- `read_tree` printed the feed: in ascending id order, each signature with its position, and
every signature of the feed. -/
structure PrintsFeed (feed : List (FeedItem Sig)) (out : List (Nat × Sig × P)) : Prop where
  ids_sorted : (out.map Prod.fst).Sorted (· < ·)
  pairs_ok : ∀ m ∈ out, feed[m.1]? = some (.ok m.2.1)
  ids_iff : ∀ i, i ∈ out.map Prod.fst ↔ ∃ sig, feed[i]? = some (.ok sig)

/-- For every feed, every `n ≥ 1` workers and every run of theirs that ends without error, and
every iteration order of the collector's leftovers: `read_tree` prints every signature of the feed
once, with its position, in the feed's order. -/
theorem readTree_prints_feed_in_order (feed : List (FeedItem Sig)) (n : Nat) (hn : 0 < n)
    (s : FetchState Sig P) (hs : FetchReachable feed n s)
    (hstuck : ∀ w < n, ∀ o : Except String P, fetchStep feed s w o = none)
    (hj : s.joinErr = false) (vec : List (Nat × Sig × P))
    (hvec : vec.Perm (mapEntries (Collector.init.recvAll s.sent).map)) :
    PrintsFeed feed (readTreePrints s.sent vec) := by
  have hI := hs.inv
  have hmem := mem_readTreePrints hI.sent_nodup hvec
  refine ⟨readTreePrints_ids_sorted hI.sent_nodup hvec,
    fun m hm => (hI.sent_ok m ((hmem m).mp hm)).1, fun i => ?_⟩
  rw [← hI.delivered hn (fun _ hw => hI.doneOk_of_stuck hj hstuck hw) i]
  simp only [List.mem_map, hmem]

/-- The one-signature run of `fetchWorkers_pair_ids_run`, printed. -/
theorem readTree_prints_feed_in_order_run :
    ∃ s : FetchState Nat Unit,
      fetchRun [.ok 5] fetchInit (List.replicate 9 (0, .ok ())) = some s ∧ 0 < 1 ∧
      (∀ w < 1, ∀ o : Except String Unit, fetchStep [.ok 5] s w o = none) ∧ s.joinErr = false ∧
      ([] : List (Nat × Nat × Unit)).Perm (mapEntries (Collector.init.recvAll s.sent).map) ∧
      s.sent = [(0, 5, ())] ∧ PrintsFeed [.ok 5] (readTreePrints s.sent []) :=
  ⟨_, rfl, by decide, (fun w hw o => by rw [Nat.lt_one_iff.mp hw]; rfl), rfl, .of_eq rfl, rfl,
    readTree_prints_feed_in_order [.ok 5] 1 (by decide) _ (FetchReachable.init.run (by decide)
      (rfl : fetchRun [.ok 5] fetchInit (List.replicate 9 (0, .ok ())) = _))
      (fun w hw o => by rw [Nat.lt_one_iff.mp hw]; rfl) rfl [] (.of_eq rfl)⟩

end Read

end TreeRepair
