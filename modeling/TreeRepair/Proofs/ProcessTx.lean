import TreeRepair.ProcessTx
import TreeRepair.Proofs.ParseTx
import TreeRepair.Proofs.FetchWorkers
import TreeRepair.Proofs.ReadTree
import TreeRepair.Proofs.CheckLeafs

/-!
# `read_tree` and `check_tree_leafs` over the tree's history

With `process_tx` fixed, every run of the fetch workers is a run of the model whose scheduler also
chooses each outcome of `process_tx` (`FetchReachableBy.reachable`). A run that no worker can
continue ends without error exactly when every item of the feed is a signature whose transaction
the RPC node returns and `parse_tx_sequence` reads (`readTreeStart_ok_iff`); `read_tree` then
prints each transaction's change-log pairs in the history's order (`readTree_prints_tree_history`),
and `check_tree_leafs` checks the index against the leaf observations of the whole history
(`checkTreeLeafs_checks_tree_history`).
-/

namespace TreeRepair

/-! ## The events of a transaction -/

section Events

variable {K Sig : Type} [DecidableEq K] (codec : TxCodec K)

/-- The change-log events `parse_tx_sequence` reads from a transaction: none from a failed
transaction or one without metadata or inner instructions; otherwise those of its noop
instructions, in order, with program ids resolved in its account keys. -/
def txEvents (tx : EncodedTx K) : List (ChangeLogEventV1 K) :=
  match tx.meta with
  | some meta =>
    match meta.status, meta.innerInstructions, tx.staticAccountKeys with
    | .ok (), some vec, some sk =>
      match loadAccountKeys codec sk meta.loadedAddresses with
      | .ok keys => vec.flatten.filterMap (noopEvent codec keys)
      | .error _ => []
    | _, _, _ => []
  | none => []

/-- The pairs a transaction gives the tree `pubkey`: those of its change-log events of that tree,
in order, and `None` when it has none. -/
structure TreeSeqs (tx : EncodedTx K) (pubkey : K) (seqs : Option (List (Nat × Option LeafNode))) :
    Prop where
  getD_eq : seqs.getD [] = treeSeqUpdates (txEvents codec tx) pubkey
  eq_none_iff : seqs = none ↔ ∀ cl ∈ txEvents codec tx, cl.id ≠ pubkey

variable {codec}

/-- Every map `parse_tx_sequence` returns records the transaction's events. -/
theorem parseTxSequence_records {tx : EncodedTx K} {seqUpdates : SeqUpdates K}
    (h : parseTxSequence codec tx = .ok seqUpdates) : RecordsEvents seqUpdates (txEvents codec tx) := by
  have hempty : seqUpdates = ∅ → txEvents codec tx = [] → RecordsEvents seqUpdates (txEvents codec tx) :=
    fun h1 h2 => h1 ▸ h2 ▸ recordsEvents_empty
  rcases hm : tx.meta with _ | meta
  · simp [parseTxSequence, hm] at h
    exact hempty h.symm (by simp only [txEvents, hm])
  rcases hs : meta.status with e | ⟨⟩
  · simp [parseTxSequence, hm, hs, Except.toBool] at h
    exact hempty h.symm (by simp only [txEvents, hm, hs])
  rcases hi : meta.innerInstructions with _ | vec
  · simp [parseTxSequence, hm, hs, hi, Except.toBool] at h
    exact hempty h.symm (by simp only [txEvents, hm, hs, hi])
  rw [parseTxSequence_of_inner hm hs hi] at h
  rcases hk : tx.staticAccountKeys with _ | sk
  · simp [hk] at h
  rcases hl : loadAccountKeys codec sk meta.loadedAddresses with e | keys
  · simp [hk, hl] at h
  simp only [hk, hl, Option.elim, except_ok_bind] at h
  rw [parseInnerInstructions_of_reads ((parseInnerInstructions_isOk_iff ∅).mp ⟨_, h⟩),
    Except.ok.injEq] at h
  subst h
  simpa [txEvents, hm, hs, hi, hk, hl] using recordsEvents_empty.pushEvents _

/-- A map that records a transaction's events gives the tree its pairs. -/
theorem RecordsEvents.treeSeqs {tx : EncodedTx K} {seqUpdates : SeqUpdates K}
    (h : RecordsEvents seqUpdates (txEvents codec tx)) (pubkey : K) :
    TreeSeqs codec tx pubkey (seqUpdates.lookup pubkey) where
  getD_eq := h.lookup_getD pubkey
  eq_none_iff := by rw [AList.lookup_eq_none, h.mem_iff]; simp

theorem fetchTreeSeqs_eq_ok_iff {rpc : Sig → Except String (EncodedTx K)} {pubkey : K} {sig : Sig}
    {seqs : Option (List (Nat × Option LeafNode))} :
    fetchTreeSeqs codec rpc pubkey sig = .ok seqs ↔
      ∃ tx seqUpdates, rpc sig = .ok tx ∧ parseTxSequence codec tx = .ok seqUpdates ∧
        seqs = seqUpdates.lookup pubkey := by
  unfold fetchTreeSeqs processTx
  cases rpc sig with
  | error e => simp
  | ok tx => rcases hp : parseTxSequence codec tx with e | m <;> simp [hp, Except.mapError, eq_comm]

/-- What a worker sends for a signature is the tree's pairs of the signature's transaction. -/
theorem treeSeqs_of_fetchTreeSeqs {rpc : Sig → Except String (EncodedTx K)} {pubkey : K}
    {sig : Sig} {seqs : Option (List (Nat × Option LeafNode))}
    (h : fetchTreeSeqs codec rpc pubkey sig = .ok seqs) :
    ∃ tx, rpc sig = .ok tx ∧ TreeSeqs codec tx pubkey seqs := by
  obtain ⟨tx, seqUpdates, hrpc, hp, rfl⟩ := fetchTreeSeqs_eq_ok_iff.mp h
  exact ⟨tx, hrpc, (parseTxSequence_records hp).treeSeqs pubkey⟩

end Events

/-! ## Runs with `process_tx` fixed -/

section Runs

variable {Sig P : Type} {feed : List (FeedItem Sig)} {n : Nat} {process : Sig → Except String P}
  {s : FetchState Sig P}

/-- A run with `process_tx` fixed is a run of the model that chooses its outcomes. -/
theorem FetchReachableBy.reachable (h : FetchReachableBy feed n process s) : FetchReachable feed n s := by
  induction h with
  | init => exact .init
  | step _ hw _ hs ih => exact .step ih hw hs

/-- Every message sent carries what `process_tx` gives for its signature. -/
theorem FetchReachableBy.sent_by (h : FetchReachableBy feed n process s) :
    ∀ m ∈ s.sent, process m.2.1 = .ok m.2.2 := by
  induction h with
  | init => simp [fetchInit]
  | step _ _ hout hs ih =>
    obtain ⟨-, ⟨-, -, rfl⟩ | ⟨-, rfl⟩ | ⟨_, -, rfl⟩ | ⟨_, _, -, rfl⟩ | ⟨id, sig, obs, hpc, rfl, rfl⟩ |
      ⟨_, _, _, -, -, rfl⟩⟩ := fetchStep_cases hs
    any_goals exact ih
    intro m hm
    rcases List.mem_append.mp hm with hm | hm
    · exact ih m hm
    · rw [List.mem_singleton.mp hm]
      exact (hout id sig hpc).symm

/-- A run over a feed of signatures that `process_tx` all handles never fails. -/
theorem FetchReachableBy.joinErr_eq_false (h : FetchReachableBy feed n process s)
    (hfeed : ∀ item ∈ feed, ∃ sig obs, item = .ok sig ∧ process sig = .ok obs) : s.joinErr = false := by
  induction h with
  | init => rfl
  | @step _ _ w _ hr _ hout hs _ =>
    have hc := hr.reachable.inv.consistent w
    obtain ⟨hj, ⟨-, -, rfl⟩ | ⟨-, rfl⟩ | ⟨_, -, rfl⟩ | ⟨id, msg, hpc, rfl⟩ | ⟨_, _, _, -, -, rfl⟩ |
      ⟨id, sig, e, hpc, rfl, rfl⟩⟩ := fetchStep_cases hs
    any_goals exact hj
    · have hmsg : msg = feed[id]? := by rw [hpc] at hc; exact hc.1
      rcases msg with _ | e | sig
      · rfl
      · obtain ⟨_, _, he, -⟩ := hfeed _ (List.getElem?_mem hmsg.symm)
        cases he
      · rfl
    · have hsig : feed[id]? = some (.ok sig) := by rw [hpc] at hc; exact hc.1
      obtain ⟨_, obs, he, hp⟩ := hfeed _ (List.getElem?_mem hsig)
      cases he
      cases (hout id _ hpc).trans hp

/-- A schedule whose outcomes are all `o` replays as a run of a `process` that answers `o`. -/
theorem FetchReachableBy.run_const {o : Except String P} (hs : FetchReachableBy feed n process s)
    {ws : List Nat} (hw : ∀ w ∈ ws, w < n) (ho : ∀ sig, .ok sig ∈ feed → process sig = o)
    {s' : FetchState Sig P} (h : fetchRun feed s (ws.map fun w => (w, o)) = some s') :
    FetchReachableBy feed n process s' := by
  induction ws generalizing s with
  | nil => exact Option.some.inj h ▸ hs
  | cons w ws ih =>
    simp only [List.map_cons, fetchRun, Option.bind_eq_some] at h
    obtain ⟨s1, h1, h2⟩ := h
    have hout : ∀ id sig, s.workers w = .fetching id sig → o = process sig := fun id sig hpc => by
      have := hs.reachable.inv.consistent w
      rw [hpc] at this
      exact (ho sig (List.getElem?_mem this.1)).symm
    exact ih (.step hs (hw w (List.mem_cons_self _ _)) hout h1)
      (fun w' h' => hw w' (List.mem_cons_of_mem _ h')) h2

end Runs

/-! ## How a run ends -/

section End

variable {Sig P : Type} {feed : List (FeedItem Sig)} {n : Nat} {s : FetchState Sig P}

/-- A run that no worker can continue and has not failed sent every item of the feed. -/
theorem FetchInv.sent_of_stuck (hI : FetchInv feed n s) (hn : 0 < n) (hj : s.joinErr = false)
    (hstuck : ∀ w < n, ∀ o : Except String P, fetchStep feed s w o = none) {i : Nat}
    (hi : i < feed.length) : ∃ m ∈ s.sent, m.1 = i := by
  have hdone : ∀ w < n, s.workers w = .doneOk := fun _ hw => hI.doneOk_of_stuck hj hstuck hw
  have hlen : feed.length ≤ s.sigId := by
    have h0 := hI.consistent 0
    rwa [hdone 0 hn] at h0
  rcases hI.complete i (by omega) hi with h | ⟨w, hw⟩ | h
  · exact List.mem_map.mp h
  · by_cases hwn : w < n
    · rw [hdone w hwn] at hw; cases hw
    · rw [hI.idle_beyond w (by omega)] at hw; cases hw
  · rw [hj] at h; cases h

/-- A run that no worker can continue ends without error exactly when every item of the feed is a
signature that `process_tx` handles. -/
theorem FetchReachableBy.joinErr_eq_false_iff {process : Sig → Except String P}
    (hs : FetchReachableBy feed n process s) (hn : 0 < n)
    (hstuck : ∀ w < n, ∀ o : Except String P, fetchStep feed s w o = none) :
    s.joinErr = false ↔ ∀ item ∈ feed, ∃ sig obs, item = .ok sig ∧ process sig = .ok obs := by
  refine ⟨fun hj item hitem => ?_, hs.joinErr_eq_false⟩
  have hI := hs.reachable.inv
  obtain ⟨i, hi, rfl⟩ := List.getElem_of_mem hitem
  obtain ⟨m, hm, rfl⟩ := hI.sent_of_stuck hn hj hstuck hi
  have hsig := (hI.sent_ok m hm).1
  rw [List.getElem?_eq_getElem hi, Option.some.injEq] at hsig
  exact ⟨m.2.1, m.2.2, hsig, hs.sent_by m hm⟩

end End

/-! ## The tree's history -/

section History

variable {K Sig : Type} [DecidableEq K]

/-- For every codec, every answer of the RPC node, every tree, every signature feed, every `n ≥ 1`
workers and every run of `read_tree_start` that no worker can continue, in every interleaving: the
fetch future completes with `Ok` exactly when every item of the feed is a signature whose
transaction the RPC node returns and `parse_tx_sequence` reads. -/
theorem readTreeStart_ok_iff (codec : TxCodec K) (rpc : Sig → Except String (EncodedTx K)) (pubkey : K)
    (feed : List (FeedItem Sig)) (n : Nat) (hn : 0 < n)
    (s : FetchState Sig (Option (List (Nat × Option LeafNode))))
    (hs : FetchReachableBy feed n (fetchTreeSeqs codec rpc pubkey) s)
    (hstuck : ∀ w < n, ∀ o, fetchStep feed s w o = none) :
    s.joinErr = false ↔ ∀ item ∈ feed, ∃ sig tx seqUpdates, item = .ok sig ∧ rpc sig = .ok tx ∧
      parseTxSequence codec tx = .ok seqUpdates := by
  rw [hs.joinErr_eq_false_iff hn hstuck]
  refine forall₂_congr fun item _ => ⟨fun ⟨sig, obs, he, hf⟩ => ?_, fun ⟨sig, tx, m, he, hr, hp⟩ => ?_⟩
  · obtain ⟨tx, m, hr, hp, -⟩ := fetchTreeSeqs_eq_ok_iff.mp hf
    exact ⟨sig, tx, m, he, hr, hp⟩
  · exact ⟨sig, m.lookup pubkey, he, fetchTreeSeqs_eq_ok_iff.mpr ⟨tx, m, hr, hp, rfl⟩⟩

/-- A codec whose noop program is `0` and whose every noop instruction logs seq `3` of the tree `7`
at node `4` of a tree of height `2`: leaf `0`. -/
def oneEventCodec : TxCodec Nat :=
  ⟨0, fun _ => .ok [], fun _ => some ⟨7, [⟨4⟩, ⟨2⟩, ⟨1⟩], 3, by decide⟩, fun _ => .ok 0⟩

/-- An RPC node that answers every signature with a successful transaction whose one inner
instruction calls the noop program. -/
def oneEventRpc : Nat → Except String (EncodedTx Nat) :=
  fun _ => .ok ⟨some ⟨.ok (), some [[.compiled 0 "x"]], none⟩, some [0]⟩

/-- One worker over the history `[5]`, to the end of its run: it sends the tree's pairs of the
transaction and returns `Ok`. -/
theorem oneEvent_run :
    ∃ s, fetchRun [.ok 5] fetchInit
        ((List.replicate 9 0).map fun w => (w, fetchTreeSeqs oneEventCodec oneEventRpc 7 5)) = some s ∧
      FetchReachableBy [.ok 5] 1 (fetchTreeSeqs oneEventCodec oneEventRpc 7) s ∧
      (∀ w < 1, ∀ o, fetchStep [.ok 5] s w o = none) ∧ s.joinErr = false ∧
      s.sent = [(0, 5, some [(3, some ⟨0⟩)])] :=
  ⟨_, rfl, FetchReachableBy.run_const
    (FetchReachableBy.init : FetchReachableBy [.ok 5] 1 (fetchTreeSeqs oneEventCodec oneEventRpc 7) _)
    (by decide)
    (fun sig h => by cases List.mem_singleton.mp h; rfl) (rfl : fetchRun [.ok 5] fetchInit
      ((List.replicate 9 0).map fun w => (w, fetchTreeSeqs oneEventCodec oneEventRpc 7 5)) = _),
    fun w hw o => by rw [Nat.lt_one_iff.mp hw]; rfl, rfl, rfl⟩

/-- One worker over the history `[5]`: its transaction is fetched and read, and the fetch future
completes with `Ok`. -/
theorem readTreeStart_ok_iff_run :
    ∃ s, 0 < 1 ∧ FetchReachableBy [.ok 5] 1 (fetchTreeSeqs oneEventCodec oneEventRpc 7) s ∧
      (∀ w < 1, ∀ o, fetchStep [.ok 5] s w o = none) ∧ s.joinErr = false ∧
      (s.joinErr = false ↔ ∀ item ∈ ([.ok 5] : List (FeedItem Nat)), ∃ sig tx seqUpdates, item = .ok sig ∧
        oneEventRpc sig = .ok tx ∧ parseTxSequence oneEventCodec tx = .ok seqUpdates) := by
  obtain ⟨s, -, hs, hstuck, hj, -⟩ := oneEvent_run
  exact ⟨s, by decide, hs, hstuck, hj, readTreeStart_ok_iff _ _ _ _ 1 (by decide) _ hs hstuck⟩

/-- What `read_tree` prints for the tree `pubkey` over the history `feed`: `print_seqs` is called
with ascending ids, once per signature of the history with its position, and with the pairs the
signature's transaction gives the tree. -/
structure PrintsTreeHistory (codec : TxCodec K) (rpc : Sig → Except String (EncodedTx K)) (pubkey : K)
    (feed : List (FeedItem Sig)) (out : List (Nat × Sig × Option (List (Nat × Option LeafNode)))) :
    Prop where
  printsFeed : PrintsFeed feed out
  seqs : ∀ m ∈ out, ∃ tx, rpc m.2.1 = .ok tx ∧ TreeSeqs codec tx pubkey m.2.2

/-- For every codec, every answer of the RPC node, every tree, every signature history, every
`n ≥ 1` workers and every run of theirs that no worker can continue and that ends without error,
and every iteration order of the collector's leftovers: `read_tree` calls `print_seqs` once per
signature of the history, in the history's order and with its position, and with the `(seq, leaf)`
pairs of the tree's change-log events in the signature's transaction, in order (`None` when it has
none). -/
theorem readTree_prints_tree_history (codec : TxCodec K) (rpc : Sig → Except String (EncodedTx K))
    (pubkey : K) (feed : List (FeedItem Sig)) (n : Nat) (hn : 0 < n)
    (s : FetchState Sig (Option (List (Nat × Option LeafNode))))
    (hs : FetchReachableBy feed n (fetchTreeSeqs codec rpc pubkey) s)
    (hstuck : ∀ w < n, ∀ o, fetchStep feed s w o = none) (hj : s.joinErr = false)
    (vec : List (Nat × Sig × Option (List (Nat × Option LeafNode))))
    (hvec : vec.Perm (mapEntries (Collector.init.recvAll s.sent).map)) :
    PrintsTreeHistory codec rpc pubkey feed (readTreePrints s.sent vec) := by
  have hI := hs.reachable.inv
  have hmem := mem_readTreePrints hI.sent_nodup hvec
  refine ⟨⟨readTreePrints_ids_sorted hI.sent_nodup hvec,
    fun m hm => (hI.sent_ok m ((hmem m).mp hm)).1, fun i => ?_⟩,
    fun m hm => treeSeqs_of_fetchTreeSeqs (hs.sent_by m ((hmem m).mp hm))⟩
  rw [← hI.delivered hn (fun _ hw => hI.doneOk_of_stuck hj hstuck hw) i]
  simp only [List.mem_map, hmem]

/-- The run of `readTreeStart_ok_iff_run`, printed: seq `3` at leaf `0` for signature `5`. -/
theorem readTree_prints_tree_history_run :
    ∃ s, 0 < 1 ∧ FetchReachableBy [.ok 5] 1 (fetchTreeSeqs oneEventCodec oneEventRpc 7) s ∧
      (∀ w < 1, ∀ o, fetchStep [.ok 5] s w o = none) ∧ s.joinErr = false ∧
      ([] : List (Nat × Nat × Option (List (Nat × Option LeafNode)))).Perm
        (mapEntries (Collector.init.recvAll s.sent).map) ∧
      readTreePrints s.sent [] = [(0, 5, some [(3, some ⟨0⟩)])] ∧
      PrintsTreeHistory oneEventCodec oneEventRpc 7 [.ok 5] (readTreePrints s.sent []) := by
  obtain ⟨s, -, hs, hstuck, hj, hsent⟩ := oneEvent_run
  have hvec : ([] : List (Nat × Nat × Option (List (Nat × Option LeafNode)))).Perm
      (mapEntries (Collector.init.recvAll s.sent).map) := by rw [hsent]; exact .of_eq rfl
  exact ⟨s, by decide, hs, hstuck, hj, hvec,
    by rw [hsent, readTreePrints, sortById, List.mergeSort_nil]; rfl,
    readTree_prints_tree_history _ _ _ _ 1 (by decide) _ hs hstuck hj [] hvec⟩

/-- The leaf observations of the tree's change-log events over a history: for each signature of
the feed whose transaction the RPC node returns, in order, the `(signature, seq, leaf_idx)` of the
tree's events that have a leaf. -/
def historyObservations (codec : TxCodec K) (rpc : Sig → Except String (EncodedTx K)) (pubkey : K)
    (feed : List (FeedItem Sig)) : List (Sig × Nat × Int) :=
  feed.flatMap fun
    | .ok sig =>
      match rpc sig with
      | .ok tx => txObservations sig (treeSeqUpdates (txEvents codec tx) pubkey)
      | .error _ => []
    | .error _ => []

/-- A finished run without error sends, up to order, the history's leaf observations. -/
theorem mem_observations_sent_iff {codec : TxCodec K} {rpc : Sig → Except String (EncodedTx K)}
    {pubkey : K} {feed : List (FeedItem Sig)} {n : Nat} (hn : 0 < n)
    {s : FetchState Sig (Option (List (Nat × Option LeafNode)))}
    (hs : FetchReachableBy feed n (fetchTreeSeqs codec rpc pubkey) s)
    (hstuck : ∀ w < n, ∀ o, fetchStep feed s w o = none) (hj : s.joinErr = false)
    (o : Sig × Nat × Int) :
    o ∈ observations s.sent ↔ o ∈ historyObservations codec rpc pubkey feed := by
  have hI := hs.reachable.inv
  simp only [observations, historyObservations, List.mem_flatMap]
  constructor
  · rintro ⟨m, hm, ho⟩
    obtain ⟨tx, hrpc, hseqs⟩ := treeSeqs_of_fetchTreeSeqs (hs.sent_by m hm)
    exact ⟨.ok m.2.1, List.getElem?_mem (hI.sent_ok m hm).1, by simpa [hrpc, ← hseqs.getD_eq] using ho⟩
  · rintro ⟨_ | sig, hitem, ho⟩
    · simp at ho
    rcases hrpc : rpc sig with e | tx
    · simp [hrpc] at ho
    simp only [hrpc] at ho
    obtain ⟨i, hi⟩ := List.getElem?_of_mem hitem
    obtain ⟨m, hm, rfl⟩ := List.mem_map.mp
      ((hI.delivered hn (fun _ hw => hI.doneOk_of_stuck hj hstuck hw) i).mpr ⟨sig, hi⟩)
    have hsig : m.2.1 = sig := by
      simpa [hi] using (hI.sent_ok m hm).1.symm
    obtain ⟨tx', hrpc', hseqs⟩ := treeSeqs_of_fetchTreeSeqs (hs.sent_by m hm)
    rw [hsig, hrpc, Except.ok.injEq] at hrpc'
    subst hrpc' hsig
    exact ⟨m, hm, by rwa [hseqs.getD_eq]⟩

end History

/-! ## The leaf checks over the history -/

section Leafs

variable {Sig : Type} {obs obs' : List (Sig × Nat × Int)} {leafs : LeafMap Sig}

/-- The map's invariant sees the observations only through which ones there are. -/
theorem LeafsInv.congr (h : LeafsInv obs leafs) (hmem : ∀ o, o ∈ obs ↔ o ∈ obs') :
    LeafsInv obs' leafs where
  lookup_none idx hl o ho := h.lookup_none idx hl o ((hmem o).mpr ho)
  lookup_some idx sig seq hl :=
    have hmax := h.lookup_some idx sig seq hl
    ⟨(hmem _).mp hmax.1, fun o ho => hmax.2 o ((hmem o).mpr ho)⟩

/-- The checks of `check_tree_leafs` against any observations whose map the read built. -/
theorem LeafsInv.leafChecks {msgs : List (Nat × Sig × Option (List (Nat × Option LeafNode)))}
    (hI : LeafsInv obs (TreeRepair.collectLeafs ∅ msgs)) {rows : List AssetMaxSeq}
    (hrows : (rows.map AssetMaxSeq.leafIdx).Nodup) {vec : List (Int × Sig × Nat)}
    (hvec : vec.Perm (mapEntries (checkDbRows (TreeRepair.collectLeafs ∅ msgs) rows).2)) :
    LeafChecks obs rows (checkTreeLeafs msgs rows vec).1 (checkTreeLeafs msgs rows vec).2 := by
  refine ⟨fun i d q sig h => ?invalid_mem, fun row hrow sig q hmax hne => ?invalid_of,
    fun i => ?notFound_iff, fun i q sig h => ?notFoundInDb_mem, fun o ho hno => ?notFoundInDb_of,
    checkTreeLeafs_snd hrows, checkTreeLeafs_ids_nodup hrows hvec⟩
  case invalid_mem =>
    obtain ⟨hrow, hl, hne⟩ := (invalidSeq_mem_checkTreeLeafs hrows).mp h
    exact ⟨hrow, hI.lookup_some _ _ _ hl, hne⟩
  case invalid_of =>
    obtain ⟨sig', q', hl⟩ := hI.lookup_of_mem hmax.1
    obtain rfl := hmax.seq_eq (hI.lookup_some _ _ _ hl)
    exact ⟨sig', (invalidSeq_mem_checkTreeLeafs hrows).mpr ⟨hrow, hl, hne⟩⟩
  case notFound_iff =>
    rw [notFoundInBlockchain_mem_checkTreeLeafs hrows, hI.lookup_eq_none_iff]
  case notFoundInDb_mem =>
    obtain ⟨hi, hl⟩ :=
      (mem_of_perm_checkDbRows_snd hvec).mp ((notFoundInDb_mem_checkTreeLeafs hrows).mp h)
    exact ⟨hi, hI.lookup_some _ _ _ hl⟩
  case notFoundInDb_of =>
    obtain ⟨sig, q, hl⟩ := hI.lookup_of_mem ho
    exact ⟨q, sig,
      (notFoundInDb_mem_checkTreeLeafs hrows).mpr ((mem_of_perm_checkDbRows_snd hvec).mpr ⟨hno, hl⟩)⟩

variable {K : Type} [DecidableEq K]

/-- For every codec, every answer of the RPC node, every tree, every signature history, every
`n ≥ 1` workers and every run of theirs that no worker can continue and that ends without error,
every list of database rows with pairwise distinct leaf indices and every iteration order of the
leftovers: `check_tree_leafs` checks the rows against the leaf observations of the tree's
change-log events over the whole history, whatever order the transactions arrive in: `invalid seq`
for exactly the rows whose seq differs, `as i64`, from the largest seq of a change-log event at
their leaf, `not found in blockchain` for exactly the rows whose leaf no event touches, and
`not found in db`, with one line written, for exactly the leaves touched that no row names. -/
theorem checkTreeLeafs_checks_tree_history (codec : TxCodec K)
    (rpc : Sig → Except String (EncodedTx K)) (pubkey : K) (feed : List (FeedItem Sig)) (n : Nat)
    (hn : 0 < n) (s : FetchState Sig (Option (List (Nat × Option LeafNode))))
    (hs : FetchReachableBy feed n (fetchTreeSeqs codec rpc pubkey) s)
    (hstuck : ∀ w < n, ∀ o, fetchStep feed s w o = none) (hj : s.joinErr = false)
    (rows : List AssetMaxSeq) (hrows : (rows.map AssetMaxSeq.leafIdx).Nodup)
    (vec : List (Int × Sig × Nat))
    (hvec : vec.Perm (mapEntries (checkDbRows (collectLeafs ∅ s.sent) rows).2)) :
    LeafChecks (historyObservations codec rpc pubkey feed) rows (checkTreeLeafs s.sent rows vec).1
      (checkTreeLeafs s.sent rows vec).2 := by
  have hI : LeafsInv (observations s.sent) (collectLeafs ∅ s.sent) := by
    simpa using leafsInv_empty.collectLeafs s.sent
  exact (hI.congr (mem_observations_sent_iff hn hs hstuck hj)).leafChecks hrows hvec

/-- The run of `readTreeStart_ok_iff_run`, checked against a database that stores seq `2` at
leaf `0`: `invalid seq`. -/
theorem checkTreeLeafs_checks_tree_history_run :
    ∃ s, 0 < 1 ∧ FetchReachableBy [.ok 5] 1 (fetchTreeSeqs oneEventCodec oneEventRpc 7) s ∧
      (∀ w < 1, ∀ o, fetchStep [.ok 5] s w o = none) ∧ s.joinErr = false ∧
      ([⟨0, 2⟩].map AssetMaxSeq.leafIdx).Nodup ∧
      ([] : List (Int × Nat × Nat)).Perm (mapEntries (checkDbRows (collectLeafs ∅ s.sent) [⟨0, 2⟩]).2) ∧
      checkTreeLeafs s.sent [⟨0, 2⟩] [] = ([.invalidSeq 0 2 3 5], []) ∧
      LeafChecks (historyObservations oneEventCodec oneEventRpc 7 [.ok 5]) [⟨0, 2⟩]
        (checkTreeLeafs s.sent [⟨0, 2⟩] []).1 (checkTreeLeafs s.sent [⟨0, 2⟩] []).2 := by
  obtain ⟨s, -, hs, hstuck, hj, hsent⟩ := oneEvent_run
  have hvec : ([] : List (Int × Nat × Nat)).Perm
      (mapEntries (checkDbRows (collectLeafs ∅ s.sent) [⟨0, 2⟩]).2) := by rw [hsent]; exact .of_eq rfl
  exact ⟨s, by decide, hs, hstuck, hj, by decide, hvec, by rw [hsent]; rfl,
    checkTreeLeafs_checks_tree_history _ _ _ _ 1 (by decide) _ hs hstuck hj _ (by decide) [] hvec⟩

end Leafs

end TreeRepair
