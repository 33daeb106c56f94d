import TreeRepair.CheckLeafs

/-!
# What `check_tree_leafs` reports

The collector's map holds, for every observed leaf index, a signature that produced the largest
seq observed there, and nothing for the others, whatever the arrival order (`LeafsInv`). With
pairwise distinct leaf indices in the database's rows, each row is checked against that map as it
was after the read (`checkDbRows_fst`), and the leftovers are exactly the observed indices that no
row names. The comparison is `leaf_db.seq != seq as i64`: a seq of `2^63` or more is wrapped
before it is compared (`checkTreeLeafs_misses_wrapped_seq`).
-/

namespace TreeRepair

variable {Sig : Type}

/-- The leaf observations `(signature, seq, leaf_idx)` of one transaction's pairs. -/
def txObservations (sig : Sig) (seqs : List (Nat × Option LeafNode)) : List (Sig × Nat × Int) :=
  seqs.filterMap fun p => p.2.map fun leaf => (sig, p.1, leaf.index)

/-- The leaf observations of the received messages. -/
def observations (msgs : List (Nat × Sig × Option (List (Nat × Option LeafNode)))) :
    List (Sig × Nat × Int) :=
  msgs.flatMap fun m => txObservations m.2.1 (m.2.2.getD [])

/-- `sig` observed `seq` at leaf `idx`, and no observation of `idx` has a larger seq. -/
def IsMaxObs (obs : List (Sig × Nat × Int)) (idx : Int) (sig : Sig) (seq : Nat) : Prop :=
  (sig, seq, idx) ∈ obs ∧ ∀ o ∈ obs, o.2.2 = idx → o.2.1 ≤ seq

/-- The map of the collector after the observations `obs`. -/
structure LeafsInv (obs : List (Sig × Nat × Int)) (leafs : LeafMap Sig) : Prop where
  /-- An index with no entry was never observed. -/
  lookup_none : ∀ idx, leafs.lookup idx = none → ∀ o ∈ obs, o.2.2 ≠ idx
  /-- An entry holds the largest seq observed at its index, and a signature that observed it. -/
  lookup_some : ∀ idx sig seq, leafs.lookup idx = some (sig, seq) → IsMaxObs obs idx sig seq

/-! ## The read -/

section Collect

variable {obs : List (Sig × Nat × Int)} {leafs : LeafMap Sig}

theorem leafsInv_empty : LeafsInv [] (∅ : LeafMap Sig) :=
  ⟨fun _ _ _ h => absurd h (List.not_mem_nil _), fun _ _ _ h => by simp [AList.lookup_empty] at h⟩

/-- The map has no entry at exactly the indices never observed. -/
theorem LeafsInv.lookup_eq_none_iff (h : LeafsInv obs leafs) {idx : Int} :
    leafs.lookup idx = none ↔ ∀ o ∈ obs, o.2.2 ≠ idx := by
  refine ⟨h.lookup_none idx, fun hno => ?_⟩
  cases hl : leafs.lookup idx with
  | none => rfl
  | some e => exact absurd rfl (hno _ (h.lookup_some _ e.1 e.2 hl).1)

/-- An observed index has an entry. -/
theorem LeafsInv.lookup_of_mem (h : LeafsInv obs leafs) {o : Sig × Nat × Int} (ho : o ∈ obs) :
    ∃ sig q, leafs.lookup o.2.2 = some (sig, q) := by
  cases hl : leafs.lookup o.2.2 with
  | none => exact absurd rfl (h.lookup_none _ hl o ho)
  | some e => exact ⟨e.1, e.2, rfl⟩

theorem lookup_leafsInsert_ne {sig : Sig} {seq : Nat} {idx k : Int} (hk : k ≠ idx) :
    (leafsInsert leafs sig seq idx).lookup k = leafs.lookup k := by
  unfold leafsInsert
  split
  · exact AList.lookup_insert_ne hk
  · split
    · exact AList.lookup_insert_ne hk
    · rfl

/-- At its own index, `leafsInsert` keeps the entry with the larger seq, the old one on a tie. -/
theorem lookup_leafsInsert_self (leafs : LeafMap Sig) (sig : Sig) (seq : Nat) (idx : Int) :
    ((leafsInsert leafs sig seq idx).lookup idx = some (sig, seq) ∧
      ∀ e, leafs.lookup idx = some e → e.2 < seq) ∨
    ∃ e, leafs.lookup idx = some e ∧ seq ≤ e.2 ∧ (leafsInsert leafs sig seq idx).lookup idx = some e := by
  unfold leafsInsert
  cases hl : leafs.lookup idx with
  | none => exact .inl ⟨by simp [AList.lookup_insert], by simp⟩
  | some e =>
    by_cases hlt : e.2 < seq
    · exact .inl ⟨by simp [hlt, AList.lookup_insert], by simp [hlt]⟩
    · exact .inr ⟨e, rfl, by omega, by simp [hlt, hl]⟩

/-- One observation keeps the map's invariant. -/
theorem LeafsInv.insert (h : LeafsInv obs leafs) (sig : Sig) (seq : Nat) (idx : Int) :
    LeafsInv (obs ++ [(sig, seq, idx)]) (leafsInsert leafs sig seq idx) := by
  have hnew : ∀ o ∈ obs ++ [(sig, seq, idx)], o ∈ obs ∨ o = (sig, seq, idx) := fun o ho => by
    simpa using ho
  constructor
  · intro k hk o ho
    by_cases e : k = idx
    · subst e
      rcases lookup_leafsInsert_self leafs sig seq k with ⟨h1, -⟩ | ⟨_, -, -, h1⟩ <;>
        simp [h1] at hk
    · rw [lookup_leafsInsert_ne e] at hk
      rcases hnew o ho with ho | rfl
      · exact h.lookup_none k hk o ho
      · exact Ne.symm e
  · intro k s q hk
    by_cases e : k = idx
    · subst e
      rcases lookup_leafsInsert_self leafs sig seq k with ⟨h1, hlt⟩ | ⟨e, hl, hle, h1⟩
      · obtain ⟨rfl, rfl⟩ := Prod.mk.inj (Option.some.inj (h1.symm.trans hk))
        refine ⟨by simp, fun o ho he => ?_⟩
        rcases hnew o ho with ho | rfl
        · obtain ⟨s', q', hl⟩ := h.lookup_of_mem ho
          exact ((h.lookup_some _ _ _ hl).2 o ho rfl).trans (hlt _ (he ▸ hl)).le
        · exact le_rfl
      · obtain rfl := Option.some.inj (h1.symm.trans hk)
        have hmax := h.lookup_some _ _ _ hl
        refine ⟨List.mem_append_left _ hmax.1, fun o ho he => ?_⟩
        rcases hnew o ho with ho | rfl
        · exact hmax.2 o ho he
        · exact hle
    · rw [lookup_leafsInsert_ne e] at hk
      have hmax := h.lookup_some k s q hk
      refine ⟨List.mem_append_left _ hmax.1, fun o ho he => ?_⟩
      rcases hnew o ho with ho | rfl
      · exact hmax.2 o ho he
      · exact absurd he.symm e

theorem LeafsInv.collectTxLeafs (h : LeafsInv obs leafs) (sig : Sig)
    (seqs : List (Nat × Option LeafNode)) :
    LeafsInv (obs ++ txObservations sig seqs) (collectTxLeafs sig leafs seqs) := by
  induction seqs generalizing obs leafs with
  | nil => simpa [txObservations] using h
  | cons p seqs ih =>
    obtain ⟨seq, _ | leaf⟩ := p
    · simpa [collectTxLeafs, txObservations] using ih h
    · simpa [collectTxLeafs, txObservations] using ih (h.insert sig seq leaf.index)

/-- The receive loop keeps the map's invariant, in every arrival order. -/
theorem LeafsInv.collectLeafs (h : LeafsInv obs leafs)
    (msgs : List (Nat × Sig × Option (List (Nat × Option LeafNode)))) :
    LeafsInv (obs ++ observations msgs) (collectLeafs leafs msgs) := by
  induction msgs generalizing obs leafs with
  | nil => simpa [observations] using h
  | cons m msgs ih =>
    obtain ⟨_, sig, seqs⟩ := m
    simpa [collectLeafs, observations] using ih (h.collectTxLeafs sig (seqs.getD []))

end Collect

/-! ## The database rows -/

section Rows

variable {leafs : LeafMap Sig} {row : AssetMaxSeq}

theorem checkDbRow_fst_of_some {sig : Sig} {seq : Nat}
    (h : leafs.lookup row.leafIdx = some (sig, seq)) :
    (checkDbRow leafs row).1 =
      if row.seq ≠ u64AsI64 seq then [.invalidSeq row.leafIdx row.seq seq sig] else [] := by
  simp [checkDbRow, AList.extract_eq_lookup_erase, h]

theorem checkDbRow_fst_of_none (h : leafs.lookup row.leafIdx = none) :
    (checkDbRow leafs row).1 = [.notFoundInBlockchain row.leafIdx] := by
  simp [checkDbRow, AList.extract_eq_lookup_erase, h]

theorem checkDbRow_snd : (checkDbRow leafs row).2 = leafs.erase row.leafIdx := by
  unfold checkDbRow
  rw [AList.extract_eq_lookup_erase]
  rcases leafs.lookup row.leafIdx with _ | ⟨_, _⟩ <;> rfl

/-- A row's reports depend on the map only through the row's own index. -/
theorem checkDbRow_fst_congr {leafs' : LeafMap Sig}
    (h : leafs.lookup row.leafIdx = leafs'.lookup row.leafIdx) :
    (checkDbRow leafs row).1 = (checkDbRow leafs' row).1 := by
  cases hl : leafs.lookup row.leafIdx with
  | none => rw [checkDbRow_fst_of_none hl, checkDbRow_fst_of_none (h ▸ hl)]
  | some e => rw [checkDbRow_fst_of_some hl, checkDbRow_fst_of_some (h ▸ hl)]

/-- The map after the rows: their indices removed. -/
theorem lookup_checkDbRows_snd (rows : List AssetMaxSeq) (k : Int) :
    (checkDbRows leafs rows).2.lookup k =
      if k ∈ rows.map AssetMaxSeq.leafIdx then none else leafs.lookup k := by
  induction rows generalizing leafs with
  | nil => simp [checkDbRows]
  | cons row rows ih =>
    simp only [checkDbRows, ih, checkDbRow_snd, List.map_cons, List.mem_cons]
    by_cases e : k = row.leafIdx
    · subst e; simp [AList.lookup_erase]
    · simp [e, AList.lookup_erase_ne e]

/-- With pairwise distinct indices, every row is checked against the map as the read left it. -/
theorem checkDbRows_fst (rows : List AssetMaxSeq) (hrows : (rows.map AssetMaxSeq.leafIdx).Nodup) :
    (checkDbRows leafs rows).1 = rows.flatMap fun row => (checkDbRow leafs row).1 := by
  induction rows generalizing leafs with
  | nil => rfl
  | cons row rows ih =>
    rw [List.map_cons, List.nodup_cons] at hrows
    simp only [checkDbRows, List.flatMap_cons, ih hrows.2, checkDbRow_snd]
    congr 1
    refine List.flatMap_congr fun r hr => checkDbRow_fst_congr (AList.lookup_erase_ne ?_)
    exact fun e => hrows.1 (e ▸ List.mem_map_of_mem _ hr)

end Rows

/-! ## The reports -/

/-- The signature a report writes to `output`: that of a `not found in db` report. -/
def LeafReport.dbMissSig : LeafReport Sig → Option Sig
  | .notFoundInDb _ _ sig => some sig
  | _ => none

/-- The largest seq observed at an index is unique. -/
theorem IsMaxObs.seq_eq {obs : List (Sig × Nat × Int)} {i : Int} {s s' : Sig} {q q' : Nat}
    (h : IsMaxObs obs i s q) (h' : IsMaxObs obs i s' q') : q = q' :=
  le_antisymm (h'.2 _ h.1 rfl) (h.2 _ h'.1 rfl)

theorem mem_checkDbRow_fst {leafs : LeafMap Sig} {row : AssetMaxSeq} {r : LeafReport Sig} :
    r ∈ (checkDbRow leafs row).1 ↔
      (∃ sig seq, leafs.lookup row.leafIdx = some (sig, seq) ∧ row.seq ≠ u64AsI64 seq ∧
        r = .invalidSeq row.leafIdx row.seq seq sig) ∨
      (leafs.lookup row.leafIdx = none ∧ r = .notFoundInBlockchain row.leafIdx) := by
  cases hl : leafs.lookup row.leafIdx with
  | none => simp [checkDbRow_fst_of_none hl]
  | some e =>
    obtain ⟨sig, seq⟩ := e
    rw [checkDbRow_fst_of_some hl]
    split_ifs with hne
    · simp only [List.mem_singleton, Option.some.injEq, Prod.mk.injEq, reduceCtorEq, false_and,
        or_false]
      exact ⟨fun h => ⟨_, _, ⟨rfl, rfl⟩, hne, h⟩, fun ⟨_, _, ⟨e1, e2⟩, _, h⟩ => e1 ▸ e2 ▸ h⟩
    · simp [hne]

/-- A row yields at most one report, about its own index. -/
theorem checkDbRow_ids_sublist (leafs : LeafMap Sig) (row : AssetMaxSeq) :
    ((checkDbRow leafs row).1.map LeafReport.leafIdx).Sublist [row.leafIdx] := by
  cases hl : leafs.lookup row.leafIdx with
  | none => simp [checkDbRow_fst_of_none hl, LeafReport.leafIdx]
  | some e =>
    rw [checkDbRow_fst_of_some hl]
    split_ifs <;> simp [LeafReport.leafIdx]

theorem flatMap_checkDbRow_ids_sublist (leafs : LeafMap Sig) (rows : List AssetMaxSeq) :
    ((rows.flatMap fun row => (checkDbRow leafs row).1).map LeafReport.leafIdx).Sublist
      (rows.map AssetMaxSeq.leafIdx) := by
  induction rows with
  | nil => simp
  | cons row rows ih =>
    simpa using (checkDbRow_ids_sublist leafs row).append ih

/-- What `check_tree_leafs` logs and writes, against the observations `obs` of the read and the
database's rows. -/
structure LeafChecks (obs : List (Sig × Nat × Int)) (rows : List AssetMaxSeq)
    (reports : List (LeafReport Sig)) (writes : List Sig) : Prop where
  /-- `invalid seq` names a row, the largest seq observed at its index and a signature that
  observed it, and the row's seq differs from that seq `as i64`. -/
  invalid_mem : ∀ i d q sig, .invalidSeq i d q sig ∈ reports →
    ⟨i, d⟩ ∈ rows ∧ IsMaxObs obs i sig q ∧ d ≠ u64AsI64 q
  /-- Every row whose seq differs from the largest seq observed at its index, `as i64`, is
  reported `invalid seq`. -/
  invalid_of : ∀ row ∈ rows, ∀ sig q, IsMaxObs obs row.leafIdx sig q → row.seq ≠ u64AsI64 q →
    ∃ sig', .invalidSeq row.leafIdx row.seq q sig' ∈ reports
  /-- `not found in blockchain` exactly for the rows whose index was never observed. -/
  notFoundInBlockchain_iff : ∀ i, .notFoundInBlockchain i ∈ reports ↔
    i ∈ rows.map AssetMaxSeq.leafIdx ∧ ∀ o ∈ obs, o.2.2 ≠ i
  /-- `not found in db` names an index that no row names, the largest seq observed there and a
  signature that observed it. -/
  notFoundInDb_mem : ∀ i q sig, .notFoundInDb i q sig ∈ reports →
    i ∉ rows.map AssetMaxSeq.leafIdx ∧ IsMaxObs obs i sig q
  /-- Every observed index that no row names is reported `not found in db`. -/
  notFoundInDb_of : ∀ o ∈ obs, o.2.2 ∉ rows.map AssetMaxSeq.leafIdx →
    ∃ q sig, .notFoundInDb o.2.2 q sig ∈ reports
  /-- One line is written to `output` per `not found in db` report, with its signature. -/
  writes_eq : writes = reports.filterMap LeafReport.dbMissSig
  /-- No index is reported twice. -/
  ids_nodup : (reports.map LeafReport.leafIdx).Nodup

section Reports

variable {msgs : List (Nat × Sig × Option (List (Nat × Option LeafNode)))} {rows : List AssetMaxSeq}
  {vec : List (Int × Sig × Nat)}

/-- The leftovers are the map's entries at the indices that no row names. -/
theorem mem_of_perm_checkDbRows_snd {leafs : LeafMap Sig}
    (hvec : vec.Perm (mapEntries (checkDbRows leafs rows).2)) {i : Int} {sig : Sig} {q : Nat} :
    (i, sig, q) ∈ vec ↔ i ∉ rows.map AssetMaxSeq.leafIdx ∧ leafs.lookup i = some (sig, q) := by
  rw [hvec.mem_iff, mem_mapEntries, lookup_checkDbRows_snd]
  split_ifs with h <;> simp [h]

/-- Where a report of `check_tree_leafs` comes from: a row whose entry holds a seq that differs, a
row with no entry, or a leftover entry. -/
theorem mem_checkTreeLeafs_fst (hrows : (rows.map AssetMaxSeq.leafIdx).Nodup)
    {r : LeafReport Sig} :
    r ∈ (checkTreeLeafs msgs rows vec).1 ↔
      (∃ row ∈ rows, ∃ sig seq, (collectLeafs ∅ msgs).lookup row.leafIdx = some (sig, seq) ∧
        row.seq ≠ u64AsI64 seq ∧ r = .invalidSeq row.leafIdx row.seq seq sig) ∨
      (∃ row ∈ rows, (collectLeafs ∅ msgs).lookup row.leafIdx = none ∧
        r = .notFoundInBlockchain row.leafIdx) ∨
      ∃ i sig q, (i, sig, q) ∈ vec ∧ r = .notFoundInDb i q sig := by
  simp only [checkTreeLeafs, List.mem_append, checkDbRows_fst rows hrows, List.mem_flatMap,
    mem_checkDbRow_fst, and_or_left, exists_or, or_assoc, List.mem_map, Prod.exists]
  simp only [eq_comm (b := r)]

variable (hrows : (rows.map AssetMaxSeq.leafIdx).Nodup)
include hrows

/-- `invalid seq` is reported for a row whose entry holds a seq that differs `as i64`. -/
theorem invalidSeq_mem_checkTreeLeafs {i d : Int} {q : Nat} {sig : Sig} :
    .invalidSeq i d q sig ∈ (checkTreeLeafs msgs rows vec).1 ↔
      ⟨i, d⟩ ∈ rows ∧ (collectLeafs ∅ msgs).lookup i = some (sig, q) ∧ d ≠ u64AsI64 q := by
  rw [mem_checkTreeLeafs_fst hrows]
  constructor
  · rintro (⟨row, hrow, sig', seq, hl, hne, he⟩ | ⟨_, _, _, he⟩ | ⟨_, _, _, _, he⟩) <;>
      simp only [LeafReport.invalidSeq.injEq, reduceCtorEq] at he
    obtain ⟨rfl, rfl, rfl, rfl⟩ := he
    exact ⟨hrow, hl, hne⟩
  · rintro ⟨hrow, hl, hne⟩
    exact .inl ⟨_, hrow, _, _, hl, hne, rfl⟩

/-- `not found in blockchain` is reported for a row with no entry. -/
theorem notFoundInBlockchain_mem_checkTreeLeafs {i : Int} :
    .notFoundInBlockchain i ∈ (checkTreeLeafs msgs rows vec).1 ↔
      i ∈ rows.map AssetMaxSeq.leafIdx ∧ (collectLeafs ∅ msgs).lookup i = none := by
  rw [mem_checkTreeLeafs_fst hrows]
  constructor
  · rintro (⟨_, _, _, _, _, _, he⟩ | ⟨row, hrow, hl, he⟩ | ⟨_, _, _, _, he⟩) <;>
      simp only [LeafReport.notFoundInBlockchain.injEq, reduceCtorEq] at he
    subst he
    exact ⟨List.mem_map_of_mem _ hrow, hl⟩
  · rintro ⟨hi, hl⟩
    obtain ⟨row, hrow, rfl⟩ := List.mem_map.mp hi
    exact .inr (.inl ⟨row, hrow, hl, rfl⟩)

/-- `not found in db` is reported for a leftover entry. -/
theorem notFoundInDb_mem_checkTreeLeafs {i : Int} {q : Nat} {sig : Sig} :
    .notFoundInDb i q sig ∈ (checkTreeLeafs msgs rows vec).1 ↔ (i, sig, q) ∈ vec := by
  rw [mem_checkTreeLeafs_fst hrows]
  constructor
  · rintro (⟨_, _, _, _, _, _, he⟩ | ⟨_, _, _, he⟩ | ⟨i', sig', q', hv, he⟩) <;>
      simp only [LeafReport.notFoundInDb.injEq, reduceCtorEq] at he
    obtain ⟨rfl, rfl, rfl⟩ := he
    exact hv
  · exact fun hv => .inr (.inr ⟨_, _, _, hv, rfl⟩)

/-- One line is written per `not found in db` report, with its signature. -/
theorem checkTreeLeafs_snd :
    (checkTreeLeafs msgs rows vec).2 = (checkTreeLeafs msgs rows vec).1.filterMap LeafReport.dbMissSig := by
  have hnone : ∀ r ∈ (checkDbRows (collectLeafs ∅ msgs) rows).1, r.dbMissSig = none :=
    fun r hr => by
      rw [checkDbRows_fst rows hrows, List.mem_flatMap] at hr
      obtain ⟨row, -, hr⟩ := hr
      rcases mem_checkDbRow_fst.mp hr with ⟨_, _, -, -, rfl⟩ | ⟨-, rfl⟩ <;> rfl
  simp only [checkTreeLeafs, List.filterMap_append, List.filterMap_eq_nil_iff.mpr hnone,
    List.nil_append, List.filterMap_map]
  exact (congrFun (List.filterMap_eq_map fun e => e.2.1) vec).symm

/-- No index is reported twice: a row's reports are about its own index, and the leftovers are
the map's entries at the indices no row names. -/
theorem checkTreeLeafs_ids_nodup
    (hvec : vec.Perm (mapEntries (checkDbRows (collectLeafs ∅ msgs) rows).2)) :
    ((checkTreeLeafs msgs rows vec).1.map LeafReport.leafIdx).Nodup := by
  have hrep := flatMap_checkDbRow_ids_sublist (collectLeafs ∅ msgs) rows
  rw [← checkDbRows_fst rows hrows] at hrep
  have hvids : (vec.map Prod.fst).Nodup := (hvec.map Prod.fst).nodup_iff.mpr
    (mapEntries_keys_nodup _)
  simp only [checkTreeLeafs, List.map_append, List.map_map]
  refine List.nodup_append.mpr ⟨hrep.nodup hrows, ?_, fun a ha hb => ?_⟩
  · simpa [Function.comp_def, LeafReport.leafIdx] using hvids
  · obtain ⟨⟨i, sig, q⟩, he, rfl⟩ := List.mem_map.mp hb
    exact ((mem_of_perm_checkDbRows_snd hvec).mp he).1 (hrep.subset ha)

omit hrows

/-- For every list of messages, in any arrival order, every list of database rows with pairwise
distinct leaf indices, and every iteration order of the leftovers: `check_tree_leafs` reports
`invalid seq` for exactly the rows whose seq differs, `as i64`, from the largest seq observed at
their index, `not found in blockchain` for exactly the rows whose index was never observed, and
`not found in db`, with one line written, for exactly the observed indices no row names; no index
twice. -/
theorem checkTreeLeafs_reports (msgs : List (Nat × Sig × Option (List (Nat × Option LeafNode))))
    (rows : List AssetMaxSeq) (hrows : (rows.map AssetMaxSeq.leafIdx).Nodup)
    (vec : List (Int × Sig × Nat))
    (hvec : vec.Perm (mapEntries (checkDbRows (collectLeafs ∅ msgs) rows).2)) :
    LeafChecks (observations msgs) rows (checkTreeLeafs msgs rows vec).1
      (checkTreeLeafs msgs rows vec).2 := by
  have hI : LeafsInv (observations msgs) (collectLeafs ∅ msgs) := by
    simpa using leafsInv_empty.collectLeafs msgs
  refine ⟨fun i d q sig h => ?invalid_mem, fun row hrow sig q hmax hne => ?invalid_of,
    fun i => ?notFound_iff, fun i q sig h => ?notFoundInDb_mem, fun o ho hno => ?notFoundInDb_of,
    checkTreeLeafs_snd hrows, checkTreeLeafs_ids_nodup hrows hvec⟩
  case invalid_mem =>
    obtain ⟨hrow, hl, hne⟩ := (invalidSeq_mem_checkTreeLeafs hrows).mp h
    exact ⟨hrow, hI.lookup_some _ _ _ hl, hne⟩
  case invalid_of =>
    obtain ⟨sig', q', hl⟩ := hI.lookup_of_mem hmax.1
    obtain rfl := hmax.seq_eq (hI.lookup_some _ _ _ hl)
    exact ⟨sig', (invalidSeq_mem_checkTreeLeafs hrows).mpr ⟨hrow, hl, hne⟩⟩
  case notFound_iff =>
    rw [notFoundInBlockchain_mem_checkTreeLeafs hrows, hI.lookup_eq_none_iff]
  case notFoundInDb_mem =>
    obtain ⟨hi, hl⟩ := (mem_of_perm_checkDbRows_snd hvec).mp ((notFoundInDb_mem_checkTreeLeafs hrows).mp h)
    exact ⟨hi, hI.lookup_some _ _ _ hl⟩
  case notFoundInDb_of =>
    obtain ⟨sig, q, hl⟩ := hI.lookup_of_mem ho
    exact ⟨q, sig, (notFoundInDb_mem_checkTreeLeafs hrows).mpr ((mem_of_perm_checkDbRows_snd hvec).mpr ⟨hno, hl⟩)⟩

/-- Leaf `1` is observed with seqs `3` and `5` and stored with `5`, leaf `2` is observed only,
and leaf `3` is stored only. -/
theorem checkTreeLeafs_reports_example :
    ([⟨1, 5⟩, ⟨3, 7⟩].map AssetMaxSeq.leafIdx).Nodup ∧
      [(2, "a", 4)].Perm (mapEntries (checkDbRows (collectLeafs ∅
        [(0, "a", some [(3, some ⟨1⟩), (4, some ⟨2⟩)]), (1, "b", some [(5, some ⟨1⟩)])])
        [⟨1, 5⟩, ⟨3, 7⟩]).2) ∧
      checkTreeLeafs [(0, "a", some [(3, some ⟨1⟩), (4, some ⟨2⟩)]), (1, "b", some [(5, some ⟨1⟩)])]
        [⟨1, 5⟩, ⟨3, 7⟩] [(2, "a", 4)] = ([.notFoundInBlockchain 3, .notFoundInDb 2 4 "a"], ["a"]) ∧
      LeafChecks (observations
          [(0, "a", some [(3, some ⟨1⟩), (4, some ⟨2⟩)]), (1, "b", some [(5, some ⟨1⟩)])])
        [⟨1, 5⟩, ⟨3, 7⟩]
        (checkTreeLeafs [(0, "a", some [(3, some ⟨1⟩), (4, some ⟨2⟩)]),
          (1, "b", some [(5, some ⟨1⟩)])] [⟨1, 5⟩, ⟨3, 7⟩] [(2, "a", 4)]).1
        (checkTreeLeafs [(0, "a", some [(3, some ⟨1⟩), (4, some ⟨2⟩)]),
          (1, "b", some [(5, some ⟨1⟩)])] [⟨1, 5⟩, ⟨3, 7⟩] [(2, "a", 4)]).2 :=
  ⟨by decide, .of_eq rfl, rfl, checkTreeLeafs_reports _ _ (by decide) _ (.of_eq rfl)⟩

/-- A leaf observed with seq `2^64 - 1` and stored with seq `-1`: `seq as i64` is `-1`, so
nothing is reported although the two seqs differ. -/
theorem checkTreeLeafs_misses_wrapped_seq :
    ((2 ^ 64 - 1 : Nat) : Int) ≠ -1 ∧
      mapEntries (checkDbRows (collectLeafs ∅ [(0, "a", some [(2 ^ 64 - 1, some ⟨5⟩)])])
        [⟨5, -1⟩]).2 = [] ∧
      checkTreeLeafs [(0, "a", some [(2 ^ 64 - 1, some ⟨5⟩)])] [⟨5, -1⟩] [] = ([], []) :=
  ⟨by decide, rfl, rfl⟩

end Reports

end TreeRepair
