import TreeRepair.Proofs.FixTree

/-!
# When `check_tree` reports a healthy tree

`check_tree` logs "Tree is up-to-date!" when `max(seq)` equals the on-chain seq, and "Tree has no
gaps!" when `max(seq)` equals `count(distinct seq)`. For an index `S` of non-negative seqs and an
on-chain seq `n`, it logs both exactly when `n < 2^63`, `n = max S` and `|S| = n`
(`checkTree_verdict`). Without seq `0`, counting makes that `S = [1, n]`. With seq `0`, the
complete index `{0, …, n}` has `n + 1` elements and is reported with gaps, while an index that
misses exactly one seq of `[1, n - 1]` is reported without (`checkTree_misreports_seq_zero`).
-/

namespace TreeRepair

/-- The log line "Tree is up-to-date!". -/
def TreeLog.isUpToDate : TreeLog → Bool
  | .upToDate _ => true
  | _ => false

/-- `check_tree` logged both "Tree is up-to-date!" and "Tree has no gaps!". -/
def reportsHealthy (logs : List TreeLog) : Bool :=
  logs.any TreeLog.isUpToDate && logs.contains (.noGaps none)

@[simp] theorem TreeLog.isUpToDate_noGaps (i : Option Int) : (noGaps i).isUpToDate = false := rfl
@[simp] theorem TreeLog.isUpToDate_hasGaps (m c : Int) : (hasGaps m c).isUpToDate = false := rfl
@[simp] theorem TreeLog.isUpToDate_missingSeqRanges (r : List (Int × Int)) :
    (missingSeqRanges r).isUpToDate = false := rfl

theorem isUpToDate_tipLog {s : Int} {item : MaxSeqItem} :
    (tipLog s item).isUpToDate = true ↔ item.maxSeq = s := by
  unfold tipLog
  rcases h : compare item.maxSeq s with _ | _ | _ <;>
    simp_all [TreeLog.isUpToDate, compare_lt_iff_lt, compare_gt_iff_gt, compare_eq_iff_eq] <;> omega

theorem noGaps_ne_tipLog {s : Int} {item : MaxSeqItem} {i : Option Int} :
    TreeLog.noGaps i ≠ tipLog s item := by
  unfold tipLog; split <;> simp

section Logs

variable {order : RowOrder} {rows : List ClAudit} {n : Nat}

/-- An on-chain seq of `2^63` or more makes `try_into().unwrap()` panic. -/
theorem readTreeSeqs_of_ge (hn : 2 ^ 63 ≤ n) :
    readTreeSeqs (.ok n) rows = .panic "called Result::unwrap() on an Err value" := by
  simp [readTreeSeqs, Outcome.withContext, Outcome.unwrap, u64TryIntoI64_eq_none.mpr hn]

/-- The reads panic exactly on an on-chain seq that `try_into().unwrap()` refuses. -/
theorem isPanic_readTreeSeqs {onchain : Except String Nat} :
    (readTreeSeqs onchain rows).isPanic = true ↔ ∃ n, onchain = .ok n ∧ 2 ^ 63 ≤ n := by
  simp [readTreeSeqs, Outcome.isPanic_bind, Outcome.isPanic_unwrap, u64TryIntoI64_eq_none]

/-- `check_tree` panics exactly when its reads do: nothing after them panics. -/
theorem isPanic_checkTree {onchain : Except String Nat} :
    (checkTree order onchain rows).2.isPanic = (readTreeSeqs onchain rows).isPanic := by
  unfold checkTree inspectTree
  rcases readTreeSeqs onchain rows with ⟨s, item⟩ | _ | _
  · by_cases h : item.maxSeq = item.cntSeq <;> simp [h]
  all_goals rfl

/-- A read that fails logs nothing. -/
theorem checkTree_fst_of_not_ok (h : ∀ p, readTreeSeqs (.ok n) rows ≠ .ok p) :
    (checkTree order (.ok n) rows).1 = [] := by
  unfold checkTree inspectTree
  rcases hr : readTreeSeqs (.ok n) rows with p | _ | _
  · exact absurd hr (h p)
  all_goals rfl

/-- Once both reads succeed, "up-to-date" and "no gaps" are logged exactly when `max(seq)` is the
on-chain seq and the number of distinct seqs. -/
theorem reportsHealthy_checkTree_of_ok {s : Int} {item : MaxSeqItem}
    (h : readTreeSeqs (.ok n) rows = .ok (s, item)) :
    reportsHealthy (checkTree order (.ok n) rows).1 = true ↔ item.maxSeq = s ∧ item.maxSeq = item.cntSeq := by
  by_cases hc : item.maxSeq = item.cntSeq
  · simp [checkTree, inspectTree, h, hc, reportsHealthy, isUpToDate_tipLog]
  · simp [checkTree, inspectTree, h, hc, reportsHealthy, noGaps_ne_tipLog]

/-- "up-to-date" and "no gaps" are logged exactly when `n` fits in `i64`, is the largest indexed
seq, and is the number of indexed seqs. -/
theorem reportsHealthy_checkTree_iff :
    reportsHealthy (checkTree order (.ok n) rows).1 = true ↔
      n < 2 ^ 63 ∧ (n : Int) ∈ indexedSeqs rows ∧ (∀ s ∈ indexedSeqs rows, s ≤ n) ∧
        ((indexedSeqs rows).card : Int) = n := by
  by_cases hn : n < 2 ^ 63
  · cases hm : (rows.map ClAudit.seq).max? with
    | none =>
      rw [List.max?_eq_none_iff, List.map_eq_nil_iff] at hm
      subst hm
      have hnil : (checkTree order (.ok n) []).1 = [] :=
        checkTree_fst_of_not_ok (by simp [readTreeSeqs_of_nil hn])
      simp [hnil, reportsHealthy, indexedSeqs]
    | some m =>
      have hmem := List.max?_mem max_choice hm
      have hmax := (List.max?_le_iff (fun _ _ _ => max_le_iff) hm).mp le_rfl
      rw [reportsHealthy_checkTree_of_ok (readTreeSeqs_ok hn hm)]
      simp only [indexedSeqs, List.mem_toFinset]
      constructor
      · rintro ⟨rfl, hc⟩
        exact ⟨hn, hmem, hmax, hc.symm⟩
      · rintro ⟨-, hn', hle, hc⟩
        have e : m = n := le_antisymm (hle _ hmem) (hmax _ hn')
        exact ⟨e, by omega⟩
  · have hnil : (checkTree order (.ok n) rows).1 = [] :=
      checkTree_fst_of_not_ok (by simp [readTreeSeqs_of_ge (Nat.le_of_not_lt hn)])
    rw [hnil]
    exact ⟨fun h => by simp [reportsHealthy] at h, fun h => absurd h.1 hn⟩

end Logs

/-! ## Counting the indexed seqs -/

section Counting

variable {S : Finset Int} {n : Int}

/-- Positive integers up to `n`, `n` of them: all of `[1, n]`. -/
theorem eq_Icc_one_of_card (hpos : ∀ s ∈ S, 1 ≤ s) (hle : ∀ s ∈ S, s ≤ n) (hc : (S.card : Int) = n) :
    S = Finset.Icc 1 n :=
  Finset.eq_of_subset_of_card_le (fun s hs => Finset.mem_Icc.mpr ⟨hpos s hs, hle s hs⟩)
    (by rw [Int.card_Icc]; omega)

/-- Non-negative integers up to `n`, `n` of them: all of `[0, n]` but one. -/
theorem exists_eq_erase_of_card (hnn : ∀ s ∈ S, 0 ≤ s) (hle : ∀ s ∈ S, s ≤ n) (hn : 0 ≤ n)
    (hc : (S.card : Int) = n) : ∃ j ∈ Finset.Icc 0 n, S = (Finset.Icc 0 n).erase j := by
  have hsub : S ⊆ Finset.Icc 0 n := fun s hs => Finset.mem_Icc.mpr ⟨hnn s hs, hle s hs⟩
  have hone : (Finset.Icc 0 n \ S).card = 1 := by
    rw [Finset.card_sdiff hsub, Int.card_Icc]; omega
  obtain ⟨j, hj⟩ := Finset.card_eq_one.mp hone
  have hjm : j ∈ Finset.Icc 0 n \ S := hj ▸ Finset.mem_singleton_self j
  refine ⟨j, (Finset.mem_sdiff.mp hjm).1, ?_⟩
  rw [← Finset.sdiff_singleton_eq_erase, ← hj, Finset.sdiff_sdiff_eq_self hsub]

theorem card_Icc_erase {j : Int} (hj : j ∈ Finset.Icc 0 n) :
    (((Finset.Icc 0 n).erase j).card : Int) = n := by
  rw [Finset.card_erase_of_mem hj, Int.card_Icc]
  obtain ⟨h0, hn⟩ := Finset.mem_Icc.mp hj
  omega

/-- Positive integers: the largest is `n` and there are `n` of them exactly when they are
`[1, n]` for some `n ≥ 1`. -/
theorem max_card_iff_Icc_one (hpos : ∀ s ∈ S, 1 ≤ s) :
    (n ∈ S ∧ (∀ s ∈ S, s ≤ n) ∧ (S.card : Int) = n) ↔
      1 ≤ n ∧ Finset.Icc 1 n ⊆ S ∧ ∀ s ∈ S, s ≤ n := by
  constructor
  · rintro ⟨hmem, hle, hc⟩
    rw [eq_Icc_one_of_card hpos hle hc]
    exact ⟨hpos n hmem, subset_rfl, fun s hs => (Finset.mem_Icc.mp hs).2⟩
  · rintro ⟨h1, hsub, hle⟩
    have heq : S = Finset.Icc 1 n :=
      Finset.Subset.antisymm (fun s hs => Finset.mem_Icc.mpr ⟨hpos s hs, hle s hs⟩) hsub
    refine ⟨hsub (Finset.mem_Icc.mpr ⟨h1, le_rfl⟩), hle, ?_⟩
    rw [heq, Int.card_Icc]; omega

/-- Non-negative integers with `0` among them: the largest is `n` and there are `n` of them
exactly when they are `[0, n]` less one integer of `[1, n - 1]`. -/
theorem max_card_iff_Icc_erase (hnn : ∀ s ∈ S, 0 ≤ s) (h0 : 0 ∈ S) :
    (n ∈ S ∧ (∀ s ∈ S, s ≤ n) ∧ (S.card : Int) = n) ↔
      ∃ j : Int, 1 ≤ j ∧ j < n ∧ S = (Finset.Icc 0 n).erase j := by
  constructor
  · rintro ⟨hmem, hle, hc⟩
    obtain ⟨j, hj, heq⟩ := exists_eq_erase_of_card hnn hle (hle 0 h0) hc
    have hj0 : j ≠ 0 := fun e => by rw [heq, e] at h0; simp at h0
    have hjn : j ≠ n := fun e => by rw [heq, e] at hmem; simp at hmem
    have := Finset.mem_Icc.mp hj
    exact ⟨j, by omega, by omega, heq⟩
  · rintro ⟨j, h1, h2, rfl⟩
    have hj : j ∈ Finset.Icc 0 n := Finset.mem_Icc.mpr ⟨by omega, by omega⟩
    refine ⟨?_, fun s hs => (Finset.mem_Icc.mp (Finset.mem_of_mem_erase hs)).2, card_Icc_erase hj⟩
    rw [Finset.mem_erase, Finset.mem_Icc]; omega

end Counting

/-- What `check_tree` reports for an index holding the non-negative seqs `S` of `rows` and an
on-chain seq `n`. -/
structure CheckTreeVerdict (order : RowOrder) (rows : List ClAudit) (n : Nat) : Prop where
  /-- "up-to-date" and "no gaps" exactly when `n < 2^63`, `n = max S` and `|S| = n`. -/
  healthy_iff : reportsHealthy (checkTree order (.ok n) rows).1 = true ↔
    n < 2 ^ 63 ∧ (n : Int) ∈ indexedSeqs rows ∧ (∀ s ∈ indexedSeqs rows, s ≤ n) ∧
      ((indexedSeqs rows).card : Int) = n
  /-- Without seq `0`: exactly when `S` holds `[1, n]` and nothing above `n`, for `1 ≤ n < 2^63`. -/
  healthy_iff_of_zero_not_mem : (0 : Int) ∉ indexedSeqs rows →
    (reportsHealthy (checkTree order (.ok n) rows).1 = true ↔
      n < 2 ^ 63 ∧ 1 ≤ n ∧ Finset.Icc 1 (n : Int) ⊆ indexedSeqs rows ∧
        ∀ s ∈ indexedSeqs rows, s ≤ n)
  /-- With seq `0`: exactly when `S` is `[0, n]` without one seq of `[1, n - 1]`. -/
  healthy_iff_of_zero_mem : (0 : Int) ∈ indexedSeqs rows →
    (reportsHealthy (checkTree order (.ok n) rows).1 = true ↔
      n < 2 ^ 63 ∧ ∃ j : Int, 1 ≤ j ∧ j < n ∧ indexedSeqs rows = (Finset.Icc 0 (n : Int)).erase j)

/-- For every index of non-negative seqs, every on-chain seq `n` and every order of the database's
rows, when `check_tree` reports the tree up to date and without gaps. -/
theorem checkTree_verdict (order : RowOrder) (rows : List ClAudit) (hnn : ∀ r ∈ rows, 0 ≤ r.seq)
    (n : Nat) :
    CheckTreeVerdict order rows n := by
  have hS : ∀ s ∈ indexedSeqs rows, 0 ≤ s := fun s hs => by
    obtain ⟨r, hr, rfl⟩ := List.mem_map.mp (List.mem_toFinset.mp hs)
    exact hnn r hr
  refine ⟨reportsHealthy_checkTree_iff, fun h0 => ?_, fun h0 => ?_⟩
  · have hpos : ∀ s ∈ indexedSeqs rows, 1 ≤ s := fun s hs => by
      have := hS s hs
      have : s ≠ 0 := fun e => h0 (e ▸ hs)
      omega
    have h1 : (1 : Int) ≤ n ↔ 1 ≤ n := by omega
    rw [reportsHealthy_checkTree_iff, max_card_iff_Icc_one hpos, h1]
  · rw [reportsHealthy_checkTree_iff, max_card_iff_Icc_erase hS h0]

/-- The index `{0, 1, 2}` under on-chain seq `2`: it holds all of `[1, 2]`, yet `count = 3 ≠ 2`,
and `check_tree` reports gaps. -/
theorem checkTree_verdict_example :
    (∀ r ∈ [⟨0, "a"⟩, ⟨1, "b"⟩, ⟨2, "c"⟩], 0 ≤ ClAudit.seq r) ∧
      reportsHealthy (checkTree .series (.ok 2) [⟨0, "a"⟩, ⟨1, "b"⟩, ⟨2, "c"⟩]).1 = false ∧
      CheckTreeVerdict .series [⟨0, "a"⟩, ⟨1, "b"⟩, ⟨2, "c"⟩] 2 :=
  ⟨by decide, by decide, checkTree_verdict .series _ (by decide) 2⟩

/-- Two indexes that start at the initialization's seq `0`. `{0, 1}` under on-chain seq `1` holds
all of `[1, 1]` and nothing above, yet is reported with gaps; `{0, 2}` under on-chain seq `2`
misses `1`, yet is reported up to date and without gaps. -/
theorem checkTree_misreports_seq_zero :
    (Finset.Icc 1 1 ⊆ indexedSeqs [⟨0, "a"⟩, ⟨1, "b"⟩] ∧
      (∀ s ∈ indexedSeqs [⟨0, "a"⟩, ⟨1, "b"⟩], s ≤ 1) ∧
      reportsHealthy (checkTree .series (.ok 1) [⟨0, "a"⟩, ⟨1, "b"⟩]).1 = false) ∧
    ((1 : Int) ∉ indexedSeqs [⟨0, "a"⟩, ⟨2, "c"⟩] ∧
      reportsHealthy (checkTree .series (.ok 2) [⟨0, "a"⟩, ⟨2, "c"⟩]).1 = true) :=
  ⟨⟨by decide, by decide, by decide⟩, by decide, by decide⟩

end TreeRepair
