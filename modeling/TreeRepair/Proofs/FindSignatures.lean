import TreeRepair.FindSignatures

/-!
# What `find_signatures_for_missing_seq_range` sends

The paging loop is right: over a history without repeated signatures, with any bounds and any
positive page size, it ends and sends exactly what one call without a limit would return, each
signature once (`findSignaturesLoop_eq_window`); a search whose calls fail sends a prefix of that
(`findSignaturesForMissingSeqRangeOrErr_prefix`). The bounds are not: they are the signatures of
the nearest indexed transactions, and both are exclusive, so a transaction that emitted a missing
seq together with an indexed one bounds the window it should be in
(`findSignatures_misses_bounding_tx`).
-/

namespace TreeRepair

section Lists

variable {α : Type}

/-- In a list without repeats, `dropWhile (· ≠ l[i])` stops at `i`. -/
theorem dropWhile_ne_getElem [DecidableEq α] {l : List α} (hl : l.Nodup) {i : Nat}
    (hi : i < l.length) : l.dropWhile (fun s => s ≠ l[i]) = l.drop i := by
  induction l generalizing i with
  | nil => simp at hi
  | cons a l ih =>
    cases i with
    | zero => simp [List.dropWhile_cons]
    | succ j =>
      have hj : j < l.length := by simpa using hi
      have hne : a ≠ l[j] := fun h => (List.nodup_cons.mp hl).1 (h ▸ List.getElem_mem hj)
      simp only [List.getElem_cons_succ, List.dropWhile_cons, ne_eq, hne, not_false_eq_true,
        decide_True, if_true, List.drop_succ_cons]
      exact ih (List.nodup_cons.mp hl).2 hj

/-- ... and `takeWhile (· ≠ l[i])` stops before it. -/
theorem takeWhile_ne_getElem [DecidableEq α] {l : List α} (hl : l.Nodup) {i : Nat}
    (hi : i < l.length) : l.takeWhile (fun s => s ≠ l[i]) = l.take i := by
  have h := List.takeWhile_append_dropWhile (fun s => decide (s ≠ l[i])) l
  rw [dropWhile_ne_getElem hl hi] at h
  exact List.append_cancel_right (h.trans (List.take_append_drop i l).symm)

/-- Dropping from a `takeWhile` within its length drops from the list. -/
theorem drop_takeWhile {p : α → Bool} {l : List α} {m : Nat} (hm : m ≤ (l.takeWhile p).length) :
    (l.takeWhile p).drop m = (l.drop m).takeWhile p := by
  induction l generalizing m with
  | nil => simp
  | cons a l ih =>
    cases m with
    | zero => simp
    | succ m =>
      by_cases hp : p a
      · simp only [List.takeWhile_cons, hp, if_true, List.length_cons] at hm ⊢
        exact ih (by omega)
      · simp [List.takeWhile_cons, hp] at hm

end Lists

section Loop

variable {Sig : Type}

theorem findSignaturesLoop_succ (page : Option Sig → List Sig) (fuel : Nat) (before : Option Sig) :
    findSignaturesLoop page (fuel + 1) before = match (page before).getLast? with
      | none => some []
      | some last => (findSignaturesLoop page fuel (some last)).map (page before ++ ·) := by
  simp only [findSignaturesLoop, findSignaturesLoopOrErr]
  cases (page before).getLast? <;> simp [Option.map_map, Function.comp_def]

/-- Where every call that answers gives what `good` gives, the loop returns whenever the loop over
`good` does, and sends a prefix of what that one sends: all of it when it returns `Ok`. -/
theorem findSignaturesLoopOrErr_prefix {page : Option Sig → Except String (List Sig)}
    {good : Option Sig → List Sig} (hpage : ∀ b sigs, page b = .ok sigs → sigs = good b) :
    ∀ {fuel before full}, findSignaturesLoop good fuel before = some full →
      ∃ sent res, findSignaturesLoopOrErr page fuel before = some (sent, res) ∧ sent <+: full ∧
        (res = .ok () → sent = full)
  | 0, _, _, h => by cases h
  | fuel + 1, before, full, h => by
    rw [findSignaturesLoop_succ] at h
    rcases hp : page before with e | sigs
    · exact ⟨[], .error e, by simp [findSignaturesLoopOrErr, hp], List.nil_prefix, nofun⟩
    · obtain rfl := hpage before sigs hp
      cases hl : (good before).getLast? with
      | none =>
        rw [hl] at h
        cases h
        exact ⟨[], .ok (), by simp [findSignaturesLoopOrErr, hp, hl], List.nil_prefix, fun _ => rfl⟩
      | some last =>
        rw [hl] at h
        obtain ⟨full', hfull', rfl⟩ := Option.map_eq_some'.mp h
        obtain ⟨sent, res, hloop, hpre, hok⟩ := findSignaturesLoopOrErr_prefix hpage hfull'
        exact ⟨good before ++ sent, res, by simp [findSignaturesLoopOrErr, hp, hl, hloop],
          (List.prefix_append_right_inj _).mpr hpre, fun h => by rw [hok h]⟩

end Loop

variable {Sig : Type} [DecidableEq Sig] {hist : List (HistTx Sig)}

/-- With no repeated signature, the signatures older than the `j`-th newest are those after it. -/
theorem olderThan_getElem (hN : (newestFirst hist).Nodup) {j : Nat}
    (hj : j < (newestFirst hist).length) :
    olderThan hist (some (newestFirst hist)[j]) = (newestFirst hist).drop (j + 1) := by
  rw [olderThan, dropWhile_ne_getElem hN hj, List.drop_drop]

/-- ... and those newer than it are those before it. -/
theorem newerThan_getElem (hN : (newestFirst hist).Nodup) {j : Nat}
    (hj : j < (newestFirst hist).length) :
    newerThan hist (some (newestFirst hist)[j]) = (newestFirst hist).take j :=
  takeWhile_ne_getElem hN hj

/-- What the RPC pages through is always a suffix of the history, newest first. -/
theorem olderThan_eq_drop (hist : List (HistTx Sig)) (before : Option Sig) :
    ∃ i, olderThan hist before = (newestFirst hist).drop i := by
  cases before with
  | none => exact ⟨0, rfl⟩
  | some b =>
    refine ⟨((newestFirst hist).takeWhile fun s => s ≠ b).length + 1, ?_⟩
    have h := List.drop_left ((newestFirst hist).takeWhile fun s => s ≠ b)
      ((newestFirst hist).dropWhile fun s => s ≠ b)
    rw [List.takeWhile_append_dropWhile] at h
    rw [olderThan, ← h, List.drop_drop]

/-- The paging loop from a suffix of the history: with more fuel than signatures left, it sends
the suffix's signatures newer than `until`, in order. -/
theorem findSignaturesLoop_of_drop (hN : (newestFirst hist).Nodup) {until_ : Option Sig}
    {limit : Nat} (hl : 0 < limit) :
    ∀ fuel i before, olderThan hist before = (newestFirst hist).drop i →
      (newestFirst hist).length - i < fuel →
      findSignaturesLoop (fun b => getSignaturesForAddress hist b until_ limit) fuel before =
        some (((newestFirst hist).drop i).takeWhile fun s => s ∈ newerThan hist until_)
  | 0, _, _, _, hf => absurd hf (Nat.not_lt_zero _)
  | fuel + 1, i, before, hb, hf => by
    set N := newestFirst hist
    set W := (N.drop i).takeWhile fun s => s ∈ newerThan hist until_
    have hpage : getSignaturesForAddress hist before until_ limit = W.take limit := by
      rw [getSignaturesForAddress, hb]
    have hWle : W.length ≤ N.length - i := by
      simpa using (List.takeWhile_prefix (l := N.drop i) _).length_le
    rw [findSignaturesLoop_succ, hpage]
    cases hlast : (W.take limit).getLast? with
    | none =>
      rw [List.getLast?_eq_none_iff, List.take_eq_nil_iff] at hlast
      rcases hlast with h | h
      · omega
      · rw [h]
    | some last =>
      have hm : (W.take limit).length = min limit W.length := List.length_take _ _
      have hm0 : 0 < (W.take limit).length := by
        cases h : W.take limit with
        | nil => simp [h] at hlast
        | cons _ _ => simp
      have hpre : W = (N.drop i).take W.length := List.prefix_iff_eq_take.mp (List.takeWhile_prefix _)
      rw [List.getLast?_eq_getElem?] at hlast
      set m := (W.take limit).length
      rw [List.getElem?_take_of_lt (by omega), hpre, List.getElem?_take_of_lt (by omega),
        List.getElem?_drop, List.getElem?_eq_some_iff] at hlast
      obtain ⟨hlt, rfl⟩ := hlast
      have holder : olderThan hist (some N[i + (m - 1)]) = N.drop (i + m) := by
        rw [olderThan_getElem hN hlt]; congr 1; omega
      dsimp only
      rw [findSignaturesLoop_of_drop hN hl fuel (i + m) _ holder
        (by show N.length - (i + m) < fuel; omega), Option.map_some']
      have hdrop : (N.drop (i + m)).takeWhile (fun s => s ∈ newerThan hist until_) = W.drop limit := by
        rw [← List.drop_drop, ← drop_takeWhile (show m ≤ W.length by omega)]
        rcases Nat.le_total limit W.length with h | h
        · rw [show m = limit by omega]
        · rw [show m = W.length by omega, List.drop_length, List.drop_eq_nil_of_le h]
      rw [hdrop, List.take_append_drop]

/-- With more fuel than transactions, the paging loop sends what one call without a limit
returns. -/
theorem findSignaturesLoop_eq_unbounded (hN : (newestFirst hist).Nodup) {until_ : Option Sig}
    {limit fuel : Nat} (hl : 0 < limit) (hf : hist.length < fuel) (before : Option Sig) :
    findSignaturesLoop (fun b => getSignaturesForAddress hist b until_ limit) fuel before =
      some (getSignaturesForAddress hist before until_ hist.length) := by
  have hlen : (newestFirst hist).length = hist.length := by simp [newestFirst]
  obtain ⟨i, hi⟩ := olderThan_eq_drop hist before
  have hwin : getSignaturesForAddress hist before until_ hist.length =
      ((newestFirst hist).drop i).takeWhile fun s => s ∈ newerThan hist until_ := by
    rw [getSignaturesForAddress, hi]
    refine List.take_of_length_le (le_trans (List.takeWhile_prefix _).length_le ?_)
    simp [hlen]
  rw [hwin]
  exact findSignaturesLoop_of_drop hN hl fuel i before hi (by omega)

/-- An answer of `getSignaturesForAddress` is part of what the RPC pages through. -/
theorem getSignaturesForAddress_sublist (hist : List (HistTx Sig)) (before until_ : Option Sig)
    (limit : Nat) : (getSignaturesForAddress hist before until_ limit).Sublist (olderThan hist before) :=
  (List.take_sublist _ _).trans (List.takeWhile_prefix _).sublist

/-- Every answer of `getSignaturesForAddress` is a run of the history: no signature twice. -/
theorem getSignaturesForAddress_nodup (hN : (newestFirst hist).Nodup) (before until_ : Option Sig)
    (limit : Nat) : (getSignaturesForAddress hist before until_ limit).Nodup := by
  obtain ⟨i, hi⟩ := olderThan_eq_drop hist before
  exact (getSignaturesForAddress_sublist hist before until_ limit).nodup
    (hi ▸ hN.sublist (List.drop_sublist _ _))

/-- For every history without repeated signatures, all bounds, every positive page size and more
RPC calls allowed than transactions: the paging loop sends what one call without a limit returns,
each signature once. -/
theorem findSignaturesLoop_eq_window (hist : List (HistTx Sig)) (hnd : (hist.map HistTx.sig).Nodup)
    (before until_ : Option Sig) (limit : Nat) (hl : 0 < limit) (fuel : Nat)
    (hf : hist.length < fuel) :
    findSignaturesLoop (fun b => getSignaturesForAddress hist b until_ limit) fuel before =
        some (getSignaturesForAddress hist before until_ hist.length) ∧
      (getSignaturesForAddress hist before until_ hist.length).Nodup := by
  have hN : (newestFirst hist).Nodup := by simpa [newestFirst, List.map_reverse] using hnd
  exact ⟨findSignaturesLoop_eq_unbounded hN hl hf before,
    getSignaturesForAddress_nodup hN before until_ hist.length⟩

/-- Three transactions paged one at a time, with no bounds. -/
theorem findSignaturesLoop_eq_window_example :
    (([⟨"A", [1]⟩, ⟨"B", [2, 3]⟩, ⟨"C", [4]⟩] : List (HistTx String)).map HistTx.sig).Nodup ∧
      0 < 1 ∧ 3 < 4 ∧
      getSignaturesForAddress [⟨"A", [1]⟩, ⟨"B", [2, 3]⟩, ⟨"C", [4]⟩] none none 3 = ["C", "B", "A"] ∧
      (findSignaturesLoop (fun b => getSignaturesForAddress [⟨"A", [1]⟩, ⟨"B", [2, 3]⟩, ⟨"C", [4]⟩]
          b none 1) 4 none =
        some (getSignaturesForAddress [⟨"A", [1]⟩, ⟨"B", [2, 3]⟩, ⟨"C", [4]⟩] none none 3) ∧
        (getSignaturesForAddress [⟨"A", [1]⟩, ⟨"B", [2, 3]⟩, ⟨"C", [4]⟩] none none 3).Nodup) :=
  ⟨by decide, by decide, by decide, rfl,
    findSignaturesLoop_eq_window _ (by decide) none none 1 (by decide) 4 (by decide)⟩

/-- A search whose calls may fail sends a prefix of what it sends when every call answers: all of
it when it returns `Ok`. -/
theorem findSignaturesForMissingSeqRangeOrErr_prefix {rows : List ClAudit}
    {parseSig : String → Option Sig} (faults : SearchFaults Sig) {range : Int × Int} {fuel : Nat}
    {full : List Sig} (h : findSignaturesForMissingSeqRange hist rows parseSig range fuel = some full) :
    ∃ sent res, findSignaturesForMissingSeqRangeOrErr hist rows parseSig faults range fuel =
      some (sent, res) ∧ sent <+: full ∧ (res = .ok () → sent = full) := by
  obtain ⟨start, end_⟩ := range
  rcases hb : faults.beforeQuery with _ | e
  · rcases hu : faults.untilQuery with _ | e
    · simp only [findSignaturesForMissingSeqRangeOrErr, hb, hu]
      refine findSignaturesLoopOrErr_prefix (fun b sigs hp => ?_) h
      cases hf : faults.page b <;> simp_all
    · exact ⟨[], .error e, by simp [findSignaturesForMissingSeqRangeOrErr, hb, hu], List.nil_prefix,
        nofun⟩
  · exact ⟨[], .error e, by simp [findSignaturesForMissingSeqRangeOrErr, hb], List.nil_prefix, nofun⟩

/-- The history `A{1}, B{2, 3}, C{4}` with `1 ↦ A`, `3 ↦ B` and `4 ↦ C` indexed, and the missing
range `(2, 2)`: `before` is `B`, the first indexed seq `≥ 2` being `3`, and `until` is `A`, so the
window strictly between them is empty and `B`, which emitted `2`, is never sent, whatever the
fuel. -/
theorem findSignatures_misses_bounding_tx :
    (2 : Int) ∈ (⟨"B", [2, 3]⟩ : HistTx String).seqs ∧
      (2 : Int) ∉ ([⟨1, "A"⟩, ⟨3, "B"⟩, ⟨4, "C"⟩] : List ClAudit).map ClAudit.seq ∧
      ∀ fuel, findSignaturesForMissingSeqRange [⟨"A", [1]⟩, ⟨"B", [2, 3]⟩, ⟨"C", [4]⟩]
        [⟨1, "A"⟩, ⟨3, "B"⟩, ⟨4, "C"⟩] some (2, 2) (fuel + 1) = some [] :=
  ⟨by decide, by decide, fun _ => rfl⟩

end TreeRepair
