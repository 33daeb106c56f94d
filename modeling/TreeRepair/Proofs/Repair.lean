import TreeRepair.Proofs.Pipeline
import TreeRepair.Proofs.FindSignatures
import TreeRepair.Proofs.FixTree

/-!
# What `fix-tree` forwards over a tree's history

Over the tree's history, the search of a range sends a prefix of the window strictly between the
range's nearest indexed transactions (`rangeWindow`), all of it when no call fails; a failed search
is only logged. With the history and the index related as on chain (`TreeHistory`), ranges with an
indexed seq between them have disjoint windows, so when the database returns the missing seqs
ascending no run of the pipeline pushes a transaction twice (`findAndForward_pushes_each_once`).
When the indexer also writes a transaction's rows whole, a transaction that emitted a missing seq
is pushed once its range's search returns `Ok` (`findAndForward_pushes_every_missing_txn`).
-/

namespace TreeRepair

/-! ## The bounds of a range -/

section Bounds

/-- The step of the folds of `beforeTxn` and `untilTxn`, over a key: `r` replaces the row kept if
its key is less, so the first row of least key is kept. -/
def leastStep (key : ClAudit → Int) (best : Option ClAudit) (r : ClAudit) : Option ClAudit :=
  match best with
  | some c => if key r < key c then some r else best
  | none => some r

theorem leastStep_ne_none (key : ClAudit → Int) (best : Option ClAudit) (r : ClAudit) :
    leastStep key best r ≠ none := by
  rcases best with _ | c
  · exact Option.some_ne_none r
  · by_cases h : key r < key c
    · exact (if_pos h).trans_ne (Option.some_ne_none r)
    · exact (if_neg h).trans_ne (Option.some_ne_none c)

/-- The row the fold keeps comes from the list or is the initial one, and no row nor the initial
one has a lesser key. -/
theorem foldl_leastStep {key : ClAudit → Int} {rows : List ClAudit} {init : Option ClAudit}
    {b : ClAudit} (h : rows.foldl (leastStep key) init = some b) :
    (init = some b ∨ b ∈ rows) ∧ (∀ r ∈ rows, key b ≤ key r) ∧ ∀ c, init = some c → key b ≤ key c := by
  induction rows generalizing init with
  | nil =>
    rw [List.foldl_nil] at h; subst h
    exact ⟨.inl rfl, by simp, fun c hc => by cases hc; exact le_rfl⟩
  | cons x rows ih =>
    rw [List.foldl_cons] at h
    obtain ⟨hmem, hle, hinit⟩ := ih h
    obtain ⟨c, hc, hcx, hcle, hci⟩ : ∃ c, leastStep key init x = some c ∧ (c = x ∨ init = some c) ∧
        key c ≤ key x ∧ ∀ i, init = some i → key c ≤ key i := by
      rcases init with _ | i
      · exact ⟨x, rfl, .inl rfl, le_rfl, fun _ h => by cases h⟩
      · by_cases hlt : key x < key i
        · exact ⟨x, if_pos hlt, .inl rfl, le_rfl, fun _ h => by cases h; exact hlt.le⟩
        · exact ⟨i, if_neg hlt, .inr rfl, not_lt.mp hlt, fun _ h => by cases h; exact le_rfl⟩
    rw [hc] at hmem hinit
    have hbc := hinit c rfl
    refine ⟨?_, List.forall_mem_cons.mpr ⟨hbc.trans hcle, hle⟩, fun i hi => hbc.trans (hci i hi)⟩
    rcases hmem with h | h
    · cases h
      exact hcx.elim (fun h => .inr (h ▸ List.mem_cons_self _ _)) .inl
    · exact .inr (List.mem_cons_of_mem _ h)

/-- The fold keeps a row as soon as there is one. -/
theorem foldl_leastStep_ne_none {key : ClAudit → Int} :
    ∀ {rows : List ClAudit} {init : Option ClAudit}, (init ≠ none ∨ rows ≠ []) →
      rows.foldl (leastStep key) init ≠ none
  | [], _, h => h.resolve_right fun h => h rfl
  | x :: rows, init, _ => by
    rw [List.foldl_cons]
    exact foldl_leastStep_ne_none (.inl (leastStep_ne_none key init x))

variable {rows : List ClAudit}

theorem beforeTxn_eq (e : Int) :
    beforeTxn rows e = (rows.filter fun r => e ≤ r.seq).foldl (leastStep ClAudit.seq) none := rfl

/-- `untilTxn` keeps the first row of greatest seq: of least key `-seq`. -/
theorem untilTxn_eq (s : Int) :
    untilTxn rows s = (rows.filter fun r => r.seq ≤ s).foldl (leastStep fun r => -r.seq) none := by
  rw [untilTxn]
  congr 1
  funext best r
  cases best <;> simp only [leastStep, neg_lt_neg_iff]

/-- `before` is the row with the least seq `≥ end`. -/
theorem beforeTxn_spec {e : Int} {b : ClAudit} (h : beforeTxn rows e = some b) :
    b ∈ rows ∧ e ≤ b.seq ∧ ∀ r ∈ rows, e ≤ r.seq → b.seq ≤ r.seq := by
  rw [beforeTxn_eq] at h
  obtain ⟨hmem | hmem, hle, -⟩ := foldl_leastStep h
  · cases hmem
  · have := List.mem_filter.mp hmem
    exact ⟨this.1, of_decide_eq_true this.2,
      fun r hr he => hle r (List.mem_filter.mpr ⟨hr, decide_eq_true he⟩)⟩

theorem beforeTxn_ne_none {e : Int} {r : ClAudit} (hr : r ∈ rows) (he : e ≤ r.seq) :
    beforeTxn rows e ≠ none :=
  foldl_leastStep_ne_none (.inr (List.ne_nil_of_mem (List.mem_filter.mpr ⟨hr, decide_eq_true he⟩)))

/-- `until` is the row with the greatest seq `≤ start`. -/
theorem untilTxn_spec {s : Int} {u : ClAudit} (h : untilTxn rows s = some u) :
    u ∈ rows ∧ u.seq ≤ s ∧ ∀ r ∈ rows, r.seq ≤ s → r.seq ≤ u.seq := by
  rw [untilTxn_eq] at h
  obtain ⟨hmem | hmem, hle, -⟩ := foldl_leastStep h
  · cases hmem
  · have := List.mem_filter.mp hmem
    exact ⟨this.1, of_decide_eq_true this.2,
      fun r hr hs => neg_le_neg_iff.mp (hle r (List.mem_filter.mpr ⟨hr, decide_eq_true hs⟩))⟩

theorem untilTxn_ne_none {s : Int} {r : ClAudit} (hr : r ∈ rows) (hs : r.seq ≤ s) :
    untilTxn rows s ≠ none := by
  rw [untilTxn_eq]
  exact foldl_leastStep_ne_none (.inr (List.ne_nil_of_mem (List.mem_filter.mpr ⟨hr, decide_eq_true hs⟩)))

end Bounds

/-! ## The window of a range -/

section Window

variable {α : Type}

/-- `takeWhile` keeps an element that passes, with all before it. -/
theorem mem_takeWhile_of_getElem? {p : α → Bool} :
    ∀ {l : List α} {k : Nat} {a : α}, l[k]? = some a →
      (∀ j ≤ k, ∀ y, l[j]? = some y → p y = true) → a ∈ l.takeWhile p
  | [], _, _, h, _ => by simp at h
  | b :: l, k, a, h, hp => by
    rw [List.takeWhile_cons_of_pos (hp 0 (Nat.zero_le _) b List.getElem?_cons_zero)]
    cases k with
    | zero =>
      rw [List.getElem?_cons_zero, Option.some.injEq] at h
      exact h ▸ List.mem_cons_self _ _
    | succ k =>
      exact List.mem_cons_of_mem _ (mem_takeWhile_of_getElem? (List.getElem?_cons_succ.symm.trans h)
        fun j hj y hy => hp (j + 1) (by omega) y (by rwa [List.getElem?_cons_succ]))

variable {Sig : Type} [DecidableEq Sig] {hist : List (HistTx Sig)}

/-- A signature strictly older than the `x`-th newest is further from the newest. -/
theorem lt_of_mem_olderThan (hN : (newestFirst hist).Nodup) {x : Nat} {b : Sig}
    (hb : (newestFirst hist)[x]? = some b) {s : Sig} (hs : s ∈ olderThan hist (some b)) :
    ∃ l, x < l ∧ (newestFirst hist)[l]? = some s := by
  obtain ⟨hx, rfl⟩ := List.getElem?_eq_some_iff.mp hb
  rw [olderThan_getElem hN hx] at hs
  obtain ⟨t, ht⟩ := List.mem_iff_getElem?.mp hs
  exact ⟨x + 1 + t, by omega, by rwa [List.getElem?_drop] at ht⟩

/-- A signature strictly newer than the `y`-th newest is closer to the newest. -/
theorem lt_of_mem_newerThan (hN : (newestFirst hist).Nodup) {y : Nat} {u : Sig}
    (hu : (newestFirst hist)[y]? = some u) {s : Sig} (hs : s ∈ newerThan hist (some u)) :
    ∃ l < y, (newestFirst hist)[l]? = some s := by
  obtain ⟨hy, rfl⟩ := List.getElem?_eq_some_iff.mp hu
  rw [newerThan_getElem hN hy] at hs
  obtain ⟨l, hl⟩ := List.mem_iff_getElem?.mp hs
  have hly : l < y := by
    have := (List.getElem?_eq_some_iff.mp hl).1
    rw [List.length_take] at this
    omega
  exact ⟨l, hly, by rwa [List.getElem?_take_of_lt hly] at hl⟩

/-- A signature `getSignaturesForAddress` returns is older than its `before`, the `x`-th newest. -/
theorem lt_of_mem_getSignatures_before (hN : (newestFirst hist).Nodup) {x : Nat} {b : Sig}
    (hb : (newestFirst hist)[x]? = some b) {until_ : Option Sig} {limit : Nat} {s : Sig}
    (hs : s ∈ getSignaturesForAddress hist (some b) until_ limit) :
    ∃ l, x < l ∧ (newestFirst hist)[l]? = some s :=
  lt_of_mem_olderThan hN hb ((getSignaturesForAddress_sublist hist _ until_ limit).subset hs)

/-- ... and newer than its `until`, the `y`-th newest. -/
theorem lt_of_mem_getSignatures_until (hN : (newestFirst hist).Nodup) {y : Nat} {u : Sig}
    (hu : (newestFirst hist)[y]? = some u) {before : Option Sig} {limit : Nat} {s : Sig}
    (hs : s ∈ getSignaturesForAddress hist before (some u) limit) :
    ∃ l < y, (newestFirst hist)[l]? = some s := by
  have hs' : s ∈ (olderThan hist before).takeWhile fun t => t ∈ newerThan hist (some u) :=
    (List.take_sublist _ _).subset hs
  have hnew := List.mem_takeWhile_imp hs'
  exact lt_of_mem_newerThan hN hu (of_decide_eq_true hnew)

/-- A signature strictly between `before` and `until` is in the answer without a limit. -/
theorem mem_getSignatures_between (hN : (newestFirst hist).Nodup) {xt : Nat} {t : Sig}
    (ht : (newestFirst hist)[xt]? = some t) {before until_ : Option Sig}
    (hb : ∀ b, before = some b → ∃ xb < xt, (newestFirst hist)[xb]? = some b)
    (hu : ∀ u, until_ = some u → ∃ xu, xt < xu ∧ (newestFirst hist)[xu]? = some u) :
    t ∈ getSignaturesForAddress hist before until_ hist.length := by
  obtain ⟨i, hi, hit⟩ : ∃ i, olderThan hist before = (newestFirst hist).drop i ∧ i ≤ xt := by
    rcases before with _ | b
    · exact ⟨0, rfl, Nat.zero_le _⟩
    · obtain ⟨xb, hxb, hb⟩ := hb b rfl
      obtain ⟨hxbl, rfl⟩ := List.getElem?_eq_some_iff.mp hb
      exact ⟨xb + 1, olderThan_getElem hN hxbl, hxb⟩
  -- every signature from the newest down to `t` is newer than `until`
  have hnew : ∀ j ≤ xt, ∀ y, (newestFirst hist)[j]? = some y → y ∈ newerThan hist until_ := by
    intro j hj y hy
    rcases until_ with _ | u
    · exact List.getElem?_mem hy
    · obtain ⟨xu, hxu, hu⟩ := hu u rfl
      obtain ⟨hxul, rfl⟩ := List.getElem?_eq_some_iff.mp hu
      rw [newerThan_getElem hN hxul]
      exact List.getElem?_mem (show ((newestFirst hist).take xu)[j]? = some y by
        rwa [List.getElem?_take_of_lt (by omega)])
  have hlen : (((newestFirst hist).drop i).takeWhile fun s => s ∈ newerThan hist until_).length ≤
      hist.length :=
    (List.takeWhile_prefix _).length_le.trans (by simp [newestFirst])
  rw [getSignaturesForAddress, hi, List.take_of_length_le hlen]
  refine mem_takeWhile_of_getElem?
    (show ((newestFirst hist).drop i)[xt - i]? = some t by
      rwa [List.getElem?_drop, Nat.add_sub_cancel' hit]) fun j hj y hy => decide_eq_true ?_
  rw [List.getElem?_drop] at hy
  exact hnew (i + j) (by omega) y hy

/-- What one call of `getSignaturesForAddress` without a limit returns for `range`: the
signatures strictly between its nearest indexed transactions, newest first. -/
def rangeWindow (hist : List (HistTx Sig)) (rows : List ClAudit) (parseSig : String → Option Sig)
    (range : Int × Int) : List Sig :=
  getSignaturesForAddress hist ((beforeTxn rows range.2).bind fun txn => parseSig txn.tx)
    ((untilTxn rows range.1).bind fun txn => parseSig txn.tx) hist.length

/-- What the resolver that receives `range` sends: what its search sends, with the calls
`faults range` names failing and at most `fuel` RPC calls. Its error is only logged. -/
def searchSends (hist : List (HistTx Sig)) (rows : List ClAudit) (parseSig : String → Option Sig)
    (faults : Int × Int → SearchFaults Sig) (fuel : Nat) (range : Int × Int) : List Sig :=
  ((findSignaturesForMissingSeqRangeOrErr hist rows parseSig (faults range) range fuel).map
    Prod.fst).getD []

/-- With more fuel than transactions, a search whose calls all answer sends its range's window. -/
theorem findSignaturesForMissingSeqRange_eq (hN : (newestFirst hist).Nodup) {rows : List ClAudit}
    {parseSig : String → Option Sig} {fuel : Nat} (hf : hist.length < fuel) (range : Int × Int) :
    findSignaturesForMissingSeqRange hist rows parseSig range fuel =
      some (rangeWindow hist rows parseSig range) :=
  findSignaturesLoop_eq_unbounded hN (by decide) hf _

/-- A search sends a prefix of its range's window, all of it when it returns `Ok`. -/
theorem searchSends_spec (hN : (newestFirst hist).Nodup) {rows : List ClAudit}
    {parseSig : String → Option Sig} {faults : Int × Int → SearchFaults Sig} {fuel : Nat}
    (hf : hist.length < fuel) (range : Int × Int) :
    searchSends hist rows parseSig faults fuel range <+: rangeWindow hist rows parseSig range ∧
      ((findSignaturesForMissingSeqRangeOrErr hist rows parseSig (faults range) range fuel).map
          Prod.snd = some (.ok ()) →
        searchSends hist rows parseSig faults fuel range = rangeWindow hist rows parseSig range) := by
  have hfull : findSignaturesForMissingSeqRange hist rows parseSig range fuel =
      some (rangeWindow hist rows parseSig range) := findSignaturesForMissingSeqRange_eq hN hf range
  obtain ⟨sent, res, h, hpre, hok⟩ := findSignaturesForMissingSeqRangeOrErr_prefix (faults range) hfull
  simp only [searchSends, h, Option.map_some', Option.getD_some, Option.some.injEq]
  exact ⟨hpre, hok⟩

end Window

/-! ## The tree's history and its index -/

/-- How the tree's history, oldest first, and its index relate. -/
structure TreeHistory {Sig : Type} (hist : List (HistTx Sig)) (rows : List ClAudit)
    (parseSig : String → Option Sig) : Prop where
  /-- No transaction is listed twice. -/
  nodup : (hist.map HistTx.sig).Nodup
  /-- A later transaction emits larger seqs. -/
  increasing : hist.Pairwise fun T T' => ∀ a ∈ T.seqs, ∀ b ∈ T'.seqs, a < b
  /-- Every row names, in a signature that parses, the transaction that emitted its seq. -/
  indexed : ∀ r ∈ rows, ∃ T ∈ hist, parseSig r.tx = some T.sig ∧ r.seq ∈ T.seqs

/-- The indexer writes all of a transaction's rows or none. -/
def IndexedWhole {Sig : Type} (hist : List (HistTx Sig)) (rows : List ClAudit)
    (parseSig : String → Option Sig) : Prop :=
  ∀ r ∈ rows, ∀ T ∈ hist, parseSig r.tx = some T.sig → ∀ x ∈ T.seqs, x ∈ rows.map ClAudit.seq

section History

variable {Sig : Type} {hist : List (HistTx Sig)} {rows : List ClAudit}
  {parseSig : String → Option Sig}

/-- Row `r` records a seq of the `x`-th newest transaction, whose signature it names. -/
def RowAt (hist : List (HistTx Sig)) (parseSig : String → Option Sig) (r : ClAudit) (x : Nat) :
    Prop :=
  ∃ T, hist.reverse[x]? = some T ∧ parseSig r.tx = some T.sig ∧ r.seq ∈ T.seqs

theorem TreeHistory.newestFirst_nodup (hH : TreeHistory hist rows parseSig) :
    (newestFirst hist).Nodup := by
  simpa [newestFirst, List.map_reverse] using hH.nodup

theorem TreeHistory.exists_rowAt (hH : TreeHistory hist rows parseSig) {r : ClAudit}
    (hr : r ∈ rows) : ∃ x, RowAt hist parseSig r x := by
  obtain ⟨T, hT, hsig, hseq⟩ := hH.indexed r hr
  obtain ⟨x, hx⟩ := List.mem_iff_getElem?.mp (List.mem_reverse.mpr hT)
  exact ⟨x, T, hx, hsig, hseq⟩

theorem getElem?_newestFirst_of_reverse {x : Nat} {T : HistTx Sig} (hT : hist.reverse[x]? = some T) :
    (newestFirst hist)[x]? = some T.sig := by
  rw [newestFirst, List.getElem?_map, hT]; rfl

/-- The signature a row names is the `x`-th newest. -/
theorem RowAt.getElem?_newestFirst {r : ClAudit} {x : Nat} (h : RowAt hist parseSig r x) :
    ∃ v, parseSig r.tx = some v ∧ (newestFirst hist)[x]? = some v := by
  obtain ⟨T, hT, hsig, -⟩ := h
  exact ⟨T.sig, hsig, getElem?_newestFirst_of_reverse hT⟩

/-- A transaction that emitted a seq no larger than another's seq is no newer. -/
theorem TreeHistory.le_of_mem_seqs (hH : TreeHistory hist rows parseSig) {x y : Nat}
    {T T' : HistTx Sig} (hT : hist.reverse[x]? = some T) (hT' : hist.reverse[y]? = some T')
    {a b : Int} (ha : a ∈ T.seqs) (hb : b ∈ T'.seqs) (h : a ≤ b) : y ≤ x := by
  by_contra hxy
  obtain ⟨hxl, rfl⟩ := List.getElem?_eq_some_iff.mp hT
  obtain ⟨hyl, rfl⟩ := List.getElem?_eq_some_iff.mp hT'
  have := List.pairwise_iff_getElem.mp (List.pairwise_reverse.mpr hH.increasing) x y hxl hyl
    (by omega) _ hb _ ha
  omega

/-- ... and, when it is another transaction, older. -/
theorem TreeHistory.lt_of_mem_seqs (hH : TreeHistory hist rows parseSig) {x y : Nat}
    {T T' : HistTx Sig} (hT : hist.reverse[x]? = some T) (hT' : hist.reverse[y]? = some T')
    {a b : Int} (ha : a ∈ T.seqs) (hb : b ∈ T'.seqs) (h : a ≤ b) (hne : T ≠ T') : y < x :=
  lt_of_le_of_ne (hH.le_of_mem_seqs hT hT' ha hb h) fun e => hne (by
    subst e; rw [hT] at hT'; exact Option.some.inj hT')

/-- A row with a seq no larger than another's names a transaction no newer. -/
theorem TreeHistory.le_of_seq_le (hH : TreeHistory hist rows parseSig) {r r' : ClAudit}
    {x y : Nat} (hx : RowAt hist parseSig r x) (hy : RowAt hist parseSig r' y)
    (h : r.seq ≤ r'.seq) : y ≤ x := by
  obtain ⟨T, hT, -, hr⟩ := hx
  obtain ⟨T', hT', -, hr'⟩ := hy
  exact hH.le_of_mem_seqs hT hT' hr hr' h

end History

/-! ## Windows of the missing ranges -/

section Ranges

variable {Sig : Type} [DecidableEq Sig] {hist : List (HistTx Sig)} {rows : List ClAudit}
  {parseSig : String → Option Sig}

/-- The window of a range is strictly older than its `before`. -/
theorem TreeHistory.lt_of_mem_rangeWindow_before (hH : TreeHistory hist rows parseSig) {s e : Int}
    {b : ClAudit} (hb : beforeTxn rows e = some b) {xb : Nat} (hxb : RowAt hist parseSig b xb)
    {sig : Sig} (hsig : sig ∈ rangeWindow hist rows parseSig (s, e)) :
    ∃ l, xb < l ∧ (newestFirst hist)[l]? = some sig := by
  obtain ⟨v, hv, hxv⟩ := hxb.getElem?_newestFirst
  simp only [rangeWindow, hb, Option.some_bind, hv] at hsig
  exact lt_of_mem_getSignatures_before hH.newestFirst_nodup hxv hsig

/-- ... and strictly newer than its `until`. -/
theorem TreeHistory.lt_of_mem_rangeWindow_until (hH : TreeHistory hist rows parseSig) {s e : Int}
    {u : ClAudit} (hu : untilTxn rows s = some u) {xu : Nat} (hxu : RowAt hist parseSig u xu)
    {sig : Sig} (hsig : sig ∈ rangeWindow hist rows parseSig (s, e)) :
    ∃ l < xu, (newestFirst hist)[l]? = some sig := by
  obtain ⟨v, hv, hxv⟩ := hxu.getElem?_newestFirst
  simp only [rangeWindow, hu, Option.some_bind, hv] at hsig
  exact lt_of_mem_getSignatures_until hH.newestFirst_nodup hxv hsig

/-- Two ranges with an indexed seq between them have disjoint windows. -/
theorem TreeHistory.disjoint_rangeWindow (hH : TreeHistory hist rows parseSig) {s e s' e' : Int}
    {q : ClAudit} (hq : q ∈ rows) (heq : e ≤ q.seq) (hqs : q.seq ≤ s') :
    (rangeWindow hist rows parseSig (s, e)).Disjoint (rangeWindow hist rows parseSig (s', e')) := by
  obtain ⟨b, hb⟩ := Option.ne_none_iff_exists'.mp (beforeTxn_ne_none hq heq)
  obtain ⟨u, hu⟩ := Option.ne_none_iff_exists'.mp (untilTxn_ne_none hq hqs)
  obtain ⟨xb, hxb⟩ := hH.exists_rowAt (beforeTxn_spec hb).1
  obtain ⟨xu, hxu⟩ := hH.exists_rowAt (untilTxn_spec hu).1
  -- the earlier range's `before` is no older than the later range's `until`
  have hle : xu ≤ xb := hH.le_of_seq_le hxb hxu
    (((beforeTxn_spec hb).2.2 q hq heq).trans ((untilTxn_spec hu).2.2 q hq hqs))
  intro sig h1 h2
  obtain ⟨l1, hl1, hs1⟩ := hH.lt_of_mem_rangeWindow_before hb hxb h1
  obtain ⟨l2, hl2, hs2⟩ := hH.lt_of_mem_rangeWindow_until hu hxu h2
  have := List.getElem?_inj (List.getElem?_eq_some_iff.mp hs1).1 hH.newestFirst_nodup
    (hs1.trans hs2.symm)
  omega

/-- With the index holding transactions whole, the window holds a transaction of a missing seq. -/
theorem TreeHistory.mem_rangeWindow (hH : TreeHistory hist rows parseSig)
    (hW : IndexedWhole hist rows parseSig) {s e x : Int} (hsx : s ≤ x) (hxe : x ≤ e)
    (hx : x ∉ rows.map ClAudit.seq) {T : HistTx Sig} (hT : T ∈ hist) (hxT : x ∈ T.seqs) :
    T.sig ∈ rangeWindow hist rows parseSig (s, e) := by
  obtain ⟨xt, hxt⟩ := List.mem_iff_getElem?.mp (List.mem_reverse.mpr hT)
  -- no row names `T`: the index would hold `x`
  have hne : ∀ r ∈ rows, ∀ T', parseSig r.tx = some T'.sig → T' ≠ T :=
    fun r hr T' hsig e => hx (hW r hr T hT (e ▸ hsig) x hxT)
  refine mem_getSignatures_between hH.newestFirst_nodup (getElem?_newestFirst_of_reverse hxt)
    (fun v hv => ?_) fun v hv => ?_
  · obtain ⟨b, hb, hbv⟩ := Option.bind_eq_some.mp hv
    obtain ⟨hbrows, heb, -⟩ := beforeTxn_spec hb
    obtain ⟨xb, Tb, hTb, hsig, hbT⟩ := hH.exists_rowAt hbrows
    rw [hsig, Option.some.injEq] at hbv
    exact ⟨xb, hH.lt_of_mem_seqs hxt hTb hxT hbT (hxe.trans heb) (hne b hbrows Tb hsig).symm,
      hbv ▸ getElem?_newestFirst_of_reverse hTb⟩
  · obtain ⟨u, hu, huv⟩ := Option.bind_eq_some.mp hv
    obtain ⟨hurows, hus, -⟩ := untilTxn_spec hu
    obtain ⟨xu, Tu, hTu, hsig, huT⟩ := hH.exists_rowAt hurows
    rw [hsig, Option.some.injEq] at huv
    exact ⟨xu, hH.lt_of_mem_seqs hTu hxt huT hxT (hus.trans hsx) (hne u hurows Tu hsig),
      huv ▸ getElem?_newestFirst_of_reverse hTu⟩

/-- On an ascending list leaving room for the join test, `build_seq_ranges` gives its runs. -/
theorem runsOf_buildSeqRanges {xs : List Int} (hs : xs.Sorted (· < ·))
    (hw : ∀ x ∈ xs.dropLast, NoWrap x) : RunsOf maximumJoinGap xs (buildSeqRanges xs) := by
  have heq : buildSeqRanges xs = seqRuns maximumJoinGap xs := by
    cases xs with
    | nil => rfl
    | cons x xs => exact joinFirst_contiguousRanges (chain'_ascNoWrap hs hw)
  exact heq ▸ seqRuns_runsOf (List.chain'_iff_pairwise.mpr hs)

/-- The number after a run's end is not in the list. -/
theorem RunsOf.succ_not_mem {gap : Int} {xs : List Int} {rs : List (Int × Int)}
    (h : RunsOf gap xs rs) (hgap : 0 < gap) {r : Int × Int} (hr : r ∈ rs) : r.2 + 1 ∉ xs := by
  intro hx
  obtain ⟨r', hr', h1, h2⟩ := h.covers _ hx
  by_cases e : r = r'
  · subst e; omega
  · have hsym : Symmetric fun p p' : Int × Int => p.2 + gap < p'.1 ∨ p'.2 + gap < p.1 :=
      fun _ _ => Or.symm
    have := h.nonInverted r hr
    rcases (h.separated.imp Or.inl).forall hsym hr hr' e with h3 | h3 <;> omega

/-- Between two ranges of the missing seqs, listed ascending, lies an indexed seq. -/
theorem missingRanges_separated (rows : List ClAudit) {n : Int} (hn : n + maximumJoinGap ≤ i64Max) :
    (buildSeqRanges (missingSeries rows n)).Pairwise
      fun r r' => ∃ q ∈ rows, r.2 ≤ q.seq ∧ q.seq ≤ r'.1 := by
  have hruns := runsOf_buildSeqRanges missingSeries_sorted fun x hx => by
    obtain ⟨h1, h2, -⟩ := mem_missingSeries.mp (List.dropLast_subset (missingSeries rows n) hx)
    exact ⟨by unfold i64Min; omega, by omega⟩
  have hgap : maximumJoinGap = 10 := rfl
  refine hruns.separated.imp_of_mem fun {r r'} hr hr' hsep => ?_
  obtain ⟨h1, -, -⟩ := mem_missingSeries.mp (hruns.endpoints r hr).2
  obtain ⟨-, h2, -⟩ := mem_missingSeries.mp (hruns.endpoints r' hr').1
  have hidx : r.2 + 1 ∈ indexedSeqs rows := by
    by_contra hni
    exact hruns.succ_not_mem (by decide) hr (mem_missingSeries.mpr ⟨by omega, by omega, hni⟩)
  obtain ⟨q, hq, hqs⟩ := List.mem_map.mp (List.mem_toFinset.mp hidx)
  exact ⟨q, hq, by omega, by omega⟩

end Ranges

/-! ## The pipeline over the history -/

section Pipeline

variable {Sig Txn : Type} [DecidableEq Sig]

/-- For every tree history and index related as on chain, every order of `get_missing_seq`'s rows,
every on-chain seq `n` that leaves room for the join test in `i64`, every failure of the searches'
calls, more RPC calls allowed than transactions, every transaction source and any numbers of
resolver and sender threads: in every run of the pipeline over `fix_tree`'s missing seqs, whatever
the interleaving, every transaction the stream carries is in the window of a range; and when the
rows come ascending, none is carried twice. -/
theorem findAndForward_pushes_each_once {hist : List (HistTx Sig)} {rows : List ClAudit}
    {parseSig : String → Option Sig} (hH : TreeHistory hist rows parseSig) (order : RowOrder)
    (n : Int) (hn : n + maximumJoinGap ≤ i64Max) (faults : Int × Int → SearchFaults Sig)
    (fuel : Nat) (hfuel : hist.length < fuel) (src : TxnSource Sig Txn) (k m : Nat)
    (p : PipelineState Sig)
    (hp : PipelineReachable (buildSeqRanges (getMissingSeq order rows n))
      (searchSends hist rows parseSig faults fuel) k src m p) :
    (∀ msg ∈ p.senders.stream, ∃ range ∈ buildSeqRanges (getMissingSeq order rows n),
        msg.1 ∈ rangeWindow hist rows parseSig range) ∧
      ((getMissingSeq order rows n).Sorted (· < ·) → (p.senders.stream.map Prod.fst).Nodup) := by
  have hI := hp.inv
  have hN := hH.newestFirst_nodup
  -- the resolvers sent part of what the searches send, each a prefix of its range's window
  have hsub := hI.resolvers.inv.emitted_subperm
  have hsends : ((buildSeqRanges (getMissingSeq order rows n)).flatMap
      (searchSends hist rows parseSig faults fuel)).Sublist
      ((buildSeqRanges (getMissingSeq order rows n)).flatMap (rangeWindow hist rows parseSig)) :=
    flatMap_sublist_flatMap (List.Sublist.refl _) fun range _ => (searchSends_spec hN hfuel range).1.sublist
  refine ⟨fun msg hmsg => List.mem_flatMap.mp
    (hsends.subset (hsub.subset (hI.senders.inv.stream_ok msg hmsg).1)), fun hs => ?_⟩
  have hnd : ((buildSeqRanges (getMissingSeq order rows n)).flatMap
      (rangeWindow hist rows parseSig)).Nodup := by
    rw [getMissingSeq_eq_of_sorted hs]
    exact List.nodup_flatMap.mpr ⟨fun range _ => getSignaturesForAddress_nodup hN _ _ _,
      (missingRanges_separated rows hn).imp fun ⟨_, hq, h1, h2⟩ => hH.disjoint_rangeWindow hq h1 h2⟩
  exact hI.senders.stream_nodup (nodup_of_subperm hsub (hsends.nodup hnd))

/-- Three transactions emitting the seqs `1`, `2` and `3`, each its own. -/
def gapHistory : List (HistTx String) := [⟨"A", [1]⟩, ⟨"B", [2]⟩, ⟨"C", [3]⟩]

/-- An index that holds the first and the last of them. -/
def gapRows : List ClAudit := [⟨1, "A"⟩, ⟨3, "C"⟩]

theorem treeHistory_gapHistory : TreeHistory gapHistory gapRows some :=
  ⟨by decide, by decide, by decide⟩

/-- A transaction source over text signatures that fetches and pushes every transaction. -/
def pushAllText : TxnSource String Unit :=
  ⟨fun _ => .ok (), fun _ => some (.ok ()), fun _ => .ok [1], fun _ => .ok ()⟩

/-- One resolver and one sender over the missing seq `2`: the resolver takes its range and sends
`B`, which the sender pushes before the resolver leaves its loop; then both leave theirs. -/
def gapSchedule : List PipelineAction :=
  [.resolvers .produce, .resolvers (.resolver 0), .resolvers (.resolver 0), .sender 0, .sender 0,
    .resolvers (.resolver 0), .resolvers (.resolver 0), .sender 0]

/-- The window of the range of `2`, between `A` and `C`, is `B`, which is pushed once. -/
theorem findAndForward_pushes_each_once_run :
    ∃ p, pipelineRun (buildSeqRanges (getMissingSeq .series gapRows 3))
        (searchSends gapHistory gapRows some (fun _ => .noFailure) 4) 1 pushAllText pipelineInit
        gapSchedule = some p ∧
      p.senders.stream = [("B", [1])] ∧ TreeHistory gapHistory gapRows some ∧
      (3 : Int) + maximumJoinGap ≤ i64Max ∧ gapHistory.length < 4 ∧
      ((∀ msg ∈ p.senders.stream, ∃ range ∈ buildSeqRanges (getMissingSeq .series gapRows 3),
          msg.1 ∈ rangeWindow gapHistory gapRows some range) ∧
        ((getMissingSeq .series gapRows 3).Sorted (· < ·) → (p.senders.stream.map Prod.fst).Nodup)) :=
  ⟨_, rfl, rfl, treeHistory_gapHistory, by decide, by decide,
    findAndForward_pushes_each_once treeHistory_gapHistory .series 3 (by decide) _ 4 (by decide)
      pushAllText 1 1 _ (PipelineReachable.init.run (by decide)
        (rfl : pipelineRun (buildSeqRanges (getMissingSeq .series gapRows 3))
          (searchSends gapHistory gapRows some (fun _ => .noFailure) 4) 1 pushAllText pipelineInit
          gapSchedule = _))⟩

/-- For every tree history and index related as on chain, whose indexer writes a transaction's
rows whole, every order of `get_missing_seq`'s rows, every failure of the searches' calls, more RPC
calls allowed than transactions, every transaction source, `k ≥ 1` resolver and `m ≥ 1` sender
threads, and every run of the pipeline over `fix_tree`'s missing seqs that no thread can move on:
the call panics exactly when `send_txn` fails on a signature sent, and returns `Ok(())` otherwise,
whichever searches failed; and, while fewer of those signatures fail than there are sender threads
and the rows come ascending, each missing seq lies in a range, and once that range's search returns
`Ok`, every transaction that emitted the seq and whose `send_txn` succeeds was pushed. -/
theorem findAndForward_pushes_every_missing_txn {hist : List (HistTx Sig)} {rows : List ClAudit}
    {parseSig : String → Option Sig} (hH : TreeHistory hist rows parseSig)
    (hW : IndexedWhole hist rows parseSig) (order : RowOrder) (n : Int)
    (faults : Int × Int → SearchFaults Sig) (fuel : Nat) (hfuel : hist.length < fuel)
    (src : TxnSource Sig Txn) (k m : Nat) (hk : 0 < k) (hm : 0 < m) (p : PipelineState Sig)
    (hp : PipelineReachable (buildSeqRanges (getMissingSeq order rows n))
      (searchSends hist rows parseSig faults fuel) k src m p)
    (hstuck : ∀ a : PipelineAction, a.Valid k m → pipelineStep (buildSeqRanges (getMissingSeq order rows n))
      (searchSends hist rows parseSig faults fuel) k src p a = none) :
    forwardResult m p.senders = (if ((buildSeqRanges (getMissingSeq order rows n)).flatMap
        (searchSends hist rows parseSig faults fuel)).any (sendFails src) then
      .panic "called Result::unwrap() on an Err value" else .ok ()) ∧
    (((buildSeqRanges (getMissingSeq order rows n)).flatMap
        (searchSends hist rows parseSig faults fuel)).countP (sendFails src) < m →
      (getMissingSeq order rows n).Sorted (· < ·) →
      ∀ x ∈ getMissingSeq order rows n, ∃ range ∈ buildSeqRanges (getMissingSeq order rows n),
        range.1 ≤ x ∧ x ≤ range.2 ∧
        ((findSignaturesForMissingSeqRangeOrErr hist rows parseSig (faults range) range fuel).map
            Prod.snd = some (.ok ()) →
          ∀ T ∈ hist, x ∈ T.seqs → ∀ bytes, sendTxn src T.sig = .ok (some bytes) →
            (T.sig, bytes) ∈ p.senders.stream)) := by
  have hI := hp.inv
  obtain ⟨hrstuck, hfstuck⟩ := hI.stuck hstuck
  have hend := (hI.senders.inv.forwardEnd hm hfstuck).perm (hI.resolvers.inv.resolversEnd hk hrstuck).perm
  refine ⟨hend.result_eq, fun hfew hs x hx => ?_⟩
  obtain ⟨range, hrange, h1, h2⟩ := buildSeqRanges_covers (List.chain'_iff_pairwise.mpr hs) x hx
  have hxi : x ∉ rows.map ClAudit.seq := fun h =>
    (mem_getMissingSeq.mp hx).2.2 (List.mem_toFinset.mpr h)
  refine ⟨range, hrange, h1, h2, fun hok T hT hxT bytes hsend =>
    hend.pushed_of_few_failures hfew T.sig (List.mem_flatMap.mpr ⟨range, hrange, ?_⟩) bytes hsend⟩
  rw [(searchSends_spec hH.newestFirst_nodup hfuel range).2 hok]
  exact hH.mem_rangeWindow hW h1 h2 hxi hT hxT

/-- The calls of a search fail once `before` has moved to `B`. -/
def failPastB : Int × Int → SearchFaults String :=
  fun _ => ⟨none, none, fun b => if b = some "B" then some "rpc" else none⟩

/-- Over `gapHistory`, the search of the range of `2` sends `B` and then fails: the failure is
only logged, `B` is pushed, and the call returns `Ok(())`. -/
theorem findAndForward_pushes_every_missing_txn_run :
    ∃ p, pipelineRun (buildSeqRanges (getMissingSeq .series gapRows 3))
        (searchSends gapHistory gapRows some failPastB 4) 1 pushAllText pipelineInit gapSchedule =
        some p ∧
      (findSignaturesForMissingSeqRangeOrErr gapHistory gapRows some (failPastB (2, 2)) (2, 2) 4).map
        Prod.snd = some (.error "rpc") ∧
      p.senders.stream = [("B", [1])] ∧ forwardResult 1 p.senders = .ok () ∧
      TreeHistory gapHistory gapRows some ∧ IndexedWhole gapHistory gapRows some ∧
      gapHistory.length < 4 ∧ 0 < 1 ∧
      (∀ a : PipelineAction, a.Valid 1 1 → pipelineStep (buildSeqRanges (getMissingSeq .series gapRows 3))
        (searchSends gapHistory gapRows some failPastB 4) 1 pushAllText p a = none) ∧
      (forwardResult 1 p.senders = (if ((buildSeqRanges (getMissingSeq .series gapRows 3)).flatMap
          (searchSends gapHistory gapRows some failPastB 4)).any (sendFails pushAllText) then
        .panic "called Result::unwrap() on an Err value" else .ok ()) ∧
      (((buildSeqRanges (getMissingSeq .series gapRows 3)).flatMap
          (searchSends gapHistory gapRows some failPastB 4)).countP (sendFails pushAllText) < 1 →
        (getMissingSeq .series gapRows 3).Sorted (· < ·) →
        ∀ x ∈ getMissingSeq .series gapRows 3, ∃ range ∈ buildSeqRanges (getMissingSeq .series gapRows 3),
          range.1 ≤ x ∧ x ≤ range.2 ∧
          ((findSignaturesForMissingSeqRangeOrErr gapHistory gapRows some (failPastB range) range 4).map
              Prod.snd = some (.ok ()) →
            ∀ T ∈ gapHistory, x ∈ T.seqs → ∀ bytes, sendTxn pushAllText T.sig = .ok (some bytes) →
              (T.sig, bytes) ∈ p.senders.stream))) := by
  have hW : IndexedWhole gapHistory gapRows some := by unfold IndexedWhole; decide
  refine ⟨_, rfl, rfl, rfl, rfl, treeHistory_gapHistory, hW, by decide, by decide, ?stuck,
    findAndForward_pushes_every_missing_txn treeHistory_gapHistory hW .series 3 failPastB 4
      (by decide) pushAllText 1 1 (by decide) (by decide) _ (PipelineReachable.init.run (by decide)
        (rfl : pipelineRun (buildSeqRanges (getMissingSeq .series gapRows 3))
          (searchSends gapHistory gapRows some failPastB 4) 1 pushAllText pipelineInit
          gapSchedule = _)) ?stuck⟩
  exact fun
    | .resolvers .produce, _ => rfl
    | .resolvers (.resolver 0), _ => rfl
    | .resolvers (.resolver (w + 1)), hw => absurd hw (by simp [PipelineAction.Valid, ResolverAction.Valid])
    | .sender 0, _ => rfl
    | .sender (w + 1), hw => absurd hw (by simp [PipelineAction.Valid])

end Pipeline

end TreeRepair
