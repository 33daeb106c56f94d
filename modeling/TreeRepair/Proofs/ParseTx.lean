import TreeRepair.ParseTx

/-!
# `parse_tx_sequence` files every event under its tree, in order

## Leaf indices

For every decoded event with a nonempty path, `path.len() as u32 - 1` is the tree height exactly,
since borsh reads the path's length as a `u32`. `2i64.pow(h)` fits in `i64` exactly when the
path has at most 63 nodes; `index - 2^h` then cannot overflow either, and a node index
`2^h + k` with `k < 2^h` gives the leaf index `k`. A path of 64 nodes or more, which any
transaction can log through the noop program, makes `2i64.pow(h)` overflow, and a release build
wraps it: 64 nodes record `index - 2^63`, and more record `index` itself (`leafOf_spec`).

## The map

Each loop, over the instructions of one `UiInnerInstructions` and over all of them, pushes the
events of the instructions it reads, in order (`parseInnerInstructions_of_reads`), and stops at
the first noop instruction whose data is not base58. Pushing events keeps `RecordsEvents`: under
each tree, the map holds exactly the pairs of that tree's events, in order. So a successful
transaction yields a map exactly when it decodes, its loaded addresses parse and its noop data is
base58, and the map records the events (`parseTxSequence_spec`); otherwise the call fails
(`parseTxSequence_fails_on_bad_base58`).
-/

namespace TreeRepair

/-! ## Leaf indices -/

section LeafIndex

theorem usizeAsU32_of_lt {n : Nat} (h : n < 2 ^ 32) : usizeAsU32 n = n := Nat.mod_eq_of_lt h

/-- `a - 1` on `u32` does not wrap for `a ≥ 1`. -/
theorem u32WrappingSub_one {a : Nat} (h1 : 1 ≤ a) (h2 : a < 2 ^ 32) : u32WrappingSub a 1 = a - 1 := by
  unfold u32WrappingSub; omega

theorem two_pow_le_two_pow {a b : Nat} (h : a ≤ b) : (2 : Int) ^ a ≤ 2 ^ b := by
  exact_mod_cast Nat.pow_le_pow_right (by decide) h

theorem two_pow_pos (a : Nat) : (0 : Int) < 2 ^ a := by
  exact_mod_cast Nat.pos_pow_of_pos a (by decide)

/-- Below `2^63`, `2i64.pow(exp)` does not wrap. -/
theorem i64Pow2_of_le {exp : Nat} (h : exp ≤ 62) : i64Pow2 exp = 2 ^ exp := by
  have hp := two_pow_le_two_pow h
  have hpos : (0 : Int) < 2 ^ exp := two_pow_pos exp
  rw [i64Pow2, Nat.min_eq_left (by omega)]
  exact wrapI64_of_le (by unfold i64Min; omega) (by unfold i64Max; omega)

/-- The `min` in `i64Pow2` changes nothing: every power from `2^64` on wraps to `0`. -/
theorem i64Pow2_eq_wrapI64 (exp : Nat) : i64Pow2 exp = wrapI64 (2 ^ exp) := by
  rcases Nat.le_total exp 64 with h | h
  · rw [i64Pow2, Nat.min_eq_left h]
  · have hzero : ∀ d : Nat, wrapI64 (2 ^ (64 + d)) = 0 := fun d => by
      unfold wrapI64
      rw [pow_add, Int.add_comm, Int.add_mul_emod_self_left]
      decide
    obtain ⟨d, rfl⟩ := Nat.exists_eq_add_of_le h
    rw [i64Pow2, Nat.min_eq_right h, hzero d, ← hzero 0]

/-- `2i64.pow(h)` fits in `i64` exactly for `h ≤ 62`. -/
theorem two_pow_le_i64Max_iff {h : Nat} : (2 : Int) ^ h ≤ i64Max ↔ h ≤ 62 := by
  unfold i64Max
  constructor
  · intro hle
    by_contra hgt
    have := two_pow_le_two_pow (show 63 ≤ h by omega)
    omega
  · intro hle
    have := two_pow_le_two_pow hle
    omega

/-- `2i64.pow(63)` wraps to `i64::MIN`. -/
theorem i64Pow2_sixtyThree : i64Pow2 63 = -2 ^ 63 := by decide

/-- Every power from `2^64` on wraps to `0`. -/
theorem i64Pow2_of_ge {exp : Nat} (h : 64 ≤ exp) : i64Pow2 exp = 0 := by
  rw [i64Pow2, Nat.min_eq_right h]; decide

/-- For a node index of `u32` and a height below 63, neither the power nor the subtraction of
`node_idx_to_leaf_idx` wraps. -/
theorem nodeIdxToLeafIdx_of_le {index : Nat} {h : Nat} (hi : index < 2 ^ 32) (hh : h ≤ 62) :
    nodeIdxToLeafIdx index h = index - 2 ^ h := by
  have hp := two_pow_le_two_pow hh
  have hpos : (0 : Int) < 2 ^ h := two_pow_pos h
  rw [nodeIdxToLeafIdx, i64Pow2_of_le hh]
  exact wrapI64_of_le (by unfold i64Min; omega) (by unfold i64Max; omega)

/-- At height 63, `index - i64::MIN` wraps back to `index - 2^63`. -/
theorem nodeIdxToLeafIdx_sixtyThree {index : Nat} (hi : index < 2 ^ 32) :
    nodeIdxToLeafIdx index 63 = index - 2 ^ 63 := by
  rw [nodeIdxToLeafIdx, i64Pow2_sixtyThree]; unfold wrapI64; omega

/-- From height 64 on the power is `0`, and the leaf index is the node index. -/
theorem nodeIdxToLeafIdx_of_ge {index : Nat} {h : Nat} (hi : index < 2 ^ 32) (hh : 64 ≤ h) :
    nodeIdxToLeafIdx index h = index := by
  rw [nodeIdxToLeafIdx, i64Pow2_of_ge hh]; unfold wrapI64; omega

variable {K : Type}

/-- The leaf `parse_tx_sequence` computes for an event whose path is `node :: rest`. -/
structure LeafOfSpec (cl : ChangeLogEventV1 K) (node : PathNode) (rest : List PathNode) : Prop where
  /-- `path.len() as u32 - 1` neither truncates nor wraps: it is the tree height. -/
  height_eq : u32WrappingSub (usizeAsU32 cl.path.length) 1 = rest.length
  /-- `2i64.pow(height)` fits in `i64` exactly for a path of at most 63 nodes. -/
  pow_le_i64Max_iff : (2 : Int) ^ rest.length ≤ i64Max ↔ cl.path.length ≤ 63
  /-- Then `index - 2^height` is computed exactly. -/
  leafOf_eq : cl.path.length ≤ 63 → leafOf cl = some ⟨(node.index.toNat : Int) - 2 ^ rest.length⟩
  /-- A node index `2^height + k` with `k < 2^height` gives the leaf index `k`. -/
  leafOf_of_index : ∀ k : Nat, k < 2 ^ rest.length → node.index.toNat = 2 ^ rest.length + k →
    leafOf cl = some ⟨k⟩
  /-- A path of 64 nodes records `index - 2^63`: `2i64.pow(63)` wraps to `i64::MIN`. -/
  leafOf_of_length_eq : cl.path.length = 64 → leafOf cl = some ⟨(node.index.toNat : Int) - 2 ^ 63⟩
  /-- A longer path records the node index itself: the power wraps to `0`. -/
  leafOf_of_length_gt : 64 < cl.path.length → leafOf cl = some ⟨node.index.toNat⟩

/-- For every decoded event with a nonempty path, the leaf index `parse_tx_sequence` records. -/
theorem leafOf_spec (cl : ChangeLogEventV1 K) (node : PathNode) (rest : List PathNode)
    (hpath : cl.path = node :: rest) : LeafOfSpec cl node rest := by
  have hlen : cl.path.length = rest.length + 1 := by rw [hpath, List.length_cons]
  have hlt := cl.path_length_lt
  have hheight : u32WrappingSub (usizeAsU32 cl.path.length) 1 = rest.length := by
    rw [usizeAsU32_of_lt hlt, u32WrappingSub_one (by omega) hlt, hlen, Nat.add_sub_cancel]
  have hleaf : leafOf cl = some ⟨nodeIdxToLeafIdx node.index.toNat rest.length⟩ := by
    unfold leafOf; rw [hheight, hpath]; rfl
  have hidx : node.index.toNat < 2 ^ 32 := node.index.toNat_lt_size
  have leafOf_eq (h : cl.path.length ≤ 63) :
      leafOf cl = some ⟨(node.index.toNat : Int) - 2 ^ rest.length⟩ := by
    rw [hleaf, nodeIdxToLeafIdx_of_le hidx (by omega)]
  refine ⟨hheight, by rw [two_pow_le_i64Max_iff]; omega, leafOf_eq, fun k hk hk' => ?_,
    fun h64 => ?_, fun h64 => ?_⟩
  · have hsmall : rest.length < 32 := by
      by_contra hge
      have := Nat.pow_le_pow_right (by decide : 2 > 0) (Nat.le_of_not_lt hge)
      omega
    rw [leafOf_eq (by omega), hk']
    simp
  · rw [hleaf, show rest.length = 63 by omega, nodeIdxToLeafIdx_sixtyThree hidx]
  · rw [hleaf, nodeIdxToLeafIdx_of_ge hidx (by omega)]

/-- A path of three nodes starting at node `5 = 2^2 + 1`: the leaf index is `1`. -/
theorem leafOf_spec_example :
    [(⟨5⟩ : PathNode), ⟨2⟩, ⟨1⟩] = ⟨5⟩ :: [⟨2⟩, ⟨1⟩] ∧
      LeafOfSpec (⟨(), [⟨5⟩, ⟨2⟩, ⟨1⟩], 7, by decide⟩ : ChangeLogEventV1 Unit) ⟨5⟩ [⟨2⟩, ⟨1⟩] :=
  ⟨rfl, leafOf_spec _ _ _ rfl⟩

/-- A path of 64 nodes, which any transaction can log through the noop program: the tree height is
63 and `2^63` does not fit in `i64`. A release build wraps `2i64.pow(63)` to `i64::MIN`, and the
node index `5` becomes the negative leaf index `5 - 2^63`. -/
theorem leafOf_wraps_on_long_path :
    i64Max < 2 ^ 63 ∧
      leafOf (⟨(), List.replicate 64 ⟨5⟩, 7, by decide⟩ : ChangeLogEventV1 Unit) = some ⟨5 - 2 ^ 63⟩ := by
  decide

end LeafIndex

/-! ## Per-tree vectors -/

section Records

@[simp] theorem except_ok_bind {ε α β : Type} (a : α) (f : α → Except ε β) :
    (Except.ok a >>= f) = f a := rfl

@[simp] theorem except_error_bind {ε α β : Type} (e : ε) (f : α → Except ε β) :
    (Except.error e >>= f) = .error e := rfl

@[simp] theorem except_pure {ε α : Type} (a : α) : (pure a : Except ε α) = .ok a := rfl

variable {K : Type} [DecidableEq K]

/-- The pairs the events of tree `t` push, in order. -/
def treeSeqUpdates (events : List (ChangeLogEventV1 K)) (t : K) : List (Nat × Option LeafNode) :=
  (events.filter fun cl => decide (cl.id = t)).map seqUpdate

/-- A map records a list of events when it holds, under each tree, the pairs of exactly that tree's
events in order, and has no entry for a tree without events. -/
structure RecordsEvents (seqUpdates : SeqUpdates K) (events : List (ChangeLogEventV1 K)) : Prop where
  lookup_getD : ∀ t, (seqUpdates.lookup t).getD [] = treeSeqUpdates events t
  mem_iff : ∀ t, t ∈ seqUpdates ↔ ∃ cl ∈ events, cl.id = t

/-- Pushing the pairs of events onto their trees' vectors, one after another. -/
def pushEvents (seqUpdates : SeqUpdates K) (events : List (ChangeLogEventV1 K)) : SeqUpdates K :=
  events.foldl (fun m cl => pushSeqUpdate m cl.id (seqUpdate cl)) seqUpdates

theorem pushEvents_append (seqUpdates : SeqUpdates K) (events events' : List (ChangeLogEventV1 K)) :
    pushEvents (pushEvents seqUpdates events) events' = pushEvents seqUpdates (events ++ events') :=
  (List.foldl_append _ _ _ _).symm

theorem recordsEvents_empty : RecordsEvents (∅ : SeqUpdates K) [] :=
  ⟨fun _ => rfl, fun _ => by simp⟩

/-- Pushing an event's pair onto its tree's vector records one more event. -/
theorem RecordsEvents.push {seqUpdates : SeqUpdates K} {events : List (ChangeLogEventV1 K)}
    (h : RecordsEvents seqUpdates events) (cl : ChangeLogEventV1 K) :
    RecordsEvents (pushSeqUpdate seqUpdates cl.id (seqUpdate cl)) (events ++ [cl]) := by
  refine ⟨fun t => ?_, fun t => ?_⟩
  · by_cases ht : cl.id = t
    · subst ht
      simpa [pushSeqUpdate, treeSeqUpdates] using h.lookup_getD cl.id
    · simp [pushSeqUpdate, treeSeqUpdates, AList.lookup_insert_ne (Ne.symm ht), ht, h.lookup_getD]
  · rw [pushSeqUpdate, AList.mem_insert, h.mem_iff]
    constructor
    · rintro (rfl | ⟨c, hc, rfl⟩)
      · exact ⟨cl, List.mem_append_right _ (List.mem_singleton_self _), rfl⟩
      · exact ⟨c, List.mem_append_left _ hc, rfl⟩
    · rintro ⟨c, hc, rfl⟩
      rcases List.mem_append.mp hc with hc | hc
      · exact .inr ⟨c, hc, rfl⟩
      · exact .inl (by rw [List.mem_singleton.mp hc])

/-- Pushing events records them after the ones recorded. -/
theorem RecordsEvents.pushEvents {seqUpdates : SeqUpdates K} {events : List (ChangeLogEventV1 K)}
    (h : RecordsEvents seqUpdates events) (events' : List (ChangeLogEventV1 K)) :
    RecordsEvents (TreeRepair.pushEvents seqUpdates events') (events ++ events') := by
  induction events' generalizing seqUpdates events with
  | nil => simpa [TreeRepair.pushEvents] using h
  | cons cl events' ih => simpa [TreeRepair.pushEvents] using ih (h.push cl)

end Records

/-! ## The loops -/

section Loops

variable {K : Type} [DecidableEq K] (codec : TxCodec K)

/-- The event an inner instruction carries: a compiled instruction whose program id resolves in the
account keys to the noop program, with base58 data that decodes as a change-log event. -/
def noopEvent (keys : List K) : UiInstruction → Option (ChangeLogEventV1 K)
  | .compiled i data =>
    if keys.get? i.toNat = some codec.noopId then
      match codec.bs58Decode data with
      | .ok bytes => codec.decodeChangeLog bytes
      | .error _ => none
    else none
  | .parsed => none

/-- `parse_tx_sequence` reads an inner instruction without error: its data is base58 when it is a
compiled instruction of the noop program. -/
def ReadsInstruction (keys : List K) : UiInstruction → Prop
  | .compiled i data =>
    keys.get? i.toNat = some codec.noopId → ∃ bytes, codec.bs58Decode data = .ok bytes
  | .parsed => True

variable {codec} {keys : List K}

/-- The loop body on an instruction it reads: the instruction's event, if any, is pushed. -/
theorem parseInnerIx_of_reads {ix : UiInstruction} (hr : ReadsInstruction codec keys ix)
    (seqUpdates : SeqUpdates K) :
    parseInnerIx codec keys seqUpdates ix = .ok (pushEvents seqUpdates (noopEvent codec keys ix).toList) := by
  cases ix with
  | parsed => rfl
  | compiled i data =>
    simp only [parseInnerIx, innerIxEvent, noopEvent]
    cases hk : keys.get? i.toNat with
    | none => rfl
    | some program =>
      by_cases hp : program = codec.noopId
      · subst hp
        obtain ⟨bytes, hb⟩ := hr hk
        cases hd : codec.decodeChangeLog bytes <;> simp [hb, hd, pushEvents]
      · simp [hp, pushEvents]

theorem parseInnerIx_of_not_reads {ix : UiInstruction} (hr : ¬ReadsInstruction codec keys ix)
    (seqUpdates : SeqUpdates K) : ∃ e, parseInnerIx codec keys seqUpdates ix = .error e := by
  cases ix with
  | parsed => exact absurd trivial hr
  | compiled i data =>
    simp only [ReadsInstruction, Classical.not_imp, not_exists] at hr
    obtain ⟨hk, hb⟩ := hr
    cases hd : codec.bs58Decode data with
    | ok bytes => exact absurd hd (hb bytes)
    | error e =>
      have hk' : keys[i.toNat]? = some codec.noopId := by simpa using hk
      exact ⟨.instruction e, by simp [parseInnerIx, innerIxEvent, hk', hd]⟩

/-- The inner loop, when it reads all its instructions, pushes their events in order. -/
theorem parseInnerIxs_of_reads {ixs : List UiInstruction}
    (hreads : ∀ ix ∈ ixs, ReadsInstruction codec keys ix) (seqUpdates : SeqUpdates K) :
    parseInnerIxs codec keys seqUpdates ixs = .ok (pushEvents seqUpdates (ixs.filterMap (noopEvent codec keys))) := by
  induction ixs generalizing seqUpdates with
  | nil => rfl
  | cons ix ixs ih =>
    have hrest := ih (fun ix' h' => hreads ix' (List.mem_cons_of_mem _ h'))
    rw [parseInnerIxs, parseInnerIx_of_reads (hreads ix (List.mem_cons_self _ _)), except_ok_bind, hrest,
      pushEvents_append]
    cases hev : noopEvent codec keys ix <;> simp [List.filterMap_cons, hev]

/-- The inner loop fails when it reaches an instruction it cannot read. -/
theorem parseInnerIxs_error {ixs : List UiInstruction}
    (hbad : ∃ ix ∈ ixs, ¬ReadsInstruction codec keys ix) (seqUpdates : SeqUpdates K) :
    ∃ e, parseInnerIxs codec keys seqUpdates ixs = .error e := by
  induction ixs generalizing seqUpdates with
  | nil => simp at hbad
  | cons ix ixs ih =>
    by_cases hr : ReadsInstruction codec keys ix
    · have hbad' : ∃ ix ∈ ixs, ¬ReadsInstruction codec keys ix := by
        obtain ⟨ix', hix', hr'⟩ := hbad
        rcases List.mem_cons.mp hix' with rfl | hix'
        · exact absurd hr hr'
        · exact ⟨ix', hix', hr'⟩
      simp only [parseInnerIxs, parseInnerIx_of_reads hr, except_ok_bind]
      exact ih hbad' _
    · obtain ⟨e, he⟩ := parseInnerIx_of_not_reads hr seqUpdates
      exact ⟨e, by simp [parseInnerIxs, he]⟩

/-- The outer loop, when it reads all the instructions, pushes their events in order. -/
theorem parseInnerInstructions_of_reads {vec : List (List UiInstruction)}
    (hreads : ∀ ix ∈ vec.flatten, ReadsInstruction codec keys ix) (seqUpdates : SeqUpdates K) :
    parseInnerInstructions codec keys seqUpdates vec =
      .ok (pushEvents seqUpdates (vec.flatten.filterMap (noopEvent codec keys))) := by
  induction vec generalizing seqUpdates with
  | nil => rfl
  | cons ixs rest ih =>
    simp only [List.flatten_cons, List.mem_append] at hreads
    rw [parseInnerInstructions, parseInnerIxs_of_reads (fun ix h => hreads ix (.inl h)), except_ok_bind,
      ih (fun ix h => hreads ix (.inr h)), List.flatten_cons, List.filterMap_append, pushEvents_append]

/-- The outer loop fails when it reaches an instruction it cannot read. -/
theorem parseInnerInstructions_error {vec : List (List UiInstruction)}
    (hbad : ∃ ix ∈ vec.flatten, ¬ReadsInstruction codec keys ix) (seqUpdates : SeqUpdates K) :
    ∃ e, parseInnerInstructions codec keys seqUpdates vec = .error e := by
  induction vec generalizing seqUpdates with
  | nil => simp at hbad
  | cons ixs rest ih =>
    by_cases hixs : ∃ ix ∈ ixs, ¬ReadsInstruction codec keys ix
    · obtain ⟨e, he⟩ := parseInnerIxs_error hixs seqUpdates
      exact ⟨e, by simp [parseInnerInstructions, he]⟩
    · have hrest : ∃ ix ∈ rest.flatten, ¬ReadsInstruction codec keys ix := by
        obtain ⟨ix, hix, hr⟩ := hbad
        rcases List.mem_append.mp (List.flatten_cons ▸ hix) with hix | hix
        · exact absurd ⟨ix, hix, hr⟩ hixs
        · exact ⟨ix, hix, hr⟩
      simp only [not_exists, not_and, not_not] at hixs
      simp only [parseInnerInstructions, parseInnerIxs_of_reads hixs, except_ok_bind]
      exact ih hrest _

theorem parseInnerInstructions_isOk_iff {vec : List (List UiInstruction)} (seqUpdates : SeqUpdates K) :
    (∃ seqUpdates', parseInnerInstructions codec keys seqUpdates vec = .ok seqUpdates') ↔
      ∀ ix ∈ vec.flatten, ReadsInstruction codec keys ix := by
  refine ⟨fun ⟨_, hok⟩ => ?_, fun hreads => ⟨_, parseInnerInstructions_of_reads hreads seqUpdates⟩⟩
  by_contra hbad
  push_neg at hbad
  obtain ⟨e, he⟩ := parseInnerInstructions_error hbad seqUpdates
  cases he.symm.trans hok

end Loops

/-! ## Account keys -/

section Keys

variable {K : Type} (codec : TxCodec K)

/-- The loaded addresses parse as the writable keys `wk` and the read-only keys `rk`. -/
def LoadedKeys : Option (List String × List String) → List K → List K → Prop
  | none, wk, rk => wk = [] ∧ rk = []
  | some (writable, readonly), wk, rk =>
    writable.mapM codec.pubkeyFromStr = .ok wk ∧ readonly.mapM codec.pubkeyFromStr = .ok rk

variable {codec}

theorem pushPubkeys_eq_ok_iff {accountKeys keys : List K} {pubkeys : List String} :
    pushPubkeys codec accountKeys pubkeys = .ok keys ↔
      ∃ parsed, pubkeys.mapM codec.pubkeyFromStr = .ok parsed ∧ keys = accountKeys ++ parsed := by
  induction pubkeys generalizing accountKeys with
  | nil => simp only [pushPubkeys, List.mapM_nil, except_pure, Except.ok.injEq, exists_eq_left,
      List.append_nil, eq_comm]
  | cons pubkey pubkeys ih =>
    cases hp : codec.pubkeyFromStr pubkey with
    | error e =>
      simp only [pushPubkeys, hp, List.mapM_cons, except_error_bind, reduceCtorEq, false_and,
        exists_false]
    | ok key =>
      simp only [pushPubkeys, hp, ih, List.mapM_cons, except_ok_bind]
      cases hm : pubkeys.mapM codec.pubkeyFromStr <;> simp [hm]

theorem LoadedKeys.unique {loaded : Option (List String × List String)} {wk rk wk' rk' : List K}
    (h : LoadedKeys codec loaded wk rk) (h' : LoadedKeys codec loaded wk' rk') : wk = wk' ∧ rk = rk' := by
  cases loaded with
  | none => exact ⟨h.1.trans h'.1.symm, h.2.trans h'.2.symm⟩
  | some p =>
    exact ⟨Except.ok.inj (h.1.symm.trans h'.1), Except.ok.inj (h.2.symm.trans h'.2)⟩

/-- The account keys are the static keys, then the loaded writable and read-only ones. -/
theorem loadAccountKeys_eq_ok_iff {staticKeys keys : List K} {loaded : Option (List String × List String)} :
    loadAccountKeys codec staticKeys loaded = .ok keys ↔
      ∃ wk rk, LoadedKeys codec loaded wk rk ∧ keys = staticKeys ++ wk ++ rk := by
  cases loaded with
  | none =>
    simp only [loadAccountKeys, LoadedKeys, Except.ok.injEq]
    constructor
    · rintro rfl
      exact ⟨[], [], ⟨rfl, rfl⟩, by simp⟩
    · rintro ⟨_, _, ⟨rfl, rfl⟩, rfl⟩
      simp
  | some p =>
    obtain ⟨writable, readonly⟩ := p
    simp only [loadAccountKeys, LoadedKeys]
    cases hw : pushPubkeys codec staticKeys writable with
    | error e =>
      simp only [except_error_bind, reduceCtorEq, false_iff, not_exists, not_and]
      rintro wk rk ⟨hwk, -⟩ -
      cases hw.symm.trans (pushPubkeys_eq_ok_iff.mpr ⟨wk, hwk, rfl⟩)
    | ok accountKeys =>
      obtain ⟨wk, hwk, rfl⟩ := pushPubkeys_eq_ok_iff.mp hw
      simp only [except_ok_bind, pushPubkeys_eq_ok_iff, hwk, Except.ok.injEq]
      constructor
      · rintro ⟨rk, hrk, rfl⟩
        exact ⟨wk, rk, ⟨rfl, hrk⟩, rfl⟩
      · rintro ⟨_, rk, ⟨rfl, hrk⟩, rfl⟩
        exact ⟨rk, hrk, rfl⟩

end Keys

/-! ## `parse_tx_sequence` -/

section Parse

variable {K : Type} [DecidableEq K] (codec : TxCodec K)

/-- What `parse_tx_sequence` returns for a transaction. -/
structure ParseTxSequenceSpec (tx : EncodedTx K) : Prop where
  /-- A failed transaction, or one without metadata, yields the empty map. -/
  of_failed : (∀ meta, tx.meta = some meta → ∃ e, meta.status = .error e) →
    parseTxSequence codec tx = .ok ∅
  /-- So does a successful one without inner instructions. -/
  of_no_inner : ∀ meta, tx.meta = some meta → meta.status = .ok () → meta.innerInstructions = none →
    parseTxSequence codec tx = .ok ∅
  /-- A successful one with inner instructions yields a map exactly when the transaction decodes,
  its loaded addresses parse, and the data of its noop instructions is base58. -/
  isOk_iff : ∀ meta vec, tx.meta = some meta → meta.status = .ok () →
    meta.innerInstructions = some vec →
    ((∃ seqUpdates, parseTxSequence codec tx = .ok seqUpdates) ↔
      ∃ sk wk rk, tx.staticAccountKeys = some sk ∧ LoadedKeys codec meta.loadedAddresses wk rk ∧
        ∀ ix ∈ vec.flatten, ReadsInstruction codec (sk ++ wk ++ rk) ix)
  /-- The map then records the events of the noop instructions, in inner-instruction order, with
  program ids resolved in the static keys, then the loaded writable and read-only ones. -/
  records : ∀ meta vec sk wk rk seqUpdates, tx.meta = some meta → meta.status = .ok () →
    meta.innerInstructions = some vec → tx.staticAccountKeys = some sk →
    LoadedKeys codec meta.loadedAddresses wk rk → parseTxSequence codec tx = .ok seqUpdates →
    RecordsEvents seqUpdates (vec.flatten.filterMap (noopEvent codec (sk ++ wk ++ rk)))
  /-- An event's leaf is `None` exactly when its path is empty. -/
  leaf_eq_none_iff : ∀ cl : ChangeLogEventV1 K, (seqUpdate cl).2 = none ↔ cl.path = []

variable {codec} {tx : EncodedTx K} {meta : UiTransactionStatusMeta}

/-- A successful transaction with inner instructions: the decoding, the account keys, then the
two loops. -/
theorem parseTxSequence_of_inner (hmeta : tx.meta = some meta) (hstatus : meta.status = .ok ())
    {vec : List (List UiInstruction)} (hinner : meta.innerInstructions = some vec) :
    parseTxSequence codec tx = (do
      let staticKeys ← tx.staticAccountKeys.elim (.error .transaction) .ok
      let accountKeys ← loadAccountKeys codec staticKeys meta.loadedAddresses
      parseInnerInstructions codec accountKeys ∅ vec) := by
  simp [parseTxSequence, hmeta, hstatus, hinner, Except.toBool]

theorem parseTxSequence_spec (tx : EncodedTx K) : ParseTxSequenceSpec codec tx := by
  refine ⟨fun hfail => ?_, fun meta hmeta hstatus hinner => ?_, fun meta vec hmeta hstatus hinner => ?_,
    fun meta vec sk wk rk seqUpdates hmeta hstatus hinner hsk hl hok => ?_, fun cl => ?_⟩
  · cases hm : tx.meta with
    | none => simp [parseTxSequence, hm]
    | some meta =>
      obtain ⟨e, he⟩ := hfail meta hm
      simp [parseTxSequence, hm, he, Except.toBool]
  · simp [parseTxSequence, hmeta, hstatus, hinner, Except.toBool]
  · rw [parseTxSequence_of_inner hmeta hstatus hinner]
    cases hsk : tx.staticAccountKeys with
    | none => simp
    | some sk =>
      cases hk : loadAccountKeys codec sk meta.loadedAddresses with
      | error e =>
        simp only [Option.elim, except_ok_bind, hk, except_error_bind, reduceCtorEq, exists_false,
          false_iff, not_exists, not_and, Option.some.injEq]
        rintro _ wk rk rfl hl -
        cases hk.symm.trans (loadAccountKeys_eq_ok_iff.mpr ⟨wk, rk, hl, rfl⟩)
      | ok keys =>
        obtain ⟨wk, rk, hl, rfl⟩ := loadAccountKeys_eq_ok_iff.mp hk
        simp only [Option.elim, except_ok_bind, hk, parseInnerInstructions_isOk_iff, Option.some.injEq]
        constructor
        · exact fun hreads => ⟨sk, wk, rk, rfl, hl, hreads⟩
        · rintro ⟨_, wk', rk', rfl, hl', hreads⟩
          obtain ⟨rfl, rfl⟩ := hl.unique hl'
          exact hreads
  · rw [parseTxSequence_of_inner hmeta hstatus hinner, hsk, Option.elim,
      except_ok_bind, loadAccountKeys_eq_ok_iff.mpr ⟨wk, rk, hl, rfl⟩, except_ok_bind] at hok
    have hreads := (parseInnerInstructions_isOk_iff ∅).mp ⟨_, hok⟩
    rw [parseInnerInstructions_of_reads hreads, Except.ok.injEq] at hok
    subst hok
    simpa using recordsEvents_empty.pushEvents (vec.flatten.filterMap (noopEvent codec (sk ++ wk ++ rk)))
  · cases hp : cl.path <;> simp [seqUpdate, leafOf, hp]

/-- A successful transaction whose one inner instruction is a noop instruction with data that is
not base58 (`0`, `O`, `I` and `l` are no base58 digits): `parse_tx_sequence` returns the error, not
a map. -/
theorem parseTxSequence_fails_on_bad_base58 :
    parseTxSequence
        (⟨0, fun data => if data = "0OIl" then .error "invalid base58 character" else .ok [],
          fun _ => none, fun _ => .ok 0⟩ : TxCodec Nat)
        ⟨some ⟨.ok (), some [[.compiled 0 "0OIl"]], none⟩, some [0]⟩ =
      .error (.instruction "invalid base58 character") :=
  rfl

end Parse

end TreeRepair
