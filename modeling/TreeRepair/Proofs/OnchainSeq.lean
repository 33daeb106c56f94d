import TreeRepair.OnchainSeq
import TreeRepair.Proofs.CheckTree

/-!
# `get_onchain_tree_seq` on every account, and the `check-trees` loop

`get_onchain_tree_seq` returns the little-endian `u64` after the header exactly when the data holds
a header that decodes, followed by at least `merkle_tree_get_size(header) ≥ 8` bytes. It panics
when the data is shorter than the header or than the size the header gives, or when that size is
below 8: `split_at_mut` and the slice index check their bounds with a panic, not an error
(`getOnchainTreeSeq_spec`). A `check_tree` panics exactly when `get_onchain_tree_seq` does or
returns a seq of `2^63` or more, which `try_into().unwrap()` refuses (`isPanic_checkTreeOf`).
The `check-trees` loop logs each check's error and goes on to the next tree
(`checkTrees_loop`); a panic ends it, so an account with empty data stops every later check
(`checkTrees_stops_at_short_account`).
-/

namespace TreeRepair

open Outcome

/-! ## Slices -/

section Slices

variable {data : List UInt8}

theorem splitAtMut_eq_ok_iff {mid : Nat} {p : List UInt8 × List UInt8} :
    splitAtMut data mid = .ok p ↔ mid ≤ data.length ∧ p = (data.take mid, data.drop mid) := by
  unfold splitAtMut; split <;> simp [*, eq_comm]

theorem isPanic_splitAtMut {mid : Nat} : (splitAtMut data mid).isPanic = true ↔ data.length < mid := by
  unfold splitAtMut; split <;> simp <;> omega

theorem sliceTo_eq_ok_iff {hi : Nat} {s : List UInt8} :
    sliceTo data hi = .ok s ↔ hi ≤ data.length ∧ s = data.take hi := by
  unfold sliceTo; split <;> simp [*, eq_comm]

theorem isPanic_sliceTo {hi : Nat} : (sliceTo data hi).isPanic = true ↔ data.length < hi := by
  unfold sliceTo; split <;> simp <;> omega

/-- The conversion of the slice `&tree_bytes[0..8]` into `[u8; 8]` never fails. -/
theorem tryIntoArray_take {n : Nat} (h : n ≤ data.length) : tryIntoArray n (data.take n) = .ok (data.take n) :=
  if_pos (by simp [h])

end Slices

/-! ## `get_onchain_tree_seq` -/

section Read

variable {H : Type} (codec : TreeAccountCodec H) (accountInfo : Except String (Option (List UInt8)))

theorem getOnchainTreeSeq_eq_ok_iff {seq : Nat} :
    getOnchainTreeSeq codec accountInfo = .ok seq ↔
      ∃ data header size, accountInfo = .ok (some data) ∧
        codec.tryFromSlice (data.take concurrentMerkleTreeHeaderSizeV1) = .ok header ∧
        codec.merkleTreeGetSize header = .ok size ∧ 8 ≤ size ∧
        concurrentMerkleTreeHeaderSizeV1 + size ≤ data.length ∧
        seq = u64FromLeBytes ((data.drop concurrentMerkleTreeHeaderSizeV1).take 8) := by
  simp only [getOnchainTreeSeq, bind_eq_ok_iff, ofExcept_eq_ok_iff, okOr_eq_ok_iff,
    splitAtMut_eq_ok_iff, sliceTo_eq_ok_iff, withContext_eq_ok_iff, pure_eq, ok.injEq]
  constructor
  · rintro ⟨_, rfl, data, rfl, _, ⟨h56, rfl⟩, header, hh, size, hs, _, ⟨hle, rfl⟩, _, ⟨h8, rfl⟩,
      bytes, hb, rfl⟩
    simp only [List.length_drop, List.length_take] at hle h8
    rw [tryIntoArray_take (by simp; omega), Except.ok.injEq] at hb
    refine ⟨data, header, size, rfl, hh, hs, by omega, by omega, ?_⟩
    rw [← hb, List.take_take, Nat.min_eq_left (by omega)]
  · rintro ⟨data, header, size, rfl, hh, hs, h8, hle, rfl⟩
    refine ⟨_, rfl, data, rfl, _, ⟨by omega, rfl⟩, header, hh, size, hs, _, ⟨by simp; omega, rfl⟩,
      _, ⟨by simp; omega, rfl⟩, _, tryIntoArray_take (by simp; omega), ?_⟩
    rw [List.take_take, Nat.min_eq_left h8]

theorem isPanic_getOnchainTreeSeq :
    (getOnchainTreeSeq codec accountInfo).isPanic = true ↔
      ∃ data, accountInfo = .ok (some data) ∧ (data.length < concurrentMerkleTreeHeaderSizeV1 ∨
        ∃ header size, codec.tryFromSlice (data.take concurrentMerkleTreeHeaderSizeV1) = .ok header ∧
          codec.merkleTreeGetSize header = .ok size ∧
          (data.length < concurrentMerkleTreeHeaderSizeV1 + size ∨ size < 8)) := by
  simp only [getOnchainTreeSeq, isPanic_bind, ofExcept_eq_ok_iff, okOr_eq_ok_iff, isPanic_ofExcept,
    isPanic_okOr, isPanic_withContext, splitAtMut_eq_ok_iff, isPanic_splitAtMut, isPanic_sliceTo,
    sliceTo_eq_ok_iff, pure_eq, isPanic_ok, Bool.false_eq_true, false_or, and_false, exists_false,
    or_false, and_assoc, exists_and_left, exists_eq_left, List.length_drop, List.length_take]
  constructor
  · rintro ⟨_, rfl, data, rfl, hshort | ⟨-, header, hh, size, hs, hsize⟩⟩
    · exact ⟨data, rfl, .inl hshort⟩
    · exact ⟨data, rfl, .inr ⟨header, hh, size, hs, by omega⟩⟩
  · rintro ⟨data, rfl, hshort | ⟨header, hh, size, hs, hsize⟩⟩
    · exact ⟨_, rfl, data, rfl, .inl hshort⟩
    refine ⟨_, rfl, data, rfl, ?_⟩
    by_cases h56 : data.length < concurrentMerkleTreeHeaderSizeV1
    · exact .inl h56
    · exact .inr ⟨by omega, header, hh, size, hs, by omega⟩

/-- What `get_onchain_tree_seq` does with what `get_account_with_commitment` returns. -/
structure OnchainSeqSpec (codec : TreeAccountCodec H) (accountInfo : Except String (Option (List UInt8))) :
    Prop where
  /-- It returns the little-endian `u64` after the header exactly when the data holds a header that
  decodes, followed by at least `merkle_tree_get_size(header) ≥ 8` bytes. -/
  eq_ok_iff : ∀ seq, getOnchainTreeSeq codec accountInfo = .ok seq ↔
    ∃ data header size, accountInfo = .ok (some data) ∧
      codec.tryFromSlice (data.take concurrentMerkleTreeHeaderSizeV1) = .ok header ∧
      codec.merkleTreeGetSize header = .ok size ∧ 8 ≤ size ∧
      concurrentMerkleTreeHeaderSizeV1 + size ≤ data.length ∧
      seq = u64FromLeBytes ((data.drop concurrentMerkleTreeHeaderSizeV1).take 8)
  /-- It panics exactly when the data is shorter than the header, or the header decodes but the
  data is shorter than the header and the tree, or the tree is shorter than 8 bytes. -/
  isPanic_iff : (getOnchainTreeSeq codec accountInfo).isPanic = true ↔
    ∃ data, accountInfo = .ok (some data) ∧ (data.length < concurrentMerkleTreeHeaderSizeV1 ∨
      ∃ header size, codec.tryFromSlice (data.take concurrentMerkleTreeHeaderSizeV1) = .ok header ∧
        codec.merkleTreeGetSize header = .ok size ∧
        (data.length < concurrentMerkleTreeHeaderSizeV1 + size ∨ size < 8))

/-- `get_onchain_tree_seq` on every account: when it returns the seq, and when it panics. Every
other call, a missing account included, returns an error. -/
theorem getOnchainTreeSeq_spec : OnchainSeqSpec codec accountInfo :=
  ⟨fun _ => getOnchainTreeSeq_eq_ok_iff codec accountInfo, isPanic_getOnchainTreeSeq codec accountInfo⟩

/-! ## The stored sequence number -/

/-- `u64::to_le_bytes`, over `k` bytes: the least significant byte first. This is how the
account-compression program stores the tree's sequence number. -/
def toLeBytes : Nat → Nat → List UInt8
  | 0, _ => []
  | k + 1, n => UInt8.ofNat n :: toLeBytes k (n / 256)

@[simp] theorem length_toLeBytes (k n : Nat) : (toLeBytes k n).length = k := by
  induction k generalizing n <;> simp [toLeBytes, *]

/-- Reading the bytes back gives the number modulo `256^k`. -/
theorem u64FromLeBytes_toLeBytes (k n : Nat) : u64FromLeBytes (toLeBytes k n) = n % 256 ^ k := by
  induction k generalizing n with
  | zero => rw [Nat.pow_zero, Nat.mod_one]; rfl
  | succ k ih =>
    have hb : (UInt8.ofNat n).toNat = n % 256 := rfl
    rw [toLeBytes, u64FromLeBytes, ih, hb, Nat.pow_succ', Nat.mod_mul]

/-- Writing a read number back gives the bytes. -/
theorem toLeBytes_u64FromLeBytes (bs : List UInt8) : toLeBytes bs.length (u64FromLeBytes bs) = bs := by
  induction bs with
  | nil => rfl
  | cons b bs ih =>
    have hb : b.toNat < 256 := UInt8.toNat_lt_size b
    have hdiv : (b.toNat + 256 * u64FromLeBytes bs) / 256 = u64FromLeBytes bs := by omega
    have hlow : UInt8.ofNat (b.toNat + 256 * u64FromLeBytes bs) = b :=
      UInt8.toNat.inj (show (b.toNat + 256 * u64FromLeBytes bs) % 256 = b.toNat by omega)
    rw [List.length_cons, toLeBytes, u64FromLeBytes, hdiv, hlow, ih]

theorem u64FromLeBytes_lt (bs : List UInt8) : u64FromLeBytes bs < 256 ^ bs.length := by
  induction bs with
  | nil => exact Nat.one_pos
  | cons b bs ih =>
    have hb : b.toNat < 256 := UInt8.toNat_lt_size b
    rw [u64FromLeBytes, List.length_cons, Nat.pow_succ']
    omega

/-- What `get_onchain_tree_seq` returns is a `u64`. -/
theorem getOnchainTreeSeq_lt {seq : Nat} (h : getOnchainTreeSeq codec accountInfo = .ok seq) :
    seq < 2 ^ 64 := by
  obtain ⟨data, -, -, -, -, -, -, -, rfl⟩ := (getOnchainTreeSeq_eq_ok_iff codec accountInfo).mp h
  calc u64FromLeBytes ((data.drop concurrentMerkleTreeHeaderSizeV1).take 8)
      < 256 ^ ((data.drop concurrentMerkleTreeHeaderSizeV1).take 8).length := u64FromLeBytes_lt _
    _ ≤ 256 ^ 8 := Nat.pow_le_pow_right (by decide) (List.length_take_le _ _)
    _ = 2 ^ 64 := rfl

/-- For every header decoder and `merkle_tree_get_size`: `get_onchain_tree_seq` returns a `u64`;
and on an account whose header decodes to a tree of `size ≥ 8` bytes, followed by the tree, which
starts with a `u64` sequence number stored little-endian, it reads back that number. -/
theorem getOnchainTreeSeq_reads_stored_seq (codec : TreeAccountCodec H) :
    (∀ accountInfo seq, getOnchainTreeSeq codec accountInfo = .ok seq → seq < 2 ^ 64) ∧
      ∀ headerBytes header size seq tail,
        headerBytes.length = concurrentMerkleTreeHeaderSizeV1 →
        codec.tryFromSlice headerBytes = .ok header → codec.merkleTreeGetSize header = .ok size →
        8 ≤ size → size ≤ 8 + tail.length → seq < 2 ^ 64 →
        getOnchainTreeSeq codec (.ok (some (headerBytes ++ toLeBytes 8 seq ++ tail))) = .ok seq := by
  refine ⟨fun accountInfo seq h => getOnchainTreeSeq_lt codec accountInfo h,
    fun headerBytes header size seq tail hl hh hs h8 htail hseq => ?_⟩
  refine (getOnchainTreeSeq_eq_ok_iff codec _).mpr ⟨_, header, size, rfl, ?_, hs, h8, ?_, ?_⟩
  · rwa [List.append_assoc, List.take_left' hl]
  · simp only [List.length_append, length_toLeBytes, hl]; omega
  · rw [List.append_assoc, List.drop_left' hl, List.take_left' (length_toLeBytes 8 seq),
      u64FromLeBytes_toLeBytes, Nat.mod_eq_of_lt (show seq < 256 ^ 8 from hseq)]

end Read

/-- A codec that accepts every header and sizes every tree at 8 bytes, over 56 zero header bytes
and the seq `300`: it is read back. -/
theorem getOnchainTreeSeq_reads_stored_seq_example :
    let codec : TreeAccountCodec Unit := ⟨fun _ => .ok (), fun _ => .ok 8⟩
    (List.replicate 56 0).length = concurrentMerkleTreeHeaderSizeV1 ∧
      codec.tryFromSlice (List.replicate 56 0) = .ok () ∧ codec.merkleTreeGetSize () = .ok 8 ∧
      8 ≤ 8 ∧ 8 ≤ 8 + ([] : List UInt8).length ∧ 300 < 2 ^ 64 ∧
      getOnchainTreeSeq codec (.ok (some (List.replicate 56 0 ++ toLeBytes 8 300 ++ []))) = .ok 300 :=
  ⟨rfl, rfl, rfl, le_rfl, le_rfl, by decide,
    (getOnchainTreeSeq_reads_stored_seq _).2 _ () 8 300 [] rfl rfl rfl le_rfl le_rfl (by decide)⟩

/-! ## The `check-trees` loop -/

section Loop

variable {H : Type} {codec : TreeAccountCodec H} {order : RowOrder}

/-- A check panics exactly when `get_onchain_tree_seq` panics or returns a seq of `2^63` or more. -/
theorem isPanic_checkTreeOf {tree : TreeInput} :
    (checkTreeOf codec order tree).2.isPanic = true ↔
      (getOnchainTreeSeq codec tree.accountInfo).isPanic = true ∨
        ∃ seq, getOnchainTreeSeq codec tree.accountInfo = .ok seq ∧ 2 ^ 63 ≤ seq := by
  unfold checkTreeOf
  cases getOnchainTreeSeq codec tree.accountInfo <;> simp [isPanic_checkTree, isPanic_readTreeSeqs]

/-- How `main`'s `check-trees` loop treats the trees it reads. -/
structure CheckTreesLoop (codec : TreeAccountCodec H) (order : RowOrder) : Prop where
  /-- A check panics exactly when `get_onchain_tree_seq` panics or returns a seq of `2^63` or
  more. -/
  panic_iff : ∀ tree : TreeInput, (checkTreeOf codec order tree).2.isPanic = true ↔
    (getOnchainTreeSeq codec tree.accountInfo).isPanic = true ∨
      ∃ seq, getOnchainTreeSeq codec tree.accountInfo = .ok seq ∧ 2 ^ 63 ≤ seq
  /-- Such a check ends the loop with its panic: no later input is read. -/
  stops_at_panic : ∀ tree rest, (checkTreeOf codec order tree).2.isPanic = true →
    checkTrees codec order (.ok tree :: rest) =
      ([checkTreeOf codec order tree], (checkTreeOf codec order tree).2)
  /-- Trees whose checks cannot panic are checked in turn, each error logged, and the loop goes on
  with the rest of the input. -/
  append : ∀ (trees : List TreeInput) rest,
    (∀ tree ∈ trees, (getOnchainTreeSeq codec tree.accountInfo).isPanic = false ∧
      ∀ seq, getOnchainTreeSeq codec tree.accountInfo = .ok seq → seq < 2 ^ 63) →
    checkTrees codec order (trees.map .ok ++ rest) =
      (trees.map (checkTreeOf codec order) ++ (checkTrees codec order rest).1,
        (checkTrees codec order rest).2)

/-- Checks that do not panic run one after another. -/
theorem checkTrees_append_of_no_panic (trees : List TreeInput) (rest : List (Except String TreeInput))
    (h : ∀ tree ∈ trees, (checkTreeOf codec order tree).2.isPanic = false) :
    checkTrees codec order (trees.map .ok ++ rest) =
      (trees.map (checkTreeOf codec order) ++ (checkTrees codec order rest).1,
        (checkTrees codec order rest).2) := by
  induction trees with
  | nil => rfl
  | cons tree trees ih =>
    simp [checkTrees, h tree (List.mem_cons_self _ _), ih fun t ht => h t (List.mem_cons_of_mem _ ht)]

/-- For every header decoder, every order of the database's rows and every input, how the
`check-trees` loop runs. -/
theorem checkTrees_loop (codec : TreeAccountCodec H) (order : RowOrder) :
    CheckTreesLoop codec order where
  panic_iff _ := isPanic_checkTreeOf
  stops_at_panic _ _ h := by simp [checkTrees, h]
  append trees rest htrees := checkTrees_append_of_no_panic trees rest fun tree ht => by
    obtain ⟨hp, hseq⟩ := htrees tree ht
    rw [Bool.eq_false_iff, ne_eq, isPanic_checkTreeOf, hp]
    rintro (h | ⟨seq, h, hge⟩)
    · cases h
    · exact absurd (hseq seq h) (by omega)

/-- An account whose data is shorter than the header (here empty, as for a wallet's pubkey) makes
`split_at_mut` panic, whatever the codec: the loop stops there and checks no later tree. A
check or a fix whose on-chain seq is `2^63` panics at `try_into().unwrap()`. -/
theorem checkTrees_stops_at_short_account :
    (∀ (codec : TreeAccountCodec H) (order : RowOrder) (rows : List ClAudit)
        (rest : List (Except String TreeInput)),
      checkTrees codec order (.ok ⟨.ok (some []), rows⟩ :: rest) =
        ([([], .panic "mid > len")], .panic "mid > len")) ∧
    (∀ (findAndForward : List Int → Outcome Unit) (order : RowOrder) (rows : List ClAudit),
      checkTree order (.ok (2 ^ 63)) rows = ([], .panic "called Result::unwrap() on an Err value") ∧
      fixTree findAndForward order (.ok (2 ^ 63)) rows =
        ([], .panic "called Result::unwrap() on an Err value")) :=
  ⟨fun _ _ _ _ => rfl, fun _ _ _ => by
    simp only [checkTree, fixTree, inspectTree, readTreeSeqs_of_ge le_rfl, and_self]⟩

end Loop

end TreeRepair
