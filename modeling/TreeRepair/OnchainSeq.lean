import TreeRepair.CheckTree

/-!
# `get_onchain_tree_seq` and the `check-trees` loop

`get_onchain_tree_seq` fetches the tree's account and reads the sequence number of the concurrent
Merkle tree stored in it. The account data is a header of `CONCURRENT_MERKLE_TREE_HEADER_SIZE_V1`
bytes, then the tree of `merkle_tree_get_size(&header)` bytes, then the canopy; the tree starts with
its sequence number, a little-endian `u64`. The header's borsh decoder and `merkle_tree_get_size`
belong to `spl_account_compression`, outside this repository: they are the fields of
`TreeAccountCodec`.

`main` runs `check_tree` on each pubkey of its input: a pubkey that does not parse ends `main`
with the error, an error of `check_tree` is logged and the loop goes on, and a panic ends the
program.
-/

namespace TreeRepair

/-- `CONCURRENT_MERKLE_TREE_HEADER_SIZE_V1`: the account type, the header version and the 54 bytes
of `ConcurrentMerkleTreeHeaderDataV1`. -/
def concurrentMerkleTreeHeaderSizeV1 : Nat := 2 + 54

/-- What `get_onchain_tree_seq` calls of `spl_account_compression`, over headers of type `H`:
`ConcurrentMerkleTreeHeader::try_from_slice` and `merkle_tree_get_size`. -/
structure TreeAccountCodec (H : Type) where
  tryFromSlice : List UInt8 → Except String H
  merkleTreeGetSize : H → Except String Nat

/-- `data.split_at_mut(mid)`: the first `mid` bytes and the rest; a panic when `mid` is past the
end. -/
def splitAtMut (data : List UInt8) (mid : Nat) : Outcome (List UInt8 × List UInt8) :=
  if mid ≤ data.length then .ok (data.take mid, data.drop mid) else .panic "mid > len"

/-- `&data[0..hi]`: a panic when `hi` is past the end. -/
def sliceTo (data : List UInt8) (hi : Nat) : Outcome (List UInt8) :=
  if hi ≤ data.length then .ok (data.take hi)
  else .panic ("range end index " ++ toString hi ++ " out of range for slice of length " ++
    toString data.length)

/-- `<[u8; n]>::try_from(slice)`: fails unless the slice has `n` bytes. -/
def tryIntoArray (n : Nat) (slice : List UInt8) : Except String (List UInt8) :=
  if slice.length = n then .ok slice else .error "could not convert slice to array"

/-- `u64::from_le_bytes`: the first byte is the least significant. -/
def u64FromLeBytes : List UInt8 → Nat
  | [] => 0
  | b :: bs => b.toNat + 256 * u64FromLeBytes bs

variable {H : Type}

/-- `get_onchain_tree_seq`, given what `get_account_with_commitment` returns: an RPC error, or the
account's data if the account exists. -/
def getOnchainTreeSeq (codec : TreeAccountCodec H)
    (accountInfo : Except String (Option (List UInt8))) : Outcome Nat := do
  let value ← Outcome.ofExcept accountInfo
  let data ← Outcome.okOr "No account found" value
  let (headerBytes, rest) ← splitAtMut data concurrentMerkleTreeHeaderSizeV1
  let header ← Outcome.ofExcept (codec.tryFromSlice headerBytes)
  let merkleTreeSize ← Outcome.ofExcept (codec.merkleTreeGetSize header)
  let (treeBytes, _canopyBytes) ← splitAtMut rest merkleTreeSize
  let slice ← sliceTo treeBytes 8
  let seqBytes ← Outcome.withContext "Error parsing bytes" (tryIntoArray 8 slice)
  pure (u64FromLeBytes seqBytes)

/-- What `check_tree` reads of one tree: the account the RPC node returns and the tree's
`cl_audits` rows. -/
structure TreeInput where
  accountInfo : Except String (Option (List UInt8))
  rows : List ClAudit

/-- `check_tree(pubkey, &client, &conn)`: `checkTree` on what `get_onchain_tree_seq` returns for
the tree's account; a panic of `get_onchain_tree_seq` unwinds through `check_tree`. -/
def checkTreeOf (codec : TreeAccountCodec H) (order : RowOrder) (tree : TreeInput) :
    List TreeLog × Outcome Unit :=
  match getOnchainTreeSeq codec tree.accountInfo with
  | .ok seq => checkTree order (.ok seq) tree.rows
  | .err e => checkTree order (.error e) tree.rows
  | .panic m => ([], .panic m)

/-- The `CheckTree`/`CheckTrees` arm of `main`: `while let Some(maybe_pubkey) = pubkeys.next()`,
`maybe_pubkey?`, then `check_tree`, whose error is logged. An input is a tree, or the error of
reading or parsing its pubkey. The result holds each check's logs and outcome, and how `main`
ends. -/
def checkTrees (codec : TreeAccountCodec H) (order : RowOrder) :
    List (Except String TreeInput) → List (List TreeLog × Outcome Unit) × Outcome Unit
  | [] => ([], .ok ())
  | .error e :: _ => ([], .err e)
  | .ok tree :: trees =>
    let run := checkTreeOf codec order tree
    if run.2.isPanic then ([run], run.2)
    else
      let (runs, result) := checkTrees codec order trees
      (run :: runs, result)

end TreeRepair
