import TreeRepair.Ingester
import Mathlib.Order.MinMax

/-!
# Account resolution and acknowledgement in the ingester

`process_instruction` guards with `keys.len() < max` and then skips, in its fold, every index that
is out of range. The two agree except when the largest index equals `keys.len()`: that index is out
of range, yet passes the guard, and the bundle gets fewer keys than the instruction has indices
(`processInstruction_drops_index_at_len`). Off that boundary the bundle's keys are `keys[a[i]]`
(`processInstruction_of_max_ne_length`).

`handle_transaction` pushes the message's id inside the instruction loop, once per instruction that
succeeds (`handleTransaction_acks_per_instruction`): its ids are the batch's ids in order, each
repeated at most as often as its message has instructions (`handleTransaction_ids_replicate`).
Its sibling `handle_account` pushes an id once, after the whole update succeeded, so the ids it
acknowledges form a sublist of those of the messages that decode; it panics when an update has no
owner (`handleAccount_acks_sublist`). Over a whole run of `service_account_stream`, the acknowledged ids
are then a sublist of the delivered ones (`serviceAccountStream_acks_sublist`).
-/

namespace TreeRepair

variable {K σ : Type}

/-! ## `process_instruction` -/

section ProcessInstruction

variable {keys : List K} {ixAccounts : List UInt8}

theorem foldl_push_some {α β : Type} (g : α → Option β) (acc : List β) (l : List α) :
    l.foldl (fun acc a => match g a with
      | some k => acc ++ [k]
      | none => acc) acc = acc ++ l.filterMap g := by
  induction l generalizing acc with
  | nil => simp
  | cons a as ih =>
    rw [List.foldl_cons, ih, List.filterMap_cons]
    rcases g a with _ | k <;> simp

/-- The fold keeps the keys of the indices in range, in order. -/
theorem instructionKeys_eq_filterMap :
    instructionKeys keys ixAccounts = ixAccounts.filterMap fun a => keys[a.toNat]? :=
  (foldl_push_some (fun (a : UInt8) => keys[a.toNat]?) [] ixAccounts).trans (List.nil_append _)

/-- With every index in range, the `i`-th resolved key is `keys[a[i]]`. -/
theorem map_some_instructionKeys (h : ∀ a ∈ ixAccounts, a.toNat < keys.length) :
    (instructionKeys keys ixAccounts).map some = ixAccounts.map fun a => keys[a.toNat]? := by
  rw [instructionKeys_eq_filterMap]
  induction ixAccounts with
  | nil => rfl
  | cons a as ih =>
    have ha := h a (List.mem_cons_self _ _)
    simp only [List.filterMap_cons, List.getElem?_eq_getElem ha, List.map_cons,
      ih fun b hb => h b (List.mem_cons_of_mem _ hb)]

theorem le_maxAccountIndex {a : UInt8} (ha : a ∈ ixAccounts) : a.toNat ≤ maxAccountIndex ixAccounts := by
  unfold maxAccountIndex
  cases hm : (ixAccounts.map UInt8.toNat).max? with
  | none =>
    rw [List.max?_eq_none_iff, List.map_eq_nil_iff] at hm
    simp [hm] at ha
  | some m =>
    exact (List.max?_le_iff (fun _ _ _ => Nat.max_le) hm).mp le_rfl _ (List.mem_map_of_mem _ ha)

theorem maxAccountIndex_lt (h : ∀ a ∈ ixAccounts, a.toNat < keys.length) (hne : ixAccounts ≠ []) :
    maxAccountIndex ixAccounts < keys.length := by
  unfold maxAccountIndex
  cases hm : (ixAccounts.map UInt8.toNat).max? with
  | none => simp [List.max?_eq_none_iff, hne] at hm
  | some m =>
    obtain ⟨a, ha, rfl⟩ := List.mem_map.mp (List.max?_mem max_choice hm)
    exact h a ha

/-- Off the boundary `max = keys.len()`, `process_instruction` does what its guard means: it
returns the "Missing Accounts" error when some index is out of range, and otherwise calls
`handle_instruction` with the key `keys[a[i]]` for the `i`-th index. -/
theorem processInstruction_of_max_ne_length (manager : ProgramTransformer K σ) (slot : Nat)
    (program : K) (ix : Instruction) (innerIx : Option (List (IxPair K))) (st : σ)
    (h : maxAccountIndex (ix.accounts.getD []) ≠ keys.length) :
    ((∃ a ∈ ix.accounts.getD [], keys.length ≤ a.toNat) →
      processInstruction manager slot keys (program, ix) innerIx st =
        (.error (.deserializationError "Missing Accounts in Serialized Ixn/Txn"), st)) ∧
    ((∀ a ∈ ix.accounts.getD [], a.toNat < keys.length) →
      ∃ ks : List K, ks.map some = (ix.accounts.getD []).map (fun a => keys[a.toNat]?) ∧
        processInstruction manager slot keys (program, ix) innerIx st =
          manager.handleInstruction
            { txnId := "", program, instruction := ix, innerIx, keys := ks, slot } st) := by
  refine ⟨fun ⟨a, ha, hle⟩ => ?_, fun hlt => ⟨_, map_some_instructionKeys hlt, ?_⟩⟩
  · have := le_maxAccountIndex ha
    simp only [processInstruction, show keys.length < maxAccountIndex (ix.accounts.getD []) by
      omega, if_true]
  · have hnlt : ¬ keys.length < maxAccountIndex (ix.accounts.getD []) := by
      by_cases hne : ix.accounts.getD [] = []
      · simp [hne, maxAccountIndex]
      · have := maxAccountIndex_lt hlt hne
        omega
    simp only [processInstruction, hnlt, if_false]

/-- Index `1` over the single key `[7]`: the guard `1 < 1` lets it through, the fold skips it, and
`handle_instruction` gets a bundle with no key for the instruction's one account. -/
theorem processInstruction_drops_index_at_len (manager : ProgramTransformer Nat σ) (st : σ) :
    processInstruction manager 0 [7] (0, ⟨some [1], []⟩) none st =
      manager.handleInstruction
        { txnId := "", program := 0, instruction := ⟨some [1], []⟩, innerIx := none, keys := [],
          slot := 0 } st :=
  rfl

end ProcessInstruction

/-! ## `handle_transaction` -/

/-- A program transformer that handles the instructions and the account updates of program `0`
and fails on the others; every transaction breaks into two instructions of program `0` and one of
program `1`. -/
def okOkErrTransformer : ProgramTransformer Nat Unit where
  breakTransaction _ := [((0, ⟨none, []⟩), none), ((0, ⟨none, []⟩), none), ((1, ⟨none, []⟩), none)]
  handleInstruction b st := (if b.program = 0 then .ok () else .error (.other "failed"), st)
  handleAccountUpdate u st := (if u.owner = some 0 then .ok () else .error (.other "failed"), st)

/-- One message whose instructions succeed, succeed and fail: its id is returned twice, and is
returned although an instruction failed. -/
theorem handleTransaction_acks_per_instruction :
    (handleTransaction (fun _ => some ⟨some [], 0⟩) okOkErrTransformer [⟨"1-0", []⟩] ()).1 =
      ["1-0", "1-0"] :=
  rfl

section Acks

variable (decode : List UInt8 → Option (TransactionInfo K)) (manager : ProgramTransformer K σ)

/-- The instruction loop returns the message's id, once per instruction at most. -/
theorem handleInstructions_replicate (slot : Nat) (keys : List K) (id : String) :
    ∀ (ixs : List (IxPair K × Option (List (IxPair K)))) (st : σ), ∃ n ≤ ixs.length,
      (handleInstructions manager slot keys id ixs st).1 = List.replicate n id
  | [], _ => ⟨0, le_rfl, rfl⟩
  | (outerIx, innerIx) :: ixs, st => by
    obtain ⟨n, hn, h⟩ := handleInstructions_replicate slot keys id ixs
      (processInstruction manager slot keys outerIx innerIx st).2
    rcases hres : (processInstruction manager slot keys outerIx innerIx st).1 with _ | ⟨⟩
    · exact ⟨n, by simp; omega, by simp only [handleInstructions, hres, h]⟩
    · exact ⟨n + 1, by simp [hn], by simp only [handleInstructions, hres, h, List.replicate_succ]⟩

/-- How many instructions `break_transaction` extracts from a message: none when it does not
decode. -/
def instructionCount (item : RecvData) : Nat :=
  ((decode item.data).map fun tx => (manager.breakTransaction tx).length).getD 0

/-- For every batch, every decoder and every behaviour of the program transformer:
`handle_transaction` returns the batch's ids in order, the `i`-th repeated `n i` times, with `n i`
at most the number of instructions extracted from its message. A message that does not decode, or
has no instruction, is never acknowledged. -/
theorem handleTransaction_ids_replicate (data : List RecvData) (st : σ) :
    ∃ ns : List Nat, List.Forall₂ (fun item n => n ≤ instructionCount decode manager item) data ns ∧
      (handleTransaction decode manager data st).1 =
        (List.zipWith (fun item n => List.replicate n item.id) data ns).flatten := by
  induction data generalizing st with
  | nil => exact ⟨[], .nil, rfl⟩
  | cons item data ih =>
    cases hd : decode item.data with
    | none =>
      obtain ⟨ns, hns, h⟩ := ih st
      refine ⟨0 :: ns, .cons (Nat.zero_le _) hns, ?_⟩
      simp only [handleTransaction, hd, h, List.zipWith_cons_cons, List.replicate_zero,
        List.flatten_cons, List.nil_append]
    | some tx =>
      obtain ⟨n, hn, hi⟩ := handleInstructions_replicate manager tx.slot (tx.accountKeys.getD [])
        item.id (manager.breakTransaction tx) st
      obtain ⟨ns, hns, h⟩ := ih (handleInstructions manager tx.slot (tx.accountKeys.getD []) item.id
        (manager.breakTransaction tx) st).2
      refine ⟨n :: ns, .cons (by simpa [instructionCount, hd] using hn) hns, ?_⟩
      simp only [handleTransaction, hd, hi, h, List.zipWith_cons_cons, List.flatten_cons]

end Acks

/-! ## `handle_account` -/

section Account

variable (decode : List UInt8 → Option (AccountInfo K)) (manager : ProgramTransformer K σ)

/-- The loop of `handle_account` reaches a message that decodes as an update without owner, and
its `unwrap` panics. -/
theorem handleAccountLoop_panic (ids : List String) (data : List RecvData) (st : σ)
    (h : ∃ item ∈ data, ∃ update, decode item.data = some update ∧ update.owner = none) :
    (handleAccountLoop decode manager ids data st).1 =
      .panic "called Option::unwrap() on a None value" := by
  induction data generalizing ids st with
  | nil => simp at h
  | cons item data ih =>
    have hrest : (∃ update, decode item.data = some update ∧ update.owner = none) ∨
        ∃ item ∈ data, ∃ update, decode item.data = some update ∧ update.owner = none := by
      simpa using h
    cases hd : decode item.data with
    | none =>
      simpa only [handleAccountLoop, hd] using ih ids st (hrest.resolve_left (by simp [hd]))
    | some update =>
      cases ho : update.owner with
      | none => simp only [handleAccountLoop, hd, ho]
      | some _ =>
        simpa only [handleAccountLoop, hd, ho] using ih _ _ (hrest.resolve_left (by simp [hd, ho]))

/-- With every update owned, the loop of `handle_account` returns the ids pushed before it, followed
by a sublist of the ids of the messages that decode. -/
theorem handleAccountLoop_ok (ids : List String) (data : List RecvData) (st : σ)
    (h : ∀ item ∈ data, ∀ update, decode item.data = some update → update.owner ≠ none) :
    ∃ acked, (handleAccountLoop decode manager ids data st).1 = .ok (ids ++ acked) ∧
      acked.Sublist ((data.filter fun item => (decode item.data).isSome).map RecvData.id) := by
  induction data generalizing ids st with
  | nil => exact ⟨[], by simp [handleAccountLoop], .slnil⟩
  | cons item data ih =>
    have hrest := fun item hi => h item (List.mem_cons_of_mem _ hi)
    cases hd : decode item.data with
    | none =>
      obtain ⟨acked, he, hs⟩ := ih ids st hrest
      exact ⟨acked, by simpa only [handleAccountLoop, hd] using he, by simpa [hd] using hs⟩
    | some update =>
      obtain ⟨owner, ho⟩ := Option.ne_none_iff_exists'.mp (h item (List.mem_cons_self _ _) update hd)
      have hkeep : ((item :: data).filter fun item => (decode item.data).isSome).map RecvData.id =
          item.id :: (data.filter fun item => (decode item.data).isSome).map RecvData.id := by
        simp [hd]
      rw [hkeep]
      rcases hu : manager.handleAccountUpdate update st with ⟨_ | ⟨⟩, st'⟩
      · obtain ⟨acked, he, hs⟩ := ih ids st' hrest
        exact ⟨acked, by simpa only [handleAccountLoop, hd, ho, hu] using he, hs.cons _⟩
      · obtain ⟨acked, he, hs⟩ := ih (ids ++ [item.id]) st' hrest
        exact ⟨item.id :: acked, by simpa only [handleAccountLoop, hd, ho, hu, List.append_assoc,
          List.singleton_append] using he, hs.cons_cons _⟩

/-- For every batch, decoder and program transformer: `handle_account` panics on an update without
owner, and otherwise acknowledges, in batch order and at most once each, only messages that decode. -/
theorem handleAccount_acks_sublist (data : List RecvData) (st : σ) :
    ((∃ item ∈ data, ∃ update, decode item.data = some update ∧ update.owner = none) →
      (handleAccount decode manager data st).1 = .panic "called Option::unwrap() on a None value") ∧
    ((∀ item ∈ data, ∀ update, decode item.data = some update → update.owner ≠ none) →
      ∃ ids, (handleAccount decode manager data st).1 = .ok ids ∧
        ids.Sublist ((data.filter fun item => (decode item.data).isSome).map RecvData.id)) :=
  ⟨handleAccountLoop_panic decode manager [] data st, handleAccountLoop_ok decode manager [] data st⟩

/-- Messages `1-0` (empty: it does not decode), `2-0` (owner `1`: its update fails) and `3-0`
(owner `0`): only `3-0` is acknowledged. -/
theorem handleAccount_acks_sublist_run :
    (handleAccount (fun d => d.head?.map fun b => ⟨some b.toNat, d⟩) okOkErrTransformer
        [⟨"1-0", []⟩, ⟨"2-0", [1]⟩, ⟨"3-0", [0]⟩] ()).1 = .ok ["3-0"] ∧
      ∃ ids, (handleAccount (fun d => d.head?.map fun b => ⟨some b.toNat, d⟩) okOkErrTransformer
        [⟨"1-0", []⟩, ⟨"2-0", [1]⟩, ⟨"3-0", [0]⟩] ()).1 = .ok ids ∧
        ids.Sublist ["2-0", "3-0"] :=
  ⟨rfl, (handleAccount_acks_sublist _ okOkErrTransformer [⟨"1-0", []⟩, ⟨"2-0", [1]⟩, ⟨"3-0", [0]⟩]
    ()).2 (by simp [eq_comm])⟩

/-- Whatever the batch, the ids `handle_account` returns are a sublist of the batch's ids. -/
theorem handleAccount_sublist_of_ok {data : List RecvData} {st : σ} {ids : List String}
    (h : (handleAccount decode manager data st).1 = .ok ids) : ids.Sublist (data.map RecvData.id) := by
  by_cases hown : ∀ item ∈ data, ∀ update, decode item.data = some update → update.owner ≠ none
  · obtain ⟨acked, he, hs⟩ := handleAccountLoop_ok decode manager [] data st hown
    rw [handleAccount, he, List.nil_append] at h
    cases h
    exact hs.trans ((List.filter_sublist _).map _)
  · push_neg at hown
    rw [handleAccount, handleAccountLoop_panic decode manager [] data st hown] at h
    cases h

end Account

/-! ## The stream services -/

/-- The ids of the messages that a sequence of `recv` results delivers. -/
def deliveredIds (recvs : List (Except String (List RecvData))) : List String :=
  recvs.flatMap fun
    | .ok data => data.map RecvData.id
    | .error _ => []

@[simp] theorem deliveredIds_nil : deliveredIds [] = [] := rfl

@[simp] theorem deliveredIds_cons_ok (data : List RecvData)
    (recvs : List (Except String (List RecvData))) :
    deliveredIds (.ok data :: recvs) = data.map RecvData.id ++ deliveredIds recvs := rfl

@[simp] theorem deliveredIds_cons_error (e : String) (recvs : List (Except String (List RecvData))) :
    deliveredIds (.error e :: recvs) = deliveredIds recvs := rfl

/-- A service whose handler returns a sublist of each batch's ids acknowledges, over a whole run, a
sublist of the ids delivered. -/
theorem serviceStream_acks_sublist (handle : List RecvData → σ → Outcome (List String) × σ)
    (hsub : ∀ data st ids, (handle data st).1 = .ok ids → ids.Sublist (data.map RecvData.id))
    (recvs : List (Except String (List RecvData))) (st : σ) :
    (serviceStream handle recvs st).1.flatten.Sublist (deliveredIds recvs) := by
  induction recvs generalizing st with
  | nil => exact .slnil
  | cons r recvs ih =>
    rcases r with e | data
    · simpa only [serviceStream, deliveredIds_cons_error] using ih st
    · have hskip := fun st' => (ih st').trans (List.sublist_append_right (data.map RecvData.id) _)
      rcases h : handle data st with ⟨ids | _ | _, st'⟩ <;>
        simp only [serviceStream, h, deliveredIds_cons_ok]
      · split_ifs
        · exact hskip st'
        · exact (hsub data st ids (by rw [h])).append (ih st')
      all_goals exact hskip st'

/-- For every sequence of `recv` results, every decoder and every behaviour of the program
transformer: over the whole run, the ids that `service_account_stream` acknowledges, in order, form
a sublist of the ids delivered, so a message delivered once is acknowledged at most once. -/
theorem serviceAccountStream_acks_sublist (decode : List UInt8 → Option (AccountInfo K))
    (manager : ProgramTransformer K σ) (recvs : List (Except String (List RecvData))) (st : σ) :
    (serviceAccountStream decode manager recvs st).1.flatten.Sublist (deliveredIds recvs) :=
  serviceStream_acks_sublist _ (fun _ _ _ => handleAccount_sublist_of_ok decode manager) recvs st

end TreeRepair
