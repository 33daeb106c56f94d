import TreeRepair.Forward
import Mathlib.Algebra.Order.BigOperators.Group.Finset

/-!
# How the forwarding pipeline ends

Every signature a sender thread has received is still being sent, or `send_txn` has done with it
what its result says: pushed it, dropped it, or failed, in which case the thread panicked
(`ForwardInv`). A sender thread leaves its loop only once the channel is drained and closed, and
no more than `countP sendFails` of them panic. So when no thread can move, the call panics exactly
when `send_txn` fails on some emitted signature, and while fewer signatures fail than there are
sender threads, every emitted successful transaction was pushed (`ForwardInv.forwardEnd`). A
failure is not a reported error: `findAndForward_panics_on_failure`. Every run ends
(`forwardRun_length_le`).
-/

namespace TreeRepair

variable {Sig Txn : Type}

@[simp] theorem ForwardState.setW_workers (s : ForwardState Sig) (w : Nat) (pc : SenderPc Sig) :
    (s.setW w pc).workers = Function.update s.workers w pc := rfl
@[simp] theorem ForwardState.setW_emitted (s : ForwardState Sig) (w : Nat) (pc : SenderPc Sig) :
    (s.setW w pc).emitted = s.emitted := rfl
@[simp] theorem ForwardState.setW_received (s : ForwardState Sig) (w : Nat) (pc : SenderPc Sig) :
    (s.setW w pc).received = s.received := rfl
@[simp] theorem ForwardState.setW_stream (s : ForwardState Sig) (w : Nat) (pc : SenderPc Sig) :
    (s.setW w pc).stream = s.stream := rfl

section Step

variable {src : TxnSource Sig Txn} {emits : List Sig} {k : Nat} {s s' : ForwardState Sig}
  {a : ForwardAction}

/-- Every move of sender thread `w`. -/
theorem senderStep_cases {c : Bool} {w : Nat} (h : senderStep src emits c s w = some s') :
    (∃ sig, s.workers w = .idle ∧ s.received < s.emitted ∧ emits[s.received]? = some sig ∧
      s' = { s.setW w (.busy sig) with received := s.received + 1 }) ∨
    (s.workers w = .idle ∧ s.emitted ≤ s.received ∧ c = true ∧ s' = s.setW w .exited) ∨
    (∃ sig bytes, s.workers w = .busy sig ∧ sendTxn src sig = .ok (some bytes) ∧
      s' = { s.setW w .idle with stream := s.stream ++ [(sig, bytes)] }) ∨
    (∃ sig, s.workers w = .busy sig ∧ sendTxn src sig = .ok none ∧ s' = s.setW w .idle) ∨
    (∃ sig e, s.workers w = .busy sig ∧ sendTxn src sig = .error e ∧ s' = s.setW w .panicked) := by
  unfold senderStep at h
  split at h <;> rename_i hpc
  · split at h
    · obtain ⟨sig, hsig, rfl⟩ := Option.map_eq_some'.mp h
      exact .inl ⟨sig, hpc, ‹_›, hsig, rfl⟩
    · split at h
      · exact .inr (.inl ⟨hpc, by omega, ‹_›, (Option.some.inj h).symm⟩)
      · cases h
  · rename_i sig
    split at h <;> rename_i hsend <;> cases h
    · exact .inr (.inr (.inl ⟨sig, _, hpc, hsend, rfl⟩))
    · exact .inr (.inr (.inr (.inl ⟨sig, hpc, hsend, rfl⟩)))
    · exact .inr (.inr (.inr (.inr ⟨sig, _, hpc, hsend, rfl⟩)))
  · cases h
  · cases h

/-- Every move of the pipeline. -/
theorem forwardStep_cases (h : forwardStep src emits s a = some s') :
    (a = .emit ∧ s.emitted < emits.length ∧ s' = { s with emitted := s.emitted + 1 }) ∨
    (∃ w sig, a = .sender w ∧ s.workers w = .idle ∧ s.received < s.emitted ∧
      emits[s.received]? = some sig ∧
      s' = { s.setW w (.busy sig) with received := s.received + 1 }) ∨
    (∃ w, a = .sender w ∧ s.workers w = .idle ∧ s.emitted ≤ s.received ∧
      s.emitted = emits.length ∧ s' = s.setW w .exited) ∨
    (∃ w sig bytes, a = .sender w ∧ s.workers w = .busy sig ∧ sendTxn src sig = .ok (some bytes) ∧
      s' = { s.setW w .idle with stream := s.stream ++ [(sig, bytes)] }) ∨
    (∃ w sig, a = .sender w ∧ s.workers w = .busy sig ∧ sendTxn src sig = .ok none ∧
      s' = s.setW w .idle) ∨
    (∃ w sig e, a = .sender w ∧ s.workers w = .busy sig ∧ sendTxn src sig = .error e ∧
      s' = s.setW w .panicked) := by
  cases a with
  | emit =>
    simp only [forwardStep] at h
    split at h
    · exact .inl ⟨rfl, ‹_›, (Option.some.inj h).symm⟩
    · cases h
  | sender w =>
    rcases senderStep_cases h with ⟨sig, hpc, hlt, hsig, rfl⟩ | ⟨hpc, hle, hc, rfl⟩ |
      ⟨sig, bytes, hpc, hsend, rfl⟩ | ⟨sig, hpc, hsend, rfl⟩ | ⟨sig, e, hpc, hsend, rfl⟩
    · exact .inr (.inl ⟨w, sig, rfl, hpc, hlt, hsig, rfl⟩)
    · exact .inr (.inr (.inl ⟨w, rfl, hpc, hle, of_decide_eq_true hc, rfl⟩))
    · exact .inr (.inr (.inr (.inl ⟨w, sig, bytes, rfl, hpc, hsend, rfl⟩)))
    · exact .inr (.inr (.inr (.inr (.inl ⟨w, sig, rfl, hpc, hsend, rfl⟩))))
    · exact .inr (.inr (.inr (.inr (.inr ⟨w, sig, e, rfl, hpc, hsend, rfl⟩))))

/-- A move of a sender thread other than its exit reads neither the emissions past the ones it
receives nor whether `s` is closed. -/
theorem senderStep_congr {c : Bool} {w : Nat} (h : senderStep src emits c s w = some s')
    (hexit : s'.workers w ≠ .exited) (more : List Sig) (c' : Bool) :
    senderStep src (emits ++ more) c' s w = some s' := by
  rcases senderStep_cases h with ⟨sig, hpc, hlt, hsig, rfl⟩ | ⟨-, -, -, rfl⟩ |
    ⟨sig, bytes, hpc, hsend, rfl⟩ | ⟨sig, hpc, hsend, rfl⟩ | ⟨sig, e, hpc, hsend, rfl⟩
  · have hlen := (List.getElem?_eq_some_iff.mp hsig).1
    simp [senderStep, hpc, hlt, List.getElem?_append_left hlen, hsig]
  · simp at hexit
  all_goals simp [senderStep, hpc, hsend]

/-- A sender thread that has left its loop stays there, and one leaves it only on a closed
channel. -/
theorem senderStep_exited {c : Bool} {w v : Nat} (h : senderStep src emits c s w = some s')
    (hv : s'.workers v = .exited) : s.workers v = .exited ∨ c = true := by
  by_cases e : v = w
  · subst e
    rcases senderStep_cases h with ⟨sig, -, -, -, rfl⟩ | ⟨-, -, hc, -⟩ | ⟨sig, bytes, -, -, rfl⟩ |
      ⟨sig, -, -, rfl⟩ | ⟨sig, err, -, -, rfl⟩
    · simp at hv
    · exact .inr hc
    all_goals simp at hv
  · left
    rcases senderStep_cases h with ⟨sig, -, -, -, rfl⟩ | ⟨-, -, -, rfl⟩ | ⟨sig, bytes, -, -, rfl⟩ |
      ⟨sig, -, -, rfl⟩ | ⟨sig, err, -, -, rfl⟩ <;>
    simpa [Function.update_noteq e] using hv

/-- A sender move leaves the count of emitted signatures as it was. -/
theorem senderStep_emitted {c : Bool} {w : Nat} (h : senderStep src emits c s w = some s') :
    s'.emitted = s.emitted := by
  rcases senderStep_cases h with ⟨sig, -, -, -, rfl⟩ | ⟨-, -, -, rfl⟩ | ⟨sig, bytes, -, -, rfl⟩ |
    ⟨sig, -, -, rfl⟩ | ⟨sig, err, -, -, rfl⟩ <;> rfl

/-- A sender thread that has left its loop stays there. -/
theorem senderStep_stays_exited {c : Bool} {w v : Nat} (h : senderStep src emits c s w = some s')
    (hv : s.workers v = .exited) : s'.workers v = .exited := by
  have hne : v ≠ w := by
    rintro rfl
    simp [senderStep, hv] at h
  rcases senderStep_cases h with ⟨sig, -, -, -, rfl⟩ | ⟨-, -, -, rfl⟩ | ⟨sig, bytes, -, -, rfl⟩ |
    ⟨sig, -, -, rfl⟩ | ⟨sig, err, -, -, rfl⟩ <;>
  simpa [Function.update_noteq hne] using hv

/-- A sender thread that moves on an open channel moves the same on a closed one. -/
theorem senderStep_true {c : Bool} {w : Nat} (h : senderStep src emits c s w = some s') :
    senderStep src emits true s w = some s' := by
  cases c with
  | true => exact h
  | false =>
    have hexit : s'.workers w ≠ .exited := fun hx => by
      rcases senderStep_exited h hx with hpc | hc
      · simp [senderStep, hpc] at h
      · cases hc
    simpa using senderStep_congr h hexit [] true

/-- A move that leaves no sender thread out of its loop is a move over every longer sequence of
emissions. -/
theorem forwardStep_append (h : forwardStep src emits s a = some s')
    (hexit : ∀ v, s'.workers v ≠ .exited) (more : List Sig) :
    forwardStep src (emits ++ more) s a = some s' := by
  cases a with
  | emit =>
    simp only [forwardStep] at h ⊢
    split at h
    · rw [if_pos (by rw [List.length_append]; omega)]; exact h
    · cases h
  | sender w => exact senderStep_congr h (hexit w) more _

end Step

/-- What `send_txn` has done for a signature a sender thread is done with: pushed its bytes,
dropped it, or failed and panicked the thread. -/
def Handled (src : TxnSource Sig Txn) (k : Nat) (s : ForwardState Sig) (sig : Sig) : Prop :=
  match sendTxn src sig with
  | .ok (some bytes) => (sig, bytes) ∈ s.stream
  | .ok none => True
  | .error _ => ∃ w < k, s.workers w = .panicked

/-- A thread's share of the failures: one for a panicked thread or one running a failing
`send_txn`. -/
def SenderPc.failWeight (src : TxnSource Sig Txn) : SenderPc Sig → Nat
  | .panicked => 1
  | .busy sig => if sendFails src sig then 1 else 0
  | _ => 0

@[simp] theorem SenderPc.failWeight_idle (src : TxnSource Sig Txn) :
    (idle : SenderPc Sig).failWeight src = 0 := rfl
@[simp] theorem SenderPc.failWeight_exited (src : TxnSource Sig Txn) :
    (exited : SenderPc Sig).failWeight src = 0 := rfl
@[simp] theorem SenderPc.failWeight_panicked (src : TxnSource Sig Txn) :
    (panicked : SenderPc Sig).failWeight src = 1 := rfl
@[simp] theorem SenderPc.failWeight_busy (src : TxnSource Sig Txn) (sig : Sig) :
    (busy sig).failWeight src = if sendFails src sig then 1 else 0 := rfl

/-- The invariant of the pipeline with `k` sender threads. -/
structure ForwardInv (src : TxnSource Sig Txn) (emits : List Sig) (k : Nat)
    (s : ForwardState Sig) : Prop where
  emitted_le : s.emitted ≤ emits.length
  received_le : s.received ≤ s.emitted
  /-- Only the `k` spawned threads move. -/
  idle_beyond : ∀ w, k ≤ w → s.workers w = .idle
  /-- A thread leaves its loop once the channel is drained and closed. -/
  drained_of_exited : ∀ w, s.workers w = .exited → s.received = emits.length
  /-- A busy thread sends a received signature. -/
  busy_mem : ∀ w sig, s.workers w = .busy sig → sig ∈ emits.take s.received
  /-- Every received signature is being sent or handled. -/
  handled : ∀ sig ∈ emits.take s.received, (∃ w, s.workers w = .busy sig) ∨ Handled src k s sig
  /-- The stream carries the bytes of emitted successful transactions. -/
  stream_ok : ∀ m ∈ s.stream, m.1 ∈ emits ∧ sendTxn src m.1 = .ok (some m.2)
  /-- Each panic, and each failing `send_txn` under way, is a received failing signature. -/
  fail_count : ∑ w in Finset.range k, (s.workers w).failWeight src ≤
    (emits.take s.received).countP (sendFails src)

section Inv

variable {src : TxnSource Sig Txn} {emits : List Sig} {k : Nat} {s s' : ForwardState Sig}

theorem forwardInv_init : ForwardInv src emits k forwardInit where
  emitted_le := Nat.zero_le _
  received_le := le_rfl
  idle_beyond _ _ := rfl
  drained_of_exited _ h := by cases h
  busy_mem _ _ h := by cases h
  handled _ h := by simp [forwardInit] at h
  stream_ok _ h := by cases h
  fail_count := by simp [forwardInit, SenderPc.failWeight]

theorem Handled.mono {sig : Sig} (h : Handled src k s sig) (hstream : s.stream ⊆ s'.stream)
    (hpan : ∀ w, s.workers w = .panicked → s'.workers w = .panicked) : Handled src k s' sig := by
  unfold Handled at h ⊢
  rcases hs : sendTxn src sig with _ | _ | bytes <;> rw [hs] at h
  · obtain ⟨w, hw, hp⟩ := h
    exact ⟨w, hw, hpan w hp⟩
  · trivial
  · exact hstream h

/-- A move of a thread that had not panicked leaves every panicked thread panicked. -/
theorem update_panicked {w v : Nat} {pc : SenderPc Sig} (hw : s.workers w ≠ .panicked)
    (hv : s.workers v = .panicked) : Function.update s.workers w pc v = .panicked := by
  rwa [Function.update_noteq (by rintro rfl; exact hw hv)]

/-- Sender `w` is done with `sig`: it goes back to its loop's head or has panicked, the stream has
only grown, by the bytes of `sig` if by anything, and what `send_txn` did is recorded. -/
theorem ForwardInv.finish (hI : ForwardInv src emits k s) {w : Nat} {sig : Sig} (hw : w < k)
    (hpc : s.workers w = .busy sig) {pc : SenderPc Sig} (hpc' : pc = .idle ∨ pc = .panicked)
    (stream : List (Sig × List UInt8)) (hstream : s.stream ⊆ stream)
    (hnew : ∀ m ∈ stream, m ∈ s.stream ∨ (m.1 = sig ∧ sendTxn src sig = .ok (some m.2)))
    (hweight : pc.failWeight src = (SenderPc.busy sig).failWeight src)
    (hdone : Handled src k { s.setW w pc with stream } sig) :
    ForwardInv src emits k { s.setW w pc with stream } := by
  have hmem := hI.busy_mem w sig hpc
  have hpan : ∀ v, s.workers v = .panicked → Function.update s.workers w pc v = .panicked :=
    fun _ => update_panicked (by simp [hpc])
  have hne : ∀ v, (Function.update s.workers w pc v = .exited ∨
      ∃ x, Function.update s.workers w pc v = .busy x) → v ≠ w := by
    rintro v h rfl
    rcases hpc' with rfl | rfl <;> simp at h
  refine { hI with
    idle_beyond := fun v hv => ?_
    drained_of_exited := fun v hv => ?_
    busy_mem := fun v x hv => ?_
    handled := fun x hx => ?_
    stream_ok := fun m hm => ?_
    fail_count := ?_ }
  · show Function.update s.workers w pc v = .idle
    rw [Function.update_noteq (by omega)]; exact hI.idle_beyond v hv
  · change Function.update s.workers w pc v = .exited at hv
    rw [Function.update_noteq (hne v (.inl hv))] at hv
    exact hI.drained_of_exited v hv
  · change Function.update s.workers w pc v = .busy x at hv
    rw [Function.update_noteq (hne v (.inr ⟨x, hv⟩))] at hv
    exact hI.busy_mem v x hv
  · by_cases hx' : x = sig
    · exact .inr (hx' ▸ hdone)
    · rcases hI.handled x hx with ⟨v, hv⟩ | hh
      · have e : v ≠ w := by rintro rfl; rw [hpc] at hv; cases hv; exact hx' rfl
        exact .inl ⟨v, by show Function.update s.workers w pc v = _; rw [Function.update_noteq e]; exact hv⟩
      · exact .inr (hh.mono hstream hpan)
  · rcases hnew m hm with hm | ⟨e, hs⟩
    · exact hI.stream_ok m hm
    · exact ⟨e ▸ List.mem_of_mem_take hmem, e ▸ hs⟩
  · have hsum := sum_update_add (SenderPc.failWeight src) s.workers hw pc
    have := hI.fail_count
    rw [hpc, hweight] at hsum
    show ∑ v in Finset.range k, (Function.update s.workers w pc v).failWeight src ≤
      (emits.take s.received).countP (sendFails src)
    omega

/-- Sender `w` receives `emits[received]`. -/
theorem ForwardInv.receive (hI : ForwardInv src emits k s) {w : Nat} {sig : Sig} (hw : w < k)
    (hpc : s.workers w = .idle) (hlt : s.received < s.emitted)
    (hsig : emits[s.received]? = some sig) :
    ForwardInv src emits k { s.setW w (.busy sig) with received := s.received + 1 } := by
  have htake : emits.take (s.received + 1) = emits.take s.received ++ [sig] := by
    rw [List.take_succ, hsig]; rfl
  refine ⟨hI.emitted_le, hlt, fun v hv => ?_, fun v hv => ?_, fun v x hv => ?_,
    fun x hx => ?_, hI.stream_ok, ?_⟩
  · rw [ForwardState.setW_workers, Function.update_noteq (by omega)]; exact hI.idle_beyond v hv
  · by_cases e : v = w
    · subst e; simp at hv
    · simp only [ForwardState.setW_workers, Function.update_noteq e] at hv
      exact absurd (hI.drained_of_exited v hv) (by have := hI.emitted_le; omega)
  · show x ∈ emits.take (s.received + 1)
    rw [htake]
    by_cases e : v = w
    · subst e; simp at hv; simp [hv]
    · simp only [ForwardState.setW_workers, Function.update_noteq e] at hv
      exact List.mem_append_left _ (hI.busy_mem v x hv)
  · show (∃ v, Function.update s.workers w (.busy sig) v = .busy x) ∨ _
    rw [htake] at hx
    rcases List.mem_append.mp hx with hx | hx
    · rcases hI.handled x hx with ⟨v, hv⟩ | hh
      · have e : v ≠ w := fun e => by rw [e, hpc] at hv; cases hv
        exact .inl ⟨v, by rw [Function.update_noteq e]; exact hv⟩
      · exact .inr (hh.mono (fun _ h => h) fun _ => update_panicked (by simp [hpc]))
    · rw [List.mem_singleton.mp hx]
      exact .inl ⟨w, by simp⟩
  · show ∑ v in Finset.range k, (Function.update s.workers w (.busy sig) v).failWeight src ≤
      (emits.take (s.received + 1)).countP (sendFails src)
    have hsum := sum_update_add (SenderPc.failWeight src) s.workers hw (.busy sig)
    rw [hpc, SenderPc.failWeight_idle, SenderPc.failWeight_busy] at hsum
    have hc : (emits.take s.received ++ [sig]).countP (sendFails src) =
        (emits.take s.received).countP (sendFails src) + if sendFails src sig then 1 else 0 := by
      simp [List.countP_append, List.countP_cons]
    have := hI.fail_count
    rw [htake, hc]
    omega

/-- Sender `w` finds the channel drained and closed, and leaves its loop. -/
theorem ForwardInv.exit (hI : ForwardInv src emits k s) {w : Nat} (hw : w < k)
    (hpc : s.workers w = .idle) (hle : s.emitted ≤ s.received) (hlen : s.emitted = emits.length) :
    ForwardInv src emits k (s.setW w .exited) := by
  refine { hI with
    idle_beyond := fun v hv => ?_
    drained_of_exited := fun v hv => ?_
    busy_mem := fun v x hv => ?_
    handled := fun x hx => ?_
    fail_count := ?_ }
  · rw [ForwardState.setW_workers, Function.update_noteq (by omega)]; exact hI.idle_beyond v hv
  · show s.received = emits.length
    have := hI.received_le; omega
  · by_cases e : v = w
    · subst e; simp at hv
    · simp only [ForwardState.setW_workers, Function.update_noteq e] at hv
      exact hI.busy_mem v x hv
  · rcases hI.handled x hx with ⟨v, hv⟩ | hh
    · have e : v ≠ w := fun e => by rw [e, hpc] at hv; cases hv
      exact .inl ⟨v, by rw [ForwardState.setW_workers, Function.update_noteq e]; exact hv⟩
    · exact .inr (hh.mono (fun _ h => h) fun _ => update_panicked (by simp [hpc]))
  · have hsum := sum_update_add (SenderPc.failWeight src) s.workers hw .exited
    have := hI.fail_count
    rw [hpc, SenderPc.failWeight_idle, SenderPc.failWeight_exited] at hsum
    show _ ≤ _
    simp only [ForwardState.setW_workers, ForwardState.setW_received]
    omega

/-- A move of the pipeline keeps the invariant. -/
theorem ForwardInv.step (hI : ForwardInv src emits k s) {a : ForwardAction} (ha : a.Valid k)
    (h : forwardStep src emits s a = some s') : ForwardInv src emits k s' := by
  rcases forwardStep_cases h with ⟨rfl, hlt, rfl⟩ | ⟨w, sig, rfl, hpc, hlt, hsig, rfl⟩ |
    ⟨w, rfl, hpc, hle, hlen, rfl⟩ | ⟨w, sig, bytes, rfl, hpc, hsend, rfl⟩ |
    ⟨w, sig, rfl, hpc, hsend, rfl⟩ | ⟨w, sig, e, rfl, hpc, hsend, rfl⟩
  · -- a resolver sends a signature on `s`
    exact { hI with
      emitted_le := hlt
      received_le := Nat.le_succ_of_le hI.received_le
      drained_of_exited := hI.drained_of_exited }
  · -- sender `w` receives `emits[received]`
    exact hI.receive ha hpc hlt hsig
  · -- sender `w` finds the channel drained and closed
    exact hI.exit ha hpc hle hlen
  · -- sender `w` pushed the transaction of `sig`
    have hf : sendFails src sig = false := by simp [sendFails, hsend]
    exact hI.finish ha hpc (.inl rfl) _ (List.subset_append_left _ _)
      (fun m hm => by
        rcases List.mem_append.mp hm with hm | hm
        · exact .inl hm
        · rw [List.mem_singleton.mp hm]; exact .inr ⟨rfl, hsend⟩)
      (by simp [hf]) (by simp [Handled, hsend])
  · -- `sig`'s transaction failed on chain or has no metadata: dropped
    have hf : sendFails src sig = false := by simp [sendFails, hsend]
    exact hI.finish ha hpc (.inl rfl) s.stream (fun _ h => h)
      (fun m hm => .inl hm) (by simp [hf]) (by simp [Handled, hsend])
  · -- `send_txn` failed: the unwrap panics the thread
    have hf : sendFails src sig = true := by simp [sendFails, hsend]
    exact hI.finish ha hpc (.inr rfl) s.stream (fun _ h => h)
      (fun m hm => .inl hm) (by simp [hf]) (by simp only [Handled, hsend]; exact ⟨w, ha, by simp⟩)

theorem ForwardReachable.inv (h : ForwardReachable src emits k s) : ForwardInv src emits k s := by
  induction h with
  | init => exact forwardInv_init
  | step _ ha hs ih => exact ih.step ha hs

theorem ForwardReachable.run {sched : List ForwardAction} (hs : ForwardReachable src emits k s)
    (hv : ∀ a ∈ sched, a.Valid k) (h : forwardRun src emits s sched = some s') :
    ForwardReachable src emits k s' := by
  induction sched generalizing s with
  | nil => exact Option.some.inj h ▸ hs
  | cons a sched ih =>
    simp only [forwardRun, Option.bind_eq_some] at h
    obtain ⟨s1, h1, h2⟩ := h
    exact ih (.step hs (hv a (List.mem_cons_self _ _)) h1)
      (fun b hb => hv b (List.mem_cons_of_mem _ hb)) h2

/-- A run in which no sender thread has found `s` closed is a run over every longer sequence of
emissions. -/
theorem ForwardReachable.append {src : TxnSource Sig Txn} {emits : List Sig} {k : Nat}
    {s : ForwardState Sig} (h : ForwardReachable src emits k s) (hexit : ∀ v, s.workers v ≠ .exited)
    (more : List Sig) : ForwardReachable src (emits ++ more) k s := by
  induction h with
  | init => exact .init
  | step _ ha hs ih =>
    refine .step (ih fun v hv => hexit v ?_) ha (forwardStep_append hs hexit more)
    cases ‹ForwardAction› with
    | emit =>
      simp only [forwardStep] at hs
      split at hs <;> cases hs
      exact hv
    | sender w => exact senderStep_stays_exited hs hv

theorem SenderPc.isPanicked_iff {pc : SenderPc Sig} : pc.isPanicked = true ↔ pc = .panicked := by
  cases pc <;> simp [isPanicked]

/-- On a closed channel, a sender thread that cannot move has ended: a waiting one has a signature
to receive, or leaves its loop. -/
theorem ended_of_senderStep_eq_none (hem : s.emitted = emits.length) {w : Nat}
    (h : senderStep src emits true s w = none) :
    s.workers w = .panicked ∨ s.workers w = .exited := by
  unfold senderStep at h
  cases hpc : s.workers w with
  | idle =>
    rw [hpc] at h
    simp only [if_true] at h
    split at h
    · have hlt : s.received < emits.length := by omega
      simp [List.getElem?_eq_getElem hlt] at h
    · cases h
  | busy sig =>
    rw [hpc] at h
    simp only at h
    split at h <;> cases h
  | panicked => exact .inl rfl
  | exited => exact .inr rfl

/-- When nothing can move, the resolvers are done and every sender thread has ended. -/
theorem ForwardInv.ended_of_stuck (hI : ForwardInv src emits k s)
    (hstuck : ∀ a : ForwardAction, a.Valid k → forwardStep src emits s a = none) :
    s.emitted = emits.length ∧ ∀ w < k, s.workers w = .panicked ∨ s.workers w = .exited := by
  have hem : s.emitted = emits.length := by
    have h := hstuck .emit trivial
    simp only [forwardStep] at h
    split at h
    · cases h
    · have := hI.emitted_le; omega
  refine ⟨hem, fun w hw => @ended_of_senderStep_eq_none _ _ src _ _ hem _ ?_⟩
  simpa only [forwardStep, hem, decide_True] using hstuck (.sender w) hw

/-- A panicked thread is a failing emitted signature. -/
theorem ForwardInv.exists_fail_of_panicked (hI : ForwardInv src emits k s) {w : Nat} (hw : w < k)
    (hp : s.workers w = .panicked) : ∃ sig ∈ emits, sendFails src sig = true := by
  have h1 : 1 ≤ ∑ v in Finset.range k, (s.workers v).failWeight src := by
    simpa [hp] using Finset.single_le_sum (fun v _ => Nat.zero_le ((s.workers v).failWeight src))
      (Finset.mem_range.mpr hw)
  obtain ⟨sig, hsig, hf⟩ := List.countP_pos_iff.mp (lt_of_lt_of_le h1 hI.fail_count)
  exact ⟨sig, List.mem_of_mem_take hsig, hf⟩

/-- Once the threads have ended and one left its loop, every emitted signature was handled. -/
theorem ForwardInv.handled_all (hI : ForwardInv src emits k s)
    (hend : ∀ w < k, s.workers w = .panicked ∨ s.workers w = .exited)
    (hex : ∃ w < k, s.workers w = .exited) : ∀ sig ∈ emits, Handled src k s sig := by
  intro sig hsig
  obtain ⟨w, -, hw⟩ := hex
  have htake : emits.take s.received = emits := by
    rw [hI.drained_of_exited w hw, List.take_length]
  rcases hI.handled sig (htake.symm ▸ hsig) with ⟨v, hv⟩ | hh
  · by_cases hvk : v < k
    · rcases hend v hvk with h | h <;> rw [h] at hv <;> cases hv
    · rw [hI.idle_beyond v (by omega)] at hv; cases hv
  · exact hh

/-- A handled signature on which `send_txn` fails has panicked a thread. -/
theorem Handled.panicked_of_fails {sig : Sig} (h : Handled src k s sig)
    (hf : sendFails src sig = true) : ∃ w < k, s.workers w = .panicked := by
  unfold Handled at h
  unfold sendFails at hf
  split at hf
  · rename_i e hsend; rwa [hsend] at h
  · cases hf

/-- A handled signature on which `send_txn` succeeds was pushed. -/
theorem Handled.pushed {sig : Sig} {bytes : List UInt8} (h : Handled src k s sig)
    (hsend : sendTxn src sig = .ok (some bytes)) : (sig, bytes) ∈ s.stream := by
  unfold Handled at h
  rwa [hsend] at h

/-- With every thread panicked, at least `k` received signatures fail. -/
theorem ForwardInv.le_countP_of_all_panicked (hI : ForwardInv src emits k s)
    (hall : ∀ w < k, s.workers w = .panicked) :
    k ≤ (emits.take s.received).countP (sendFails src) := by
  refine le_trans ?_ hI.fail_count
  calc k = ∑ _w in Finset.range k, 1 := by simp
    _ ≤ _ := Finset.sum_le_sum fun w hw => by simp [hall w (Finset.mem_range.mp hw)]

/-- Once every thread has ended, one of them panicked exactly when `send_txn` fails on an emitted
signature. -/
theorem ForwardInv.exists_panicked_iff (hI : ForwardInv src emits k s) (hk : 0 < k)
    (hend : ∀ w < k, s.workers w = .panicked ∨ s.workers w = .exited) :
    (∃ w < k, s.workers w = .panicked) ↔ ∃ sig ∈ emits, sendFails src sig = true := by
  refine ⟨fun ⟨w, hw, hp⟩ => hI.exists_fail_of_panicked hw hp, fun ⟨sig, hsig, hf⟩ => ?_⟩
  by_cases hall : ∀ w < k, s.workers w = .panicked
  · exact ⟨0, hk, hall 0 hk⟩
  · push_neg at hall
    obtain ⟨w, hw, hnp⟩ := hall
    exact (hI.handled_all hend ⟨w, hw, (hend w hw).resolve_left hnp⟩ sig hsig).panicked_of_fails hf

/-- Once every thread has ended, while fewer emitted signatures fail than there are threads, one
of them left its loop. -/
theorem ForwardInv.exists_exited_of_countP_lt (hI : ForwardInv src emits k s)
    (hend : ∀ w < k, s.workers w = .panicked ∨ s.workers w = .exited)
    (hfew : emits.countP (sendFails src) < k) : ∃ w < k, s.workers w = .exited := by
  by_contra hno
  push_neg at hno
  have := hI.le_countP_of_all_panicked fun w hw => (hend w hw).resolve_right (hno w hw)
  have := (List.take_sublist s.received emits).countP_le (sendFails src)
  omega

/-- How the call ends, once no thread can move. -/
structure ForwardEnd (src : TxnSource Sig Txn) (emits : List Sig) (k : Nat)
    (s : ForwardState Sig) : Prop where
  /-- It panics exactly when `send_txn` fails on an emitted signature, and otherwise returns
  `Ok(())`. -/
  result_eq : forwardResult k s = if emits.any (sendFails src) then
    .panic "called Result::unwrap() on an Err value" else .ok ()
  /-- While fewer emitted signatures fail than there are sender threads, the transaction of every
  emitted signature on which `send_txn` succeeds was pushed. -/
  pushed_of_few_failures : emits.countP (sendFails src) < k →
    ∀ sig ∈ emits, ∀ bytes, sendTxn src sig = .ok (some bytes) → (sig, bytes) ∈ s.stream
  /-- Only those are pushed. -/
  stream_ok : ∀ m ∈ s.stream, m.1 ∈ emits ∧ sendTxn src m.1 = .ok (some m.2)

end Inv

/-- Once no thread can move, how the call ends: `--concurrency` is checked non-zero. -/
theorem ForwardInv.forwardEnd {src : TxnSource Sig Txn} {emits : List Sig} {k : Nat}
    {s : ForwardState Sig} (hI : ForwardInv src emits k s) (hk : 0 < k)
    (hstuck : ∀ a : ForwardAction, a.Valid k → forwardStep src emits s a = none) :
    ForwardEnd src emits k s := by
  have hend := (hI.ended_of_stuck hstuck).2
  refine ⟨?_, fun hfew sig hsig bytes hsend => ?_, hI.stream_ok⟩
  · have hp : ((List.range k).any fun w => (s.workers w).isPanicked) = emits.any (sendFails src) := by
      rw [Bool.eq_iff_iff, List.any_eq_true, List.any_eq_true]
      simpa [SenderPc.isPanicked_iff] using hI.exists_panicked_iff hk hend
    rw [forwardResult, hp]
  · exact (hI.handled_all hend (hI.exists_exited_of_countP_lt hend hfew) sig hsig).pushed hsend

/-! ## No signature pushed twice -/

/-- The signature a sender thread at `pc` is sending, if any. -/
def SenderPc.busySig : SenderPc Sig → Option Sig
  | .busy sig => some sig
  | _ => none

@[simp] theorem SenderPc.busySig_idle : (idle : SenderPc Sig).busySig = none := rfl
@[simp] theorem SenderPc.busySig_busy (sig : Sig) : (busy sig).busySig = some sig := rfl
@[simp] theorem SenderPc.busySig_panicked : (panicked : SenderPc Sig).busySig = none := rfl
@[simp] theorem SenderPc.busySig_exited : (exited : SenderPc Sig).busySig = none := rfl

/-- The signatures the first `k` sender threads are sending. -/
def busySigs (k : Nat) (workers : Nat → SenderPc Sig) : List Sig :=
  (List.range k).filterMap fun w => (workers w).busySig

/-- Moving thread `w < k` to `pc` trades the signature it was sending for the one `pc` sends. -/
theorem busySigs_update {k w : Nat} (hw : w < k) (f : Nat → SenderPc Sig) (pc : SenderPc Sig) :
    (busySigs k (Function.update f w pc) ++ (f w).busySig.toList).Perm
      (busySigs k f ++ pc.busySig.toList) := by
  have hlast : ∀ (g : Nat → SenderPc Sig) k,
      busySigs (k + 1) g = busySigs k g ++ (g k).busySig.toList := fun g k => by
    rw [busySigs, List.range_succ, List.filterMap_append, List.filterMap_cons, List.filterMap_nil]
    cases (g k).busySig <;> rfl
  have hcomm : ∀ A B C : List Sig, (A ++ B ++ C).Perm (A ++ C ++ B) := fun A B C => by
    simpa only [List.append_assoc] using List.perm_append_comm.append_left A
  induction k with
  | zero => exact absurd hw (Nat.not_lt_zero _)
  | succ k ih =>
    rw [hlast, hlast]
    rcases Nat.lt_succ_iff_lt_or_eq.mp hw with hw | rfl
    · rw [Function.update_noteq (Nat.ne_of_gt hw)]
      exact (hcomm _ _ _).trans (((ih hw).append_right _).trans (hcomm _ _ _))
    · have hfix : busySigs w (Function.update f w pc) = busySigs w f := by
        simp only [busySigs]
        exact List.filterMap_congr fun v hv =>
          by rw [Function.update_noteq (Nat.ne_of_lt (List.mem_range.mp hv))]
      rw [Function.update_same, hfix]
      exact hcomm _ _ _

/-- What the stream carries, with what the sender threads are sending, is part of what they
received: a signature is pushed at most as often as it was sent on `s`. -/
def SentOnce (emits : List Sig) (k : Nat) (s : ForwardState Sig) : Prop :=
  (s.stream.map Prod.fst ++ busySigs k s.workers).Subperm (emits.take s.received)

section Once

variable {src : TxnSource Sig Txn} {emits : List Sig} {k : Nat} {s s' : ForwardState Sig}

/-- A thread `w < k` that leaves `busy sig` without pushing drops `sig` from the list. -/
theorem SentOnce.drop {w : Nat} {sig : Sig} {pc : SenderPc Sig} (h : SentOnce emits k s) (hw : w < k)
    (hpc : s.workers w = .busy sig) (hbusy : pc.busySig = none) : SentOnce emits k (s.setW w pc) := by
  have hperm := busySigs_update hw s.workers pc
  simp only [hpc, hbusy, SenderPc.busySig_busy, Option.toList, List.append_nil] at hperm
  exact ((List.subperm_append_left _).mpr
    ((List.sublist_append_left _ [sig]).subperm.trans hperm.subperm)).trans h

/-- A move of the pipeline keeps `SentOnce`. -/
theorem SentOnce.step (h : SentOnce emits k s) {a : ForwardAction} (ha : a.Valid k)
    (hs : forwardStep src emits s a = some s') : SentOnce emits k s' := by
  rcases forwardStep_cases hs with ⟨rfl, -, rfl⟩ | ⟨w, sig, rfl, hpc, -, hsig, rfl⟩ |
    ⟨w, rfl, hpc, -, -, rfl⟩ | ⟨w, sig, bytes, rfl, hpc, -, rfl⟩ |
    ⟨w, sig, rfl, hpc, -, rfl⟩ | ⟨w, sig, e, rfl, hpc, -, rfl⟩
  · exact h
  · -- sender `w` receives `emits[received]`: both sides gain `sig`
    have hperm := busySigs_update ha s.workers (.busy sig)
    simp only [hpc, SenderPc.busySig_idle, SenderPc.busySig_busy, Option.toList,
      List.append_nil] at hperm
    have htake : emits.take (s.received + 1) = emits.take s.received ++ [sig] := by
      rw [List.take_succ, hsig]; rfl
    show (s.stream.map Prod.fst ++ busySigs k (Function.update s.workers w (.busy sig))).Subperm
      (emits.take (s.received + 1))
    rw [htake]
    refine (List.Perm.subperm ?_).trans ((List.subperm_append_right [sig]).mpr h)
    rw [List.append_assoc]
    exact hperm.append_left _
  · -- sender `w` leaves its loop
    have hperm := busySigs_update ha s.workers .exited
    simp only [hpc, SenderPc.busySig_idle, SenderPc.busySig_exited, Option.toList,
      List.append_nil] at hperm
    exact (hperm.append_left _).subperm.trans h
  · -- sender `w` pushes the transaction of `sig`: it moves from the threads to the stream
    have hperm := busySigs_update ha s.workers .idle
    simp only [hpc, SenderPc.busySig_idle, SenderPc.busySig_busy, Option.toList,
      List.append_nil] at hperm
    show ((s.stream ++ [(sig, bytes)]).map Prod.fst ++
      busySigs k (Function.update s.workers w .idle)).Subperm (emits.take s.received)
    rw [List.map_append, List.append_assoc]
    exact ((List.perm_append_comm.trans hperm).append_left _).subperm.trans h
  · exact h.drop ha hpc rfl
  · exact h.drop ha hpc rfl

theorem ForwardReachable.sentOnce (hs : ForwardReachable src emits k s) : SentOnce emits k s := by
  induction hs with
  | init => simp [SentOnce, forwardInit, busySigs]
  | step _ ha hs ih => exact ih.step ha hs

theorem nodup_of_subperm {α : Type} {l l' : List α} (h : l.Subperm l') (hnd : l'.Nodup) : l.Nodup := by
  obtain ⟨l₀, hperm, hsub⟩ := h
  exact hperm.nodup_iff.mp (hnd.sublist hsub)

/-- In every run, the stream carries the transactions of emitted signatures, each as often as
it was emitted at most: if the resolvers send no signature twice, none is pushed twice. -/
theorem ForwardReachable.stream_nodup (hs : ForwardReachable src emits k s) (hnd : emits.Nodup) :
    (s.stream.map Prod.fst).Nodup :=
  nodup_of_subperm (((List.sublist_append_left _ _).subperm.trans hs.sentOnce).trans
    (List.take_sublist _ _).subperm) hnd

end Once

/-! ## Every run ends -/

/-- A bound on the steps a sender thread at `pc` takes before it waits for the channel again or
ends. -/
def SenderPc.budget : SenderPc Sig → Nat
  | .idle => 1
  | .busy _ => 2
  | .panicked | .exited => 0

/-- The steps the pipeline may still take: three per signature not yet emitted, two per signature
in the channel, and each thread's own. -/
def forwardBudget (emits : List Sig) (k : Nat) (s : ForwardState Sig) : Nat :=
  3 * (emits.length - s.emitted) + 2 * (s.emitted - s.received) +
    ∑ w in Finset.range k, (s.workers w).budget

section Budget

variable {src : TxnSource Sig Txn} {emits : List Sig} {k : Nat} {s s' : ForwardState Sig}

/-- A move of thread `w` to `pc` spends budget when the thread's own budget, with the channel's
and the resolvers', drops. -/
theorem forwardBudget_lt_of_move {w : Nat} {pc : SenderPc Sig} (hw : w < k)
    (hws : s'.workers = Function.update s.workers w pc)
    (hlt : 3 * (emits.length - s'.emitted) + 2 * (s'.emitted - s'.received) + pc.budget <
      3 * (emits.length - s.emitted) + 2 * (s.emitted - s.received) + (s.workers w).budget) :
    forwardBudget emits k s' < forwardBudget emits k s := by
  have := sum_update_add SenderPc.budget s.workers hw pc
  unfold forwardBudget
  rw [hws]
  omega

/-- Every move spends budget. -/
theorem forwardBudget_step (hI : ForwardInv src emits k s) {a : ForwardAction} (ha : a.Valid k)
    (h : forwardStep src emits s a = some s') : forwardBudget emits k s' < forwardBudget emits k s := by
  have hre := hI.received_le
  rcases forwardStep_cases h with ⟨rfl, hlt, rfl⟩ | ⟨w, sig, rfl, hpc, hlt, -, rfl⟩ |
    ⟨w, rfl, hpc, -, -, rfl⟩ | ⟨w, sig, bytes, rfl, hpc, -, rfl⟩ |
    ⟨w, sig, rfl, hpc, -, rfl⟩ | ⟨w, sig, e, rfl, hpc, -, rfl⟩
  · unfold forwardBudget; dsimp only; omega
  all_goals refine forwardBudget_lt_of_move ha rfl ?_
  all_goals simp only [hpc, SenderPc.budget, ForwardState.setW_emitted, ForwardState.setW_received]
  all_goals omega

theorem forwardBudget_run {sched : List ForwardAction} (hs : ForwardReachable src emits k s)
    (hv : ∀ a ∈ sched, a.Valid k) (h : forwardRun src emits s sched = some s') :
    sched.length + forwardBudget emits k s' ≤ forwardBudget emits k s := by
  induction sched generalizing s with
  | nil => cases h; simp
  | cons a sched ih =>
    simp only [forwardRun, Option.bind_eq_some] at h
    obtain ⟨s1, h1, h2⟩ := h
    have ha := hv a (List.mem_cons_self _ _)
    have := forwardBudget_step hs.inv ha h1
    have := ih (.step hs ha h1) (fun b hb => hv b (List.mem_cons_of_mem _ hb)) h2
    simp only [List.length_cons]
    omega

end Budget

/-- Every run of the pipeline with `k` sender threads ends within `3 · emits.length + k` steps,
in every interleaving. -/
theorem forwardRun_length_le (src : TxnSource Sig Txn) (emits : List Sig) (k : Nat)
    (sched : List ForwardAction) (hv : ∀ a ∈ sched, a.Valid k) (s : ForwardState Sig)
    (h : forwardRun src emits forwardInit sched = some s) : sched.length ≤ 3 * emits.length + k := by
  have := forwardBudget_run .init hv h
  have hinit : forwardBudget emits k (forwardInit : ForwardState Sig) = 3 * emits.length + k := by
    simp [forwardBudget, forwardInit, SenderPc.budget]
  omega

/-- A source on which signature `0` fails to fetch, and every other signature is a successful
transaction, serialized as its number. -/
def fetchFailsOnZero : TxnSource Nat Nat where
  fetch n := if n = 0 then .error "rpc" else .ok n
  meta _ := some (.ok ())
  serialize n := .ok [n.toUInt8]
  push _ := .ok ()

/-- One sender thread and the successful signature `1`: pushed, then the thread leaves its loop,
in the four steps the bound allows. -/
theorem forwardRun_length_le_run :
    (∀ a ∈ [.emit, .sender 0, .sender 0, .sender 0], ForwardAction.Valid 1 a) ∧
      ∃ s, forwardRun fetchFailsOnZero [1] forwardInit [.emit, .sender 0, .sender 0, .sender 0] =
        some s ∧ [ForwardAction.emit, .sender 0, .sender 0, .sender 0].length ≤ 3 * [1].length + 1 :=
  ⟨by decide, _, rfl, forwardRun_length_le fetchFailsOnZero [1] 1 _ (by decide) _ rfl⟩

/-- One sender thread and the signatures `0`, whose fetch fails, and `1`, a successful
transaction: the thread panics on `0`, nothing is pushed although `1` succeeds, and the call ends
with a panic, not an error. -/
theorem findAndForward_panics_on_failure :
    ∃ s, forwardRun fetchFailsOnZero [0, 1] forwardInit [.emit, .emit, .sender 0, .sender 0] =
        some s ∧ (∀ a : ForwardAction, a.Valid 1 → forwardStep fetchFailsOnZero [0, 1] s a = none) ∧
      sendTxn fetchFailsOnZero 1 = .ok (some [1]) ∧ s.stream = [] ∧
      forwardResult 1 s = .panic "called Result::unwrap() on an Err value" := by
  refine ⟨_, rfl, fun a ha => ?_, rfl, rfl, rfl⟩
  cases a with
  | emit => rfl
  | sender w => rw [Nat.lt_one_iff.mp ha]; rfl

end TreeRepair
