import TreeRepair.FetchWorkers
import TreeRepair.Basic
import Mathlib.Data.List.Nodup

/-!
# Ids and signatures of the fetch workers

Because each worker receives from the feed and takes its id while it holds the feed's mutex, the
`k`-th item received is paired with id `k`: every message `(id, sig, _)` on the result channel has
`feed[id] = Ok sig`, and no id is sent twice (`fetchWorkers_pair_ids`). When every worker has
returned `Ok`, the feed was closed and every signature of the feed has been sent.

The invariant `FetchInv` says where the counter and the feed's position stand for the worker inside
the mutex's scope, which ids the workers hold, and that every id below `sig_id` is sent, held, or
was dropped with an error that ended the run. Each action of a worker keeps it (`FetchInv.acquire`
to `FetchInv.fail`).
-/

namespace TreeRepair

variable {Sig P : Type}

namespace FetchPc

/-- The worker is inside the mutex's scope. -/
def Critical : FetchPc Sig → Prop
  | .locked | .received _ | .counted _ _ => True
  | _ => False

/-- The id the worker holds: taken from `sig_id`, and neither sent nor dropped yet. -/
def heldId : FetchPc Sig → Option Nat
  | .counted id _ | .fetching id _ => some id
  | _ => none

/-- What the worker's program counter says of the feed position and the counter. -/
def Consistent (feed : List (FeedItem Sig)) (feedPos sigId : Nat) : FetchPc Sig → Prop
  | .received msg => msg = feed[sigId]? ∧ feedPos = min (sigId + 1) feed.length
  | .counted id msg => msg = feed[id]? ∧ sigId = id + 1
  | .fetching id sig => feed[id]? = some (.ok sig) ∧ id < sigId
  | .doneOk => feed.length ≤ sigId
  | _ => True

@[simp] theorem critical_start : ¬ (start : FetchPc Sig).Critical := fun h => h
@[simp] theorem critical_locked : (locked : FetchPc Sig).Critical := trivial
@[simp] theorem critical_fetching {id : Nat} {sig : Sig} : ¬ (fetching id sig).Critical :=
  fun h => h
@[simp] theorem critical_doneOk : ¬ (doneOk : FetchPc Sig).Critical := fun h => h
@[simp] theorem critical_doneErr : ¬ (doneErr : FetchPc Sig).Critical := fun h => h
@[simp] theorem heldId_start : (start : FetchPc Sig).heldId = none := rfl
@[simp] theorem heldId_locked : (locked : FetchPc Sig).heldId = none := rfl
@[simp] theorem heldId_received {msg : Option (FeedItem Sig)} : (received msg).heldId = none := rfl
@[simp] theorem heldId_doneErr : (doneErr : FetchPc Sig).heldId = none := rfl

theorem critical_ofMsg {id : Nat} (msg : Option (FeedItem Sig)) : ¬ (ofMsg id msg).Critical := by
  rcases msg with _ | _ | _ <;> exact fun h => h

theorem consistent_mono {feed : List (FeedItem Sig)} {p i j : Nat} {pc : FetchPc Sig}
    (hpc : ∀ msg, pc ≠ .received msg) (hc : ∀ id msg, pc ≠ .counted id msg) (hij : i ≤ j)
    (h : pc.Consistent feed p i) : pc.Consistent feed p j := by
  cases pc with
  | received msg => exact absurd rfl (hpc msg)
  | counted id msg => exact absurd rfl (hc id msg)
  | fetching id sig => exact ⟨h.1, by have := h.2; omega⟩
  | doneOk => exact le_trans (show feed.length ≤ i from h) hij
  | _ => trivial

theorem consistent_feedPos {feed : List (FeedItem Sig)} {p p' i : Nat} {pc : FetchPc Sig}
    (hpc : ∀ msg, pc ≠ .received msg) (h : pc.Consistent feed p i) : pc.Consistent feed p' i := by
  cases pc with
  | received msg => exact absurd rfl (hpc msg)
  | _ => exact h

theorem not_received_of_not_critical {pc : FetchPc Sig} (h : ¬ pc.Critical) :
    ∀ msg, pc ≠ .received msg := by
  rintro msg rfl; exact h trivial

theorem not_counted_of_not_critical {pc : FetchPc Sig} (h : ¬ pc.Critical) :
    ∀ id msg, pc ≠ .counted id msg := by
  rintro id msg rfl; exact h trivial

theorem heldId_ofMsg {id i : Nat} {msg : Option (FeedItem Sig)} (h : (ofMsg id msg).heldId = some i) :
    i = id := by
  rcases msg with _ | _ | _ <;> simp_all [ofMsg, heldId]

theorem ofMsg_eq_doneErr {id : Nat} {msg : Option (FeedItem Sig)} :
    ofMsg id msg = doneErr ↔ errMsg msg = true := by
  rcases msg with _ | _ | _ <;> simp [ofMsg, errMsg]

end FetchPc

@[simp] theorem FetchState.setPc_workers (s : FetchState Sig P) (w : Nat) (pc : FetchPc Sig) :
    (s.setPc w pc).workers = Function.update s.workers w pc := rfl
@[simp] theorem FetchState.setPc_feedPos (s : FetchState Sig P) (w : Nat) (pc : FetchPc Sig) :
    (s.setPc w pc).feedPos = s.feedPos := rfl
@[simp] theorem FetchState.setPc_sigId (s : FetchState Sig P) (w : Nat) (pc : FetchPc Sig) :
    (s.setPc w pc).sigId = s.sigId := rfl
@[simp] theorem FetchState.setPc_lock (s : FetchState Sig P) (w : Nat) (pc : FetchPc Sig) :
    (s.setPc w pc).lock = s.lock := rfl
@[simp] theorem FetchState.setPc_sent (s : FetchState Sig P) (w : Nat) (pc : FetchPc Sig) :
    (s.setPc w pc).sent = s.sent := rfl
@[simp] theorem FetchState.setPc_joinErr (s : FetchState Sig P) (w : Nat) (pc : FetchPc Sig) :
    (s.setPc w pc).joinErr = s.joinErr := rfl

/-- The invariant of a run of `n` fetch workers over `feed`. -/
structure FetchInv (feed : List (FeedItem Sig)) (n : Nat) (s : FetchState Sig P) : Prop where
  /-- Workers beyond the `n` spawned ones never move. -/
  idle_beyond : ∀ w, n ≤ w → s.workers w = .start
  /-- The mutex is held by exactly the worker inside its scope. -/
  lock_iff : ∀ w, s.lock = some w ↔ (s.workers w).Critical
  /-- Each worker's program counter agrees with the feed position and the counter. -/
  consistent : ∀ w, (s.workers w).Consistent feed s.feedPos s.sigId
  /-- Outside a receive, the feed position is the number of ids taken, up to the feed's end. -/
  pos_free : (∀ w msg, s.workers w ≠ .received msg) → s.feedPos = min s.sigId feed.length
  /-- Every sent message pairs an id with the feed's signature at that position. -/
  sent_ok : ∀ m ∈ s.sent, feed[m.1]? = some (.ok m.2.1) ∧ m.1 < s.sigId
  /-- No id is sent twice. -/
  sent_nodup : (s.sent.map Prod.fst).Nodup
  /-- A held id is held by one worker only, and not sent. -/
  held_unique : ∀ w w' id, (s.workers w).heldId = some id →
    ((s.workers w').heldId = some id → w = w') ∧ id ∉ s.sent.map Prod.fst
  /-- Every id of a feed item is sent, held, or was dropped by an error that ended the run. -/
  complete : ∀ i, i < s.sigId → i < feed.length →
    i ∈ s.sent.map Prod.fst ∨ (∃ w, (s.workers w).heldId = some i) ∨ s.joinErr = true
  /-- `try_join_all` completed with an error exactly when a worker returned one. -/
  joinErr_iff : s.joinErr = true ↔ ∃ w, s.workers w = .doneErr

section Step

variable {feed : List (FeedItem Sig)} {n w : Nat} {s : FetchState Sig P}

theorem fetchInv_init (feed : List (FeedItem Sig)) (n : Nat) : FetchInv feed n (fetchInit : FetchState Sig P) where
  idle_beyond _ _ := rfl
  lock_iff _ := by simp [fetchInit]
  consistent _ := trivial
  pos_free _ := by simp [fetchInit]
  sent_ok := by simp [fetchInit]
  sent_nodup := List.nodup_nil
  held_unique := by simp [fetchInit]
  complete := by simp [fetchInit]
  joinErr_iff := by simp [fetchInit]

/-- A worker other than `w` keeps its program counter. -/
theorem update_ne {f : Nat → FetchPc Sig} {w w' : Nat} {pc : FetchPc Sig} (h : w' ≠ w) :
    Function.update f w pc w' = f w' := Function.update_noteq h pc f

/-- No worker other than the lock holder is inside the mutex's scope. -/
theorem FetchInv.not_critical (hI : FetchInv feed n s) (hl : s.lock = some w) {w' : Nat}
    (h : w' ≠ w) : ¬ (s.workers w').Critical := fun hc =>
  h (Option.some.inj (((hI.lock_iff w').mpr hc).symm.trans hl))

/-- A held id was taken from the counter. -/
theorem FetchInv.held_lt (hI : FetchInv feed n s) {w' id : Nat}
    (h : (s.workers w').heldId = some id) : id < s.sigId := by
  have hc := hI.consistent w'
  cases hpc : s.workers w' with
  | counted i msg => rw [hpc] at h hc; cases h; exact hc.2 ▸ Nat.lt_succ_self _
  | fetching i sig => rw [hpc] at h hc; cases h; exact hc.2
  | _ => rw [hpc] at h; cases h

/-- A move of `w` that leaves the mutex alone, between two program counters both inside or both
outside its scope, keeps `lock_iff`. -/
theorem FetchInv.lock_iff_update (hI : FetchInv feed n s) {s' : FetchState Sig P}
    {pc : FetchPc Sig} (hws : s'.workers = Function.update s.workers w pc)
    (hlock : s'.lock = s.lock) (hcrit : pc.Critical ↔ (s.workers w).Critical) (w' : Nat) :
    s'.lock = some w' ↔ (s'.workers w').Critical := by
  rw [hlock, hws]
  by_cases e : w' = w
  · subst e; rw [Function.update_same, hcrit]; exact hI.lock_iff w'
  · rw [update_ne e]; exact hI.lock_iff w'

/-- A move of `w` that leaves `try_join_all` alone, between two program counters other than
`doneErr`, keeps `joinErr_iff`. -/
theorem FetchInv.joinErr_iff_update (hI : FetchInv feed n s) {s' : FetchState Sig P}
    {pc : FetchPc Sig} (hws : s'.workers = Function.update s.workers w pc)
    (hjoin : s'.joinErr = s.joinErr) (herr : pc ≠ .doneErr) (herr' : s.workers w ≠ .doneErr) :
    s'.joinErr = true ↔ ∃ w', s'.workers w' = .doneErr := by
  rw [hjoin, hI.joinErr_iff, hws]
  refine exists_congr fun w' => ?_
  by_cases e : w' = w
  · subst e; rw [Function.update_same]; exact ⟨fun h => absurd h herr', fun h => absurd h herr⟩
  · rw [update_ne e]

/-- A move of `w` to a program counter that holds at most the id `w` held keeps every held id held
by one worker only, and unsent. -/
theorem FetchInv.held_unique_update (hI : FetchInv feed n s) {pc : FetchPc Sig}
    (hpc : ∀ i, pc.heldId = some i → (s.workers w).heldId = some i) {w1 w2 i : Nat}
    (h1 : (Function.update s.workers w pc w1).heldId = some i) :
    ((Function.update s.workers w pc w2).heldId = some i → w1 = w2) ∧ i ∉ s.sent.map Prod.fst := by
  have hold : ∀ v, (Function.update s.workers w pc v).heldId = some i →
      (s.workers v).heldId = some i := fun v hv => by
    by_cases e : v = w
    · subst e; rw [Function.update_same] at hv; exact hpc i hv
    · rwa [update_ne e] at hv
  exact ⟨fun h2 => (hI.held_unique w1 w2 i (hold w1 h1)).1 (hold w2 h2),
    (hI.held_unique w1 w2 i (hold w1 h1)).2⟩

/-- Once `w` gives up the id it held, every held id is held by one worker only, other than `w`. -/
theorem FetchInv.held_unique_drop (hI : FetchInv feed n s) {pc : FetchPc Sig}
    (hpc : pc.heldId = none) {w1 w2 i : Nat} (h1 : (Function.update s.workers w pc w1).heldId = some i) :
    ((Function.update s.workers w pc w2).heldId = some i → w1 = w2) ∧ w1 ≠ w ∧
      (s.workers w1).heldId = some i := by
  have e1 : w1 ≠ w := by rintro rfl; simp [hpc] at h1
  rw [update_ne e1] at h1
  refine ⟨fun h2 => ?_, e1, h1⟩
  by_cases e2 : w2 = w
  · subst e2; simp [hpc] at h2
  · exact (hI.held_unique w1 w2 i h1).1 (by rwa [update_ne e2] at h2)

/-- A move of `w` between two program counters that hold no id and have not failed keeps the
id accounting, when the counter, the sent messages and `try_join_all` are left as they were;
the rest of the invariant is the move's own. -/
theorem FetchInv.quiet (hI : FetchInv feed n s) {s' : FetchState Sig P} {pc : FetchPc Sig}
    (hw : w < n) (hws : s'.workers = Function.update s.workers w pc) (hsig : s'.sigId = s.sigId)
    (hsent : s'.sent = s.sent) (hjoin : s'.joinErr = s.joinErr) (hheld : pc.heldId = none)
    (hold : (s.workers w).heldId = none) (herr : pc ≠ .doneErr) (herr' : s.workers w ≠ .doneErr)
    (hlock : ∀ w', s'.lock = some w' ↔ (s'.workers w').Critical)
    (hcons : ∀ w', (s'.workers w').Consistent feed s'.feedPos s'.sigId)
    (hpos : (∀ w' msg, s'.workers w' ≠ .received msg) → s'.feedPos = min s'.sigId feed.length) :
    FetchInv feed n s' := by
  have hkeep : ∀ w', (s'.workers w').heldId = (s.workers w').heldId := fun w' => by
    by_cases e : w' = w
    · subst e; rw [hws, Function.update_same, hheld, hold]
    · rw [hws, update_ne e]
  refine ⟨fun w' h => ?_, hlock, hcons, hpos, hsent ▸ hsig ▸ hI.sent_ok, hsent ▸ hI.sent_nodup,
    fun w1 w2 id h1 => ?_, fun i hi hf => ?_, ?_⟩
  · rw [hws, update_ne (show w' ≠ w by omega), hI.idle_beyond w' h]
  · rw [hkeep] at h1; rw [hkeep, hsent]; exact hI.held_unique w1 w2 id h1
  · rw [hsig] at hi
    simp only [hkeep, hsent, hjoin]; exact hI.complete i hi hf
  · exact hI.joinErr_iff_update hws hjoin herr herr'

/-- `rx_sig.lock().await`: a free mutex is taken. -/
theorem FetchInv.acquire (hI : FetchInv feed n s) (hw : w < n) (hpc : s.workers w = .start)
    (hl : s.lock = none) : FetchInv feed n { s.setPc w .locked with lock := some w } := by
  refine hI.quiet hw rfl rfl rfl rfl rfl (by simp [hpc]) (by simp) (by simp [hpc])
    (fun w' => ?_) (fun w' => ?_) fun hno => hI.pos_free fun w' msg h' => ?_
  · by_cases h : w' = w
    · subst h; simp
    · simp only [FetchState.setPc_workers, update_ne h, Option.some.injEq]
      exact ⟨fun e => absurd e.symm h, fun hc => by simpa [hl] using (hI.lock_iff w').mpr hc⟩
  · by_cases h : w' = w
    · subst h; simp [FetchPc.Consistent]
    · simpa [update_ne h] using hI.consistent w'
  · by_cases h : w' = w
    · subst h; simp [hpc] at h'
    · exact hno w' msg (by simpa [update_ne h] using h')

/-- `lock.recv().await`: the next item of the feed, or `None` once it is closed. -/
theorem FetchInv.recv (hI : FetchInv feed n s) (hw : w < n) (hpc : s.workers w = .locked) :
    FetchInv feed n { s.setPc w (.received feed[s.feedPos]?) with
      feedPos := if feed[s.feedPos]?.isSome then s.feedPos + 1 else s.feedPos } := by
  have hl : s.lock = some w := (hI.lock_iff w).mpr (by simp [hpc])
  have hpos : s.feedPos = min s.sigId feed.length := hI.pos_free fun w' msg h' => by
    by_cases e : w' = w
    · subst e; simp [hpc] at h'
    · exact FetchPc.not_received_of_not_critical (hI.not_critical hl e) msg h'
  refine hI.quiet hw rfl rfl rfl rfl rfl (by simp [hpc]) (by simp) (by simp [hpc])
    (hI.lock_iff_update rfl rfl (by simp [hpc, FetchPc.Critical])) (fun w' => ?_)
    fun hno => absurd (by simp) (hno w (feed[s.feedPos]?))
  · by_cases e : w' = w
    · subst e
      simp only [FetchState.setPc_workers, Function.update_same, FetchPc.Consistent]
      by_cases hlt : s.sigId < feed.length
      · rw [hpos, min_eq_left hlt.le]
        simp only [hlt, List.getElem?_eq_getElem, Option.isSome_some, ↓reduceIte,
          FetchState.setPc_sigId, left_eq_inf, true_and]
        omega
      · rw [hpos, min_eq_right (by omega)]
        simp only [List.getElem?_length, List.none_eq_getElem?_iff, Option.isSome_none,
          Bool.false_eq_true, ↓reduceIte, FetchState.setPc_sigId, right_eq_inf]
        omega
    · simp only [FetchState.setPc_workers, update_ne e]
      exact FetchPc.consistent_feedPos
        (FetchPc.not_received_of_not_critical (hI.not_critical hl e)) (hI.consistent w')

/-- `sig_id.fetch_add(1)`: the worker inside the mutex's scope takes the next id. -/
theorem FetchInv.fetchAdd (hI : FetchInv feed n s) (hw : w < n) {msg : Option (FeedItem Sig)}
    (hpc : s.workers w = .received msg) :
    FetchInv feed n { s.setPc w (.counted s.sigId msg) with sigId := s.sigId + 1 } := by
  have hl : s.lock = some w := (hI.lock_iff w).mpr (by simp [hpc, FetchPc.Critical])
  have hrc : msg = feed[s.sigId]? ∧ s.feedPos = min (s.sigId + 1) feed.length := by
    have h := hI.consistent w; rw [hpc] at h; exact h
  refine ⟨fun w' h => ?_, hI.lock_iff_update rfl rfl (by simp [hpc, FetchPc.Critical]),
    fun w' => ?_, fun _ => hrc.2, fun m hm => ?_, hI.sent_nodup, fun w1 w2 id h1 => ?_,
    fun i hi hf => ?_, hI.joinErr_iff_update rfl rfl (by simp) (by simp [hpc])⟩
  · simp [update_ne (show w' ≠ w by omega), hI.idle_beyond w' h]
  · by_cases e : w' = w
    · subst e; simp [FetchPc.Consistent, hrc.1]
    · have hc := hI.not_critical hl e
      simpa [update_ne e] using FetchPc.consistent_mono (FetchPc.not_received_of_not_critical hc)
        (FetchPc.not_counted_of_not_critical hc) (Nat.le_succ _) (hI.consistent w')
  · exact ⟨(hI.sent_ok m hm).1, Nat.lt_succ_of_lt (hI.sent_ok m hm).2⟩
  · by_cases e1 : w1 = w
    · subst e1
      simp only [FetchState.setPc_workers, Function.update_same, FetchPc.heldId,
        Option.some.injEq] at h1
      subst h1
      refine ⟨fun h2 => by_contra fun e2 => ?_, fun hs => ?_⟩
      · have := hI.held_lt (by simpa [update_ne (Ne.symm e2)] using h2); omega
      · obtain ⟨m, hm, he⟩ := List.mem_map.mp hs
        have := (hI.sent_ok m hm).2; omega
    · simp only [FetchState.setPc_workers, update_ne e1] at h1 ⊢
      refine ⟨fun h2 => ?_, (hI.held_unique w1 w2 id h1).2⟩
      by_cases e2 : w2 = w
      · subst e2
        simp only [Function.update_same, FetchPc.heldId, Option.some.injEq] at h2
        have := hI.held_lt h1; omega
      · exact (hI.held_unique w1 w2 id h1).1 (by simpa [update_ne e2] using h2)
  · rcases Nat.lt_succ_iff_lt_or_eq.mp hi with hi | rfl
    · rcases hI.complete i hi hf with h | ⟨w', h⟩ | h
      · exact .inl h
      · have : w' ≠ w := fun e => by subst e; simp [hpc] at h
        exact .inr (.inl ⟨w', by simpa [update_ne this] using h⟩)
      · exact .inr (.inr h)
    · exact .inr (.inl ⟨w, by simp [FetchPc.heldId]⟩)

/-- `drop(lock)` and the `match`: the worker leaves the mutex's scope; a signature is fetched, an
error item ends the worker (and the run) with an error, and a closed feed ends it with `Ok`. -/
theorem FetchInv.release (hI : FetchInv feed n s) (hw : w < n) {id : Nat}
    {msg : Option (FeedItem Sig)} (hpc : s.workers w = .counted id msg) (hj : s.joinErr = false) :
    FetchInv feed n { s.setPc w (.ofMsg id msg) with lock := none, joinErr := FetchPc.errMsg msg } := by
  have hl : s.lock = some w := (hI.lock_iff w).mpr (by simp [hpc, FetchPc.Critical])
  have hcc : msg = feed[id]? ∧ s.sigId = id + 1 := by
    have h := hI.consistent w; rw [hpc] at h; exact h
  have hnoErr : ∀ w', s.workers w' ≠ .doneErr := fun w' h' =>
    absurd (hI.joinErr_iff.mpr ⟨w', h'⟩) (by simp [hj])
  refine ⟨fun w' h => ?_, fun w' => ?_, fun w' => ?_, fun _ => hI.pos_free fun w' m h' => ?_,
    hI.sent_ok, hI.sent_nodup, fun w1 w2 i h1 => ?_, fun i hi hf => ?_, ?_⟩
  · simp [update_ne (show w' ≠ w by omega), hI.idle_beyond w' h]
  · by_cases e : w' = w
    · subst e; simp [FetchPc.critical_ofMsg]
    · simp [update_ne e, hI.not_critical hl e]
  · by_cases e : w' = w
    · subst e
      simp only [FetchState.setPc_workers, Function.update_same]
      rcases hcc with ⟨rfl, hsig⟩
      cases hf : feed[id]? with
      | none =>
        simp only [FetchPc.ofMsg, FetchPc.Consistent, FetchState.setPc_sigId]
        simp at hf; omega
      | some item => cases item <;> simp [FetchPc.ofMsg, FetchPc.Consistent, hf, hsig]
    · simpa [update_ne e] using hI.consistent w'
  · by_cases e : w' = w
    · subst e; simp [hpc] at h'
    · exact FetchPc.not_received_of_not_critical (hI.not_critical hl e) m h'
  · exact hI.held_unique_update (fun i h => by
      rw [FetchPc.heldId_ofMsg h, hpc]; rfl) h1
  · rcases hI.complete i hi hf with h | ⟨w', h⟩ | h
    · exact .inl h
    · by_cases e : w' = w
      · subst e
        simp only [hpc, FetchPc.heldId, Option.some.injEq] at h
        subst h
        rcases hcc with ⟨rfl, -⟩
        cases hfi : feed[id]? with
        | none => simp at hfi; omega
        | some item =>
          cases item with
          | error e => exact .inr (.inr (by simp [FetchPc.errMsg]))
          | ok sig => exact .inr (.inl ⟨w', by simp [FetchPc.ofMsg, FetchPc.heldId]⟩)
      · exact .inr (.inl ⟨w', by simpa [update_ne e] using h⟩)
    · simp [hj] at h
  · show FetchPc.errMsg msg = true ↔ _
    constructor
    · intro h; exact ⟨w, by simpa using FetchPc.ofMsg_eq_doneErr.mpr h⟩
    · rintro ⟨w', h'⟩
      by_cases e : w' = w
      · subst e; simpa using FetchPc.ofMsg_eq_doneErr.mp (by simpa using h')
      · exact absurd (by simpa [update_ne e] using h') (hnoErr w')

/-- `tx.send((id, signature, ...))` after `process_tx` succeeded: the held id is sent. -/
theorem FetchInv.send (hI : FetchInv feed n s) (hw : w < n) {id : Nat} {sig : Sig} (obs : P)
    (hpc : s.workers w = .fetching id sig) :
    FetchInv feed n { s.setPc w .start with sent := s.sent ++ [(id, sig, obs)] } := by
  have hf : feed[id]? = some (.ok sig) ∧ id < s.sigId := by
    have h := hI.consistent w; rw [hpc] at h; exact h
  have hown := hI.held_unique w w id (by simp [hpc, FetchPc.heldId])
  refine ⟨fun w' h => ?_, hI.lock_iff_update rfl rfl (by simp [hpc]), fun w' => ?_,
    fun hno => hI.pos_free fun w' m h' => ?_, fun m hm => ?_, ?_, fun w1 w2 i h1 => ?_,
    fun i hi hf' => ?_, hI.joinErr_iff_update rfl rfl (by simp) (by simp [hpc])⟩
  · simp [update_ne (show w' ≠ w by omega), hI.idle_beyond w' h]
  · by_cases e : w' = w
    · subst e; simp [FetchPc.Consistent]
    · simpa [update_ne e] using hI.consistent w'
  · by_cases e : w' = w
    · subst e; simp [hpc] at h'
    · exact hno w' m (by simpa [update_ne e] using h')
  · rcases List.mem_append.mp hm with hm | hm
    · exact hI.sent_ok m hm
    · simp only [List.mem_singleton] at hm; subst hm; exact hf
  · rw [List.map_append]
    exact hI.sent_nodup.append (List.nodup_singleton id) (List.disjoint_singleton.mpr hown.2)
  · obtain ⟨h12, e1, h1⟩ := hI.held_unique_drop (by simp) h1
    have hne : i ≠ id := fun e => e1 ((hI.held_unique w1 w i h1).1 (by simp [hpc, e, FetchPc.heldId]))
    exact ⟨h12, by simp [(hI.held_unique w1 w2 i h1).2, hne]⟩
  · rcases hI.complete i hi hf' with h | ⟨w', h⟩ | h
    · exact .inl (List.map_append Prod.fst _ _ ▸ List.mem_append_left _ h)
    · by_cases e : w' = w
      · subst e
        simp only [hpc, FetchPc.heldId, Option.some.injEq] at h
        exact .inl (List.map_append Prod.fst _ _ ▸ List.mem_append_right _ (h ▸ List.mem_singleton_self _))
      · exact .inr (.inl ⟨w', by simpa [update_ne e] using h⟩)
    · exact .inr (.inr h)

/-- `process_tx(...).await?` failed: the worker returns the error and `try_join_all` with it. -/
theorem FetchInv.fail (hI : FetchInv feed n s) (hw : w < n) {id : Nat} {sig : Sig}
    (hpc : s.workers w = .fetching id sig) :
    FetchInv feed n { s.setPc w .doneErr with joinErr := true } := by
  refine ⟨fun w' h => ?_, hI.lock_iff_update rfl rfl (by simp [hpc]), fun w' => ?_,
    fun hno => hI.pos_free fun w' m h' => ?_, hI.sent_ok, hI.sent_nodup,
    fun w1 w2 i h1 => ?_, fun _ _ _ => .inr (.inr rfl), iff_of_true rfl ⟨w, by simp⟩⟩
  · simp [update_ne (show w' ≠ w by omega), hI.idle_beyond w' h]
  · by_cases e : w' = w
    · subst e; simp [FetchPc.Consistent]
    · simpa [update_ne e] using hI.consistent w'
  · by_cases e : w' = w
    · subst e; simp [hpc] at h'
    · exact hno w' m (by simpa [update_ne e] using h')
  · exact hI.held_unique_update (fun _ h => by simp at h) h1

/-- Everything a step of worker `w` can do, each with its guard. -/
theorem fetchStep_cases {o : Except String P} {s' : FetchState Sig P}
    (h : fetchStep feed s w o = some s') :
    s.joinErr = false ∧
      ((s.workers w = .start ∧ s.lock = none ∧ s' = { s.setPc w .locked with lock := some w }) ∨
      (s.workers w = .locked ∧ s' = { s.setPc w (.received feed[s.feedPos]?) with
          feedPos := if feed[s.feedPos]?.isSome then s.feedPos + 1 else s.feedPos }) ∨
      (∃ msg, s.workers w = .received msg ∧
          s' = { s.setPc w (.counted s.sigId msg) with sigId := s.sigId + 1 }) ∨
      (∃ id msg, s.workers w = .counted id msg ∧
          s' = { s.setPc w (.ofMsg id msg) with lock := none, joinErr := FetchPc.errMsg msg }) ∨
      (∃ id sig obs, s.workers w = .fetching id sig ∧ o = .ok obs ∧
          s' = { s.setPc w .start with sent := s.sent ++ [(id, sig, obs)] }) ∨
      (∃ id sig e, s.workers w = .fetching id sig ∧ o = .error e ∧
          s' = { s.setPc w .doneErr with joinErr := true })) := by
  unfold fetchStep at h
  split at h
  · cases h
  refine ⟨by simpa using ‹¬s.joinErr = true›, ?_⟩
  split at h <;> rename_i hpc
  · split at h
    · cases h; exact .inl ⟨hpc, ‹_›, rfl⟩
    · cases h
  · cases h; exact .inr (.inl ⟨hpc, rfl⟩)
  · cases h; exact .inr (.inr (.inl ⟨_, hpc, rfl⟩))
  · cases h; exact .inr (.inr (.inr (.inl ⟨_, _, hpc, rfl⟩)))
  · split at h <;> cases h
    · exact .inr (.inr (.inr (.inr (.inl ⟨_, _, _, hpc, rfl, rfl⟩))))
    · exact .inr (.inr (.inr (.inr (.inr ⟨_, _, _, hpc, rfl, rfl⟩))))
  · cases h
  · cases h

/-- Every step of a worker keeps the invariant. -/
theorem FetchInv.step (hI : FetchInv feed n s) (hw : w < n) {s' : FetchState Sig P}
    {outcome : Except String P} (h : fetchStep feed s w outcome = some s') : FetchInv feed n s' := by
  obtain ⟨hj, ⟨hpc, hl, rfl⟩ | ⟨hpc, rfl⟩ | ⟨msg, hpc, rfl⟩ | ⟨id, msg, hpc, rfl⟩ |
    ⟨id, sig, obs, hpc, -, rfl⟩ | ⟨id, sig, e, hpc, -, rfl⟩⟩ := fetchStep_cases h
  · exact hI.acquire hw hpc hl
  · exact hI.recv hw hpc
  · exact hI.fetchAdd hw hpc
  · exact hI.release hw hpc hj
  · exact hI.send hw obs hpc
  · exact hI.fail hw hpc

theorem FetchReachable.inv {feed : List (FeedItem Sig)} {n : Nat} {s : FetchState Sig P}
    (h : FetchReachable feed n s) : FetchInv feed n s := by
  induction h with
  | init => exact fetchInv_init feed n
  | step _ hw hs ih => exact ih.step hw hs

end Step

theorem FetchReachable.run {feed : List (FeedItem Sig)} {n : Nat} {s s' : FetchState Sig P}
    {sched : List (Nat × Except String P)} (hs : FetchReachable feed n s)
    (hw : ∀ e ∈ sched, e.1 < n) (h : fetchRun feed s sched = some s') : FetchReachable feed n s' := by
  induction sched generalizing s with
  | nil => exact Option.some.inj h ▸ hs
  | cons e sched ih =>
    obtain ⟨w, o⟩ := e
    simp only [fetchRun, Option.bind_eq_some] at h
    obtain ⟨s1, h1, h2⟩ := h
    exact ih (.step hs (hw _ (List.mem_cons_self _ _)) h1)
      (fun e he => hw e (List.mem_cons_of_mem _ he)) h2

section Outcome

variable {feed : List (FeedItem Sig)} {n : Nat} {s : FetchState Sig P}

/-- Once every worker has returned `Ok`, the sent ids are the positions of the feed's
signatures. -/
theorem FetchInv.delivered (hI : FetchInv feed n s) (hn : 0 < n)
    (hdone : ∀ w < n, s.workers w = .doneOk) (i : Nat) :
    i ∈ s.sent.map Prod.fst ↔ ∃ sig, feed[i]? = some (.ok sig) := by
  have hpc : ∀ w, s.workers w = .doneOk ∨ s.workers w = .start := fun w =>
    if hw : w < n then .inl (hdone w hw) else .inr (hI.idle_beyond w (by omega))
  refine ⟨fun hi => ?_, fun ⟨sig, hsig⟩ => ?_⟩
  · obtain ⟨m, hm, rfl⟩ := List.mem_map.mp hi
    exact ⟨_, (hI.sent_ok m hm).1⟩
  · have hlen : feed.length ≤ s.sigId := by
      simpa [hdone 0 hn, FetchPc.Consistent] using hI.consistent 0
    obtain ⟨hi, -⟩ := List.getElem?_eq_some_iff.mp hsig
    rcases hI.complete i (by omega) hi with h | ⟨w, hw⟩ | h
    · exact h
    · rcases hpc w with h' | h' <;> simp [h', FetchPc.heldId] at hw
    · obtain ⟨w, hw⟩ := hI.joinErr_iff.mp h
      rcases hpc w with h' | h' <;> simp [h'] at hw

/-- What the result channel carries in a state of a run over `feed` with `n` workers. -/
structure FetchPairing (feed : List (FeedItem Sig)) (n : Nat) (s : FetchState Sig P) : Prop where
  /-- Every sent `(id, sig, _)` has `feed[id] = Ok sig`. -/
  sent_ok : ∀ m ∈ s.sent, feed[m.1]? = some (.ok m.2.1)
  /-- No two sent messages share an id. -/
  sent_nodup : (s.sent.map Prod.fst).Nodup
  /-- Once every worker has returned `Ok`, the sent ids are the positions of the signatures. -/
  sent_complete : (∀ w < n, s.workers w = .doneOk) →
    ∀ i, i ∈ s.sent.map Prod.fst ↔ ∃ sig, feed[i]? = some (.ok sig)

/-- For every feed, every `n ≥ 1` workers (`concurrency` is a `NonZeroUsize`), every interleaving
and every outcome of `process_tx`: every sent `(id, sig, _)` has `feed[id] = Ok sig`, no id is sent
twice, and once every worker has returned `Ok` the sent ids are the positions of the feed's
signatures. -/
theorem fetchWorkers_pair_ids (feed : List (FeedItem Sig)) (n : Nat) (hn : 0 < n)
    (s : FetchState Sig P) (hs : FetchReachable feed n s) : FetchPairing feed n s :=
  have hI := hs.inv
  ⟨fun m hm => (hI.sent_ok m hm).1, hI.sent_nodup, hI.delivered hn⟩

/-- One worker over a feed of one signature: it sends `(0, 5, _)`, receives `None` and returns. -/
theorem fetchWorkers_pair_ids_run :
    ∃ s : FetchState Nat Unit,
      fetchRun [.ok 5] fetchInit (List.replicate 9 (0, .ok ())) = some s ∧
      0 < 1 ∧ s.workers 0 = .doneOk ∧ s.sent = [(0, 5, ())] ∧ FetchPairing [.ok 5] 1 s :=
  ⟨_, rfl, by decide, rfl, rfl,
    fetchWorkers_pair_ids _ 1 (by decide) _ (FetchReachable.init.run (by decide)
      (rfl : fetchRun _ fetchInit (List.replicate 9 (0, .ok ())) = _))⟩

/-- A worker cannot move exactly when the run has failed, when it waits for the mutex, or when
it has returned. -/
theorem fetchStep_eq_none_iff {w : Nat} {o : Except String P} :
    fetchStep feed s w o = none ↔ s.joinErr = true ∨ (s.workers w = .start ∧ s.lock ≠ none) ∨
      s.workers w = .doneOk ∨ s.workers w = .doneErr := by
  unfold fetchStep
  cases s.joinErr <;> cases hpc : s.workers w <;> cases o <;> simp [hpc]

/-- When no worker can move and the run has not failed, every worker has returned `Ok`: a
waiting worker waits for a holder of the mutex, which can always move. -/
theorem FetchInv.doneOk_of_stuck (hI : FetchInv feed n s) (hj : s.joinErr = false)
    (hstuck : ∀ w < n, ∀ o : Except String P, fetchStep feed s w o = none) {w : Nat}
    (hw : w < n) : s.workers w = .doneOk := by
  have hnoErr : ∀ w', s.workers w' ≠ .doneErr := fun w' h => by
    simpa [hj] using hI.joinErr_iff.mpr ⟨w', h⟩
  have hwait : ∀ w' < n, (s.workers w' = .start ∧ s.lock ≠ none) ∨ s.workers w' = .doneOk :=
    fun w' hw' => by
      rcases fetchStep_eq_none_iff.mp (hstuck w' hw' (.error "")) with h | h | h | h
      · simp [hj] at h
      · exact .inl h
      · exact .inr h
      · exact absurd h (hnoErr w')
  rcases hwait w hw with ⟨-, hl⟩ | h
  · obtain ⟨w', hw'⟩ := Option.ne_none_iff_exists'.mp hl
    have hc := (hI.lock_iff w').mp hw'
    have hlt : w' < n := by
      by_contra h
      simp [hI.idle_beyond w' (by omega)] at hc
    rcases hwait w' hlt with ⟨h', -⟩ | h' <;> simp [h'] at hc
  · exact h

/-- How a run that no worker can continue has ended. -/
structure FetchEnd (feed : List (FeedItem Sig)) (n : Nat) (s : FetchState Sig P) : Prop where
  /-- `try_join_all` fails exactly when some worker returned an error. -/
  err_iff : s.joinErr = true ↔ ∃ w < n, s.workers w = .doneErr
  /-- Otherwise every worker returned `Ok` ... -/
  all_ok : s.joinErr = false → ∀ w < n, s.workers w = .doneOk
  /-- ... and the sent ids are the positions of all the feed's signatures, ... -/
  delivered : s.joinErr = false →
    ∀ i, i ∈ s.sent.map Prod.fst ↔ ∃ sig, feed[i]? = some (.ok sig)
  /-- ... each sent with the signature at its position ... -/
  sent_ok : ∀ m ∈ s.sent, feed[m.1]? = some (.ok m.2.1)
  /-- ... and once. -/
  sent_once : (s.sent.map Prod.fst).Nodup

/-- For every feed, every `n ≥ 1` workers and every run that no worker can continue: the run
failed exactly when a worker returned an error (an error item, or a failed `process_tx`), and
otherwise every signature of the feed was sent, once, with its position. -/
theorem fetchWorkers_end_of_stuck (feed : List (FeedItem Sig)) (n : Nat) (hn : 0 < n)
    (s : FetchState Sig P) (hs : FetchReachable feed n s)
    (hstuck : ∀ w < n, ∀ o : Except String P, fetchStep feed s w o = none) : FetchEnd feed n s := by
  have hI := hs.inv
  refine ⟨⟨fun h => ?_, fun ⟨w, _, h⟩ => hI.joinErr_iff.mpr ⟨w, h⟩⟩,
    fun hj _ hw => hI.doneOk_of_stuck hj hstuck hw,
    fun hj => hI.delivered hn fun _ hw => hI.doneOk_of_stuck hj hstuck hw,
    fun m hm => (hI.sent_ok m hm).1, hI.sent_nodup⟩
  obtain ⟨w, hw⟩ := hI.joinErr_iff.mp h
  refine ⟨w, ?_, hw⟩
  by_contra hlt
  simp [hI.idle_beyond w (by omega)] at hw

/-- One worker over the feed `[5]`: the run ends with `5` sent once, at position `0`. -/
theorem fetchWorkers_end_of_stuck_run :
    ∃ s : FetchState Nat Unit,
      fetchRun [.ok 5] fetchInit (List.replicate 9 (0, .ok ())) = some s ∧
      0 < 1 ∧ (∀ w < 1, ∀ o : Except String Unit, fetchStep [.ok 5] s w o = none) ∧
      FetchEnd [.ok 5] 1 s :=
  ⟨_, rfl, by decide, (fun w hw o => by rw [Nat.lt_one_iff.mp hw]; rfl),
    fetchWorkers_end_of_stuck _ 1 (by decide) _ (FetchReachable.init.run (by decide)
      (rfl : fetchRun _ fetchInit (List.replicate 9 (0, .ok ())) = _))
      (fun w hw o => by rw [Nat.lt_one_iff.mp hw]; rfl)⟩

/-- One worker over the feed `[a, b]` whose `process_tx` fails on `a`: the worker returns the
error, `try_join_all` completes with it, no worker can move any more, and `b` is never sent. -/
theorem fetchWorkers_stop_at_first_failure :
    ∃ s : FetchState Nat Unit,
      fetchRun [.ok 0, .ok 1] fetchInit
        [(0, .ok ()), (0, .ok ()), (0, .ok ()), (0, .ok ()), (0, .error "rpc")] = some s ∧
      (∀ w o, fetchStep [.ok 0, .ok 1] s w o = none) ∧ s.joinErr = true ∧ s.sent = [] :=
  ⟨_, rfl, fun _ _ => rfl, rfl, rfl⟩

end Outcome

/-! ## Every run ends -/

/-- A bound on the steps a worker at `pc` takes before it returns, apart from the cycles of the
items it has yet to receive: each of those is five steps. -/
def FetchPc.budget : FetchPc Sig → Nat
  | .start => 5
  | .locked => 4
  | .received (some _) => 8
  | .received none => 3
  | .counted _ (some _) => 7
  | .counted _ none => 2
  | .fetching _ _ => 6
  | .doneOk | .doneErr => 0

/-- The steps a run of `n` workers may still take. -/
def fetchBudget (feed : List (FeedItem Sig)) (n : Nat) (s : FetchState Sig P) : Nat :=
  5 * (feed.length - s.feedPos) + ∑ w in Finset.range n, (s.workers w).budget

theorem FetchPc.budget_ofMsg_lt (id : Nat) (msg : Option (FeedItem Sig)) :
    (ofMsg id msg).budget < (counted id msg).budget := by
  rcases msg with _ | _ | _ <;> simp [ofMsg, budget]

theorem FetchPc.budget_counted_lt (id : Nat) (msg : Option (FeedItem Sig)) :
    (counted id msg).budget < (received msg).budget := by
  rcases msg with _ | _ | _ <;> simp [budget]

section Budget

variable {feed : List (FeedItem Sig)} {n w : Nat} {s : FetchState Sig P}

/-- A move of worker `w` to `pc` spends budget when the worker's own budget, with the items left
in the feed, drops. -/
theorem fetchBudget_lt_of_move {s' : FetchState Sig P} {pc : FetchPc Sig} (hw : w < n)
    (hws : s'.workers = Function.update s.workers w pc)
    (hlt : 5 * (feed.length - s'.feedPos) + pc.budget <
      5 * (feed.length - s.feedPos) + (s.workers w).budget) :
    fetchBudget feed n s' < fetchBudget feed n s := by
  have := sum_update_add FetchPc.budget s.workers hw pc
  unfold fetchBudget
  rw [hws]
  omega

/-- Every step spends budget. -/
theorem fetchBudget_step {o : Except String P} {s' : FetchState Sig P} (hw : w < n)
    (h : fetchStep feed s w o = some s') : fetchBudget feed n s' < fetchBudget feed n s := by
  obtain ⟨-, ⟨hpc, -, rfl⟩ | ⟨hpc, rfl⟩ | ⟨msg, hpc, rfl⟩ | ⟨id, msg, hpc, rfl⟩ |
    ⟨id, sig, obs, hpc, -, rfl⟩ | ⟨id, sig, e, hpc, -, rfl⟩⟩ := fetchStep_cases h
  all_goals refine fetchBudget_lt_of_move hw rfl ?_
  all_goals simp only [hpc, FetchState.setPc_feedPos]
  · simp only [FetchPc.budget]; omega
  · cases hf : feed[s.feedPos]? with
    | none => simp only [hf, FetchPc.budget, Option.isSome_none, Bool.false_eq_true, if_false]; omega
    | some item =>
      obtain ⟨hlt, -⟩ := List.getElem?_eq_some_iff.mp hf
      simp only [hf, FetchPc.budget, Option.isSome_some, if_true]
      omega
  · have := FetchPc.budget_counted_lt s.sigId msg
    omega
  · have := FetchPc.budget_ofMsg_lt id msg
    omega
  · simp only [FetchPc.budget]; omega
  · simp only [FetchPc.budget]; omega

theorem fetchBudget_run {sched : List (Nat × Except String P)} {s' : FetchState Sig P}
    (hw : ∀ e ∈ sched, e.1 < n) (h : fetchRun feed s sched = some s') :
    sched.length + fetchBudget feed n s' ≤ fetchBudget feed n s := by
  induction sched generalizing s with
  | nil => cases h; simp
  | cons e sched ih =>
    obtain ⟨w, o⟩ := e
    simp only [fetchRun, Option.bind_eq_some] at h
    obtain ⟨s1, h1, h2⟩ := h
    have := fetchBudget_step (hw _ (List.mem_cons_self _ _)) h1
    have := ih (fun e he => hw e (List.mem_cons_of_mem _ he)) h2
    simp only [List.length_cons]
    omega

end Budget

/-- Every run of `n` workers over `feed` ends within `5 · (feed.length + n)` steps, in every
interleaving and with every outcome of `process_tx`. -/
theorem fetchRun_length_le (feed : List (FeedItem Sig)) (n : Nat)
    (sched : List (Nat × Except String P)) (hw : ∀ e ∈ sched, e.1 < n) (s : FetchState Sig P)
    (h : fetchRun feed fetchInit sched = some s) : sched.length ≤ 5 * (feed.length + n) := by
  have := fetchBudget_run hw h
  have hinit : fetchBudget feed n (fetchInit : FetchState Sig P) = 5 * (feed.length + n) := by
    simp [fetchBudget, fetchInit, FetchPc.budget]
    omega
  omega

/-- The nine steps of one worker over one signature. -/
theorem fetchRun_length_le_run :
    ∃ s : FetchState Nat Unit,
      (∀ e ∈ List.replicate 9 ((0 : Nat), (.ok () : Except String Unit)), e.1 < 1) ∧
      fetchRun [.ok 5] fetchInit (List.replicate 9 (0, .ok ())) = some s ∧
      (List.replicate 9 ((0 : Nat), (.ok () : Except String Unit))).length ≤ 5 * (1 + 1) :=
  ⟨_, by decide, rfl, fetchRun_length_le [.ok 5] 1 _ (by decide) _ rfl⟩

end TreeRepair
