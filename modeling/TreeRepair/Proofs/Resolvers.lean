import TreeRepair.Resolvers
import TreeRepair.SeqRanges
import TreeRepair.Proofs.Forward
import Mathlib.Data.List.Perm.Basic

/-!
# No signature lost or sent twice by the resolver threads

Each range is received by one resolver only, which sends what its search sends, in order
(`ResolverInv`). When no thread can move, every range's search was sent whole and the channel
carries a permutation of the searches' results (`resolvers_send_all`); every run ends within a
bound on its steps (`resolverRun_length_le`). With the senders of `TreeRepair.Forward` on that
channel, the call panics exactly when `send_txn` fails on a signature found, and otherwise every
such transaction that `send_txn` pushes was pushed (`findAndForward_forwards_found`).
-/

namespace TreeRepair

variable {Sig : Type}

@[simp] theorem ResolverState.setW_workers (s : ResolverState Sig) (w : Nat) (pc : ResolverPc Sig) :
    (s.setW w pc).workers = Function.update s.workers w pc := rfl
@[simp] theorem ResolverState.setW_produced (s : ResolverState Sig) (w : Nat) (pc : ResolverPc Sig) :
    (s.setW w pc).produced = s.produced := rfl
@[simp] theorem ResolverState.setW_taken (s : ResolverState Sig) (w : Nat) (pc : ResolverPc Sig) :
    (s.setW w pc).taken = s.taken := rfl
@[simp] theorem ResolverState.setW_emitted (s : ResolverState Sig) (w : Nat) (pc : ResolverPc Sig) :
    (s.setW w pc).emitted = s.emitted := rfl

/-- The signatures on `s` that the search of the `i`-th range sent, in order. -/
def sentFor (emitted : List (Nat × Sig)) (i : Nat) : List Sig :=
  (emitted.filter fun e => e.1 = i).map Prod.snd

theorem sentFor_append_self (emitted : List (Nat × Sig)) (i : Nat) (sig : Sig) :
    sentFor (emitted ++ [(i, sig)]) i = sentFor emitted i ++ [sig] := by
  simp [sentFor, List.filter_append]

theorem sentFor_append_ne (emitted : List (Nat × Sig)) {i j : Nat} (sig : Sig) (h : i ≠ j) :
    sentFor (emitted ++ [(i, sig)]) j = sentFor emitted j := by
  simp [sentFor, List.filter_append, h]

theorem sentFor_eq_nil {emitted : List (Nat × Sig)} {i : Nat} (h : ∀ e ∈ emitted, e.1 < i) :
    sentFor emitted i = [] := by
  simp only [sentFor, List.map_eq_nil_iff, List.filter_eq_nil_iff, decide_eq_true_eq]
  exact fun e he => Nat.ne_of_lt (h e he)

/-! ## One step -/

section Step

variable {ranges : List (Int × Int)} {resolve : Int × Int → List Sig} {s s' : ResolverState Sig}
  {a : ResolverAction}

/-- Everything a step can do, each with its guard. -/
theorem resolverStep_cases (h : resolverStep ranges resolve s a = some s') :
    (a = .produce ∧ s.produced < ranges.length ∧ s' = { s with produced := s.produced + 1 }) ∨
    (∃ w range, a = .resolver w ∧ s.workers w = .idle ∧ s.taken < s.produced ∧
      ranges[s.taken]? = some range ∧
      s' = { s.setW w (.searching s.taken (resolve range)) with taken := s.taken + 1 }) ∨
    (∃ w, a = .resolver w ∧ s.workers w = .idle ∧ s.produced ≤ s.taken ∧
      s.produced = ranges.length ∧ s' = s.setW w .exited) ∨
    (∃ w i sig rest, a = .resolver w ∧ s.workers w = .searching i (sig :: rest) ∧
      s' = { s.setW w (.searching i rest) with emitted := s.emitted ++ [(i, sig)] }) ∨
    (∃ w i, a = .resolver w ∧ s.workers w = .searching i [] ∧ s' = s.setW w .idle) := by
  cases a with
  | produce =>
    simp only [resolverStep] at h
    split at h
    · cases h; exact .inl ⟨rfl, ‹_›, rfl⟩
    · cases h
  | resolver w =>
    simp only [resolverStep] at h
    split at h <;> rename_i hpc
    · split at h
      · obtain ⟨range, hr, rfl⟩ := Option.map_eq_some'.mp h
        exact .inr (.inl ⟨w, range, rfl, hpc, ‹_›, hr, rfl⟩)
      · split at h
        · cases h; exact .inr (.inr (.inl ⟨w, rfl, hpc, by omega, ‹_›, rfl⟩))
        · cases h
    · cases h; exact .inr (.inr (.inr (.inl ⟨w, _, _, _, rfl, hpc, rfl⟩)))
    · cases h; exact .inr (.inr (.inr (.inr ⟨w, _, rfl, hpc, rfl⟩)))
    · cases h

end Step

/-- The search of the `i`-th range has sent `sent` of what it finds, `found`: it is under way in a
resolver that has the rest to send, or it is done. -/
def SearchProgress (workers : Nat → ResolverPc Sig) (i : Nat) (sent found : List Sig) : Prop :=
  (∃ w rest, workers w = .searching i rest ∧ sent ++ rest = found) ∨
    ((∀ w rest, workers w ≠ .searching i rest) ∧ sent = found)

theorem update_eq_searching_iff {f : Nat → ResolverPc Sig} {w v i : Nat} {pc : ResolverPc Sig}
    {rest : List Sig} :
    Function.update f w pc v = .searching i rest ↔
      (v = w ∧ pc = .searching i rest) ∨ (v ≠ w ∧ f v = .searching i rest) := by
  by_cases e : v = w
  · subst e; simp
  · simp [Function.update_noteq e, e]

/-- Moving a resolver that does not search range `i` to a place where it does not either leaves
the progress of that search as it was. -/
theorem SearchProgress.frame {f : Nat → ResolverPc Sig} {w i : Nat} {pc : ResolverPc Sig}
    {sent found : List Sig} (h : SearchProgress f i sent found)
    (hw : ∀ rest, f w ≠ .searching i rest) (hpc : ∀ rest, pc ≠ .searching i rest) :
    SearchProgress (Function.update f w pc) i sent found := by
  have hiff : ∀ v rest, Function.update f w pc v = .searching i rest ↔ f v = .searching i rest :=
    fun v rest => by
      rw [update_eq_searching_iff]
      constructor
      · rintro (⟨-, h⟩ | ⟨-, h⟩)
        · exact absurd h (hpc rest)
        · exact h
      · intro h
        exact .inr ⟨fun e => hw rest (e ▸ h), h⟩
  simpa only [SearchProgress, hiff, ne_eq] using h

/-- The invariant of the producer and `k` resolver threads. -/
structure ResolverInv (ranges : List (Int × Int)) (resolve : Int × Int → List Sig) (k : Nat)
    (s : ResolverState Sig) : Prop where
  produced_le : s.produced ≤ ranges.length
  taken_le : s.taken ≤ s.produced
  /-- Only the `k` spawned threads move. -/
  idle_beyond : ∀ w, k ≤ w → s.workers w = .idle
  /-- A resolver leaves its loop once every range was sent and received. -/
  taken_of_exited : ∀ w, s.workers w = .exited → s.taken = ranges.length
  /-- A resolver searches a range it received ... -/
  searching_lt : ∀ w i rest, s.workers w = .searching i rest → i < s.taken
  /-- ... which no other resolver searches. -/
  searching_unique : ∀ w w' i rest rest', s.workers w = .searching i rest →
    s.workers w' = .searching i rest' → w = w'
  /-- Only the searches of received ranges send signatures. -/
  emitted_lt : ∀ e ∈ s.emitted, e.1 < s.taken
  /-- The search of each received range is under way or done, and what it sent is on `s`. -/
  progress : ∀ i < s.taken, ∃ range, ranges[i]? = some range ∧
    SearchProgress s.workers i (sentFor s.emitted i) (resolve range)

section Inv

variable {ranges : List (Int × Int)} {resolve : Int × Int → List Sig} {k : Nat}
  {s : ResolverState Sig} {w : Nat}

theorem resolverInv_init : ResolverInv ranges resolve k resolverInit where
  produced_le := Nat.zero_le _
  taken_le := le_rfl
  idle_beyond _ _ := rfl
  taken_of_exited _ h := by cases h
  searching_lt _ _ _ h := by cases h
  searching_unique _ _ _ _ _ h := by cases h
  emitted_lt _ h := by cases h
  progress _ h := absurd h (Nat.not_lt_zero _)

theorem ne_searching_of_eq_idle {f : Nat → ResolverPc Sig} (hpc : f w = .idle) {i : Nat} :
    ∀ rest, f w ≠ .searching i rest := by
  intro rest h; rw [hpc] at h; cases h

/-- A resolver the step does not move to `pc'` was at `pc'` before it. -/
theorem eq_of_update_eq {f : Nat → ResolverPc Sig} {v : Nat} {pc pc' : ResolverPc Sig}
    (h : Function.update f w pc v = pc') (hne : pc ≠ pc') : f v = pc' := by
  by_cases e : v = w
  · subst e; exact absurd (by simpa using h) hne
  · rwa [Function.update_noteq e] at h

/-- The producer sends its next range. -/
theorem ResolverInv.produce (hI : ResolverInv ranges resolve k s) (h : s.produced < ranges.length) :
    ResolverInv ranges resolve k { s with produced := s.produced + 1 } :=
  { hI with produced_le := h, taken_le := Nat.le_succ_of_le hI.taken_le }

/-- A resolver receives the next range and starts its search. -/
theorem ResolverInv.take (hI : ResolverInv ranges resolve k s) (hw : w < k)
    (hpc : s.workers w = .idle) (ht : s.taken < s.produced) {range : Int × Int}
    (hr : ranges[s.taken]? = some range) :
    ResolverInv ranges resolve k
      { s.setW w (.searching s.taken (resolve range)) with taken := s.taken + 1 } := by
  have hfresh : ∀ v rest, s.workers v ≠ .searching s.taken rest := fun v rest h =>
    Nat.lt_irrefl _ (hI.searching_lt v _ rest h)
  refine ⟨hI.produced_le, ht, fun v hv => ?_, fun v hv => ?_, fun v i rest hv => ?_,
    fun v v' i rest rest' hv hv' => ?_, fun e he => Nat.lt_succ_of_lt (hI.emitted_lt e he),
    fun i hi => ?_⟩
  · simp [Function.update_noteq (show v ≠ w by omega), hI.idle_beyond v hv]
  · have := hI.taken_of_exited v (eq_of_update_eq hv nofun)
    have := hI.produced_le
    omega
  · simp only [ResolverState.setW_workers, update_eq_searching_iff] at hv
    rcases hv with ⟨-, h⟩ | ⟨-, h⟩
    · cases h; exact Nat.lt_succ_self _
    · exact Nat.lt_succ_of_lt (hI.searching_lt v i rest h)
  · simp only [ResolverState.setW_workers, update_eq_searching_iff] at hv hv'
    rcases hv with ⟨rfl, h⟩ | ⟨-, h⟩ <;> rcases hv' with ⟨rfl, h'⟩ | ⟨-, h'⟩
    · rfl
    · cases h; exact absurd h' (hfresh v' rest')
    · cases h'; exact absurd h (hfresh v rest)
    · exact hI.searching_unique v v' i rest rest' h h'
  · rcases Nat.lt_succ_iff_lt_or_eq.mp hi with hi | rfl
    · obtain ⟨range', hr', hprog⟩ := hI.progress i hi
      refine ⟨range', hr', hprog.frame (ne_searching_of_eq_idle hpc) fun rest h => ?_⟩
      cases h; exact Nat.lt_irrefl _ hi
    · exact ⟨range, hr, .inl ⟨w, resolve range, by simp, by simp [sentFor_eq_nil hI.emitted_lt]⟩⟩

/-- A resolver finds the range channel empty and closed, and leaves its loop. -/
theorem ResolverInv.exit (hI : ResolverInv ranges resolve k s) (hw : w < k)
    (hpc : s.workers w = .idle) (ht : s.produced ≤ s.taken) (hp : s.produced = ranges.length) :
    ResolverInv ranges resolve k (s.setW w .exited) := by
  refine ⟨hI.produced_le, hI.taken_le, fun v hv => ?_, fun v hv => ?_, fun v i rest hv => ?_,
    fun v v' i rest rest' hv hv' => ?_, hI.emitted_lt, fun i hi => ?_⟩
  · simp [Function.update_noteq (show v ≠ w by omega), hI.idle_beyond v hv]
  · have := hI.taken_le; simp only [ResolverState.setW_taken]; omega
  · exact hI.searching_lt v i rest (eq_of_update_eq hv nofun)
  · exact hI.searching_unique v v' i rest rest' (eq_of_update_eq hv nofun) (eq_of_update_eq hv' nofun)
  · obtain ⟨range, hr, hprog⟩ := hI.progress i hi
    exact ⟨range, hr, hprog.frame (ne_searching_of_eq_idle hpc) fun rest h => by cases h⟩

/-- A resolver sends the next signature its search found. -/
theorem ResolverInv.emit (hI : ResolverInv ranges resolve k s) (hw : w < k) {i : Nat} {sig : Sig}
    {rest : List Sig} (hpc : s.workers w = .searching i (sig :: rest)) :
    ResolverInv ranges resolve k
      { s.setW w (.searching i rest) with emitted := s.emitted ++ [(i, sig)] } := by
  have hi := hI.searching_lt w i _ hpc
  refine ⟨hI.produced_le, hI.taken_le, fun v hv => ?_, fun v hv => ?_, fun v j r hv => ?_,
    fun v v' j r r' hv hv' => ?_, fun e he => ?_, fun j hj => ?_⟩
  · simp [Function.update_noteq (show v ≠ w by omega), hI.idle_beyond v hv]
  · exact hI.taken_of_exited v (eq_of_update_eq hv nofun)
  · simp only [ResolverState.setW_workers, update_eq_searching_iff] at hv
    rcases hv with ⟨-, h⟩ | ⟨-, h⟩
    · cases h; exact hi
    · exact hI.searching_lt v j r h
  · simp only [ResolverState.setW_workers, update_eq_searching_iff] at hv hv'
    rcases hv with ⟨rfl, h⟩ | ⟨e, h⟩ <;> rcases hv' with ⟨rfl, h'⟩ | ⟨e', h'⟩
    · rfl
    · cases h; exact absurd (hI.searching_unique _ v' _ _ r' hpc h') (Ne.symm e')
    · cases h'; exact absurd (hI.searching_unique _ v _ _ r hpc h) (Ne.symm e)
    · exact hI.searching_unique v v' j r r' h h'
  · rcases List.mem_append.mp he with he | he
    · exact hI.emitted_lt e he
    · rw [List.mem_singleton.mp he]; exact hi
  · obtain ⟨range, hr, hprog⟩ := hI.progress j hj
    refine ⟨range, hr, ?_⟩
    by_cases e : i = j
    · subst e
      rcases hprog with ⟨v, r, hv, heq⟩ | ⟨hno, -⟩
      · obtain rfl := hI.searching_unique v w i r _ hv hpc
        rw [hv] at hpc; cases hpc
        exact .inl ⟨v, rest, by simp, by simpa [sentFor_append_self] using heq⟩
      · exact absurd hpc (hno w _)
    · rw [sentFor_append_ne _ _ e]
      exact hprog.frame (fun r h => e (by rw [hpc] at h; cases h; rfl))
        fun r h => by cases h; exact e rfl

/-- A search returns, with `Ok` or an error, and its resolver goes back to its loop's head. -/
theorem ResolverInv.finish (hI : ResolverInv ranges resolve k s) {i : Nat}
    (hpc : s.workers w = .searching i []) : ResolverInv ranges resolve k (s.setW w .idle) := by
  refine ⟨hI.produced_le, hI.taken_le, fun v hv => ?_, fun v hv => ?_, fun v j r hv => ?_,
    fun v v' j r r' hv hv' => ?_, hI.emitted_lt, fun j hj => ?_⟩
  · by_cases e : v = w
    · subst e; simp
    · simp [Function.update_noteq e, hI.idle_beyond v hv]
  · exact hI.taken_of_exited v (eq_of_update_eq hv nofun)
  · exact hI.searching_lt v j r (eq_of_update_eq hv nofun)
  · exact hI.searching_unique v v' j r r' (eq_of_update_eq hv nofun) (eq_of_update_eq hv' nofun)
  · obtain ⟨range, hr, hprog⟩ := hI.progress j hj
    refine ⟨range, hr, ?_⟩
    by_cases e : i = j
    · subst e
      rcases hprog with ⟨v, r, hv, heq⟩ | ⟨hno, -⟩
      · obtain rfl := hI.searching_unique v w i r _ hv hpc
        rw [hv] at hpc; cases hpc
        refine .inr ⟨fun v' r' h => ?_, by simpa using heq⟩
        obtain rfl := hI.searching_unique v' v i r' [] (eq_of_update_eq h nofun) hv
        simp at h
      · exact absurd hpc (hno w _)
    · exact hprog.frame (fun r h => e (by rw [hpc] at h; cases h; rfl)) fun r h => by cases h

/-- Every step keeps the invariant. -/
theorem ResolverInv.step (hI : ResolverInv ranges resolve k s) {a : ResolverAction} (ha : a.Valid k)
    {s' : ResolverState Sig} (h : resolverStep ranges resolve s a = some s') :
    ResolverInv ranges resolve k s' := by
  obtain ⟨rfl, hp, rfl⟩ | ⟨w, range, rfl, hpc, ht, hr, rfl⟩ | ⟨w, rfl, hpc, ht, hp, rfl⟩ |
    ⟨w, i, sig, rest, rfl, hpc, rfl⟩ | ⟨w, i, rfl, hpc, rfl⟩ := resolverStep_cases h
  · exact hI.produce hp
  · exact hI.take ha hpc ht hr
  · exact hI.exit ha hpc ht hp
  · exact hI.emit ha hpc
  · exact hI.finish hpc

theorem ResolverReachable.inv (h : ResolverReachable ranges resolve k s) : ResolverInv ranges resolve k s := by
  induction h with
  | init => exact resolverInv_init
  | step _ ha hs ih => exact ih.step ha hs

theorem ResolverReachable.run {sched : List ResolverAction} {s' : ResolverState Sig}
    (hs : ResolverReachable ranges resolve k s) (hv : ∀ a ∈ sched, a.Valid k)
    (h : resolverRun ranges resolve s sched = some s') : ResolverReachable ranges resolve k s' := by
  induction sched generalizing s with
  | nil => exact Option.some.inj h ▸ hs
  | cons a sched ih =>
    simp only [resolverRun, Option.bind_eq_some] at h
    obtain ⟨s1, h1, h2⟩ := h
    exact ih (.step hs (hv a (List.mem_cons_self _ _)) h1)
      (fun b hb => hv b (List.mem_cons_of_mem _ hb)) h2

/-- When nothing can move, every range was sent and every resolver has left its loop. -/
theorem ResolverInv.ended_of_stuck (hI : ResolverInv ranges resolve k s)
    (hstuck : ∀ a : ResolverAction, a.Valid k → resolverStep ranges resolve s a = none) :
    s.produced = ranges.length ∧ ∀ w < k, s.workers w = .exited := by
  have hp : s.produced = ranges.length := by
    have h := hstuck .produce trivial
    simp only [resolverStep] at h
    split at h
    · cases h
    · have := hI.produced_le; omega
  refine ⟨hp, fun w hw => ?_⟩
  have h := hstuck (.resolver w) hw
  simp only [resolverStep] at h
  cases hpc : s.workers w with
  | idle =>
    rw [hpc] at h
    simp only [hp, if_true] at h
    split at h
    · have hlt : s.taken < ranges.length := by omega
      simp [List.getElem?_eq_getElem hlt] at h
    · cases h
  | searching i rest => rw [hpc] at h; cases rest <;> simp at h
  | exited => rfl

end Inv

/-! ## Every run ends -/

/-- A bound on the steps a resolver thread at `pc` takes on its own: the signatures it has yet to
send, the return to its loop's head, and the exit. -/
def ResolverPc.budget : ResolverPc Sig → Nat
  | .idle => 1
  | .searching _ rest => rest.length + 2
  | .exited => 0

/-- The steps the producer and the resolvers may still take: one per range not yet sent; per range
not yet received, its receipt, what its search sends and the return; and each thread's own. -/
def resolverBudget (ranges : List (Int × Int)) (resolve : Int × Int → List Sig) (k : Nat)
    (s : ResolverState Sig) : Nat :=
  (ranges.length - s.produced) + ((ranges.drop s.taken).flatMap resolve).length +
    2 * (ranges.length - s.taken) + ∑ w in Finset.range k, (s.workers w).budget

section Budget

variable {ranges : List (Int × Int)} {resolve : Int × Int → List Sig} {k : Nat}
  {s s' : ResolverState Sig}

/-- A move of resolver `w` to `pc` spends budget when the thread's own budget, with the
channel's, drops. -/
theorem resolverBudget_lt_of_move {w : Nat} {pc : ResolverPc Sig} (hw : w < k)
    (hws : s'.workers = Function.update s.workers w pc)
    (hlt : (ranges.length - s'.produced) + ((ranges.drop s'.taken).flatMap resolve).length +
        2 * (ranges.length - s'.taken) + pc.budget <
      (ranges.length - s.produced) + ((ranges.drop s.taken).flatMap resolve).length +
        2 * (ranges.length - s.taken) + (s.workers w).budget) :
    resolverBudget ranges resolve k s' < resolverBudget ranges resolve k s := by
  have := sum_update_add ResolverPc.budget s.workers hw pc
  unfold resolverBudget
  rw [hws]
  omega

/-- Every move spends budget. -/
theorem resolverBudget_step {a : ResolverAction} (ha : a.Valid k)
    (h : resolverStep ranges resolve s a = some s') :
    resolverBudget ranges resolve k s' < resolverBudget ranges resolve k s := by
  rcases resolverStep_cases h with ⟨rfl, hlt, rfl⟩ | ⟨w, range, rfl, hpc, -, hr, rfl⟩ |
    ⟨w, rfl, hpc, -, -, rfl⟩ | ⟨w, i, sig, rest, rfl, hpc, rfl⟩ | ⟨w, i, rfl, hpc, rfl⟩
  · unfold resolverBudget; dsimp only; omega
  all_goals refine resolverBudget_lt_of_move ha rfl ?_
  · obtain ⟨ht, rfl⟩ := List.getElem?_eq_some_iff.mp hr
    simp only [hpc, ResolverPc.budget, ResolverState.setW_produced, List.drop_eq_getElem_cons ht,
      List.flatMap_cons, List.length_append]
    omega
  all_goals
    simp only [hpc, ResolverPc.budget, ResolverState.setW_produced, ResolverState.setW_taken,
      List.length_cons]
    omega

theorem resolverBudget_run {sched : List ResolverAction} (hv : ∀ a ∈ sched, a.Valid k)
    (h : resolverRun ranges resolve s sched = some s') :
    sched.length + resolverBudget ranges resolve k s' ≤ resolverBudget ranges resolve k s := by
  induction sched generalizing s with
  | nil => cases h; simp
  | cons a sched ih =>
    simp only [resolverRun, Option.bind_eq_some] at h
    obtain ⟨s1, h1, h2⟩ := h
    have ha := hv a (List.mem_cons_self _ _)
    have := resolverBudget_step ha h1
    have := ih (fun b hb => hv b (List.mem_cons_of_mem _ hb)) h2
    simp only [List.length_cons]
    omega

end Budget

/-- Every run of the producer and `k` resolver threads ends within
`3 · ranges.length + (ranges.flatMap resolve).length + k` steps, in every interleaving: a range is
sent, received and returned from, each signature its search finds is sent once, and each thread
leaves its loop once. -/
theorem resolverRun_length_le (ranges : List (Int × Int)) (resolve : Int × Int → List Sig) (k : Nat)
    (sched : List ResolverAction) (hv : ∀ a ∈ sched, a.Valid k) (s : ResolverState Sig)
    (h : resolverRun ranges resolve resolverInit sched = some s) :
    sched.length ≤ 3 * ranges.length + (ranges.flatMap resolve).length + k := by
  have := resolverBudget_run hv h
  have hinit : resolverBudget ranges resolve k (resolverInit : ResolverState Sig) =
      3 * ranges.length + (ranges.flatMap resolve).length + k := by
    simp only [resolverBudget, resolverInit, ResolverPc.budget, List.drop_zero, Nat.sub_zero,
      ← Finset.card_eq_sum_ones, Finset.card_range]
    omega
  omega

/-- Two resolvers over two ranges whose searches find `[1, 2]` and `[5, 5]`: the run that ends
takes the twelve steps the bound allows. -/
theorem resolverRun_length_le_run :
    (∀ a ∈ [.produce, .produce, .resolver 0, .resolver 1, .resolver 1, .resolver 0, .resolver 0,
        .resolver 1, .resolver 0, .resolver 1, .resolver 0, .resolver 1], ResolverAction.Valid 2 a) ∧
      ∃ s, resolverRun [(1, 2), (5, 5)] (fun r => [r.1.toNat, r.2.toNat]) resolverInit
        [.produce, .produce, .resolver 0, .resolver 1, .resolver 1, .resolver 0, .resolver 0,
          .resolver 1, .resolver 0, .resolver 1, .resolver 0, .resolver 1] = some s ∧
      [ResolverAction.produce, .produce, .resolver 0, .resolver 1, .resolver 1, .resolver 0,
          .resolver 0, .resolver 1, .resolver 0, .resolver 1, .resolver 0, .resolver 1].length ≤
        3 * [((1 : Int), (2 : Int)), (5, 5)].length +
          ([((1 : Int), (2 : Int)), (5, 5)].flatMap fun r => [r.1.toNat, r.2.toNat]).length + 2 :=
  ⟨by decide, _, rfl, resolverRun_length_le _ _ 2 _ (by decide) _ rfl⟩

/-! ## What the channel carries -/

section Channel

/-- Signatures tagged with indices below `n` are a permutation of each index's, in index order. -/
theorem perm_flatMap_sentFor {emitted : List (Nat × Sig)} {n : Nat} (h : ∀ e ∈ emitted, e.1 < n) :
    (emitted.map Prod.snd).Perm ((List.range n).flatMap (sentFor emitted)) := by
  induction n generalizing emitted with
  | zero =>
    obtain rfl : emitted = [] :=
      List.eq_nil_iff_forall_not_mem.mpr fun e he => Nat.not_lt_zero _ (h e he)
    simp
  | succ n ih =>
    have hlow := @ih (emitted.filter fun e => e.1 < n) (by simp)
    have hfor : ∀ i ∈ List.range n, sentFor (emitted.filter fun e => e.1 < n) i = sentFor emitted i :=
      fun i hi => by
        simp only [sentFor, List.filter_filter]
        congr 1
        refine List.filter_congr fun e _ => ?_
        have := List.mem_range.mp hi
        by_cases he : e.1 = i <;> simp [he, this]
    have htop : ((emitted.filter fun e => !decide (e.1 < n)).map Prod.snd) = sentFor emitted n := by
      simp only [sentFor]
      congr 1
      refine List.filter_congr fun e he => ?_
      have := h e he
      by_cases hn : e.1 = n
      · simp [hn]
      · simp [hn, show e.1 < n by omega]
    rw [List.range_succ, List.flatMap_append, List.flatMap_singleton, ← List.flatMap_congr hfor, ← htop]
    exact ((List.filter_append_perm _ emitted).map Prod.snd).symm.trans
      (by rw [List.map_append]; exact hlow.append_right _)

/-- Concatenating over the indices of `ranges` is concatenating over `ranges`. -/
theorem flatMap_range_eq {ranges : List (Int × Int)} {resolve : Int × Int → List Sig}
    {g : Nat → List Sig} (h : ∀ i range, ranges[i]? = some range → g i = resolve range) :
    (List.range ranges.length).flatMap g = ranges.flatMap resolve := by
  induction ranges generalizing g with
  | nil => rfl
  | cons range ranges ih =>
    rw [List.length_cons, List.range_succ_eq_map, List.flatMap_cons, List.flatMap_cons,
      h 0 range List.getElem?_cons_zero, List.flatMap_map]
    exact congrArg _ (ih fun i r hr => h (i + 1) r (by rwa [List.getElem?_cons_succ]))

/-- Concatenating sublists over a sublist gives a sublist. -/
theorem flatMap_sublist_flatMap {α β : Type} {l l' : List α} {g h : α → List β}
    (hl : l.Sublist l') (hgh : ∀ a ∈ l, (g a).Sublist (h a)) : (l.flatMap g).Sublist (l'.flatMap h) := by
  induction hl with
  | slnil => exact List.Sublist.slnil
  | cons a _ ih => exact (ih hgh).trans (List.sublist_append_right _ _)
  | cons₂ a _ ih =>
    rw [List.flatMap_cons, List.flatMap_cons]
    exact (hgh a (List.mem_cons_self _ _)).append (ih fun b hb => hgh b (List.mem_cons_of_mem _ hb))

variable {ranges : List (Int × Int)} {resolve : Int × Int → List Sig} {k : Nat}
  {s : ResolverState Sig}

/-- In every run, the channel carries part of what the searches find. -/
theorem ResolverInv.emitted_subperm (hI : ResolverInv ranges resolve k s) :
    (s.emitted.map Prod.snd).Subperm (ranges.flatMap resolve) := by
  let found : Nat → List Sig := fun i => (ranges[i]?.map resolve).getD []
  have hsent : ∀ i ∈ List.range s.taken, (sentFor s.emitted i).Sublist (found i) := fun i hi => by
    obtain ⟨range, hr, hprog⟩ := hI.progress i (List.mem_range.mp hi)
    simp only [found, hr, Option.map_some', Option.getD_some]
    rcases hprog with ⟨w, rest, -, heq⟩ | ⟨-, heq⟩
    · exact heq ▸ List.sublist_append_left _ _
    · exact heq ▸ List.Sublist.refl _
  have hall : (List.range ranges.length).flatMap found = ranges.flatMap resolve :=
    flatMap_range_eq fun i range hr => by simp [found, hr]
  exact (perm_flatMap_sentFor hI.emitted_lt).subperm.trans (hall ▸ (flatMap_sublist_flatMap
    (List.range_sublist.mpr (hI.taken_le.trans hI.produced_le)) hsent).subperm)

/-- What the channel `s` carries once the producer and the resolvers are done. -/
structure ResolversEnd (ranges : List (Int × Int)) (resolve : Int × Int → List Sig)
    (s : ResolverState Sig) : Prop where
  /-- Every range was searched to the end, and what its search found is on `s`, in order. -/
  sentFor_eq : ∀ i range, ranges[i]? = some range → sentFor s.emitted i = resolve range
  /-- No signature is lost or sent twice: `s` carries a permutation of what the searches found. -/
  perm : (s.emitted.map Prod.snd).Perm (ranges.flatMap resolve)

/-- Once no thread can move, every search was sent whole. -/
theorem ResolverInv.resolversEnd (hI : ResolverInv ranges resolve k s) (hk : 0 < k)
    (hstuck : ∀ a : ResolverAction, a.Valid k → resolverStep ranges resolve s a = none) :
    ResolversEnd ranges resolve s := by
  obtain ⟨-, hex⟩ := hI.ended_of_stuck hstuck
  have ht : s.taken = ranges.length := hI.taken_of_exited 0 (hex 0 hk)
  have hnone : ∀ w i rest, s.workers w ≠ .searching i rest := fun w i rest h => by
    by_cases hw : w < k
    · rw [hex w hw] at h; cases h
    · rw [hI.idle_beyond w (by omega)] at h; cases h
  have hsent : ∀ i range, ranges[i]? = some range → sentFor s.emitted i = resolve range := by
    intro i range hr
    obtain ⟨range', hr', ⟨w, rest, hw, -⟩ | ⟨-, heq⟩⟩ :=
      hI.progress i (ht ▸ (List.getElem?_eq_some_iff.mp hr).1)
    · exact absurd hw (hnone w i rest)
    · obtain rfl := Option.some.inj (hr.symm.trans hr')
      exact heq
  refine ⟨hsent, ?_⟩
  calc (s.emitted.map Prod.snd).Perm ((List.range ranges.length).flatMap (sentFor s.emitted)) :=
        perm_flatMap_sentFor (ht ▸ hI.emitted_lt)
    _ = ranges.flatMap resolve := flatMap_range_eq hsent

/-- For every list of ranges, every result of the searches, every `k ≥ 1` resolver threads and
every run that no thread can move on: every range was received by one resolver and searched to
the end, the channel `s` carries what each search found in the order it found it, and nothing
else: no signature is lost or sent twice, in any interleaving. -/
theorem resolvers_send_all (ranges : List (Int × Int)) (resolve : Int × Int → List Sig) (k : Nat)
    (hk : 0 < k) (s : ResolverState Sig) (hs : ResolverReachable ranges resolve k s)
    (hstuck : ∀ a : ResolverAction, a.Valid k → resolverStep ranges resolve s a = none) :
    ResolversEnd ranges resolve s :=
  hs.inv.resolversEnd hk hstuck

/-- Two resolvers over two ranges whose searches find `[1, 2]` and `[5, 5]`, interleaved: the
channel carries `5, 1, 2, 5`. -/
theorem resolvers_send_all_run :
    ∃ s, resolverRun [(1, 2), (5, 5)] (fun r => [r.1.toNat, r.2.toNat]) resolverInit
        [.produce, .produce, .resolver 0, .resolver 1, .resolver 1, .resolver 0, .resolver 0,
          .resolver 1, .resolver 0, .resolver 1, .resolver 0, .resolver 1] = some s ∧
      0 < 2 ∧ (∀ a : ResolverAction, a.Valid 2 →
        resolverStep [(1, 2), (5, 5)] (fun r => [r.1.toNat, r.2.toNat]) s a = none) ∧
      s.emitted.map Prod.snd = [5, 1, 2, 5] ∧
      ResolversEnd [(1, 2), (5, 5)] (fun r => [r.1.toNat, r.2.toNat]) s := by
  refine ⟨_, rfl, by decide, ?stuck, rfl, resolvers_send_all _ _ 2 (by decide) _
    (ResolverReachable.init.run (by decide) (rfl : resolverRun [(1, 2), (5, 5)]
      (fun r => [r.1.toNat, r.2.toNat]) resolverInit [.produce, .produce, .resolver 0, .resolver 1,
        .resolver 1, .resolver 0, .resolver 0, .resolver 1, .resolver 0, .resolver 1, .resolver 0,
        .resolver 1] = _)) ?stuck⟩
  exact fun
    | .produce, _ => rfl
    | .resolver 0, _ => rfl
    | .resolver 1, _ => rfl
    | .resolver (w + 2), hw => absurd hw (by simp [ResolverAction.Valid])

end Channel

/-! ## The whole pipeline -/

section Pipeline

variable {Txn : Type} {src : TxnSource Sig Txn} {emits found : List Sig} {m : Nat}
  {f : ForwardState Sig}

/-- How the senders end depends on the emitted signatures only up to order. -/
theorem ForwardEnd.perm (h : ForwardEnd src emits m f) (hp : emits.Perm found) :
    ForwardEnd src found m f where
  result_eq := by
    rw [h.result_eq]
    congr 1
    simp only [List.any_eq, hp.mem_iff]
  pushed_of_few_failures hfew sig hsig :=
    h.pushed_of_few_failures (hp.countP_eq _ ▸ hfew) sig (hp.mem_iff.mpr hsig)
  stream_ok x hx := ⟨hp.mem_iff.mp (h.stream_ok x hx).1, (h.stream_ok x hx).2⟩

/-- For every list of missing seqs, every result of the searches of their ranges, every source of
transactions, every `k ≥ 1` resolver threads and `m ≥ 1` sender threads (`--concurrency` is
checked non-zero), and every run of the pipeline that no thread can move on:
`find_and_forward_txns_for_missing_seqs` panics exactly when `send_txn` fails on a signature that
the search of a range of `build_seq_ranges(seqs)` found, and returns `Ok(())` otherwise; while
fewer of those signatures fail than there are sender threads, the transaction of every one on
which `send_txn` succeeds was pushed to the stream; and only those were. -/
theorem findAndForward_forwards_found (src : TxnSource Sig Txn) (seqs : List Int)
    (resolve : Int × Int → List Sig) (k m : Nat) (hk : 0 < k) (hm : 0 < m) (r : ResolverState Sig)
    (hr : ResolverReachable (buildSeqRanges seqs) resolve k r)
    (hrstuck : ∀ a : ResolverAction, a.Valid k → resolverStep (buildSeqRanges seqs) resolve r a = none)
    (f : ForwardState Sig) (hf : ForwardReachable src (r.emitted.map Prod.snd) m f)
    (hfstuck : ∀ a : ForwardAction, a.Valid m → forwardStep src (r.emitted.map Prod.snd) f a = none) :
    ForwardEnd src ((buildSeqRanges seqs).flatMap resolve) m f :=
  (hf.inv.forwardEnd hm hfstuck).perm (hr.inv.resolversEnd hk hrstuck).perm

/-- A transaction source that fetches every signature as a successful transaction and pushes it. -/
def pushAll : TxnSource Nat Unit := ⟨fun _ => .ok (), fun _ => some (.ok ()), fun _ => .ok [1], fun _ => .ok ()⟩

/-- The missing seqs `1, 2, 5` make one range, whose search finds `7`: one resolver and one sender
push its transaction. -/
theorem findAndForward_forwards_found_run :
    ∃ r f, resolverRun (buildSeqRanges [1, 2, 5]) (fun _ => [7]) resolverInit
        [.produce, .resolver 0, .resolver 0, .resolver 0, .resolver 0] = some r ∧
      forwardRun pushAll (r.emitted.map Prod.snd) forwardInit
        [.emit, .sender 0, .sender 0, .sender 0] = some f ∧
      0 < 1 ∧
      (∀ a : ResolverAction, a.Valid 1 → resolverStep (buildSeqRanges [1, 2, 5]) (fun _ => [7]) r a = none) ∧
      (∀ a : ForwardAction, a.Valid 1 → forwardStep pushAll (r.emitted.map Prod.snd) f a = none) ∧
      f.stream = [(7, [1])] ∧
      ForwardEnd pushAll ((buildSeqRanges [1, 2, 5]).flatMap fun _ => [7]) 1 f := by
  refine ⟨_, _, rfl, rfl, by decide, ?rstuck, ?fstuck, rfl,
    findAndForward_forwards_found pushAll [1, 2, 5] (fun _ => [7]) 1 1 (by decide) (by decide) _
      (ResolverReachable.init.run (by decide) (rfl : resolverRun (buildSeqRanges [1, 2, 5])
        (fun _ => [7]) resolverInit [.produce, .resolver 0, .resolver 0, .resolver 0, .resolver 0] = _))
      ?rstuck _ (ForwardReachable.init.run (by decide) (rfl : forwardRun pushAll [7] forwardInit
        [.emit, .sender 0, .sender 0, .sender 0] = _)) ?fstuck⟩
  case rstuck =>
    exact fun
      | .produce, _ => rfl
      | .resolver 0, _ => rfl
      | .resolver (w + 1), hw => absurd hw (by simp [ResolverAction.Valid])
  case fstuck =>
    exact fun
      | .emit, _ => rfl
      | .sender 0, _ => rfl
      | .sender (w + 1), hw => absurd hw (by simp [ForwardAction.Valid])

end Pipeline

end TreeRepair
