import TreeRepair.Pipeline
import TreeRepair.Proofs.Resolvers

/-!
# Every run of the whole pipeline is a run of each stage

A resolver step of the pipeline is a step of the resolvers, and the one that sends a signature is
also an emission for the senders; a sender step is a step of the senders over what the resolvers
have sent so far. No sender finds `s` closed while a resolver runs, so the senders' run over the
signatures sent so far stays a run when more are sent (`ForwardReachable.append`). Every state of
the pipeline thus projects onto states of the two stages, each reachable on its own, and when no
thread of the pipeline can move, no thread of either stage can (`findAndForward_pipeline_projects`).
-/

namespace TreeRepair

variable {Sig Txn : Type}

theorem ResolverPc.isExited_iff {pc : ResolverPc Sig} : pc.isExited = true ↔ pc = .exited := by
  cases pc <;> simp [isExited]

theorem resolversDone_iff {k : Nat} {r : ResolverState Sig} :
    resolversDone k r = true ↔ ∀ w < k, r.workers w = .exited := by
  simp [resolversDone, ResolverPc.isExited_iff]

/-- A resolver that has not left its loop keeps `s` open. -/
theorem resolversDone_eq_false {k w : Nat} {r : ResolverState Sig} (hw : w < k)
    (hpc : r.workers w ≠ .exited) : resolversDone k r = false := by
  rw [Bool.eq_false_iff, ne_eq, resolversDone_iff]
  exact fun h => hpc (h w hw)

section Inv

variable {ranges : List (Int × Int)} {resolve : Int × Int → List Sig} {k m : Nat}
  {src : TxnSource Sig Txn} {p : PipelineState Sig}

/-- What the pipeline keeps: each stage's state is reachable on its own, the senders' over the
signatures sent so far, and a sender has left its loop only once every resolver has. -/
structure PipelineInv (ranges : List (Int × Int)) (resolve : Int × Int → List Sig) (k : Nat)
    (src : TxnSource Sig Txn) (m : Nat) (p : PipelineState Sig) : Prop where
  resolvers : ResolverReachable ranges resolve k p.resolvers
  senders : ForwardReachable src (p.resolvers.emitted.map Prod.snd) m p.senders
  emitted_eq : p.senders.emitted = p.resolvers.emitted.length
  exited_done : ∀ w, p.senders.workers w = .exited → resolversDone k p.resolvers = true

theorem pipelineInv_init : PipelineInv ranges resolve k src m pipelineInit :=
  ⟨.init, .init, rfl, fun _ h => nomatch h⟩

/-- A resolver step that sends nothing on `s`. -/
theorem PipelineInv.quiet (hI : PipelineInv ranges resolve k src m p) {r : ResolverState Sig}
    (hr : ResolverReachable ranges resolve k r) (he : r.emitted = p.resolvers.emitted)
    (hdone : resolversDone k p.resolvers = true → resolversDone k r = true) :
    PipelineInv ranges resolve k src m ⟨r, { p.senders with emitted := r.emitted.length }⟩ := by
  refine ⟨hr, ?_, rfl, fun w hw => hdone (hI.exited_done w hw)⟩
  rw [he, ← hI.emitted_eq]
  exact hI.senders

/-- ... such as a step of a resolver still in its loop. -/
theorem PipelineInv.quiet_of_running (hI : PipelineInv ranges resolve k src m p)
    {r : ResolverState Sig} (hr : ResolverReachable ranges resolve k r)
    (he : r.emitted = p.resolvers.emitted) {w : Nat} (hw : w < k)
    (hpc : p.resolvers.workers w ≠ .exited) :
    PipelineInv ranges resolve k src m ⟨r, { p.senders with emitted := r.emitted.length }⟩ :=
  hI.quiet hr he fun h => absurd h (by simp [resolversDone_eq_false hw hpc])

/-- A resolver sends the next signature its search found: the senders see one more emission. -/
theorem PipelineInv.emit (hI : PipelineInv ranges resolve k src m p) {r : ResolverState Sig}
    (hr : ResolverReachable ranges resolve k r) {w i : Nat} {sig : Sig} {rest : List Sig}
    (hw : w < k) (hpc : p.resolvers.workers w = .searching i (sig :: rest))
    (he : r.emitted = p.resolvers.emitted ++ [(i, sig)]) :
    PipelineInv ranges resolve k src m ⟨r, { p.senders with emitted := r.emitted.length }⟩ := by
  have hopen := resolversDone_eq_false hw (by rw [hpc]; exact nofun)
  have hno : ∀ v, p.senders.workers v ≠ .exited := fun v hv => by
    simpa [hopen] using hI.exited_done v hv
  refine ⟨hr, ?_, rfl, fun v hv => absurd hv (hno v)⟩
  rw [he, List.map_append]
  refine .step (hI.senders.append hno [sig]) (show ForwardAction.Valid m .emit from trivial) ?_
  simp [forwardStep, hI.emitted_eq]

/-- A sender step reads the channel as the senders' own model does: `s` is closed once every
resolver has left its loop, when every emission has been made. -/
theorem PipelineInv.senderStep (hI : PipelineInv ranges resolve k src m p) {w : Nat} (hw : w < m)
    {f : ForwardState Sig}
    (h : senderStep src (p.resolvers.emitted.map Prod.snd) (resolversDone k p.resolvers) p.senders w =
      some f) :
    PipelineInv ranges resolve k src m { p with senders := f } := by
  have hfwd : forwardStep src (p.resolvers.emitted.map Prod.snd) p.senders (.sender w) = some f := by
    simpa [forwardStep, hI.emitted_eq] using senderStep_true h
  refine ⟨hI.resolvers, .step hI.senders (show ForwardAction.Valid m (.sender w) from hw) hfwd,
    (senderStep_emitted h).trans hI.emitted_eq, fun v hv => ?_⟩
  rcases senderStep_exited h hv with hv' | hc
  · exact hI.exited_done v hv'
  · exact hc

/-- Every step keeps the invariant. -/
theorem PipelineInv.step (hI : PipelineInv ranges resolve k src m p) {a : PipelineAction}
    (ha : a.Valid k m) {p' : PipelineState Sig} (h : pipelineStep ranges resolve k src p a = some p') :
    PipelineInv ranges resolve k src m p' := by
  cases a with
  | sender w =>
    obtain ⟨f, hf, rfl⟩ := Option.map_eq_some'.mp h
    exact hI.senderStep ha hf
  | resolvers a =>
    obtain ⟨r, hr, rfl⟩ := Option.map_eq_some'.mp h
    have hR : ResolverReachable ranges resolve k r := .step hI.resolvers ha hr
    rcases resolverStep_cases hr with ⟨rfl, -, rfl⟩ | ⟨w, range, rfl, hpc, -, -, rfl⟩ |
      ⟨w, rfl, hpc, -, -, rfl⟩ | ⟨w, i, sig, rest, rfl, hpc, rfl⟩ | ⟨w, i, rfl, hpc, rfl⟩
    · exact hI.quiet hR rfl id
    · exact hI.quiet_of_running hR rfl ha (by rw [hpc]; exact nofun)
    · exact hI.quiet_of_running hR rfl ha (by rw [hpc]; exact nofun)
    · exact hI.emit hR ha hpc rfl
    · exact hI.quiet_of_running hR rfl ha (by rw [hpc]; exact nofun)

theorem PipelineReachable.inv (h : PipelineReachable ranges resolve k src m p) :
    PipelineInv ranges resolve k src m p := by
  induction h with
  | init => exact pipelineInv_init
  | step _ ha hs ih => exact ih.step ha hs

theorem PipelineReachable.run {sched : List PipelineAction} {p' : PipelineState Sig}
    (hp : PipelineReachable ranges resolve k src m p) (hv : ∀ a ∈ sched, a.Valid k m)
    (h : pipelineRun ranges resolve k src p sched = some p') :
    PipelineReachable ranges resolve k src m p' := by
  induction sched generalizing p with
  | nil => exact Option.some.inj h ▸ hp
  | cons a sched ih =>
    simp only [pipelineRun, Option.bind_eq_some] at h
    obtain ⟨p1, h1, h2⟩ := h
    exact ih (.step hp (hv a (List.mem_cons_self _ _)) h1)
      (fun b hb => hv b (List.mem_cons_of_mem _ hb)) h2

/-- When no thread of the pipeline can move, no thread of either stage can. -/
theorem PipelineInv.stuck (hI : PipelineInv ranges resolve k src m p)
    (hstuck : ∀ a : PipelineAction, a.Valid k m → pipelineStep ranges resolve k src p a = none) :
    (∀ a : ResolverAction, a.Valid k → resolverStep ranges resolve p.resolvers a = none) ∧
      ∀ a : ForwardAction, a.Valid m →
        forwardStep src (p.resolvers.emitted.map Prod.snd) p.senders a = none := by
  have hr : ∀ a : ResolverAction, a.Valid k → resolverStep ranges resolve p.resolvers a = none :=
    fun a ha => by simpa [pipelineStep] using hstuck (.resolvers a) ha
  have hdone : resolversDone k p.resolvers = true :=
    resolversDone_iff.mpr (hI.resolvers.inv.ended_of_stuck hr).2
  refine ⟨hr, fun a ha => ?_⟩
  cases a with
  | emit => simp [forwardStep, hI.emitted_eq]
  | sender w =>
    have h := hstuck (.sender w) ha
    simp only [pipelineStep, hdone, Option.map_eq_none'] at h
    simpa [forwardStep, hI.emitted_eq] using h

end Inv

/-- For every list of ranges, every result of their searches, every transaction source and any
numbers of resolver and sender threads: every state the whole pipeline reaches, in every
interleaving, projects onto a state of the resolvers and one of the senders over what the
resolvers have sent, each reachable on its own; and when no thread of the pipeline can move, no
thread of either stage can. -/
theorem findAndForward_pipeline_projects (ranges : List (Int × Int)) (resolve : Int × Int → List Sig)
    (k : Nat) (src : TxnSource Sig Txn) (m : Nat) (p : PipelineState Sig)
    (h : PipelineReachable ranges resolve k src m p) :
    ResolverReachable ranges resolve k p.resolvers ∧
      ForwardReachable src (p.resolvers.emitted.map Prod.snd) m p.senders ∧
      ((∀ a : PipelineAction, a.Valid k m → pipelineStep ranges resolve k src p a = none) →
        (∀ a : ResolverAction, a.Valid k → resolverStep ranges resolve p.resolvers a = none) ∧
          ∀ a : ForwardAction, a.Valid m →
            forwardStep src (p.resolvers.emitted.map Prod.snd) p.senders a = none) :=
  have hI := h.inv
  ⟨hI.resolvers, hI.senders, hI.stuck⟩

/-- One resolver and one sender over the range `(1, 2)`, whose search finds `7`: the sender
receives `7` and pushes it while the resolver is still searching. -/
theorem findAndForward_pipeline_projects_run :
    ∃ p, pipelineRun [(1, 2)] (fun _ => [7]) 1 pushAll pipelineInit
        [.resolvers .produce, .resolvers (.resolver 0), .resolvers (.resolver 0), .sender 0,
          .sender 0, .resolvers (.resolver 0), .resolvers (.resolver 0), .sender 0] = some p ∧
      p.senders.stream = [(7, [1])] ∧
      (ResolverReachable [(1, 2)] (fun _ => [7]) 1 p.resolvers ∧
        ForwardReachable pushAll (p.resolvers.emitted.map Prod.snd) 1 p.senders ∧
        ((∀ a : PipelineAction, a.Valid 1 1 → pipelineStep [(1, 2)] (fun _ => [7]) 1 pushAll p a = none) →
          (∀ a : ResolverAction, a.Valid 1 → resolverStep [(1, 2)] (fun _ => [7]) p.resolvers a = none) ∧
            ∀ a : ForwardAction, a.Valid 1 →
              forwardStep pushAll (p.resolvers.emitted.map Prod.snd) p.senders a = none)) :=
  ⟨_, rfl, rfl, findAndForward_pipeline_projects _ _ 1 pushAll 1 _
    (PipelineReachable.init.run (by decide) (rfl : pipelineRun [(1, 2)] (fun _ => [7]) 1 pushAll
      pipelineInit [.resolvers .produce, .resolvers (.resolver 0), .resolvers (.resolver 0), .sender 0,
        .sender 0, .resolvers (.resolver 0), .resolvers (.resolver 0), .sender 0] = _))⟩

end TreeRepair
