import TreeRepair.SeqRanges
import Mathlib.Data.List.Sort
import Mathlib.Data.List.Chain

/-!
# `build_seq_ranges` is the one-pass grouping

On every strictly ascending list whose numbers leave room for `current_end + maximum_join_gap`
in `i64`, the two loops of `build_seq_ranges` compute the maximal runs whose successive elements
differ by at most `maximum_join_gap` (`seqRuns`). The join pass, fed with the contiguous runs,
takes the decisions of the one-pass grouping, because its accumulator always ends where the last
contiguous run ends (`joinRanges_contiguousRanges`). Near `i64::MAX` the addition wraps and a join
is missed. Whatever the join pass decides, the ranges cover every input number
(`buildSeqRanges_covers`), which is what `fix_tree` relies on.
-/

namespace TreeRepair

/-! ## The one-pass grouping -/

/-- The intended grouping, in one pass and not translated from the source: the maximal runs of an
ascending list whose successive elements differ by at most `gap`, each as
`(first element, last element)`. `first` and `last` are the bounds of the run being built. -/
def groupRuns (gap first last : Int) : List Int → List (Int × Int)
  | [] => [(first, last)]
  | x :: xs => if x - last ≤ gap then groupRuns gap first x xs else (first, last) :: groupRuns gap x x xs

/-- The runs of a whole list. -/
def seqRuns (gap : Int) : List Int → List (Int × Int)
  | [] => []
  | x :: xs => groupRuns gap x x xs

/-- The ranges `rs` of an ascending list `xs` as the repair needs them. -/
structure RunsOf (gap : Int) (xs : List Int) (rs : List (Int × Int)) : Prop where
  /-- Ranges are ascending, pairwise disjoint, and separated by more than `gap`. -/
  separated : rs.Pairwise fun r r' => r.2 + gap < r'.1
  /-- No range is inverted. -/
  nonInverted : ∀ r ∈ rs, r.1 ≤ r.2
  /-- Both endpoints of each range are input numbers. -/
  endpoints : ∀ r ∈ rs, r.1 ∈ xs ∧ r.2 ∈ xs
  /-- Every input number lies in a range. -/
  covers : ∀ x ∈ xs, ∃ r ∈ rs, r.1 ≤ x ∧ x ≤ r.2
  /-- The empty list, and only it, has no range. -/
  nil_iff : rs = [] ↔ xs = []

section Runs

variable {gap first last : Int} {xs : List Int}

theorem groupRuns_cons (x : Int) :
    groupRuns gap first last (x :: xs) =
      if x ≤ last + gap then groupRuns gap first x xs
      else (first, last) :: groupRuns gap x x xs := by
  have h : x - last ≤ gap ↔ x ≤ last + gap := by omega
  simp only [groupRuns, h]

/-- Every run starts at or after `first` and is not inverted. -/
theorem groupRuns_bounds (h : first ≤ last) (hc : xs.Chain (· < ·) last) :
    ∀ r ∈ groupRuns gap first last xs, first ≤ r.1 ∧ r.1 ≤ r.2 := by
  induction xs generalizing first last with
  | nil => simpa [groupRuns] using h
  | cons x xs ih =>
    obtain ⟨hlx, hc⟩ := List.chain_cons.mp hc
    rw [groupRuns_cons]
    split_ifs
    · exact ih (by omega) hc
    · intro r hr
      rcases List.mem_cons.mp hr with rfl | hr
      · exact ⟨le_rfl, h⟩
      · have := ih le_rfl hc r hr
        omega

theorem groupRuns_separated (h : first ≤ last) (hc : xs.Chain (· < ·) last) :
    (groupRuns gap first last xs).Pairwise fun r r' => r.2 + gap < r'.1 := by
  induction xs generalizing first last with
  | nil => simp [groupRuns]
  | cons x xs ih =>
    obtain ⟨hlx, hc⟩ := List.chain_cons.mp hc
    rw [groupRuns_cons]
    split_ifs with hj
    · exact ih (by omega) hc
    · refine List.pairwise_cons.mpr ⟨fun r hr => ?_, ih le_rfl hc⟩
      have := (groupRuns_bounds le_rfl hc r hr).1
      omega

theorem groupRuns_endpoints :
    ∀ r ∈ groupRuns gap first last xs, (r.1 = first ∨ r.1 ∈ xs) ∧ (r.2 = last ∨ r.2 ∈ xs) := by
  induction xs generalizing first last with
  | nil => simp [groupRuns]
  | cons x xs ih =>
    rw [groupRuns_cons]
    split_ifs
    · intro r hr
      obtain ⟨h1, h2⟩ := ih r hr
      exact ⟨h1.imp_right (List.mem_cons_of_mem _), .inr (List.mem_cons.mpr h2)⟩
    · intro r hr
      rcases List.mem_cons.mp hr with rfl | hr
      · simp
      · obtain ⟨h1, h2⟩ := ih r hr
        exact ⟨.inr (List.mem_cons.mpr h1), .inr (List.mem_cons.mpr h2)⟩

/-- The runs cover the run being built and every later number. -/
theorem groupRuns_covers (h : first ≤ last) (hc : xs.Chain (· < ·) last) (y : Int)
    (hy : (first ≤ y ∧ y ≤ last) ∨ y ∈ xs) :
    ∃ r ∈ groupRuns gap first last xs, r.1 ≤ y ∧ y ≤ r.2 := by
  induction xs generalizing first last with
  | nil =>
    simp only [List.not_mem_nil, or_false] at hy
    exact ⟨_, List.mem_singleton_self _, hy⟩
  | cons x xs ih =>
    obtain ⟨hlx, hc⟩ := List.chain_cons.mp hc
    rw [groupRuns_cons]
    rw [List.mem_cons] at hy
    split_ifs
    · refine ih (by omega) hc ?_
      rcases hy with hy | rfl | hy
      · omega
      · omega
      · exact .inr hy
    · rcases hy with hy | rfl | hy
      · exact ⟨_, List.mem_cons_self _ _, hy⟩
      · obtain ⟨r, hr, h'⟩ := ih le_rfl hc (.inl ⟨le_rfl, le_rfl⟩)
        exact ⟨r, List.mem_cons_of_mem _ hr, h'⟩
      · obtain ⟨r, hr, h'⟩ := ih le_rfl hc (.inr hy)
        exact ⟨r, List.mem_cons_of_mem _ hr, h'⟩

/-- The one-pass grouping of a strictly ascending list gives its runs. -/
theorem seqRuns_runsOf (hs : xs.Chain' (· < ·)) : RunsOf gap xs (seqRuns gap xs) := by
  cases xs with
  | nil => exact ⟨List.Pairwise.nil, by simp [seqRuns], by simp [seqRuns], by simp, by simp [seqRuns]⟩
  | cons x xs =>
    have hcov : ∀ y, (x ≤ y ∧ y ≤ x) ∨ y ∈ xs → ∃ r ∈ groupRuns gap x x xs, r.1 ≤ y ∧ y ≤ r.2 :=
      groupRuns_covers le_rfl hs
    refine ⟨groupRuns_separated le_rfl hs, fun r hr => (groupRuns_bounds le_rfl hs r hr).2,
      fun r hr => ?_, fun y hy => hcov y ?_, ?_⟩
    · obtain ⟨h1, h2⟩ := groupRuns_endpoints r hr
      exact ⟨List.mem_cons.mpr h1, List.mem_cons.mpr h2⟩
    · rcases List.mem_cons.mp hy with rfl | hy
      · exact .inl ⟨le_rfl, le_rfl⟩
      · exact .inr hy
    · obtain ⟨r, hr, -⟩ := hcov x (.inl ⟨le_rfl, le_rfl⟩)
      simpa [seqRuns] using List.ne_nil_of_mem hr

end Runs

/-! ## The two passes compute the one-pass grouping -/

/-- `x` leaves room for `x + maximum_join_gap` in `i64`. -/
def NoWrap (x : Int) : Prop := i64Min ≤ x ∧ x + maximumJoinGap ≤ i64Max

theorem wrapI64_add_one {x : Int} (h : NoWrap x) : wrapI64 (x + 1) = x + 1 := by
  unfold NoWrap maximumJoinGap at h
  exact wrapI64_of_le (by omega) (by omega)

theorem wrapI64_add_gap {x : Int} (h : NoWrap x) :
    wrapI64 (x + maximumJoinGap) = x + maximumJoinGap := by
  unfold NoWrap at h
  exact wrapI64_of_le (by unfold maximumJoinGap at *; omega) h.2

/-- Successive numbers are ascending, and the earlier one leaves room for the join test. -/
def AscNoWrap (x y : Int) : Prop := x < y ∧ NoWrap x

section Refinement

variable {xs : List Int}

/-- The join pass, from the accumulator `(S, E)`, over the contiguous runs of the numbers
`a ≤ b < xs`: it joins the first run when the one-pass grouping would join `a`, and from then on
its accumulator ends where the last run ends, so it decides as the grouping does. -/
theorem joinRanges_contiguousRanges {S E a b : Int} (hE : NoWrap E) (hc : xs.Chain AscNoWrap b) :
    joinRanges S E (contiguousRanges a b xs) =
      if a ≤ E + maximumJoinGap then groupRuns maximumJoinGap S b xs
      else (S, E) :: groupRuns maximumJoinGap a b xs := by
  induction xs generalizing S E a b with
  | nil => simp [contiguousRanges, joinRanges, groupRuns, wrapI64_add_gap hE]
  | cons x xs ih =>
    obtain ⟨⟨hbx, hb⟩, hc⟩ := List.chain_cons.mp hc
    have hgap : (0 : Int) < maximumJoinGap := by decide
    by_cases hx : b + 1 = x
    · subst hx
      simp only [contiguousRanges, wrapI64_add_one hb, if_true, ih hE hc, groupRuns_cons,
        show b + 1 ≤ b + maximumJoinGap by omega]
    · simp only [contiguousRanges, wrapI64_add_one hb, hx, if_false, joinRanges,
        wrapI64_add_gap hE, ih hb hc, groupRuns_cons]

/-- The first run starts the join pass's accumulator. -/
theorem joinFirst_contiguousRanges {a b : Int} (hc : xs.Chain AscNoWrap b) :
    joinFirst (contiguousRanges a b xs) = groupRuns maximumJoinGap a b xs := by
  induction xs generalizing b with
  | nil => rfl
  | cons x xs ih =>
    obtain ⟨⟨hbx, hb⟩, hc⟩ := List.chain_cons.mp hc
    have hgap : (0 : Int) < maximumJoinGap := by decide
    by_cases hx : b + 1 = x
    · subst hx
      simp only [contiguousRanges, wrapI64_add_one hb, if_true, ih hc, groupRuns_cons,
        show b + 1 ≤ b + maximumJoinGap by omega]
    · simp only [contiguousRanges, wrapI64_add_one hb, hx, if_false, joinFirst,
        joinRanges_contiguousRanges hb hc, groupRuns_cons]

theorem chain'_ascNoWrap :
    ∀ {xs : List Int}, xs.Sorted (· < ·) → (∀ x ∈ xs.dropLast, NoWrap x) → xs.Chain' AscNoWrap
  | [], _, _ => List.chain'_nil
  | [_], _, _ => List.chain'_singleton _
  | x :: y :: ys, hs, hw => by
    rw [List.dropLast_cons₂] at hw
    refine List.chain'_cons.mpr ⟨⟨List.rel_of_sorted_cons hs y (List.mem_cons_self _ _),
      hw x (List.mem_cons_self _ _)⟩, chain'_ascNoWrap hs.of_cons fun z hz => ?_⟩
    exact hw z (List.mem_cons_of_mem _ hz)

/-- On every strictly ascending list whose numbers, except the last, leave room for
`current_end + maximum_join_gap` in `i64`, `build_seq_ranges` is the one-pass grouping into
maximal runs with successive differences at most `maximum_join_gap`; so its ranges are ascending,
separated by more than `maximum_join_gap`, not inverted, have input endpoints and cover the
input. -/
theorem buildSeqRanges_eq_seqRuns (xs : List Int) (hs : xs.Sorted (· < ·))
    (hw : ∀ x ∈ xs.dropLast, i64Min ≤ x ∧ x + maximumJoinGap ≤ i64Max) :
    buildSeqRanges xs = seqRuns maximumJoinGap xs ∧
      RunsOf maximumJoinGap xs (buildSeqRanges xs) := by
  have heq : buildSeqRanges xs = seqRuns maximumJoinGap xs := by
    cases xs with
    | nil => rfl
    | cons x xs =>
      exact joinFirst_contiguousRanges (chain'_ascNoWrap hs hw)
  exact ⟨heq, heq ▸ seqRuns_runsOf (List.chain'_iff_pairwise.mpr hs)⟩

/-- The numbers `[1, 2, 3, 7, 8, 15]` join into the one range `(1, 15)`. -/
theorem buildSeqRanges_eq_seqRuns_spec_example :
    buildSeqRanges [1, 2, 3, 7, 8, 15] = seqRuns maximumJoinGap [1, 2, 3, 7, 8, 15] ∧
      RunsOf maximumJoinGap [1, 2, 3, 7, 8, 15] (buildSeqRanges [1, 2, 3, 7, 8, 15]) :=
  buildSeqRanges_eq_seqRuns _ (by decide) (by decide)

/-- At the top of `i64` the join test `current_end + maximum_join_gap >= start` wraps around:
two numbers three apart stay in separate ranges. -/
theorem buildSeqRanges_misses_join_at_i64_max :
    [i64Max - 4, i64Max - 1].Sorted (· < ·) ∧
      buildSeqRanges [i64Max - 4, i64Max - 1] ≠ seqRuns maximumJoinGap [i64Max - 4, i64Max - 1] := by
  decide

end Refinement

/-! ## Coverage, whatever the join pass decides -/

/-- `q` is a range that is not inverted and starts after `p` ends. -/
def Precedes (p q : Int × Int) : Prop := p.2 < q.1 ∧ q.1 ≤ q.2

/-- `Precedes` only reads where the earlier range ends. -/
theorem chain_precedes_of_snd_eq {p p' : Int × Int} {rs : List (Int × Int)} (h : p.2 = p'.2)
    (hc : rs.Chain Precedes p) : rs.Chain Precedes p' := by
  cases hc with
  | nil => exact .nil
  | cons hq hc => exact .cons ⟨h ▸ hq.1, hq.2⟩ hc

section Coverage

variable {xs : List Int}

/-- The contiguous runs of `a ≤ b < xs` are ascending ranges, after any range ending before `a`. -/
theorem contiguousRanges_chain {a b : Int} (h : a ≤ b) (hc : xs.Chain (· < ·) b) (p : Int × Int)
    (hp : p.2 < a) : (contiguousRanges a b xs).Chain Precedes p := by
  induction xs generalizing a b p with
  | nil => exact List.Chain.cons ⟨hp, h⟩ List.Chain.nil
  | cons x xs ih =>
    obtain ⟨hbx, hc⟩ := List.chain_cons.mp hc
    simp only [contiguousRanges]
    split_ifs
    · exact ih (by omega) hc p hp
    · exact List.Chain.cons ⟨hp, h⟩ (ih le_rfl hc (a, b) hbx)

theorem contiguousRanges_covers {a b : Int} (h : a ≤ b) (hc : xs.Chain (· < ·) b) (y : Int)
    (hy : (a ≤ y ∧ y ≤ b) ∨ y ∈ xs) : ∃ r ∈ contiguousRanges a b xs, r.1 ≤ y ∧ y ≤ r.2 := by
  induction xs generalizing a b with
  | nil =>
    simp only [List.not_mem_nil, or_false] at hy
    exact ⟨_, List.mem_singleton_self _, hy⟩
  | cons x xs ih =>
    obtain ⟨hbx, hc⟩ := List.chain_cons.mp hc
    simp only [contiguousRanges]
    rw [List.mem_cons] at hy
    split_ifs
    · refine ih (by omega) hc ?_
      rcases hy with hy | rfl | hy
      · omega
      · omega
      · exact .inr hy
    · rcases hy with hy | rfl | hy
      · exact ⟨_, List.mem_cons_self _ _, hy⟩
      · obtain ⟨r, hr, h'⟩ := ih le_rfl hc (.inl ⟨le_rfl, le_rfl⟩)
        exact ⟨r, List.mem_cons_of_mem _ hr, h'⟩
      · obtain ⟨r, hr, h'⟩ := ih le_rfl hc (.inr hy)
        exact ⟨r, List.mem_cons_of_mem _ hr, h'⟩

/-- Joining ascending ranges keeps every point of the accumulator and of the ranges covered. -/
theorem joinRanges_covers {S E : Int} {rs : List (Int × Int)} (h : S ≤ E)
    (hc : rs.Chain Precedes (S, E)) (y : Int)
    (hy : (S ≤ y ∧ y ≤ E) ∨ ∃ r ∈ rs, r.1 ≤ y ∧ y ≤ r.2) :
    ∃ r ∈ joinRanges S E rs, r.1 ≤ y ∧ y ≤ r.2 := by
  induction rs generalizing S E with
  | nil =>
    simp only [List.not_mem_nil, false_and, exists_false, or_false] at hy
    exact ⟨_, List.mem_singleton_self _, hy⟩
  | cons q rs ih =>
    obtain ⟨⟨hEq, hq⟩, hc⟩ := List.chain_cons.mp hc
    obtain ⟨s, e⟩ := q
    simp only [joinRanges]
    split_ifs
    · refine ih (by simp only at hEq hq; omega) (chain_precedes_of_snd_eq (p := (s, e)) rfl hc) ?_
      rcases hy with hy | ⟨r, hr | ⟨_, hr⟩, hr'⟩
      · simp only at hEq hq; omega
      · simp only at hEq hq hr'; omega
      · exact .inr ⟨r, hr, hr'⟩
    · rcases hy with hy | ⟨r, hr | ⟨_, hr⟩, hr'⟩
      · exact ⟨_, List.mem_cons_self _ _, hy⟩
      · obtain ⟨r', hr'', h'⟩ := ih hq hc (.inl hr')
        exact ⟨r', List.mem_cons_of_mem _ hr'', h'⟩
      · obtain ⟨r', hr'', h'⟩ := ih hq hc (.inr ⟨r, hr, hr'⟩)
        exact ⟨r', List.mem_cons_of_mem _ hr'', h'⟩

/-- Every number of a strictly ascending list lies in a range of `build_seq_ranges`, also where
`i64` addition wraps. -/
theorem buildSeqRanges_covers (hs : xs.Chain' (· < ·)) (y : Int) (hy : y ∈ xs) :
    ∃ r ∈ buildSeqRanges xs, r.1 ≤ y ∧ y ≤ r.2 := by
  cases xs with
  | nil => simp at hy
  | cons x xs =>
    have hcov := contiguousRanges_covers le_rfl hs
    have hch := contiguousRanges_chain le_rfl hs (x - 1, x - 1) (by show x - 1 < x; omega)
    obtain ⟨r0, hr0, -⟩ := hcov x (.inl ⟨le_rfl, le_rfl⟩)
    obtain ⟨⟨s, e⟩, rs, heq⟩ := List.exists_cons_of_ne_nil (List.ne_nil_of_mem hr0)
    rw [heq] at hch
    obtain ⟨⟨-, hse⟩, hch⟩ := List.chain_cons.mp hch
    simp only [buildSeqRanges, heq, joinFirst]
    refine joinRanges_covers hse hch y ?_
    obtain ⟨r, hr, hr'⟩ := hcov y (by rcases List.mem_cons.mp hy with rfl | hy <;> simp [*])
    rw [heq] at hr
    rcases List.mem_cons.mp hr with rfl | hr
    · exact .inl hr'
    · exact .inr ⟨r, hr, hr'⟩

end Coverage

end TreeRepair
