import Mathlib.Data.Int.Defs
import Mathlib.Data.List.AList
import Mathlib.Algebra.BigOperators.Group.Finset

/-!
# Outcomes and machine integers

How a call of the `tree-status` tool ends (a value, an `anyhow` error that its caller logs, or a
panic), and the two's-complement arithmetic of the `i64` and `u64` values it handles: `+` on `i64`
wraps in a release build, `as i64` reinterprets a `u64`, and `try_into` refuses what does not fit.
A `HashMap` is an `AList`, whose iteration order the tool never relies on.
-/

namespace TreeRepair

/-- How a call ends: with a value, with an error that the caller logs, or with a panic. -/
inductive Outcome (α : Type) where
  | ok (a : α)
  | err (msg : String)
  | panic (msg : String)
  deriving DecidableEq, Repr

namespace Outcome

/-- Sequencing: an error is returned by `?`, a panic unwinds. -/
def bind {α β : Type} : Outcome α → (α → Outcome β) → Outcome β
  | ok a, f => f a
  | err m, _ => err m
  | panic m, _ => panic m

instance : Monad Outcome where
  pure := ok
  bind := bind

@[simp] theorem pure_eq {α : Type} (a : α) : (pure a : Outcome α) = ok a := rfl

@[simp] theorem ok_bind {α β : Type} (a : α) (f : α → Outcome β) : (ok a >>= f) = f a := rfl

@[simp] theorem err_bind {α β : Type} (m : String) (f : α → Outcome β) : (err m >>= f) = err m :=
  rfl

@[simp] theorem panic_bind {α β : Type} (m : String) (f : α → Outcome β) :
    (panic m >>= f) = panic m := rfl

/-- `result.with_context(|| context)?` on an `anyhow::Result`. -/
def withContext {α : Type} (context : String) : Except String α → Outcome α
  | .ok a => ok a
  | .error e => err (context ++ ": " ++ e)

/-- `result.unwrap()`: a panic on the error case. -/
def unwrap {α : Type} : Option α → Outcome α
  | some a => ok a
  | none => panic "called Result::unwrap() on an Err value"

/-- `result?` on a `Result` whose error converts into an `anyhow::Error`. -/
def ofExcept {α : Type} : Except String α → Outcome α
  | .ok a => ok a
  | .error e => err e

/-- Whether the call panicked. -/
def isPanic {α : Type} : Outcome α → Bool
  | panic _ => true
  | _ => false

@[simp] theorem isPanic_ok {α : Type} (a : α) : (ok a).isPanic = false := rfl

@[simp] theorem isPanic_err {α : Type} (m : String) : (err m : Outcome α).isPanic = false := rfl

@[simp] theorem isPanic_panic {α : Type} (m : String) : (panic m : Outcome α).isPanic = true := rfl

/-- `option.ok_or_else(|| anyhow!(msg))?`. -/
def okOr {α : Type} (msg : String) : Option α → Outcome α
  | some a => ok a
  | none => err msg

/-! Peeling a sequence apart: a sequence returns a value exactly when each step does, and panics
exactly when some step panics after the ones before it returned. -/

theorem bind_eq_ok_iff {α β : Type} {x : Outcome α} {f : α → Outcome β} {b : β} :
    (x >>= f) = ok b ↔ ∃ a, x = ok a ∧ f a = ok b := by
  cases x <;> simp

theorem isPanic_bind {α β : Type} {x : Outcome α} {f : α → Outcome β} :
    (x >>= f).isPanic = true ↔ x.isPanic = true ∨ ∃ a, x = ok a ∧ (f a).isPanic = true := by
  cases x <;> simp

@[simp] theorem ofExcept_eq_ok_iff {α : Type} {x : Except String α} {a : α} :
    ofExcept x = ok a ↔ x = .ok a := by
  cases x <;> simp [ofExcept]

@[simp] theorem withContext_eq_ok_iff {α : Type} {c : String} {x : Except String α} {a : α} :
    withContext c x = ok a ↔ x = .ok a := by
  cases x <;> simp [withContext]

@[simp] theorem okOr_eq_ok_iff {α : Type} {msg : String} {x : Option α} {a : α} :
    okOr msg x = ok a ↔ x = some a := by
  cases x <;> simp [okOr]

@[simp] theorem isPanic_ofExcept {α : Type} (x : Except String α) : (ofExcept x).isPanic = false := by
  cases x <;> rfl

@[simp] theorem isPanic_withContext {α : Type} (c : String) (x : Except String α) :
    (withContext c x).isPanic = false := by
  cases x <;> rfl

@[simp] theorem isPanic_okOr {α : Type} (msg : String) (x : Option α) : (okOr msg x).isPanic = false := by
  cases x <;> rfl

theorem isPanic_unwrap {α : Type} {x : Option α} : (unwrap x).isPanic = true ↔ x = none := by
  cases x <;> simp [unwrap]

end Outcome

/-! ## `i64` and `u64` -/

/-- `i64::MIN`. -/
def i64Min : Int := -2 ^ 63

/-- `i64::MAX`. -/
def i64Max : Int := 2 ^ 63 - 1

/-- The `i64` two's-complement arithmetic leaves of an integer: what `+` on `i64` gives in a
release build, and what `as i64` gives of a `u64`. -/
def wrapI64 (x : Int) : Int := (x + 2 ^ 63) % 2 ^ 64 - 2 ^ 63

/-- `n as i64` for a `u64` `n`. -/
def u64AsI64 (n : Nat) : Int := wrapI64 n

/-- `i64::try_from(n)` for a `u64` `n`: `none` when `n` does not fit. -/
def u64TryIntoI64 (n : Nat) : Option Int := if n < 2 ^ 63 then some n else none

theorem wrapI64_of_le {x : Int} (h1 : i64Min ≤ x) (h2 : x ≤ i64Max) : wrapI64 x = x := by
  unfold wrapI64; unfold i64Min i64Max at *; omega

theorem u64AsI64_of_lt {n : Nat} (h : n < 2 ^ 63) : u64AsI64 n = n :=
  wrapI64_of_le (by unfold i64Min; omega) (by unfold i64Max; omega)

theorem u64AsI64_of_ge {n : Nat} (h1 : 2 ^ 63 ≤ n) (h2 : n < 2 ^ 64) : u64AsI64 n = n - 2 ^ 64 := by
  unfold u64AsI64 wrapI64; omega

theorem u64TryIntoI64_eq_some {n : Nat} {v : Int} : u64TryIntoI64 n = some v ↔ n < 2 ^ 63 ∧ v = n := by
  unfold u64TryIntoI64; split <;> simp_all [eq_comm]

theorem u64TryIntoI64_eq_none {n : Nat} : u64TryIntoI64 n = none ↔ 2 ^ 63 ≤ n := by
  unfold u64TryIntoI64; split <;> simp <;> omega

/-! ## `HashMap` -/

section Maps

variable {K V : Type}

/-- A map's entries as pairs: what `map.into_iter()` yields, up to order. -/
def mapEntries (m : AList fun _ : K => V) : List (K × V) :=
  m.entries.map fun e => (e.1, e.2)

theorem mem_mapEntries [DecidableEq K] {m : AList fun _ : K => V} {k : K} {v : V} :
    (k, v) ∈ mapEntries m ↔ m.lookup k = some v := by
  simp [mapEntries, ← AList.mem_lookup_iff]

/-- A map holds each key once. -/
theorem mapEntries_keys_nodup (m : AList fun _ : K => V) : ((mapEntries m).map Prod.fst).Nodup := by
  simpa [mapEntries, List.map_map, Function.comp_def] using m.nodupKeys

end Maps

/-! ## Sums over threads -/

/-- Moving thread `w` to `b` changes a sum over the threads by what `w` weighs before and after. -/
theorem sum_update_add {β : Type} (g : β → Nat) (f : Nat → β) {w n : Nat} (hw : w < n) (b : β) :
    (∑ v in Finset.range n, g (Function.update f w b v)) + g (f w) =
      (∑ v in Finset.range n, g (f v)) + g b := by
  have hm := Finset.mem_range.mpr hw
  have hrest : ∑ v in (Finset.range n).erase w, g (Function.update f w b v) =
      ∑ v in (Finset.range n).erase w, g (f v) :=
    Finset.sum_congr rfl fun v hv => by rw [Function.update_noteq (Finset.ne_of_mem_erase hv)]
  rw [← Finset.add_sum_erase _ _ hm, ← Finset.add_sum_erase _ _ hm, hrest, Function.update_same]
  omega

end TreeRepair
