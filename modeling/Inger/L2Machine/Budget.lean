import Inger.L2Machine.Preempt
import Mathlib.Order.MinMax

/-!
# Budgets: `stamp` and the deadline test of `preempt`

`resume` puts its budget, in microseconds, into DEADLINE. `stamp` turns it
into a point in time, in nanoseconds: the product with 1000 is checked, the sum
with the clock is not, and when the product does not fit the budget itself is
left in DEADLINE ("unless the timeout is unlimited"). `preempt` times the
function out when the clock has reached DEADLINE.

There are three regimes:
* neither overflows: DEADLINE is the clock plus the budget (`stamp_exact`);
* the sum overflows: a build with overflow checks panics (`stampChecked`), one
  without them stores the sum less `2 ^ 64`;
* the product overflows: DEADLINE is the budget, a number of microseconds where
  `preempt` expects nanoseconds since the epoch (`stamp_fallback`). That is late
  enough for `u64::MAX` only.

`budgets_honoured` says that the first regime and `u64::MAX` are all the
budgets for which `resume` keeps its promise, in a build of either kind.
-/
namespace Inger.L2

/-- `u64::checked_mul`. -/
def checkedMul (a b : UInt64) : Option UInt64 :=
  if a.toNat * b.toNat < 2 ^ 64 then some (a * b) else none

/-- `+` of a build with overflow checks; `none` is the panic. -/
def checkedAdd (a b : UInt64) : Option UInt64 :=
  if a.toNat + b.toNat < 2 ^ 64 then some (a + b) else none

/-- What `stamp` leaves in DEADLINE in a build with overflow checks; `none` is
the panic.
mirrors src/linger.rs:471-477 -/
def stampChecked (now deadline : UInt64) : Option UInt64 :=
  match checkedMul deadline 1000 with
  | some timeout => checkedAdd now timeout
  | none => some deadline

theorem toNat_mul_1000 {us : UInt64} (h : us.toNat * 1000 < 2 ^ 64) :
    (us * 1000).toNat = us.toNat * 1000 := by
  rw [UInt64.toNat_mul]
  exact Nat.mod_eq_of_lt h

/-- The two builds differ only where the one with checks panics. -/
theorem stamp_of_checked {now us d : UInt64} (h : stampChecked now us = some d) :
    stamp now us = d := by
  simp only [stampChecked, checkedMul, checkedAdd, UInt64.reduceToNat] at h
  by_cases hm : us.toNat * 1000 < 2 ^ 64
  · simp only [hm, if_true, Option.ite_none_right_eq_some, Option.some.injEq] at h
    rw [stamp, if_pos hm]
    exact h.2
  · simp only [hm, if_false, Option.some.injEq] at h
    rw [stamp, if_neg hm]
    exact h

/-- With overflow checks `stamp` panics exactly when the product fits and the
sum does not. -/
theorem stampChecked_eq_none_iff {now us : UInt64} :
    stampChecked now us = none ↔
      us.toNat * 1000 < 2 ^ 64 ∧ 2 ^ 64 ≤ now.toNat + us.toNat * 1000 := by
  simp only [stampChecked, checkedMul, checkedAdd, UInt64.reduceToNat]
  by_cases hm : us.toNat * 1000 < 2 ^ 64
  · simp only [hm, if_true, toNat_mul_1000 hm, ite_eq_right_iff, reduceCtorEq, imp_false, true_and]
    omega
  · simp only [hm, if_false, reduceCtorEq, false_and]

theorem stamp_exact {now us : UInt64} (h : now.toNat + 1000 * us.toNat < 2 ^ 64) :
    (stamp now us).toNat = now.toNat + 1000 * us.toNat := by
  have hm : us.toNat * 1000 < 2 ^ 64 := by omega
  rw [stamp, if_pos hm, UInt64.toNat_add, toNat_mul_1000 hm]
  omega

theorem stamp_fallback {now us : UInt64} (h : 2 ^ 64 ≤ us.toNat * 1000) : stamp now us = us := by
  rw [stamp, if_neg (by omega)]

/-- What is promised of a budget stamped when the clock read `now`, at the
moment when `preempt` reads `clock`. -/
structure Honoured (now us clock : UInt64) : Prop where
  /-- `stamp` neither overflows nor panics -/
  fits : stampChecked now us ≠ none
  /-- the deadline is late enough, as far as a u64 can be -/
  late : min (now.toNat + 1000 * us.toNat) (2 ^ 64 - 1) ≤ (stamp now us).toNat
  /-- the function is not timed out before the budget is used up -/
  budget : stamp now us ≤ clock → now.toNat + 1000 * us.toNat ≤ clock.toNat
  /-- `max_value()` means run to completion -/
  unlimited : us.toNat = 2 ^ 64 - 1 → ¬ stamp now us ≤ clock

/-- The end of the budget is a u64, or the budget is `u64::MAX` (and the
clock has not reached its last reading). -/
def Representable (now us clock : UInt64) : Prop :=
  now.toNat + 1000 * us.toNat < 2 ^ 64 ∨ us.toNat = 2 ^ 64 - 1 ∧ clock.toNat ≠ 2 ^ 64 - 1

theorem Representable.honoured {now us clock : UInt64} (h : Representable now us clock) :
    Honoured now us clock := by
  rcases h with h | ⟨hu, hc⟩
  · have hd := stamp_exact h
    refine ⟨?_, ?_, ?_, ?_⟩
    · intro hn
      have := stampChecked_eq_none_iff.mp hn
      omega
    · omega
    · intro hle
      rw [UInt64.le_iff_toNat_le] at hle
      omega
    · intro hu
      omega
  · have hd : stamp now us = us := stamp_fallback (by omega)
    have hlt := clock.toNat_lt
    refine ⟨?_, ?_, ?_, ?_⟩
    · intro hn
      have := stampChecked_eq_none_iff.mp hn
      omega
    · rw [hd]
      omega
    · intro hle
      rw [hd, UInt64.le_iff_toNat_le] at hle
      omega
    · intro _ hle
      rw [hd, UInt64.le_iff_toNat_le] at hle
      omega

theorem Honoured.representable {now us clock : UInt64} (h : Honoured now us clock) :
    Representable now us clock := by
  by_cases hm : us.toNat * 1000 < 2 ^ 64
  · refine .inl ?_
    by_contra hs
    exact h.fits (stampChecked_eq_none_iff.mpr ⟨hm, by omega⟩)
  · have hd : stamp now us = us := stamp_fallback (by omega)
    have hlt := us.toNat_lt
    have hlate := h.late
    rw [hd] at hlate
    have hu : us.toNat = 2 ^ 64 - 1 := by omega
    refine .inr ⟨hu, ?_⟩
    intro hc
    refine h.unlimited hu ?_
    rw [hd, UInt64.le_iff_toNat_le]
    omega

/-- No smaller budget is stamped later than a representable one. -/
theorem Representable.stamp_mono {now us₁ us₂ clock : UInt64} (h : Representable now us₂ clock)
    (hle : us₁ ≤ us₂) : stamp now us₁ ≤ stamp now us₂ := by
  rw [UInt64.le_iff_toNat_le] at hle ⊢
  have hlt := (stamp now us₁).toNat_lt
  rcases h with h₂ | ⟨hu₂, _⟩
  · have h₁ : now.toNat + 1000 * us₁.toNat < 2 ^ 64 := by omega
    rw [stamp_exact h₁, stamp_exact h₂]
    omega
  · have hd : stamp now us₂ = us₂ := stamp_fallback (by omega)
    rw [hd]
    omega

/-- Two budgets are honoured, and in their order, exactly when both are
representable. -/
theorem budgets_honoured (now us₁ us₂ clock : UInt64) :
    (Honoured now us₁ clock ∧ Honoured now us₂ clock ∧
      (us₁ ≤ us₂ → stamp now us₁ ≤ stamp now us₂)) ↔
      Representable now us₁ clock ∧ Representable now us₂ clock := by
  constructor
  · rintro ⟨h₁, h₂, _⟩
    exact ⟨h₁.representable, h₂.representable⟩
  · rintro ⟨h₁, h₂⟩
    exact ⟨h₁.honoured, h₂.honoured, h₂.stamp_mono⟩

/-- A budget of 20 000 000 000 seconds, stamped in November 2023: the product
overflows, DEADLINE is the number of microseconds, long past, and the function
is timed out at once. -/
theorem large_budget_expired :
    stamp 1700000000000000000 20000000000000000 = 20000000000000000 ∧
      stamp 1700000000000000000 20000000000000000 ≤ 1700000000000000000 ∧
      ¬ Honoured 1700000000000000000 20000000000000000 1700000000000000000 := by
  refine ⟨by decide, by decide, ?_⟩
  intro h
  have := h.budget (by decide)
  exact absurd this (by decide)

end Inger.L2
