import Mathlib.Order.Bounds.Basic
import OpenHMR.AuthRecords

/-!
# The order of a request (`cal_order`)

`cal_order` doubles `val` from a page on until it reaches the request, and counts. Both are
`int`, so a request is read as a signed number, and `val` runs through `2 ^ 12`, …,
`2 ^ 30`, `-2 ^ 31`, `0`, `0`, … (`toInt_shiftLeft_le`).

A request of at most `2 ^ 30` bytes gets the least order (`calOrderRun_of_le`). Between
`2 ^ 30` and `2 ^ 31` the loop does not end, and from `2 ^ 31` on the request is negative
and gets order `0`. So `2 ^ 30` is the bound (`leastOrder_iff`). `calOrder`, which the calls
of the DVR memory use, is the result of the loop (`calOrder_eq_some_iff`).
-/

open BitVec

namespace OpenHMR

/-- The loop of `cal_order`, at most `n` rounds; `none` if it has not ended by then. -/
def calOrderRun (num : BitVec 32) : ℕ → BitVec 32 → ℕ → Option ℕ
  | 0, _, _ => none
  | n + 1, val, cnt =>
    if val.slt num then calOrderRun num n (val <<< 1) (cnt + 1) else some cnt

/-- `cal_order(num)` returns `k`. -/
def CalOrderReturns (num : BitVec 32) (k : ℕ) : Prop :=
  ∃ n, calOrderRun num n (1#32 <<< 12) 0 = some k

/-- `cal_order` returns, and what it returns is the order of the smallest block that holds
`size` bytes. -/
def LeastOrder (size : BitVec 32) : Prop :=
  ∃ k, CalOrderReturns size k ∧ IsLeast {k | size.toNat ≤ 2 ^ (12 + k)} k

/-! ## The values of `val` -/

theorem toInt_shiftLeft {k : ℕ} (hk : k ≤ 18) :
    (1#32 <<< 12 <<< k).toInt = ((2 ^ (12 + k) : ℕ) : ℤ) := by
  have h : ∀ k < 19, (1#32 <<< 12 <<< k).toInt = ((2 ^ (12 + k) : ℕ) : ℤ) := by decide
  exact h k (by omega)

/-- However often it is doubled, `val` is at most `2 ^ 30`. -/
theorem toInt_shiftLeft_le (k : ℕ) : (1#32 <<< 12 <<< k).toInt ≤ 2 ^ 30 := by
  by_cases hk : k < 32
  · have h : ∀ k < 32, (1#32 <<< 12 <<< k).toInt ≤ 2 ^ 30 := by decide
    exact h k hk
  · rw [shiftLeft_eq_zero (by omega)]
    decide

theorem shiftLeft_succ (k : ℕ) : 1#32 <<< 12 <<< k <<< 1 = 1#32 <<< 12 <<< (k + 1) := by
  rw [shiftLeft_add]

/-! ## The loop -/

/-- A request of at most `2 ^ 30` bytes : the loop ends at the first order that is enough. -/
theorem calOrderRun_of_le {num : BitVec 32} {k : ℕ} (hk : k ≤ 18)
    (hle : num.toInt ≤ ((2 ^ (12 + k) : ℕ) : ℤ))
    (hmin : ∀ j < k, ((2 ^ (12 + j) : ℕ) : ℤ) < num.toInt) :
    ∀ (n cnt : ℕ), cnt + n = k →
      calOrderRun num (n + 1) (1#32 <<< 12 <<< cnt) cnt = some k
  | 0, cnt, hcnt => by
    obtain rfl : cnt = k := hcnt
    have hge : ¬(1#32 <<< 12 <<< cnt).slt num = true := by
      rw [slt_iff_toInt_lt, toInt_shiftLeft hk]
      omega
    rw [calOrderRun, if_neg hge]
  | n + 1, cnt, hcnt => by
    have hlt : (1#32 <<< 12 <<< cnt).slt num = true := by
      rw [slt_iff_toInt_lt, toInt_shiftLeft (by omega)]
      exact hmin cnt (by omega)
    rw [calOrderRun, if_pos hlt, shiftLeft_succ]
    exact calOrderRun_of_le hk hle hmin n (cnt + 1) (by omega)

/-- Above `2 ^ 30` no value of `val` ends the loop. -/
theorem calOrderRun_of_gt (num : BitVec 32) (hgt : 2 ^ 30 < num.toInt) :
    ∀ (n cnt : ℕ), calOrderRun num n (1#32 <<< 12 <<< cnt) cnt = none
  | 0, _ => rfl
  | n + 1, cnt => by
    have hlt : (1#32 <<< 12 <<< cnt).slt num = true := by
      rw [slt_iff_toInt_lt]
      exact (toInt_shiftLeft_le cnt).trans_lt hgt
    rw [calOrderRun, if_pos hlt, shiftLeft_succ]
    exact calOrderRun_of_gt num hgt n (cnt + 1)

/-- More rounds do not change what the loop returns. -/
theorem calOrderRun_unique {num : BitVec 32} : ∀ {m n : ℕ} {val : BitVec 32} {cnt j k : ℕ},
    calOrderRun num m val cnt = some j → calOrderRun num n val cnt = some k → j = k
  | m + 1, n + 1, val, cnt, j, k, hj, hk => by
    rw [calOrderRun] at hj hk
    split_ifs at hj hk
    · exact calOrderRun_unique hj hk
    · exact (Option.some.inj hj).symm.trans (Option.some.inj hk)

theorem CalOrderReturns.unique {num : BitVec 32} {j k : ℕ} (hj : CalOrderReturns num j)
    (hk : CalOrderReturns num k) : j = k := by
  obtain ⟨m, hm⟩ := hj
  obtain ⟨n, hn⟩ := hk
  exact calOrderRun_unique hm hn

/-- What the loop returns for a request of at most `2 ^ 30` bytes. -/
theorem exists_calOrderReturns (num : BitVec 32) (hle : num.toInt ≤ 2 ^ 30) :
    ∃ k ≤ 18, CalOrderReturns num k ∧ num.toInt ≤ ((2 ^ (12 + k) : ℕ) : ℤ) ∧
      ∀ j < k, ((2 ^ (12 + j) : ℕ) : ℤ) < num.toInt := by
  have hex : ∃ k, num.toInt ≤ ((2 ^ (12 + k) : ℕ) : ℤ) := ⟨18, by simpa using hle⟩
  have hspec := Nat.find_spec hex
  have hmin : ∀ j < Nat.find hex, ((2 ^ (12 + j) : ℕ) : ℤ) < num.toInt :=
    fun j hj => not_le.1 (Nat.find_min hex hj)
  have hk : Nat.find hex ≤ 18 := Nat.find_min' hex (by simpa using hle)
  refine ⟨Nat.find hex, hk, ⟨Nat.find hex + 1, ?_⟩, hspec, hmin⟩
  exact calOrderRun_of_le hk hspec hmin (Nat.find hex) 0 (zero_add _)

/-- `cal_order` returns the least order exactly for the sizes up to `2 ^ 30`. -/
theorem leastOrder_iff (size : BitVec 32) : LeastOrder size ↔ size.toNat ≤ 2 ^ 30 := by
  have hcond := toInt_eq_toNat_cond size
  constructor
  · rintro ⟨k, hret, hleast, -⟩
    by_contra hgt
    by_cases hneg : size.toNat < 2 ^ 31
    · -- The loop does not end.
      rw [if_pos (by omega)] at hcond
      obtain ⟨n, hn⟩ := hret
      have hnone := calOrderRun_of_gt size (by omega) n 0
      rw [shiftLeft_zero, hn] at hnone
      cases hnone
    · -- The request is negative, and order 0 is returned.
      rw [if_neg (by omega)] at hcond
      have hlt := size.isLt
      have hzero : CalOrderReturns size 0 :=
        ⟨1, calOrderRun_of_le (Nat.zero_le 18) (by omega)
          (fun j hj => absurd hj (Nat.not_lt_zero j))
          0 0 rfl⟩
      obtain rfl := hret.unique hzero
      have : size.toNat ≤ 2 ^ 12 := hleast
      omega
  · intro hle
    rw [if_pos (by omega)] at hcond
    obtain ⟨k, -, hret, hk, hmin⟩ := exists_calOrderReturns size (by omega)
    refine ⟨k, hret, by simpa using (by omega : size.toNat ≤ 2 ^ (12 + k)), fun j hj => ?_⟩
    by_contra hlt
    have := hmin j (by omega)
    have hj' : size.toNat ≤ 2 ^ (12 + j) := hj
    omega

/-- A request of one byte more than a gigabyte. -/
theorem not_leastOrder_gigabyte : ¬LeastOrder 0x40000001#32 := by
  rintro ⟨k, ⟨n, hn⟩, -⟩
  have hnone := calOrderRun_of_gt 0x40000001#32 (by decide) n 0
  rw [shiftLeft_zero, hn] at hnone
  cases hnone

/-! ## The order the calls use -/

/-- The loop finds the least order. -/
theorem calOrderLoop_eq {num : ℤ} {k : ℕ} (hle : num ≤ ((2 ^ (12 + k) : ℕ) : ℤ))
    (hmin : ∀ j < k, ((2 ^ (12 + j) : ℕ) : ℤ) < num) :
    ∀ (n cnt : ℕ), cnt ≤ k → k ≤ cnt + n → calOrderLoop num n cnt = some k
  | 0, cnt, h, h' => by
    obtain rfl : cnt = k := by omega
    rw [calOrderLoop, if_neg]
    push_cast at hle
    exact not_lt.2 hle
  | n + 1, cnt, h, h' => by
    rw [calOrderLoop]
    rcases h.eq_or_lt with rfl | hlt
    · rw [if_neg]
      push_cast at hle
      exact not_lt.2 hle
    · have := hmin cnt hlt
      push_cast at this
      rw [if_pos this]
      exact calOrderLoop_eq hle hmin n (cnt + 1) hlt (by omega)

theorem calOrderLoop_of_gt {num : ℤ} (hgt : 2 ^ 30 < num) :
    ∀ (n cnt : ℕ), n + cnt = 18 → calOrderLoop num n cnt = none
  | 0, cnt, h => by
    obtain rfl : cnt = 18 := by omega
    exact if_pos hgt
  | n + 1, cnt, h => by
    have hpow : (2 : ℤ) ^ (12 + cnt) ≤ 2 ^ 30 := pow_le_pow_right₀ (by decide) (by omega)
    rw [calOrderLoop, if_pos (hpow.trans_lt hgt)]
    exact calOrderLoop_of_gt hgt n (cnt + 1) (by omega)

/-- `calOrder` is what `cal_order` returns. -/
theorem calOrder_eq_some_iff (num : BitVec 32) (k : ℕ) :
    calOrder num.toInt = some k ↔ CalOrderReturns num k := by
  by_cases hle : num.toInt ≤ 2 ^ 30
  · obtain ⟨j, hj, hret, hspec, hmin⟩ := exists_calOrderReturns num hle
    rw [calOrder, calOrderLoop_eq hspec hmin 18 0 (Nat.zero_le j) (by omega)]
    constructor
    · rintro ⟨⟩
      exact hret
    · intro h
      rw [h.unique hret]
  · rw [calOrder, calOrderLoop_of_gt (not_le.1 hle) 18 0 rfl]
    refine ⟨fun h => (Option.some_ne_none k h.symm).elim, fun ⟨n, hn⟩ => ?_⟩
    rw [← hn, ← calOrderRun_of_gt num (not_le.1 hle) n 0, shiftLeft_zero]

/-- The least order, for a request of at most `2 ^ 30` bytes. -/
theorem exists_calOrder {arg : ℕ} (h : arg ≤ 2 ^ 30) :
    ∃ order, calOrder (toInt32 arg) = some order ∧
    arg ≤ 2 ^ (12 + order) ∧ ∀ j < order, 2 ^ (12 + j) < arg := by
  have hint : toInt32 arg = arg := if_pos (by omega)
  have hex : ∃ k, arg ≤ 2 ^ (12 + k) := ⟨18, h⟩
  have hmin : ∀ j < Nat.find hex, 2 ^ (12 + j) < arg := fun j hj => not_le.1 (Nat.find_min hex hj)
  refine ⟨Nat.find hex, ?_, Nat.find_spec hex, hmin⟩
  rw [hint, calOrder]
  exact calOrderLoop_eq (by exact_mod_cast Nat.find_spec hex)
    (fun j hj => by exact_mod_cast hmin j hj) 18 0 (Nat.zero_le _)
    (by simpa using Nat.find_min' hex h)

end OpenHMR
