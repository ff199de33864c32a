import OpenHMR.BigIntArith

/-!
# Modular exponentiation of big integers

`Mod` subtracts trial multiples of the divisor (`Limbs.trial`) until the rest is not larger than it,
and `Exp_Mod` squares and multiplies. The result is right in the runs where no subtraction loses a
borrow (`Limbs.ReducesWell`) and no number of several words is multiplied by 0 (`ExpClean`) :
`expMod_eq`. Both can happen for numbers in normal form. A lost borrow makes the result wrong, and
the product with 0 has too many words (`expMod_ne`).
-/

namespace Limbs

/-- Subtracting trial multiples of `m` from `x` meets no lost borrow. -/
inductive ReducesWell (B m : ℕ) : ℕ → Prop
  | done {x : ℕ} : x ≤ m → ReducesWell B m x
  | step {x : ℕ} : m < x → BorrowsWell B x (trial B m x) → ReducesWell B m (x - trial B m x) →
      ReducesWell B m x

/-- The two leading words. -/
theorem top_mul_add_word {B : ℕ} (x : ℕ) (h : 2 ≤ len B x) :
    top B x * B + word B x (len B x - 2) = x / B ^ (len B x - 2) := by
  rw [div_pow_eq, top, mul_comm, show len B x - 2 + 1 = len B x - 1 by omega]

end Limbs

namespace OpenHMR

open Nat Option BI
open Limbs hiding value value_lt

theorem len_eq_one {x : ℕ} (h : x < 2 ^ 32) : len (2 ^ 32) x = 1 :=
  len_eq le_rfl (.inl rfl) (by rwa [pow_one]) (by decide)

theorem len_zero : len (2 ^ 32) 0 = 1 :=
  len_eq_one (by decide)

namespace BI

variable {a m x z : ℕ}

/-! ## Remainder -/

/-- The trial quotient of two numbers. -/
theorem trialQuotient_ofNat (x m : ℕ) : trialQuotient (ofNat x) (ofNat m) =
    if top (2 ^ 32) m < top (2 ^ 32) x then
      some (len (2 ^ 32) x - len (2 ^ 32) m, top (2 ^ 32) x / (top (2 ^ 32) m + 1))
    else if len (2 ^ 32) m < len (2 ^ 32) x then
      some (len (2 ^ 32) x - len (2 ^ 32) m - 1,
        x / (2 ^ 32) ^ (len (2 ^ 32) x - 2) / (top (2 ^ 32) m + 1))
    else none := by
  have htop : ∀ y, word (2 ^ 32) y (len (2 ^ 32) y - 1) = top (2 ^ 32) y :=
    word_len (by decide)
  simp only [trialQuotient, ofNat_length, ofNat_value, htop, gt_iff_lt]
  split_ifs with h₁ h₂ h3
  · rfl
  · have hm := len_pos (2 ^ 32) m
    rw [h3, shiftLeft_eq, top_mul_add_word x (by omega), shiftRight_eq_div_pow]
  · have hm := len_pos (2 ^ 32) m
    rw [shiftLeft_eq, top_mul_add_word x (by omega)]
  · rfl

/-- A trial multiple is computed from the quotient of the leading words. -/
theorem trialQuotient_spec (hm : m ≠ 0) (hmx : m < x) :
    (∃ l q, trialQuotient (ofNat x) (ofNat m) = some (l, q) ∧ 0 < q ∧ q < 2 ^ 32 ∧
      trial (2 ^ 32) m x = q * m * (2 ^ 32) ^ l ∧ trial (2 ^ 32) m x < x) ∨
    trialQuotient (ofNat x) (ofNat m) = none ∧ trial (2 ^ 32) m x = m ∧ x - m < m := by
  rw [trialQuotient_ofNat]
  by_cases h : Lead (2 ^ 32) m x
  · obtain ⟨hpos, hlt⟩ := trial_pos_and_lt (by decide) hm hmx h
    have htop := top_lt (B := 2 ^ 32) (by decide) x
    refine .inl ?_
    rw [trial] at hpos hlt ⊢
    split_ifs at hpos hlt ⊢ with h₁ h₂
    · refine ⟨_, _, rfl, Nat.pos_of_mul_pos_right (Nat.pos_of_mul_pos_right hpos), ?_, rfl, hlt⟩
      exact (div_le_self _ _).trans_lt htop
    · refine ⟨_, _, rfl, Nat.pos_of_mul_pos_right (Nat.pos_of_mul_pos_right hpos), ?_, rfl, hlt⟩
      have hm1 := len_pos (2 ^ 32) m
      rw [div_lt_iff_lt_mul (succ_pos _), ← top_mul_add_word x (by omega)]
      have hword := word_lt (B := 2 ^ 32) (by decide) x (len (2 ^ 32) x - 2)
      omega
    · exact absurd h (by omega)
  · obtain ⟨htop, hlen⟩ := not_or.1 h
    refine .inr ⟨by rw [if_neg htop, if_neg hlen], by rw [trial, if_neg htop, if_neg hlen], ?_⟩
    exact sub_lt_of_top_le (by decide) hm hmx (not_lt.1 htop) (not_lt.1 hlen)

section

variable (hm : m ≠ 0) (hmlen : len (2 ^ 32) m + 1 < biMaxlen)

include hm hmlen

/-- A round of `Mod`, whatever the subtraction gives. -/
theorem modLoop_succ (hmx : m < x) (hx : len (2 ^ 32) x ≤ biMaxlen) (fuel : ℕ) :
    modLoop (ofNat m) (fuel + 1) (ofNat x) =
      if x - m < m ∧ trialQuotient (ofNat x) (ofNat m) = none then sub (ofNat x) (ofNat m)
      else (sub (ofNat x) (ofNat (trial (2 ^ 32) m x))).bind (modLoop (ofNat m) fuel) := by
  rw [modLoop, cmp_ofNat, Nat.compare_eq_gt.2 hmx]
  dsimp only
  rcases trialQuotient_spec hm hmx with ⟨l, q, heq, hq0, hq, htrial, hlt⟩ | ⟨heq, -, hlt⟩
  · have hlen1 := len_eq_one hq
    have hprod := mul_ofNat (a := q) (b := m) (by omega) (fun h => absurd h (by omega))
      fun _ => hlen1
    have hqm : q * m ≠ 0 := mul_ne_zero (by omega) hm
    have hshift := shiftWords_ofNat hqm l
    have hfits : (ofNat (q * m)).length + l ≤ biMaxlen := by
      have hlength : (shiftWords (ofNat (q * m)) l).length = (ofNat (q * m)).length + l :=
        (shiftWords_spec (ofNat (q * m)) l).2.1
      rw [← hlength, hshift, ← htrial]
      exact (len_mono hlt.le).trans hx
    rw [if_neg (by simp [heq]), heq]
    dsimp only
    rw [moveP_eq hq, hprod]
    dsimp only [bind, Option.bind]
    rw [if_pos hfits, hshift, ← htrial]
  · rw [if_pos ⟨hlt, heq⟩, heq]

/-- The rounds of `Mod` end with the remainder, or with the divisor. -/
theorem modLoop_ofNat (h : ReducesWell (2 ^ 32) m x) (hx : len (2 ^ 32) x ≤ biMaxlen) :
    ∃ n r, r ≤ m ∧ r % m = x % m ∧
      ∀ fuel, n ≤ fuel → modLoop (ofNat m) fuel (ofNat x) = some (ofNat r) := by
  induction h with
  | @done x hxm =>
    refine ⟨1, x, hxm, rfl, fun fuel hfuel => ?_⟩
    obtain ⟨k, rfl⟩ : ∃ k, fuel = k + 1 := ⟨fuel - 1, by omega⟩
    rw [modLoop, cmp_ofNat]
    rcases lt_or_eq_of_le hxm with hlt | rfl
    · rw [Nat.compare_eq_lt.2 hlt]
    · rw [Nat.compare_eq_eq.2 rfl]
  | @step x hmx hborrow _ ih =>
    rcases trialQuotient_spec hm hmx with ⟨l, q, heq, -, -, -, hlt⟩ | ⟨heq, htrial, hlt⟩
    · obtain ⟨n, r, hrm, hmod, hloop⟩ := ih ((len_mono (sub_le _ _)).trans hx)
      refine ⟨n + 1, r, hrm, ?_, fun fuel hfuel => ?_⟩
      · obtain ⟨c, hc⟩ := dvd_trial (2 ^ 32) m x
        rw [hmod, hc, sub_mul_mod (hc ▸ hlt.le)]
      · obtain ⟨k, rfl⟩ : ∃ k, fuel = k + 1 := ⟨fuel - 1, by omega⟩
        rw [modLoop_succ hm hmlen hmx hx, if_neg (by simp [heq]), sub_ofNat hlt hborrow]
        exact hloop k (by omega)
    · refine ⟨1, x - m, by omega, (mod_eq_sub_mod hmx.le).symm, fun fuel hfuel => ?_⟩
      obtain ⟨k, rfl⟩ : ∃ k, fuel = k + 1 := ⟨fuel - 1, by omega⟩
      rw [htrial] at hborrow
      rw [modLoop_succ hm hmlen hmx hx, if_pos ⟨hlt, heq⟩, sub_ofNat hmx hborrow]

/-- `Mod` gives the remainder. -/
theorem mod_ofNat (h : ReducesWell (2 ^ 32) m x) (hx : len (2 ^ 32) x ≤ biMaxlen) :
    ∃ n, ∀ fuel, n ≤ fuel → mod fuel (ofNat x) (ofNat m) = some (ofNat (x % m)) := by
  obtain ⟨n, r, hrm, hmod, hloop⟩ := modLoop_ofNat hm hmlen h hx
  refine ⟨n, fun fuel hfuel => ?_⟩
  rw [mod, hloop fuel hfuel]
  dsimp only [bind, Option.bind, pure]
  rw [cmp_ofNat, ← hmod]
  rcases lt_or_eq_of_le hrm with hlt | rfl
  · rw [Nat.compare_eq_lt.2 hlt, if_neg (by decide), Nat.mod_eq_of_lt hlt]
  · rw [Nat.compare_eq_eq.2 rfl, if_pos rfl, Nat.mod_self, init_eq]

end

/-! ## The exponent -/

/-- `Sub_p` of 1 from an odd number. -/
theorem subP_ofNat (h : z % 2 = 1) : subP (ofNat z) 1 = some (ofNat (z - 1)) := by
  have hw : word (2 ^ 32) z 0 = z % 2 ^ 32 := word_zero _ _
  rw [subP, ofNat_value, hw, if_pos (by omega), ofNat_set_zero (n := z - 1)] <;> omega

/-- The rounds of the division have the words of the quotient above, and the remainder. -/
theorem divPLoop_spec {d : ℕ} (hd : 0 < d) (z : ℕ) : ∀ {n : ℕ}, n ≤ len (2 ^ 32) z →
    (divPLoop (ofNat z) d n).1.sign = 1 ∧
    (divPLoop (ofNat z) d n).1.length = len (2 ^ 32) z ∧
    (divPLoop (ofNat z) d n).2 = z / (2 ^ 32) ^ (len (2 ^ 32) z - n) % d ∧
    ∀ j, (divPLoop (ofNat z) d n).1.value j =
      if len (2 ^ 32) z - n ≤ j then word (2 ^ 32) (z / d) j else word (2 ^ 32) z j
  | 0, _ => by
    refine ⟨rfl, rfl, ?_, fun j => ?_⟩
    · rw [Nat.sub_zero, Nat.div_eq_of_lt (lt_pow_len (by decide) z), Nat.zero_mod]
      rfl
    · rw [divPLoop, Nat.sub_zero]
      split_ifs with hj
      · have hle := len_mono (B := 2 ^ 32) (div_le_self z d)
        rw [word_eq_zero (by decide) (hle.trans hj)]
        exact word_eq_zero (by decide) hj
      · rfl
  | n + 1, hn => by
    obtain ⟨hsign, hlength, hcarry, hvalue⟩ := divPLoop_spec hd z (n := n) (by omega)
    obtain ⟨i, hi⟩ : ∃ i, len (2 ^ 32) z - n = i + 1 := ⟨len (2 ^ 32) z - n - 1, by omega⟩
    have hi' : len (2 ^ 32) z - 1 - n = i := by omega
    have hi'' : len (2 ^ 32) z - (n + 1) = i := by omega
    rw [hi] at hcarry hvalue
    have hword : (divPLoop (ofNat z) d n).1.value i = word (2 ^ 32) z i := by
      rw [hvalue, if_neg (by omega)]
    -- `z / B ^ i` in terms of the carry
    have hdiv := div_add_mod (z / (2 ^ 32) ^ (i + 1)) d
    obtain ⟨k, hk⟩ : ∃ k, k = z / (2 ^ 32) ^ (i + 1) / d := ⟨_, rfl⟩
    obtain ⟨c, hc⟩ : ∃ c, c = z / (2 ^ 32) ^ (i + 1) % d := ⟨_, rfl⟩
    rw [← hk, ← hc] at hdiv
    have hz : z / (2 ^ 32) ^ i = c * 2 ^ 32 + word (2 ^ 32) z i + d * (k * 2 ^ 32) := by
      rw [div_pow_eq, ← hdiv]
      ring
    rw [divPLoop]
    simp only [hcarry, hword, ofNat_length, hi', ← hc, shiftLeft_eq]
    refine ⟨hsign, hlength, ?_, fun j => ?_⟩
    · rw [hi'', hz, add_mul_mod_self_left, mul_comm (_ / d), ← mod_eq_sub_mul_div]
    · rw [set_value, hvalue, hi'']
      have hq : (c * 2 ^ 32 + word (2 ^ 32) z i) / d % 2 ^ 32 = word (2 ^ 32) (z / d) i := by
        rw [word_div, hz, add_mul_div_left _ _ hd, add_mul_mod_self_right]
      rcases lt_trichotomy j i with hj | rfl | hj
      · rw [if_neg (by omega), if_neg (by omega), if_neg (by omega)]
      · rw [if_pos rfl, if_pos le_rfl, hq]
      · rw [if_neg (by omega), if_pos (by omega), if_pos (by omega)]

/-- `Div_p` by 2. -/
theorem divP_ofNat (hz : z ≠ 0) : divP (ofNat z) 2 = ofNat (z / 2) := by
  have hlt := lt_pow_len (B := 2 ^ 32) (by decide) z
  obtain ⟨n, hn⟩ : ∃ n, len (2 ^ 32) z = n + 1 := ⟨_, rfl⟩
  rw [divP, ofNat_length]
  split_ifs with h1
  · rw [h1, pow_one] at hlt
    rw [ofNat_value, word_zero]
    exact ofNat_set_zero (by omega) (by omega)
  · obtain ⟨hsign, hlength, -, hvalue⟩ := divPLoop_spec (d := 2) (by decide) z le_rfl
    dsimp only
    have hvalue : ∀ j, (divPLoop (ofNat z) 2 (len (2 ^ 32) z)).1.value j =
        word (2 ^ 32) (z / 2) j := fun j => (hvalue j).trans (if_pos (by omega))
    rw [hvalue, hlength]
    rw [hn] at hlt h1 hsign hlength hvalue ⊢
    rw [Nat.add_sub_cancel]
    split_ifs with htop
    · -- the leading word of the quotient is 0 : it has one word less
      have hle := pow_le_of_ne_zero (B := 2 ^ 32) hz
      obtain ⟨k, rfl⟩ : ∃ k, n = k + 1 := ⟨n - 1, by omega⟩
      rw [hn, Nat.add_sub_cancel, pow_succ] at hle
      have hlt' := lt_pow_of_word_eq_zero (by decide) (by omega) htop
      have hlen := len_eq (by omega) (.inr (show (2 ^ 32) ^ k ≤ z / 2 by omega)) hlt' (by decide)
      exact ext' hsign hlen.symm hvalue
    · have hlen := len_eq_of_word (B := 2 ^ 32) (by decide) (by omega) htop
      exact ext' hsign (hlength.trans hlen.symm) hvalue

end BI

/-! ## Exponentiation -/

/-- What `Exp_Mod` has squared `base` to when it comes to bit `k` of the exponent. -/
def squared (base m k : ℕ) : ℕ :=
  if k = 0 then base else base ^ 2 ^ k % m

/-- What `Exp_Mod` has multiplied up when it comes to bit `k` of the exponent. -/
def multiplied (base exp m k : ℕ) : ℕ :=
  base ^ (exp % 2 ^ k) % m

/-- No subtraction loses a borrow, and no number of several words is multiplied by 0. -/
structure ExpClean (base exp m : ℕ) : Prop where
  square : ∀ k, 2 ^ (k + 1) ≤ exp → ReducesWell (2 ^ 32) m (squared base m k * squared base m k)
  multiply : ∀ k, exp / 2 ^ k % 2 = 1 →
    ReducesWell (2 ^ 32) m (multiplied base exp m k * squared base m k)
  zero : ∀ k, exp / 2 ^ k % 2 = 1 → m ∣ base ^ 2 ^ k → base ^ (exp % 2 ^ k) % m < 2 ^ 32

variable {base exp m k n : ℕ}

theorem squared_succ (base m k : ℕ) :
    squared base m k * squared base m k % m = squared base m (k + 1) := by
  have hpow : base ^ 2 ^ (k + 1) = base ^ 2 ^ k * base ^ 2 ^ k := by
    rw [← pow_add, pow_succ, mul_two]
  rw [squared, squared, if_neg k.succ_ne_zero, hpow]
  split_ifs with h
  · rw [h, pow_zero, pow_one]
  · exact (mul_mod _ _ _).symm

theorem multiplied_succ_of_odd (h : exp / 2 ^ k % 2 = 1) :
    multiplied base exp m k * squared base m k % m = multiplied base exp m (k + 1) := by
  have hmod : exp % 2 ^ (k + 1) = exp % 2 ^ k + 2 ^ k := by rw [mod_pow_succ, h, mul_one]
  rw [multiplied, multiplied, hmod, pow_add, squared]
  split_ifs with h0
  · rw [h0, pow_zero, pow_one, mod_mul_mod]
  · exact (mul_mod _ _ _).symm

theorem multiplied_succ_of_even (h : exp / 2 ^ k % 2 = 0) :
    multiplied base exp m (k + 1) = multiplied base exp m k := by
  rw [multiplied, multiplied, mod_pow_succ, h, mul_zero, add_zero]

theorem multiplied_of_lt (h : exp < 2 ^ k) : multiplied base exp m k = base ^ exp % m := by
  rw [multiplied, mod_eq_of_lt h]

theorem len_squared_le (hm : m ≠ 0) (hb : len (2 ^ 32) base ≤ n) (hn : len (2 ^ 32) m ≤ n) (k : ℕ) :
    len (2 ^ 32) (squared base m k) ≤ n := by
  rw [squared]
  split_ifs
  · exact hb
  · exact (len_mono (mod_lt _ (pos_of_ne_zero hm)).le).trans hn

theorem len_multiplied_le (hm : m ≠ 0) (hn : len (2 ^ 32) m ≤ n) (k : ℕ) :
    len (2 ^ 32) (multiplied base exp m k) ≤ n :=
  (len_mono (mod_lt _ (pos_of_ne_zero hm)).le).trans hn

/-- If the product so far is 0, so is the square that is next. -/
theorem squared_eq_zero (hm : 2 ≤ m) (h : multiplied base exp m k = 0) : squared base m k = 0 := by
  have hdvd : m ∣ base ^ (exp % 2 ^ k) := dvd_of_mod_eq_zero h
  rw [squared]
  split_ifs with h0
  · rw [h0, pow_zero, mod_one, pow_zero] at hdvd
    exact absurd (le_of_dvd one_pos hdvd) (by omega)
  · have hle : exp % 2 ^ k ≤ 2 ^ k := (Nat.mod_lt _ (Nat.two_pow_pos k)).le
    exact mod_eq_zero_of_dvd (hdvd.trans (pow_dvd_pow base hle))

theorem dvd_of_squared_eq_zero (h : squared base m k = 0) : m ∣ base ^ 2 ^ k := by
  rw [squared] at h
  split_ifs at h with h0
  · rw [h0, h]
    exact dvd_zero m
  · exact dvd_of_mod_eq_zero h

namespace BI

/-- Multiplying and reducing. -/
theorem mul_mod {a b : ℕ} (hm : m ≠ 0) (hml : len (2 ^ 32) m ≤ 63) (ha : len (2 ^ 32) a ≤ 63)
    (hb : len (2 ^ 32) b ≤ 63) (ha0 : a = 0 → len (2 ^ 32) b = 1)
    (hb0 : b = 0 → len (2 ^ 32) a = 1) (h : ReducesWell (2 ^ 32) m (a * b)) :
    mul (ofNat a) (ofNat b) = some (ofNat (a * b)) ∧
      ∃ n, ∀ fuel, n ≤ fuel → mod fuel (ofNat (a * b)) (ofNat m) = some (ofNat (a * b % m)) := by
  have hmax : biMaxlen = 129 := rfl
  have hlen := len_mul_le (B := 2 ^ 32) (by decide) a b
  exact ⟨mul_ofNat (by omega) ha0 hb0, mod_ofNat hm (by omega) h (by omega)⟩

theorem ofNat_isZero (z : ℕ) : ¬((ofNat z).length ≠ 1 ∨ (ofNat z).value 0 ≠ 0) ↔ z = 0 := by
  have hlt := lt_pow_len (B := 2 ^ 32) (by decide) z
  rw [not_or, not_not, not_not, ofNat_length, ofNat_value, word_zero]
  constructor
  · rintro ⟨h1, h0⟩
    rw [h1, pow_one] at hlt
    omega
  · rintro rfl
    exact ⟨len_zero, rfl⟩

theorem ofNat_isOdd (z : ℕ) : (ofNat z).value 0 &&& 1 ≠ 0 ↔ z % 2 = 1 := by
  rw [ofNat_value, word_zero, and_one_is_mod]
  omega

/-- A round for an even exponent. -/
theorem expModLoop_even {x y p : BI} {z : ℕ} (hz : z ≠ 0) (heven : z % 2 = 0)
    (hmul : mul y y = some p) (fuel : ℕ) : expModLoop (ofNat m) (fuel + 1) x y (ofNat z) =
      (mod fuel p (ofNat m)).bind fun r => expModLoop (ofNat m) fuel x r (ofNat (z / 2)) := by
  rw [expModLoop, if_pos (not_not.1 fun h => hz ((ofNat_isZero z).1 h)),
    if_neg fun h => absurd ((ofNat_isOdd z).1 h) (by omega), hmul, divP_ofNat hz]
  rfl

/-- A round for an odd exponent. -/
theorem expModLoop_odd {x y p : BI} {z : ℕ} (hodd : z % 2 = 1) (hmul : mul x y = some p)
    (fuel : ℕ) : expModLoop (ofNat m) (fuel + 1) x y (ofNat z) =
      (mod fuel p (ofNat m)).bind fun r => expModLoop (ofNat m) fuel r y (ofNat (z - 1)) := by
  rw [expModLoop, if_pos (not_not.1 fun h => absurd ((ofNat_isZero z).1 h) (by omega)),
    if_pos ((ofNat_isOdd z).2 hodd), subP_ofNat hodd, hmul]
  rfl

theorem expModLoop_zero {fuel : ℕ} (x y : BI) :
    expModLoop (ofNat m) (fuel + 1) x y (ofNat 0) = some x := by
  rw [expModLoop, if_neg ((ofNat_isZero 0).2 rfl)]

/-- The loop after bit `k`, which squares if there are more bits. -/
theorem expModLoop_next (hm : 2 ≤ m) (hb : len (2 ^ 32) base ≤ 63) (hml : len (2 ^ 32) m ≤ 63)
    (hc : ExpClean base exp m) (h : ∃ N, ∀ fuel, N ≤ fuel →
      expModLoop (ofNat m) fuel (ofNat (multiplied base exp m (k + 1)))
        (ofNat (squared base m (k + 1))) (ofNat (exp / 2 ^ (k + 1))) =
          some (ofNat (base ^ exp % m))) :
    ∃ N, ∀ fuel, N ≤ fuel → expModLoop (ofNat m) fuel (ofNat (multiplied base exp m (k + 1)))
      (ofNat (squared base m k)) (ofNat (2 * (exp / 2 ^ (k + 1)))) =
        some (ofNat (base ^ exp % m)) := by
  rcases lt_or_ge exp (2 ^ (k + 1)) with hlt | hle
  · refine ⟨1, fun fuel hfuel => ?_⟩
    obtain ⟨f, rfl⟩ : ∃ f, fuel = f + 1 := ⟨fuel - 1, by omega⟩
    rw [div_eq_of_lt hlt, mul_zero, expModLoop_zero, multiplied_of_lt hlt]
  · have hm0 : m ≠ 0 := by omega
    have hz : exp / 2 ^ (k + 1) ≠ 0 := (Nat.div_pos hle (Nat.two_pow_pos _)).ne'
    have hyl := len_squared_le hm0 hb hml k
    obtain ⟨hmul, n, hmod⟩ := mul_mod hm0 hml hyl hyl (fun h => by rw [h, len_zero])
      (fun h => by rw [h, len_zero]) (hc.square k hle)
    obtain ⟨N, hN⟩ := h
    refine ⟨max n N + 1, fun fuel hfuel => ?_⟩
    obtain ⟨f, rfl⟩ : ∃ f, fuel = f + 1 := ⟨fuel - 1, by omega⟩
    rw [expModLoop_even (by omega) (by omega) hmul, hmod f (by omega), bind_some,
      squared_succ, Nat.mul_div_cancel_left _ (by decide)]
    exact hN f (by omega)

/-- The loop from bit `k` on, `n` being the number of bits that are left. -/
theorem expModLoop_ofNat (hm : 2 ≤ m) (hb : len (2 ^ 32) base ≤ 63) (hml : len (2 ^ 32) m ≤ 63)
    (hc : ExpClean base exp m) : ∀ {n k : ℕ}, exp < 2 ^ (k + n) → ∃ N, ∀ fuel, N ≤ fuel →
      expModLoop (ofNat m) fuel (ofNat (multiplied base exp m k)) (ofNat (squared base m k))
        (ofNat (exp / 2 ^ k)) = some (ofNat (base ^ exp % m))
  | 0, k, hlt => by
    refine ⟨1, fun fuel hfuel => ?_⟩
    obtain ⟨f, rfl⟩ : ∃ f, fuel = f + 1 := ⟨fuel - 1, by omega⟩
    rw [add_zero] at hlt
    rw [div_eq_of_lt hlt, expModLoop_zero, multiplied_of_lt hlt]
  | n + 1, k, hlt => by
    have hm0 : m ≠ 0 := by omega
    obtain ⟨N, hN⟩ := expModLoop_next hm hb hml hc (expModLoop_ofNat hm hb hml hc (n := n)
      (k := k + 1) (by rwa [show k + 1 + n = k + (n + 1) by omega]))
    have hhalf : exp / 2 ^ (k + 1) = exp / 2 ^ k / 2 := by
      rw [Nat.div_div_eq_div_mul, pow_succ]
    rcases mod_two_eq_zero_or_one (exp / 2 ^ k) with heven | hodd
    · rw [multiplied_succ_of_even heven, hhalf, Nat.mul_div_cancel' (Nat.dvd_of_mod_eq_zero heven)]
        at hN
      exact ⟨N, hN⟩
    · have hzero : squared base m k = 0 → len (2 ^ 32) (multiplied base exp m k) = 1 := fun h =>
        len_eq_one (hc.zero k hodd (dvd_of_squared_eq_zero h))
      obtain ⟨hmul, n', hmod⟩ := mul_mod hm0 hml (len_multiplied_le hm0 hml k)
        (len_squared_le hm0 hb hml k) (fun h => by rw [squared_eq_zero hm h, len_zero]) hzero
        (hc.multiply k hodd)
      refine ⟨max n' N + 1, fun fuel hfuel => ?_⟩
      obtain ⟨f, rfl⟩ : ∃ f, fuel = f + 1 := ⟨fuel - 1, by omega⟩
      rw [expModLoop_odd hodd hmul, hmod f (by omega), bind_some,
        multiplied_succ_of_odd hodd, show exp / 2 ^ k - 1 = 2 * (exp / 2 ^ (k + 1)) by omega]
      exact hN f (by omega)

end BI

/-- `Exp_Mod` ends with the power, in normal form. -/
theorem expMod_eq (base exp m : BI) (hb : base.Normalized) (he : exp.Normalized)
    (hm : m.Normalized) (h2 : 2 ≤ m.val) (hbl : base.length ≤ 63) (hml : m.length ≤ 63)
    (hc : ExpClean base.val exp.val m.val) :
    ∃ n, ∀ fuel, n ≤ fuel → ∃ r, expMod fuel base exp m = some r ∧ r.Normalized ∧
      r.val = base.val ^ exp.val % m.val := by
  rw [hb.eq_ofNat] at hbl
  rw [hm.eq_ofNat] at hml
  obtain ⟨n, hn⟩ := expModLoop_ofNat h2 hbl hml hc (n := exp.val) (k := 0)
    (by rw [zero_add]; exact Nat.lt_two_pow_self)
  have hx : multiplied base.val exp.val m.val 0 = 1 := by
    rw [multiplied, pow_zero, mod_one, pow_zero, mod_eq_of_lt (by omega)]
  rw [hx, squared, if_pos rfl, pow_zero, Nat.div_one, ← hb.eq_ofNat, ← he.eq_ofNat,
    ← hm.eq_ofNat, ← moveP_eq (by decide)] at hn
  refine ⟨n, fun fuel hfuel => ⟨_, hn fuel hfuel, normalized_ofNat ?_, val_ofNat _⟩⟩
  have hle := len_mono (B := 2 ^ 32)
    (mod_lt (base.val ^ exp.val) (show 0 < m.val by omega)).le
  have hmax : biMaxlen = 129 := rfl
  rw [ofNat_length] at hml
  omega

/-! ## A modulus of two words -/

/-- Words are borrowed from below the word `n` only. -/
theorem borrowsWell_of_lt {a b : ℕ} (ha : a < (2 ^ 32) ^ n) (hb : b ≤ a)
    (h : ∀ i < n, a % (2 ^ 32) ^ i < b % (2 ^ 32) ^ i → word (2 ^ 32) a i ≠ 0) :
    BorrowsWell (2 ^ 32) a b := by
  intro i hlt
  rcases lt_or_ge i n with hi | hi
  · exact h i hi hlt
  · have hle : (2 ^ 32) ^ n ≤ (2 ^ 32) ^ i := Nat.pow_le_pow_right (by decide) hi
    rw [mod_eq_of_lt (by omega), mod_eq_of_lt (by omega)] at hlt
    omega

/-- The length of a given number. -/
theorem len_of_pow {a : ℕ} (hk : 1 ≤ k := by decide) (hle : (2 ^ 32) ^ (k - 1) ≤ a := by decide)
    (hlt : a < (2 ^ 32) ^ k := by decide) : len (2 ^ 32) a = k :=
  len_eq hk (.inr hle) hlt (by decide)

/-- The two leading words of `x` give the multiple `t` of a number of `k` words. -/
theorem reducesWell_step {x t : ℕ} (hm : len (2 ^ 32) m = k) (hx : len (2 ^ 32) x = n)
    (htop : x / (2 ^ 32) ^ (n - 1) ≤ m / (2 ^ 32) ^ (k - 1)) (hkn : k < n)
    (ht : x / (2 ^ 32) ^ (n - 2) / (m / (2 ^ 32) ^ (k - 1) + 1) * m * (2 ^ 32) ^ (n - k - 1) = t)
    (hlt : m < x ∧ t ≤ x)
    (hwords : ∀ i < n, x % (2 ^ 32) ^ i < t % (2 ^ 32) ^ i → word (2 ^ 32) x i ≠ 0)
    (h : ReducesWell (2 ^ 32) m (x - t)) : ReducesWell (2 ^ 32) m x := by
  have htrial : trial (2 ^ 32) m x = t := by
    rw [trial, top, top, hm, hx, if_neg htop.not_gt, if_pos hkn, ht]
  refine .step hlt.1 ?_ ?_ <;> rw [htrial]
  exacts [borrowsWell_of_lt (hx ▸ lt_pow_len (by decide) x) hlt.2 hwords, h]

theorem expClean_cube : ExpClean (2 ^ 63 + 5) 3 (2 ^ 64 - 1) := by
  have hm : len (2 ^ 32) (2 ^ 64 - 1) = 2 := len_of_pow
  have hbit {k : ℕ} (h : 3 / 2 ^ k % 2 = 1) : k = 0 ∨ k = 1 := by
    by_contra hk
    have hlt : 3 < 2 ^ k := (by decide : 3 < 2 ^ 2).trans_le
      (Nat.pow_le_pow_right (by decide) (by omega))
    rw [Nat.div_eq_of_lt hlt] at h
    cases h
  -- two multiples are subtracted from the square, and two from its product with the base
  have hsquare : ReducesWell (2 ^ 32) (2 ^ 64 - 1) ((2 ^ 63 + 5) * (2 ^ 63 + 5)) := by
    refine reducesWell_step (n := 4) hm len_of_pow (by decide) (by decide) rfl (by decide)
      (by decide) ?_
    exact reducesWell_step (n := 3) hm len_of_pow (by decide) (by decide) rfl (by decide)
      (by decide) (.done (by decide))
  have hcube : ReducesWell (2 ^ 32) (2 ^ 64 - 1) ((2 ^ 63 + 5) * (2 ^ 62 + 30)) := by
    refine reducesWell_step (n := 4) hm len_of_pow (by decide) (by decide) rfl (by decide)
      (by decide) ?_
    exact reducesWell_step (n := 3) hm len_of_pow (by decide) (by decide) rfl (by decide)
      (by decide) (.done (by decide))
  refine ⟨fun k h => ?_, fun k h => ?_, fun k h hdvd => ?_⟩
  · obtain rfl : k = 0 := by
      have := (Nat.pow_lt_pow_iff_right (a := 2) (by decide)).1 (h.trans_lt (by decide : 3 < 2 ^ 2))
      omega
    exact hsquare
  · obtain rfl | rfl := hbit h
    exacts [.done (by decide), hcube]
  · obtain rfl | rfl := hbit h <;> exact absurd hdvd (by decide)

theorem normalized_of_lt {a : ℕ} (hn : 1 ≤ n) (hmax : n ≤ biMaxlen) (ha : a < (2 ^ 32) ^ n) :
    (ofNat a).Normalized :=
  normalized_ofNat ((len_le_of_lt_pow hn ha).trans hmax)

theorem length_ofNat_le {a l : ℕ} (hn : 1 ≤ n) (hl : n ≤ l) (ha : a < (2 ^ 32) ^ n) :
    (ofNat a).length ≤ l :=
  (len_le_of_lt_pow hn ha).trans hl

/-- The third power of a number of two words modulo `2 ^ 64 - 1`. -/
theorem expMod_eq_cube : ∃ n, ∀ fuel, n ≤ fuel → ∃ r,
    expMod fuel (.ofNat (2 ^ 63 + 5)) (.ofNat 3) (.ofNat (2 ^ 64 - 1)) = some r ∧ r.Normalized ∧
      r.val = 3 * 2 ^ 61 + 166 := by
  have h := expMod_eq (.ofNat (2 ^ 63 + 5)) (.ofNat 3) (.ofNat (2 ^ 64 - 1))
    (normalized_of_lt (n := 2) (by decide) (by decide) (by decide))
    (normalized_of_lt le_rfl (by decide) (by decide))
    (normalized_of_lt (n := 2) (by decide) (by decide) (by decide)) (by rw [val_ofNat]; decide)
    (length_ofNat_le (n := 2) (by decide) (by decide) (by decide))
    (length_ofNat_le (n := 2) (by decide) (by decide) (by decide))
    (by rw [val_ofNat, val_ofNat, val_ofNat]; exact expClean_cube)
  rwa [val_ofNat, val_ofNat, val_ofNat] at h

/-! ## What goes wrong -/

namespace BI

/-- A difference, right or wrong, is what the words of the loop make. -/
theorem sub_eq_of_subLoop {b c : ℕ} (hlt : b < a) (hlen : len (2 ^ 32) a = k)
    (h : Limbs.value (2 ^ 32)
      (subLoop (word (2 ^ 32) a) (word (2 ^ 32) b) (ofNat a) k).1.value k = c)
    (hc : c ≠ 0) : sub (ofNat a) (ofNat b) = some (ofNat c) := by
  obtain ⟨-, hsign, hvalue, -⟩ := subLoop_spec (word_lt (by decide) a)
    (word_lt (by decide) b) (ofNat a) k
  rw [sub, ofNat_sign, ofNat_sign, if_pos rfl, subWords_ofNat hlt, hlen,
    leading_eq_ofSign (fun i hi => ?_) h hc, hsign]
  · rfl
  · rw [hvalue i hi]
    exact clear_ofNat a i (hlen.le.trans hi)

variable {fuel : ℕ} {r : BI}

/-- `Mod` of a number that is less than the divisor. -/
theorem mod_of_lt {x : BI} (h : cmp x (ofNat m) = .lt)
    (hr : mod fuel x (ofNat m) = some r) : r = x := by
  cases fuel with
  | zero => cases hr
  | succ fuel =>
    rw [mod, modLoop, h] at hr
    dsimp only [bind, Option.bind, pure] at hr
    rw [h, if_neg (by decide)] at hr
    exact (Option.some.inj hr).symm

/-- `Mod` of the divisor itself. -/
theorem mod_self (hr : mod fuel (ofNat m) (ofNat m) = some r) :
    r = ofNat 0 := by
  have heq : cmp (ofNat m) (ofNat m) = .eq := by rw [cmp_ofNat, Nat.compare_eq_eq.2 rfl]
  cases fuel with
  | zero => cases hr
  | succ fuel =>
    rw [mod, modLoop, heq] at hr
    dsimp only [bind, Option.bind, pure] at hr
    rw [heq, if_pos rfl, init_eq] at hr
    exact (Option.some.inj hr).symm

/-- A lost borrow : the remainder of `2 ^ 64` by `2 ^ 33 - 1` is `2 ^ 31`. -/
theorem mod_lostBorrow
    (hr : mod fuel (ofNat (2 ^ 64)) (ofNat (2 ^ 33 - 1)) = some r) : r = ofNat (2 ^ 32) := by
  have hm : len (2 ^ 32) (2 ^ 33 - 1) = 2 := len_of_pow
  have hx : len (2 ^ 32) (2 ^ 64) = 3 := len_of_pow
  have hx' : len (2 ^ 32) (2 ^ 64 + 2 ^ 31) = 3 := len_of_pow
  have htrial : trial (2 ^ 32) (2 ^ 33 - 1) (2 ^ 64) = 2 ^ 64 - 2 ^ 31 := by
    rw [trial, top, top, hm, hx]
    decide
  have htrial' : trial (2 ^ 32) (2 ^ 33 - 1) (2 ^ 64 + 2 ^ 31) = 2 ^ 64 - 2 ^ 31 := by
    rw [trial, top, top, hm, hx']
    decide
  -- the borrow from word 1, which is 0, is lost, and `2 ^ 64` is left over
  have hsub : sub (ofNat (2 ^ 64)) (ofNat (2 ^ 64 - 2 ^ 31)) = some (ofNat (2 ^ 64 + 2 ^ 31)) :=
    sub_eq_of_subLoop (by decide) hx (by decide +kernel) (by decide)
  have hsub' : sub (ofNat (2 ^ 64 + 2 ^ 31)) (ofNat (2 ^ 64 - 2 ^ 31)) = some (ofNat (2 ^ 32)) :=
    sub_eq_of_subLoop (by decide) hx' (by decide +kernel) (by decide)
  have hlt : cmp (ofNat (2 ^ 32)) (ofNat (2 ^ 33 - 1)) = .lt := by
    rw [cmp_ofNat]
    decide
  have hmlen : len (2 ^ 32) (2 ^ 33 - 1) + 1 < biMaxlen := by rw [hm]; decide
  cases fuel with
  | zero => cases hr
  | succ fuel =>
    rw [mod, modLoop_succ (by decide) hmlen (by decide) (by rw [hx]; decide),
      if_neg fun h => absurd h.1 (by decide), htrial, hsub, bind_some] at hr
    cases fuel with
    | zero => cases hr
    | succ fuel =>
      rw [modLoop_succ (by decide) hmlen (by decide) (by rw [hx']; decide),
        if_neg fun h => absurd h.1 (by decide), htrial', hsub', bind_some] at hr
      exact mod_of_lt hlt hr

/-- A number of two words times 0 is 0 with two words. -/
theorem mul_zero_length :
    ∃ p, mul (ofNat (2 ^ 32)) (ofNat 0) = some p ∧ p.val = 0 ∧ p.length = 2 := by
  have ha : len (2 ^ 32) (2 ^ 32) = 2 := len_of_pow
  obtain ⟨p, q, heq, -, -, -, hval, -, -, -, hlength⟩ :=
    mulRows_spec (A := ofNat (2 ^ 32)) (len_pos _ _) (ofNat 0) (n := 1)
      (by rw [ofNat_length, ha]; decide)
  have hval : p.val = 0 := by
    rw [hval, ofNat_value, value_word, zero_mod, mul_zero]
  refine ⟨{ p with sign := 1 }, ?_, hval, ?_⟩
  · rw [mul, ofNat_length, len_zero, heq]
    rfl
  · rw [ofNat_length, ha, hval] at hlength
    exact (hlength (by decide)).resolve_right fun h => absurd h.2 (by decide)

/-- `2 ^ 32` cubed modulo `2 ^ 64` : the first power, of two words, is multiplied by the square,
which is 0. -/
theorem expMod_denormal
    (hr : expMod fuel (ofNat (2 ^ 32)) (ofNat 3) (ofNat (2 ^ 64)) = some r) : ¬r.Normalized := by
  have hb : len (2 ^ 32) (2 ^ 32) = 2 := len_of_pow
  have hm : len (2 ^ 32) (2 ^ 64) = 3 := len_of_pow
  have h1 : len (2 ^ 32) 1 = 1 := len_eq_one (by decide)
  have hmul : mul (ofNat 1) (ofNat (2 ^ 32)) = some (ofNat (2 ^ 32)) :=
    mul_ofNat (a := 1) (by rw [h1, hb]; decide) (fun h => absurd h (by decide)) fun _ => h1
  have hsquare : mul (ofNat (2 ^ 32)) (ofNat (2 ^ 32)) = some (ofNat (2 ^ 64)) :=
    mul_ofNat (a := 2 ^ 32) (b := 2 ^ 32) (by rw [hb]; decide) (fun h => absurd h (by decide))
      fun h => absurd h (by decide)
  obtain ⟨p, hzero, hval, hlength⟩ := mul_zero_length
  have hlt : cmp (ofNat (2 ^ 32)) (ofNat (2 ^ 64)) = .lt := by
    rw [cmp_ofNat]
    decide
  have hlt' : cmp p (ofNat (2 ^ 64)) = .lt := by
    rw [cmp, ofNat_length, hlength, hm, if_neg (by decide), if_pos (by decide)]
  rw [expMod, moveP_eq (by decide)] at hr
  obtain _ | fuel := fuel
  · cases hr
  rw [expModLoop_odd (by decide) hmul] at hr
  obtain ⟨x1, hx1, hr1⟩ := bind_eq_some_iff.1 hr
  rw [mod_of_lt hlt hx1] at hr1
  obtain _ | fuel := fuel
  · cases hr1
  rw [expModLoop_even (by decide) (by decide) hsquare] at hr1
  obtain ⟨y, hy, hr2⟩ := bind_eq_some_iff.1 hr1
  rw [mod_self hy] at hr2
  obtain _ | fuel := fuel
  · cases hr2
  rw [expModLoop_odd (by decide) hzero] at hr2
  obtain ⟨x2, hx2, hr3⟩ := bind_eq_some_iff.1 hr2
  rw [mod_of_lt hlt' hx2] at hr3
  obtain _ | fuel := fuel
  · cases hr3
  rw [expModLoop_zero] at hr3
  obtain rfl := some.inj hr3
  intro hnorm
  have hle := hnorm.minimal 1 le_rfl (by rw [hval]; decide)
  omega

/-- `2 ^ 64` modulo `2 ^ 33 - 1`, as the first power. -/
theorem expMod_lostBorrow
    (hr : expMod fuel (ofNat (2 ^ 64)) (ofNat 1) (ofNat (2 ^ 33 - 1)) = some r) :
    r = ofNat (2 ^ 32) := by
  have hb : len (2 ^ 32) (2 ^ 64) = 3 := len_of_pow
  have h1 : len (2 ^ 32) 1 = 1 := len_eq_one (by decide)
  have hmul : mul (ofNat 1) (ofNat (2 ^ 64)) = some (ofNat (2 ^ 64)) :=
    mul_ofNat (a := 1) (by rw [h1, hb]; decide) (fun h => absurd h (by decide)) fun _ => h1
  rw [expMod, moveP_eq (by decide)] at hr
  obtain _ | fuel := fuel
  · cases hr
  rw [expModLoop_odd (by decide) hmul] at hr
  obtain ⟨x, hx, hr1⟩ := bind_eq_some_iff.1 hr
  rw [mod_lostBorrow hx] at hr1
  obtain _ | fuel := fuel
  · cases hr1
  rw [expModLoop_zero] at hr1
  exact (some.inj hr1).symm

end BI

/-- A power that comes out wrong because of a lost borrow, and one that comes out with too many
words. -/
theorem expMod_ne :
    (∃ base exp m : BI, base.Normalized ∧ exp.Normalized ∧ m.Normalized ∧ 2 ≤ m.val ∧
      base.length ≤ 63 ∧ m.length ≤ 63 ∧ ∀ fuel r, expMod fuel base exp m = some r →
        r.val ≠ base.val ^ exp.val % m.val) ∧
    ∃ base exp m : BI, base.Normalized ∧ exp.Normalized ∧ m.Normalized ∧ 2 ≤ m.val ∧
      base.length ≤ 63 ∧ m.length ≤ 63 ∧ ∀ fuel r, expMod fuel base exp m = some r →
        ¬r.Normalized := by
  constructor
  · refine ⟨.ofNat (2 ^ 64), .ofNat 1, .ofNat (2 ^ 33 - 1), ?_, ?_, ?_, ?_, ?_, ?_, ?_⟩
    · exact normalized_of_lt (n := 3) (by decide) (by decide) (by decide)
    · exact normalized_of_lt le_rfl (by decide) (by decide)
    · exact normalized_of_lt (n := 2) (by decide) (by decide) (by decide)
    · rw [val_ofNat]
      decide
    · exact length_ofNat_le (n := 3) (by decide) (by decide) (by decide)
    · exact length_ofNat_le (n := 2) (by decide) (by decide) (by decide)
    · intro fuel r hr
      rw [expMod_lostBorrow hr, val_ofNat, val_ofNat, val_ofNat, val_ofNat]
      decide
  · refine ⟨.ofNat (2 ^ 32), .ofNat 3, .ofNat (2 ^ 64), ?_, ?_, ?_, ?_, ?_, ?_, ?_⟩
    · exact normalized_of_lt (n := 2) (by decide) (by decide) (by decide)
    · exact normalized_of_lt le_rfl (by decide) (by decide)
    · exact normalized_of_lt (n := 3) (by decide) (by decide) (by decide)
    · rw [val_ofNat]
      decide
    · exact length_ofNat_le (n := 2) (by decide) (by decide) (by decide)
    · exact length_ofNat_le (n := 3) (by decide) (by decide) (by decide)
    · exact fun fuel r hr => expMod_denormal hr

end OpenHMR
