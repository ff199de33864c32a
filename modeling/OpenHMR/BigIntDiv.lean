import OpenHMR.BigIntBounds
import OpenHMR.BigIntExp

/-!
# Product, remainder and quotient of big integers

`Mul`, and `Mod` and `Div` with an exact subtraction. The loops of `Mod` and `Div` subtract the
multiples of the divisor that the leading words give, and leave `Limbs.trialRest`.

`Mod` is right for all numbers (`mod_exact`). `Mul` does not trim the product with 0
(`mul_iff`). `Div` counts the last unit with `Add_p`, which adds in 32 bits and so loses the carry
out of the lowest word (`div_iff`).
-/

namespace OpenHMR

open Option Nat

open Limbs hiding value value_lt

namespace BI

variable {A B : BI} {a b m x l q : ℕ}

/-! ## Definitions -/

section Definitions

variable (sub : BI → BI → Option BI)

/-- The loop of `Mod`, of at most `fuel` rounds. -/
def checkedModLoop (B : BI) : ℕ → BI → Option BI
  | 0, _ => none
  | fuel + 1, p => do
    match ← checkedCmp p B with
    | .gt =>
      match ← checkedTrialQuotient p B with
      | some (len, div) => do
        let q ← checkedMul sub (moveP div) B
        let q ← checkedShiftWords q len
        let p ← sub p q
        checkedModLoop B fuel p
      | none => sub p B
    | _ => some p

/-- `Mod` : `A % B`. -/
def checkedMod (fuel : ℕ) (A B : BI) : Option BI := do
  let p ← checkedModLoop sub B fuel A
  let c ← checkedCmp p B
  return if c = .eq then init else p

/-- The words from `i` on that `Add_p` carries into. -/
def addPLoop (p : BI) : ℕ → ℕ → Option BI
  | 0, _ => none
  | n + 1, i =>
    if p.value i = 0xffffffff then addPLoop (p.set i 0) n (i + 1)
    else some { p.set i (p.value i + 1) with length := i + 1 }

/-- `Add_p` : `A + b` for a `b` that is not negative. -/
def addP (A : BI) (b : ℕ) : Option BI :=
  -- `b + p->m_ulValue[0]` is an `unsigned int`, also where it is assigned to 64 bits
  let sum := (b + A.value 0) % 2 ^ 32
  let p := A.set 0 sum
  if sum > 0xffffffff then addPLoop p (biMaxlen - 1) 1 else some p

/-- The loop of `Div`, of at most `fuel` rounds : the quotient so far and the rest. -/
def checkedDivLoop (B : BI) : ℕ → BI → BI → Option (BI × BI)
  | 0, _, _ => none
  | fuel + 1, p, q => do
    match ← checkedCmp q B with
    | .gt =>
      match ← checkedTrialQuotient q B with
      | some (len, div) => do
        let r ← checkedShiftWords (moveP div) len
        let p ← checkedAdd sub p r
        let r ← checkedMul sub r B
        let q ← sub q r
        checkedDivLoop B fuel p q
      | none => do
        let p ← addP p 1
        return (p, q)
    | _ => some (p, q)

/-- `Div` : `A / B`. -/
def checkedDiv (fuel : ℕ) (A B : BI) : Option BI := do
  let (p, q) ← checkedDivLoop sub B fuel init A
  let c ← checkedCmp q B
  let p ← if c = .eq then addP p 1 else some p
  return { p with sign := if A.sign + B.sign = 1 then 0 else 1 }

end Definitions

/-! ## Rounds -/

theorem len_mul_pow (ha : a ≠ 0) (l : ℕ) :
    len (2 ^ 32) (a * (2 ^ 32) ^ l) = len (2 ^ 32) a + l := by
  have hlength : (shiftWords (ofNat a) l).length = (ofNat a).length + l :=
    (shiftWords_spec (ofNat a) l).2.1
  rwa [shiftWords_ofNat ha] at hlength

/-- The leading words give a quotient of one word, whose multiple has no more words than `x`. -/
theorem exists_trialQuotient (hm : m ≠ 0) (hmx : m < x) (h : Lead (2 ^ 32) m x) :
    ∃ l q, trialQuotient (ofNat x) (ofNat m) = some (l, q) ∧ q ≠ 0 ∧ q < 2 ^ 32 ∧
      trial (2 ^ 32) m x = q * m * (2 ^ 32) ^ l ∧ trial (2 ^ 32) m x < x ∧
      len (2 ^ 32) m ≤ len (2 ^ 32) (q * m) ∧ len (2 ^ 32) (q * m) + l ≤ len (2 ^ 32) x := by
  rcases trialQuotient_spec hm hmx with ⟨l, q, heq, hq0, hq, htrial, hlt⟩ | ⟨hnone, -, -⟩
  · refine ⟨l, q, heq, hq0.ne', hq, htrial, hlt, len_mono (Nat.le_mul_of_pos_left m hq0), ?_⟩
    rw [← len_mul_pow (mul_ne_zero hq0.ne' hm), ← htrial]
    exact len_mono hlt.le
  · rw [trialQuotient_ofNat] at hnone
    split_ifs at hnone with h1 h2
    exact absurd h (not_or.2 ⟨h1, h2⟩)

theorem trialQuotient_eq_none (h : ¬Lead (2 ^ 32) m x) :
    trialQuotient (ofNat x) (ofNat m) = none := by
  obtain ⟨h1, h2⟩ := not_or.1 h
  rw [trialQuotient_ofNat, if_neg h1, if_neg h2]

theorem checkedCmp_ofNat (ha : len (2 ^ 32) a ≤ biMaxlen) (b : ℕ) :
    checkedCmp (ofNat a) (ofNat b) = some (compare a b) := by
  rw [checkedCmp_eq (by exact ha), cmp_ofNat]

theorem checkedTrialQuotient_ofNat (hm : len (2 ^ 32) m ≤ biMaxlen)
    (hx : len (2 ^ 32) x ≤ biMaxlen) :
    checkedTrialQuotient (ofNat x) (ofNat m) = some (trialQuotient (ofNat x) (ofNat m)) :=
  checkedTrialQuotient_eq hx hm (len_pos _ _) (len_pos _ _)

theorem checkedMul_ofNat (ha : a ≠ 0) (hb : b ≠ 0)
    (hlen : len (2 ^ 32) a + len (2 ^ 32) b < biMaxlen) :
    checkedMul exactSub (ofNat a) (ofNat b) = some (ofNat (a * b)) := by
  rw [checkedMul_eq _ (len_pos _ _) hlen]
  exact mul_ofNat hlen (fun h => absurd h ha) fun h => absurd h hb

theorem checkedShiftWords_ofNat (ha : a ≠ 0) (hlen : len (2 ^ 32) a + l ≤ biMaxlen) :
    checkedShiftWords (ofNat a) l = some (ofNat (a * (2 ^ 32) ^ l)) := by
  rw [checkedShiftWords_eq hlen, shiftWords_ofNat ha]

/-! ## Remainder -/

/-- A round of `Mod` with a quotient of the leading words. -/
theorem checkedModLoop_of_lead (hm : m ≠ 0) (hmx : m < x) (hx : len (2 ^ 32) x ≤ 127)
    (h : Lead (2 ^ 32) m x) (fuel : ℕ) :
    checkedModLoop exactSub (ofNat m) (fuel + 1) (ofNat x) =
      checkedModLoop exactSub (ofNat m) fuel (ofNat (x - trial (2 ^ 32) m x)) := by
  obtain ⟨l, q, heq, hq0, hq, htrial, hlt, hle, hfits⟩ := exists_trialQuotient hm hmx h
  have hlen1 : len (2 ^ 32) q = 1 := len_eq_one hq
  have hmax : biMaxlen = 129 := rfl
  rw [checkedModLoop, checkedCmp_ofNat (by omega), Nat.compare_eq_gt.2 hmx]
  simp only [bind_eq_bind, bind_some]
  rw [checkedTrialQuotient_ofNat (by omega) (by omega), heq]
  simp only [bind_some]
  rw [moveP_eq hq, checkedMul_ofNat hq0 hm (by omega), bind_some,
    checkedShiftWords_ofNat (mul_ne_zero hq0 hm) (by omega), bind_some, ← htrial,
    exactSub_ofNat hlt.le, bind_some]

/-- The last round of `Mod`. -/
theorem checkedModLoop_of_not_lead (hx : len (2 ^ 32) x ≤ 127)
    (h : ¬(m < x ∧ Lead (2 ^ 32) m x)) (fuel : ℕ) :
    checkedModLoop exactSub (ofNat m) (fuel + 1) (ofNat x) =
      some (ofNat (if m < x then x - m else x)) := by
  have hmax : biMaxlen = 129 := rfl
  rw [checkedModLoop, checkedCmp_ofNat (by omega)]
  rcases lt_trichotomy x m with hlt | rfl | hgt
  · rw [Nat.compare_eq_lt.2 hlt, if_neg (by omega)]
    rfl
  · rw [Nat.compare_eq_eq.2 rfl, if_neg (by omega)]
    rfl
  · have hmlen : len (2 ^ 32) m ≤ len (2 ^ 32) x := len_mono hgt.le
    rw [Nat.compare_eq_gt.2 hgt, if_pos hgt]
    rw [checkedTrialQuotient_ofNat (by omega) (by omega),
      trialQuotient_eq_none fun hlead => h ⟨hgt, hlead⟩]
    exact exactSub_ofNat hgt.le

/-- The loop of `Mod` leaves the rest of the trial multiples, without the divisor if it is
larger. -/
theorem checkedModLoop_ofNat (hm : m ≠ 0) (x : ℕ) : len (2 ^ 32) x ≤ 127 →
    ∃ n, ∀ fuel, n ≤ fuel → checkedModLoop exactSub (ofNat m) fuel (ofNat x) =
      some (ofNat (if m < trialRest (2 ^ 32) m x then trialRest (2 ^ 32) m x - m
        else trialRest (2 ^ 32) m x)) := by
  induction x using trial_induction (by decide : 1 < 2 ^ 32) hm with
  | hdone x h =>
    intro hx
    refine ⟨1, fun fuel hfuel => ?_⟩
    obtain ⟨k, rfl⟩ : ∃ k, fuel = k + 1 := ⟨fuel - 1, by omega⟩
    rw [checkedModLoop_of_not_lead hx h, trialRest_of_not_lead h]
  | hstep x hmx hlead ih =>
    intro hx
    obtain ⟨n, hn⟩ := ih ((len_mono (sub_le _ _)).trans hx)
    refine ⟨n + 1, fun fuel hfuel => ?_⟩
    obtain ⟨k, rfl⟩ : ∃ k, fuel = k + 1 := ⟨fuel - 1, by omega⟩
    rw [checkedModLoop_of_lead hm hmx hx hlead, hn k (by omega),
      trialRest_of_lead (by decide) hm hmx hlead]

/-- The remainder, with all bounds checked. -/
theorem checkedMod_ofNat (hm : m ≠ 0) (hx : len (2 ^ 32) x ≤ 127) :
    ∃ n, ∀ fuel, n ≤ fuel → checkedMod exactSub fuel (ofNat x) (ofNat m) =
      some (ofNat (x % m)) := by
  obtain ⟨n, hn⟩ := checkedModLoop_ofNat hm x hx
  obtain ⟨hle, hdvd, hlt, -⟩ := trialRest_spec (by decide : 1 < 2 ^ 32) hm x
  obtain ⟨c, hc⟩ := hdvd
  have hmod : trialRest (2 ^ 32) m x % m = x % m := by
    conv_rhs => rw [← Nat.add_sub_cancel' hle, hc, Nat.add_mul_mod_self_left]
  have hlen := (len_mono (B := 2 ^ 32) hle).trans hx
  refine ⟨n, fun fuel hfuel => ?_⟩
  rw [checkedMod, hn fuel hfuel, ← hmod]
  generalize trialRest (2 ^ 32) m x = r at hlt hlen
  have hmax : biMaxlen = 129 := rfl
  simp only [bind_eq_bind, bind_some]
  rcases lt_trichotomy r m with h | rfl | h
  · rw [if_neg (by omega), checkedCmp_ofNat (by omega), Nat.compare_eq_lt.2 h, Nat.mod_eq_of_lt h]
    rfl
  · rw [if_neg (by omega), checkedCmp_ofNat (by omega), Nat.compare_eq_eq.2 rfl, Nat.mod_self,
      ← init_eq]
    rfl
  · have hlen' : len (2 ^ 32) (r - m) ≤ 127 := (len_mono (sub_le _ _)).trans hlen
    rw [if_pos h, checkedCmp_ofNat (by omega), Nat.compare_eq_lt.2 (by omega),
      mod_eq_sub_mod h.le, mod_eq_of_lt (by omega)]
    rfl

/-- `Mod` with an exact subtraction, which is `none` if a number is subtracted from a smaller one :
the call returns, each product that it subtracts is at most what is left, no word outside of the
arrays is accessed, and the result is the remainder in normal form. -/
theorem mod_exact (A B : BI) (hA : A.Normalized) (hlen : A.length ≤ 127) (hB : B.Normalized)
    (hpos : 1 ≤ B.val) : ∃ n, ∀ fuel, n ≤ fuel →
      ∃ r, checkedMod exactSub fuel A B = some r ∧ r.Normalized ∧ r.val = A.val % B.val := by
  rw [hA.eq_ofNat] at hlen ⊢
  rw [hB.eq_ofNat]
  simp only [val_ofNat]
  obtain ⟨n, hn⟩ := checkedMod_ofNat (ne_of_gt hpos) hlen
  refine ⟨n, fun fuel hfuel => ⟨_, hn fuel hfuel, normalized_ofNat ?_, val_ofNat _⟩⟩
  exact ((len_mono (mod_le _ _)).trans hlen).trans (by decide)

/-- Two to the 64 modulo two to the 33 minus 1. -/
theorem mod_exact_two_words :
    (ofNat (2 ^ 64)).Normalized ∧ (ofNat (2 ^ 64)).length ≤ 127 ∧
      (ofNat (2 ^ 33 - 1)).Normalized ∧ ∃ n, ∀ fuel, n ≤ fuel →
        ∃ r, checkedMod exactSub fuel (ofNat (2 ^ 64)) (ofNat (2 ^ 33 - 1)) = some r ∧
          r.Normalized ∧ r.val = 2 ^ 31 := by
  have hlen : len (2 ^ 32) (2 ^ 64) ≤ 3 := len_le_of_lt_pow (by decide) (by decide)
  have hlen' : len (2 ^ 32) (2 ^ 33 - 1) ≤ 3 := len_le_of_lt_pow (by decide) (by decide)
  have hA := normalized_ofNat (hlen.trans (by decide : 3 ≤ biMaxlen))
  have hB := normalized_ofNat (hlen'.trans (by decide : 3 ≤ biMaxlen))
  have h := mod_exact _ _ hA (hlen.trans (by decide)) hB (by rw [val_ofNat]; decide)
  exact ⟨hA, hlen.trans (by decide), hB, h⟩

/-! ## Quotient -/

/-- The sum of two numbers is in normal form, apart from its sign. -/
theorem addWords_ofSign (σ τ : ℤ) (ha : len (2 ^ 32) a < biMaxlen)
    (hb : len (2 ^ 32) b < biMaxlen) :
    addWords (ofSign σ a) (ofSign τ b) = ofSign σ (a + b) := by
  obtain ⟨hsign, hclear, hval, hle, hlength⟩ := addWords_spec (A := ofSign σ a)
    (C := ofSign τ b) (clear_ofNat a) (clear_ofNat b) (Nat.max_lt.2 ⟨ha, hb⟩)
  rw [val_ofSign, val_ofSign] at hval
  have ha1 := len_pos (2 ^ 32) a
  simp only [ofSign_length] at hle hlength
  rw [eq_ofSign hclear, hval, hsign]
  · rfl
  · refine (len_eq (by omega) ?_ (addWords _ _).val_lt (by decide)).symm
    rcases hlength with hlength | ⟨hlength, hpow⟩
    · -- the longer number is at least the power of its leading word
      rw [hlength, hval]
      rcases le_total (len (2 ^ 32) b) (len (2 ^ 32) a) with h | h
      · rw [max_eq_left h]
        rcases Nat.eq_zero_or_pos a with rfl | hpos
        · exact .inl len_zero
        · exact .inr ((pow_le_of_ne_zero (ne_of_gt hpos)).trans (le_add_right _ _))
      · rw [max_eq_right h]
        rcases Nat.eq_zero_or_pos b with rfl | hpos
        · exact .inl len_zero
        · exact .inr ((pow_le_of_ne_zero (ne_of_gt hpos)).trans (le_add_left _ _))
    · exact .inr (by rw [hlength]; exact hpow)

/-- `Add_p` : the carry out of the lowest word is lost. -/
theorem addP_ofNat (a b : ℕ) :
    addP (ofNat a) b = some (ofNat (a / 2 ^ 32 * 2 ^ 32 + (a + b) % 2 ^ 32)) := by
  have hw : word (2 ^ 32) a 0 = a % 2 ^ 32 := word_zero _ _
  rw [addP, ofNat_value, hw, if_neg (by omega),
    ofNat_set_zero (n := a / 2 ^ 32 * 2 ^ 32 + (a + b) % 2 ^ 32)] <;> omega

/-- What `Add_p` makes of 1 more. -/
def addOne (a : ℕ) : ℕ :=
  a / 2 ^ 32 * 2 ^ 32 + (a + 1) % 2 ^ 32

theorem checkedAdd_ofNat (ha : len (2 ^ 32) a < biMaxlen) (hb : len (2 ^ 32) b < biMaxlen) :
    checkedAdd exactSub (ofNat a) (ofNat b) = some (ofNat (a + b)) := by
  rw [checkedAdd, if_pos (by rfl), checkedAddWords_eq ha.le hb.le]
  exact congrArg some (addWords_ofSign 1 1 ha hb)

/-- A round of `Div` with a quotient of the leading words. -/
theorem checkedDivLoop_of_lead (hm : m ≠ 0) (hmx : m < x) (hx : len (2 ^ 32) x ≤ 127)
    (ha : len (2 ^ 32) a ≤ 127) (h : Lead (2 ^ 32) m x) (fuel : ℕ) :
    checkedDivLoop exactSub (ofNat m) (fuel + 1) (ofNat a) (ofNat x) =
      checkedDivLoop exactSub (ofNat m) fuel (ofNat (a + trial (2 ^ 32) m x / m))
        (ofNat (x - trial (2 ^ 32) m x)) := by
  obtain ⟨l, q, heq, hq0, hq, htrial, hlt, hle, hfits⟩ := exists_trialQuotient hm hmx h
  have hlen1 : len (2 ^ 32) q = 1 := len_eq_one hq
  have hmax : biMaxlen = 129 := rfl
  have hcomm : q * (2 ^ 32) ^ l * m = trial (2 ^ 32) m x := by
    rw [htrial]
    ring
  have hquot : trial (2 ^ 32) m x / m = q * (2 ^ 32) ^ l := by
    rw [← hcomm, Nat.mul_div_cancel _ (pos_of_ne_zero hm)]
  have hlenr : len (2 ^ 32) (q * (2 ^ 32) ^ l) = 1 + l := by rw [len_mul_pow hq0, hlen1]
  have hr0 : q * (2 ^ 32) ^ l ≠ 0 := Nat.mul_ne_zero hq0 (Nat.pow_pos (by decide)).ne'
  rw [checkedDivLoop, checkedCmp_ofNat (by omega), Nat.compare_eq_gt.2 hmx]
  simp only [bind_eq_bind, bind_some]
  rw [checkedTrialQuotient_ofNat (by omega) (by omega), heq]
  simp only [bind_some]
  rw [moveP_eq hq, checkedShiftWords_ofNat hq0 (by omega), bind_some,
    checkedAdd_ofNat (by omega) (by omega), bind_some,
    checkedMul_ofNat hr0 hm (by omega), bind_some, hcomm, exactSub_ofNat hlt.le,
    bind_some, hquot]

/-- The last round of `Div`. -/
theorem checkedDivLoop_of_not_lead (hx : len (2 ^ 32) x ≤ 127)
    (h : ¬(m < x ∧ Lead (2 ^ 32) m x)) (a fuel : ℕ) :
    checkedDivLoop exactSub (ofNat m) (fuel + 1) (ofNat a) (ofNat x) =
      some (ofNat (if m < x then addOne a else a), ofNat x) := by
  have hmax : biMaxlen = 129 := rfl
  rw [checkedDivLoop, checkedCmp_ofNat (by omega)]
  rcases lt_trichotomy x m with hlt | rfl | hgt
  · rw [Nat.compare_eq_lt.2 hlt, if_neg (by omega)]
    rfl
  · rw [Nat.compare_eq_eq.2 rfl, if_neg (by omega)]
    rfl
  · have hmlen : len (2 ^ 32) m ≤ len (2 ^ 32) x := len_mono hgt.le
    rw [Nat.compare_eq_gt.2 hgt, if_pos hgt]
    simp only [bind_eq_bind, bind_some]
    rw [checkedTrialQuotient_ofNat (by omega) (by omega),
      trialQuotient_eq_none fun hlead => h ⟨hgt, hlead⟩]
    simp only [bind_some, addP_ofNat]
    rfl

/-- The loop of `Div` has counted the trial multiples, and the divisor if it is less than the
rest. -/
theorem checkedDivLoop_ofNat (hm : m ≠ 0) (x : ℕ) : ∀ a, len (2 ^ 32) (a * m + x) ≤ 127 →
    ∃ n, ∀ fuel, n ≤ fuel → checkedDivLoop exactSub (ofNat m) fuel (ofNat a) (ofNat x) =
      some (ofNat (if m < trialRest (2 ^ 32) m x then
          addOne (a + (x - trialRest (2 ^ 32) m x) / m)
        else a + (x - trialRest (2 ^ 32) m x) / m), ofNat (trialRest (2 ^ 32) m x)) := by
  induction x using trial_induction (by decide : 1 < 2 ^ 32) hm with
  | hdone x h =>
    intro a hlen
    refine ⟨1, fun fuel hfuel => ?_⟩
    obtain ⟨k, rfl⟩ : ∃ k, fuel = k + 1 := ⟨fuel - 1, by omega⟩
    rw [checkedDivLoop_of_not_lead ((len_mono (le_add_left _ _)).trans hlen) h,
      trialRest_of_not_lead h, Nat.sub_self, Nat.zero_div, Nat.add_zero]
  | hstep x hmx hlead ih =>
    intro a hlen
    obtain ⟨-, hlt⟩ := trial_pos_and_lt (by decide : 1 < 2 ^ 32) hm hmx hlead
    obtain ⟨c, hc⟩ := dvd_trial (2 ^ 32) m x
    have hpos := pos_of_ne_zero hm
    have hquot : trial (2 ^ 32) m x / m = c := by rw [hc, Nat.mul_div_cancel_left c hpos]
    have hsum : (a + c) * m + (x - trial (2 ^ 32) m x) = a * m + x := by
      rw [add_mul, mul_comm c, ← hc]
      omega
    have ha : a ≤ a * m + x := Nat.le_add_right_of_le (Nat.le_mul_of_pos_right a hpos)
    obtain ⟨n, hn⟩ := ih (a + c) (hsum ▸ hlen)
    obtain ⟨hle, -⟩ := trialRest_spec (by decide : 1 < 2 ^ 32) hm (x - trial (2 ^ 32) m x)
    refine ⟨n + 1, fun fuel hfuel => ?_⟩
    obtain ⟨k, rfl⟩ : ∃ k, fuel = k + 1 := ⟨fuel - 1, by omega⟩
    rw [checkedDivLoop_of_lead hm hmx ((len_mono (le_add_left _ _)).trans hlen)
      ((len_mono ha).trans hlen) hlead, hquot, hn k (by omega),
      trialRest_of_lead (by decide) hm hmx hlead]
    have hcount : a + c + (x - trial (2 ^ 32) m x -
        trialRest (2 ^ 32) m (x - trial (2 ^ 32) m x)) / m =
        a + (x - trialRest (2 ^ 32) m (x - trial (2 ^ 32) m x)) / m := by
      rw [add_assoc, ← mul_add_div hpos, ← hc]
      congr 2
      omega
    rw [hcount]

/-- `Div` has counted the trial multiples, and the divisor if it is not more than the rest. -/
theorem checkedDiv_ofNat (hm : m ≠ 0) (hx : len (2 ^ 32) x ≤ 127) :
    ∃ n, ∀ fuel, n ≤ fuel → checkedDiv exactSub fuel (ofNat x) (ofNat m) =
      some (ofNat (if m ≤ trialRest (2 ^ 32) m x then addOne ((x - trialRest (2 ^ 32) m x) / m)
        else (x - trialRest (2 ^ 32) m x) / m)) := by
  obtain ⟨n, hn⟩ := checkedDivLoop_ofNat hm x 0 (by rwa [zero_mul, zero_add])
  obtain ⟨hle, -, -, -⟩ := trialRest_spec (by decide : 1 < 2 ^ 32) hm x
  have hlen := (len_mono (B := 2 ^ 32) hle).trans hx
  refine ⟨n, fun fuel hfuel => ?_⟩
  rw [checkedDiv, init_eq, hn fuel hfuel, zero_add]
  generalize (x - trialRest (2 ^ 32) m x) / m = c
  generalize trialRest (2 ^ 32) m x = r at hlen
  have hmax : biMaxlen = 129 := rfl
  simp only [bind_eq_bind, bind_some, checkedCmp_ofNat (a := r) (by omega) m]
  rcases lt_trichotomy r m with h | rfl | h
  · rw [if_neg (not_lt.2 h.le), if_neg (not_le.2 h), Nat.compare_eq_lt.2 h]
    rfl
  · rw [if_neg (lt_irrefl _), if_pos le_rfl, Nat.compare_eq_eq.2 rfl, if_pos rfl, addP_ofNat]
    rfl
  · rw [if_pos h, if_pos h.le, Nat.compare_eq_gt.2 h]
    rfl

/-- The quotient, from the trial multiples that have been counted. -/
theorem div_eq_of_trialRest (hm : m ≠ 0) (x : ℕ) : x / m = (x - trialRest (2 ^ 32) m x) / m +
    if m ≤ trialRest (2 ^ 32) m x then 1 else 0 := by
  obtain ⟨hle, ⟨c, hc⟩, hlt, -⟩ := trialRest_spec (by decide : 1 < 2 ^ 32) hm x
  generalize trialRest (2 ^ 32) m x = r at hle hc hlt ⊢
  have hpos := pos_of_ne_zero hm
  have hx : x = m * c + r := by omega
  rw [hc, Nat.mul_div_cancel_left c hpos, hx, Nat.mul_add_div hpos]
  split_ifs with h
  · rw [Nat.div_eq_sub_div hpos h, Nat.div_eq_of_lt (by omega)]
  · rw [Nat.div_eq_of_lt (by omega)]

/-- A last unit that is added to a quotient with a full lowest word takes that word away. -/
theorem checkedDiv_lostCarry (hm : m ≠ 0) (hx : len (2 ^ 32) x ≤ 127)
    (h : m ≤ trialRest (2 ^ 32) m x) (hdvd : 2 ^ 32 ∣ x / m) :
    ∃ n, ∀ fuel, n ≤ fuel → ∃ r, checkedDiv exactSub fuel (ofNat x) (ofNat m) = some r ∧
      r.val + 2 ^ 32 = x / m := by
  obtain ⟨n, hn⟩ := checkedDiv_ofNat hm hx
  have hdiv := div_eq_of_trialRest hm x
  simp only [if_pos h] at hn hdiv
  refine ⟨n, fun fuel hfuel => ⟨_, hn fuel hfuel, ?_⟩⟩
  rw [val_ofNat, addOne]
  omega

/-- In all other cases the quotient is right. -/
theorem checkedDiv_exact (hm : m ≠ 0) (hx : len (2 ^ 32) x ≤ 127)
    (h : m ≤ trialRest (2 ^ 32) m x → ¬2 ^ 32 ∣ x / m) :
    ∃ n, ∀ fuel, n ≤ fuel →
      checkedDiv exactSub fuel (ofNat x) (ofNat m) = some (ofNat (x / m)) := by
  obtain ⟨n, hn⟩ := checkedDiv_ofNat hm hx
  have hdiv := div_eq_of_trialRest hm x
  refine ⟨n, fun fuel hfuel => ?_⟩
  rw [hn fuel hfuel, addOne]
  split_ifs at hdiv ⊢ with hle
  · have hfull := h hle
    exact congrArg (some ∘ ofNat) (by omega)
  · rw [hdiv]
    rfl

/-- `Div` with an exact subtraction returns the quotient in normal form if and only if a last unit
is not added to a quotient whose lowest word is full. -/
theorem div_iff (A B : BI) (hA : A.Normalized) (hlen : A.length ≤ 127) (hB : B.Normalized)
    (hpos : 1 ≤ B.val) :
    (∃ n, ∀ fuel, n ≤ fuel → ∃ r, checkedDiv exactSub fuel A B = some r ∧ r.Normalized ∧
      r.val = A.val / B.val) ↔
    (B.val ≤ trialRest (2 ^ 32) B.val A.val → ¬2 ^ 32 ∣ A.val / B.val) := by
  rw [hA.eq_ofNat] at hlen ⊢
  rw [hB.eq_ofNat]
  simp only [val_ofNat]
  have hm : B.val ≠ 0 := ne_of_gt hpos
  constructor
  · rintro ⟨k, hk⟩ hle hdvd
    obtain ⟨n, hn⟩ := checkedDiv_lostCarry hm hlen hle hdvd
    obtain ⟨r, hr, -, hval⟩ := hk (max k n) (le_max_left k n)
    obtain ⟨s, hs, hlost⟩ := hn (max k n) (le_max_right k n)
    obtain rfl : r = s := some.inj (hr.symm.trans hs)
    omega
  · intro h
    obtain ⟨n, hn⟩ := checkedDiv_exact hm hlen h
    refine ⟨n, fun fuel hfuel => ⟨_, hn fuel hfuel, normalized_ofNat ?_, val_ofNat _⟩⟩
    exact ((len_mono (div_le_self _ _)).trans hlen).trans (by decide)

/-- A number of four words by one of two. -/
theorem div_iff_fourWords :
    (ofNat (2 ^ 96 + 7)).Normalized ∧ (ofNat (2 ^ 33 + 1)).Normalized ∧ ∃ n, ∀ fuel, n ≤ fuel →
      ∃ r, checkedDiv exactSub fuel (ofNat (2 ^ 96 + 7)) (ofNat (2 ^ 33 + 1)) = some r ∧
        r.Normalized ∧ r.val = 2 ^ 63 - 2 ^ 30 := by
  have hA : (ofNat (2 ^ 96 + 7)).Normalized :=
    normalized_of_lt (n := 4) (by decide) (by decide) (by decide)
  have hB : (ofNat (2 ^ 33 + 1)).Normalized :=
    normalized_of_lt (n := 2) (by decide) (by decide) (by decide)
  have h := div_iff _ _ hA (length_ofNat_le (n := 4) (by decide) (by decide) (by decide)) hB
    (by rw [val_ofNat]; decide)
  simp only [val_ofNat] at h
  exact ⟨hA, hB, h.2 fun _ => by decide⟩

/-- Two to the 32 by 1 is 0 : the multiples that the leading words give leave 1. -/
theorem div_lostCarry : ∃ n, ∀ fuel, n ≤ fuel → ∃ r,
    checkedDiv exactSub fuel (ofNat (2 ^ 32)) (ofNat 1) = some r ∧ r.val = 0 := by
  have hlen : len (2 ^ 32) (2 ^ 32) ≤ 2 := len_le_of_lt_pow (by decide) (by decide)
  obtain ⟨-, -, -, hrest⟩ := trialRest_spec (by decide : 1 < 2 ^ 32) one_ne_zero (2 ^ 32)
  obtain ⟨n, hn⟩ := checkedDiv_lostCarry one_ne_zero (hlen.trans (by decide))
    (hrest (by decide)) (by decide)
  refine ⟨n, fun fuel hfuel => ?_⟩
  obtain ⟨r, hr, hval⟩ := hn fuel hfuel
  exact ⟨r, hr, by omega⟩

/-! ## Product -/

/-- The least number of words, and 0 in the other words, whatever the sign. -/
structure Trimmed (A : BI) : Prop where
  sign : A.sign = 0 ∨ A.sign = 1
  length_pos : 1 ≤ A.length
  length_le : A.length ≤ biMaxlen
  minimal : ∀ n, 1 ≤ n → A.val < (2 ^ 32) ^ n → A.length ≤ n
  clear : A.Clear

/-- The number, with its sign. -/
def toInt (A : BI) : ℤ :=
  if A.sign = 1 then A.val else -A.val

theorem Trimmed.length_eq (h : A.Trimmed) : A.length = len (2 ^ 32) A.val :=
  le_antisymm (h.minimal _ (len_pos _ _) (lt_pow_len (by decide) _))
    (len_le_of_lt_pow h.length_pos A.val_lt)

/-- The signs of a product. -/
theorem toInt_mul (hA : A.sign = 0 ∨ A.sign = 1) (hB : B.sign = 0 ∨ B.sign = 1) {p : BI}
    (hsign : p.sign = if A.sign + B.sign = 1 then 0 else 1) (hval : p.val = A.val * B.val) :
    p.toInt = A.toInt * B.toInt := by
  unfold toInt
  rw [hsign, hval]
  rcases hA with hA | hA <;> rcases hB with hB | hB <;> simp [hA, hB]

/-- `Mul` returns the product with the least number of words if and only if no number of several
words is multiplied by 0. -/
theorem mul_iff (A B : BI) (hA : A.Trimmed) (hB : B.Trimmed) (hlen : A.length + B.length ≤ 128) :
    (∃ p, mul A B = some p ∧ p.toInt = A.toInt * B.toInt ∧ p.Trimmed) ↔
      (A.val = 0 ∨ B.val = 0 → A.length = 1 ∧ B.length = 1) := by
  obtain ⟨p, heq, hsign, hclear, hval, hlength⟩ :=
    mul_spec hA.length_pos hB.length_pos (lt_succ_of_le hlen : _ < biMaxlen)
  have hA1 := hA.length_pos
  have hB1 := hB.length_pos
  constructor
  · rintro ⟨p', heq', -, htrim⟩ hzero
    obtain rfl : p = p' := some.inj (heq.symm.trans heq')
    have hp0 : p.val = 0 := by
      rw [hval]
      exact Nat.mul_eq_zero.2 hzero
    have hone := htrim.minimal 1 le_rfl (by rw [hp0]; decide)
    omega
  · intro hzero
    have hwords := length_mul hA.length_eq hB.length_eq hval hzero hlength
    refine ⟨p, heq, toInt_mul hA.sign hB.sign hsign hval, ?_, by omega, ?_, ?_, hclear⟩
    · rw [hsign]
      split_ifs
      exacts [.inl rfl, .inr rfl]
    · rcases hlength with h | ⟨h, -⟩ <;> exact h.le.trans (by have : biMaxlen = 129 := rfl; omega)
    · intro n hn hlt
      rw [hwords]
      exact len_le_of_lt_pow hn hlt

theorem trimmed_ofSign {σ : ℤ} (hσ : σ = 0 ∨ σ = 1) (h : len (2 ^ 32) a ≤ biMaxlen) :
    (ofSign σ a).Trimmed :=
  ⟨hσ, len_pos _ _, h, (normalized_ofNat h).minimal, clear_ofNat a⟩

theorem trimmed_ofNat (h : len (2 ^ 32) a ≤ biMaxlen) : (ofNat a).Trimmed :=
  trimmed_ofSign (.inr rfl) h

/-- Numbers of three words and of two. -/
theorem mul_iff_threeWords : (ofNat (2 ^ 64 + 3)).Trimmed ∧ (ofNat (2 ^ 32 + 5)).Trimmed ∧
    ∃ p, mul (ofNat (2 ^ 64 + 3)) (ofNat (2 ^ 32 + 5)) = some p ∧
      p.toInt = (2 ^ 64 + 3) * (2 ^ 32 + 5) ∧ p.Trimmed := by
  have hlA : len (2 ^ 32) (2 ^ 64 + 3) = 3 := len_of_pow
  have hlB : len (2 ^ 32) (2 ^ 32 + 5) = 2 := len_of_pow
  have hA := trimmed_ofNat (a := 2 ^ 64 + 3) (by rw [hlA]; decide)
  have hB := trimmed_ofNat (a := 2 ^ 32 + 5) (by rw [hlB]; decide)
  have h := (mul_iff _ _ hA hB (by rw [ofNat_length, ofNat_length, hlA, hlB]; decide)).2
    fun h0 => absurd h0 (by rw [val_ofNat, val_ofNat]; decide)
  exact ⟨hA, hB, by simpa [toInt] using h⟩

/-- Two to the 32 times 0 has two words. -/
theorem mul_zero_untrimmed : ¬∃ p, mul (ofNat (2 ^ 32)) (ofNat 0) = some p ∧ p.Trimmed := by
  rintro ⟨p, heq, htrim⟩
  have hlen : len (2 ^ 32) (2 ^ 32) = 2 := len_eq (by decide) (.inr (by decide)) (by decide)
    (by decide)
  obtain ⟨p', heq', -, -, hval, hlength⟩ :=
    mul_spec (A := ofNat (2 ^ 32)) (C := ofNat 0) (len_pos _ _) (len_pos _ _)
      (by rw [ofNat_length, ofNat_length, hlen, len_zero]; decide)
  obtain rfl : p' = p := some.inj (heq'.symm.trans heq)
  have hone := htrim.minimal 1 le_rfl (by rw [hval]; decide)
  rw [ofNat_length, ofNat_length, hlen, len_zero] at hlength
  omega

end BI

end OpenHMR
