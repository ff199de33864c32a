import OpenHMR.BigInt

/-!
# Arithmetic of big integers

A big integer in normal form (`BI.Normalized`) is the one of its value, `BI.ofNat`, so what the
operations do is said by equations : the comparison of `ofNat a` and `ofNat b` is that of `a` and
`b` (`BI.cmp_ofNat`), and their product is `ofNat (a * b)` unless a number of several words is
multiplied by 0 (`BI.mul_ofNat`). `Sub` loses the borrow that a word 0 should pass on; the
difference is right if there is none (`Limbs.BorrowsWell`, `BI.sub_ofNat`).
-/

namespace Limbs

/-- No word 0 of `a` is borrowed from when `b` is subtracted. -/
def BorrowsWell (B a b : ℕ) : Prop :=
  ∀ i, a % B ^ i < b % B ^ i → word B a i ≠ 0

end Limbs

namespace OpenHMR

open Nat
open Limbs hiding value value_lt

namespace BI

variable {A C p q : BI} {a b i n : ℕ}

theorem ext' (hsign : A.sign = C.sign) (hlength : A.length = C.length)
    (hvalue : ∀ i, A.value i = C.value i) : A = C := by
  obtain ⟨_, _, _, _⟩ := C
  obtain rfl : _ = _ := hsign
  obtain rfl : _ = _ := hlength
  obtain rfl : _ = _ := funext hvalue
  rfl

theorem set_value (p : BI) (i x j : ℕ) :
    (p.set i x).value j = if j = i then x % 2 ^ 32 else p.value j := rfl

/-- A round of a loop that writes the words `f` into the array of `p`. -/
theorem set_value_succ {f : ℕ → ℕ} {x : ℕ}
    (h : ∀ j, q.value j = if j < n then f j else p.value j) (hx : x % 2 ^ 32 = f n) (j : ℕ) :
    (q.set n x).value j = if j < n + 1 then f j else p.value j := by
  rw [set_value, h]
  rcases lt_trichotomy j n with hj | rfl | hj
  · rw [if_neg (by omega), if_pos hj, if_pos (by omega)]
  · rw [if_pos rfl, if_pos (by omega), hx]
  · rw [if_neg (by omega), if_neg (by omega), if_neg (by omega)]

/-! ## Normal form -/

/-- The number that the words in use make. -/
def val (A : BI) : ℕ :=
  Limbs.value (2 ^ 32) A.value A.length

/-- The words that are not in use are 0. -/
def Clear (A : BI) : Prop :=
  ∀ i, A.length ≤ i → A.value i = 0

/-- The normal form : not negative, the least number of words, and 0 in the other words. -/
structure Normalized (A : BI) : Prop where
  sign : A.sign = 1
  length_pos : 1 ≤ A.length
  length_le : A.length ≤ biMaxlen
  minimal : ∀ n, 1 ≤ n → A.val < (2 ^ 32) ^ n → A.length ≤ n
  clear : A.Clear

/-- The normal form of a number. -/
def ofNat (a : ℕ) : BI where
  sign := 1
  length := len (2 ^ 32) a
  value := word (2 ^ 32) a
  value_lt := Limbs.word_lt (by decide) a

@[simp] theorem ofNat_sign (a : ℕ) : (ofNat a).sign = 1 := rfl

@[simp] theorem ofNat_length (a : ℕ) : (ofNat a).length = len (2 ^ 32) a := rfl

@[simp] theorem ofNat_value (a : ℕ) : (ofNat a).value = word (2 ^ 32) a := rfl

theorem val_lt (A : BI) : A.val < (2 ^ 32) ^ A.length :=
  Limbs.value_lt fun i _ => A.value_lt i

theorem Clear.value_eq (h : A.Clear) (hn : A.length ≤ n) :
    Limbs.value (2 ^ 32) A.value n = A.val := by
  obtain ⟨k, rfl⟩ := Nat.exists_eq_add_of_le hn
  exact value_eq_of_zero h k

theorem clear_ofNat (a : ℕ) : (ofNat a).Clear := fun _ hi =>
  word_eq_zero (by decide) hi

@[simp] theorem val_ofNat (a : ℕ) : (ofNat a).val = a := by
  rw [val, ofNat_value, ofNat_length, value_word, mod_eq_of_lt (lt_pow_len (by decide) a)]

/-- The normal form of a number, with another sign. -/
def ofSign (σ : ℤ) (a : ℕ) : BI :=
  { ofNat a with sign := σ }

@[simp] theorem ofSign_sign (σ : ℤ) (a : ℕ) : (ofSign σ a).sign = σ := rfl

@[simp] theorem ofSign_length (σ : ℤ) (a : ℕ) : (ofSign σ a).length = len (2 ^ 32) a := rfl

@[simp] theorem val_ofSign (σ : ℤ) (a : ℕ) : (ofSign σ a).val = a := val_ofNat a

/-- A number is in normal form, apart from its sign, if its length is right. -/
theorem eq_ofSign (hclear : A.Clear) (hlen : A.length = len (2 ^ 32) A.val) :
    A = ofSign A.sign A.val := by
  refine ext' rfl hlen fun i => ?_
  rcases lt_or_ge i A.length with hi | hi
  · exact (word_value A.value_lt hi).symm
  · rw [hclear i hi]
    exact (clear_ofNat A.val i (hlen.symm.le.trans hi)).symm

theorem eq_ofNat (hsign : A.sign = 1) (hclear : A.Clear) (hlen : A.length = len (2 ^ 32) A.val) :
    A = ofNat A.val := by
  have h := eq_ofSign hclear hlen
  rwa [hsign] at h

theorem Normalized.eq_ofNat (h : A.Normalized) : A = ofNat A.val := by
  refine BI.eq_ofNat h.sign h.clear (le_antisymm ?_ ?_)
  · exact h.minimal _ (len_pos _ _) (lt_pow_len (by decide) _)
  · exact len_le_of_lt_pow h.length_pos A.val_lt

theorem normalized_ofNat (h : len (2 ^ 32) a ≤ biMaxlen) : (ofNat a).Normalized where
  sign := rfl
  length_pos := len_pos _ _
  length_le := h
  minimal := fun n hn hlt => len_le_of_lt_pow hn (by rwa [val_ofNat] at hlt)
  clear := clear_ofNat a

theorem init_eq : init = ofNat 0 :=
  ext' rfl rfl fun i => by
    rw [ofNat_value, word, Nat.zero_div]
    rfl

theorem moveP_eq (h : b < 2 ^ 32) : moveP b = ofNat b := by
  have hlen : len (2 ^ 32) b = 1 :=
    len_eq le_rfl (.inl rfl) (by rwa [pow_one]) (by decide)
  rw [moveP, if_neg (by omega)]
  refine ext' rfl hlen.symm fun i => ?_
  rw [set_value, ofNat_value]
  split_ifs with hi
  · rw [hi, word_zero]
  · exact (word_eq_zero (by decide) (by omega)).symm

/-- A number whose lowest word is another one. -/
theorem ofNat_set_zero {x : ℕ} (h : n / 2 ^ 32 = a / 2 ^ 32) (hx : x % 2 ^ 32 = n % 2 ^ 32) :
    (ofNat a).set 0 x = ofNat n := by
  refine ext' rfl ?_ fun i => ?_
  · change Nat.log (2 ^ 32) a + 1 = Nat.log (2 ^ 32) n + 1
    rcases lt_or_ge a (2 ^ 32) with ha | ha
    · rw [log_of_lt ha, log_of_lt (by omega)]
    · rw [log_of_one_lt_of_le (by decide) ha, ← h, ← log_of_one_lt_of_le (by decide) (by omega)]
  · rw [set_value, ofNat_value, ofNat_value, hx]
    cases i with
    | zero => rw [if_pos rfl, word_zero]
    | succ i =>
      rw [if_neg (Nat.succ_ne_zero i), word, word, pow_succ', ← Nat.div_div_eq_div_mul,
        ← Nat.div_div_eq_div_mul, h]

/-! ## Comparison -/

/-- The leading words decide. -/
theorem cmpWords_eq (A C : BI) : ∀ n : ℕ, cmpWords A C n =
    compare (Limbs.value (2 ^ 32) A.value n) (Limbs.value (2 ^ 32) C.value n)
  | 0 => rfl
  | n + 1 => by
    have hA : Limbs.value (2 ^ 32) A.value n < (2 ^ 32) ^ n :=
      Limbs.value_lt fun i _ => A.value_lt i
    have hC : Limbs.value (2 ^ 32) C.value n < (2 ^ 32) ^ n :=
      Limbs.value_lt fun i _ => C.value_lt i
    rw [cmpWords, cmpWords_eq A C n, Limbs.value, Limbs.value]
    split_ifs with hgt hlt
    · have hmul := mul_le_mul_right ((2 ^ 32) ^ n) (succ_le_of_lt hgt)
      rw [succ_mul] at hmul
      exact (Nat.compare_eq_gt.2 (by omega)).symm
    · have hmul := mul_le_mul_right ((2 ^ 32) ^ n) (succ_le_of_lt hlt)
      rw [succ_mul] at hmul
      exact (Nat.compare_eq_lt.2 (by omega)).symm
    · rw [show A.value n = C.value n by omega]
      simp only [compare_eq_ite_lt, add_lt_add_iff_right]

theorem cmp_ofSign (σ τ : ℤ) (a b : ℕ) : cmp (ofSign σ a) (ofSign τ b) = compare a b := by
  rw [cmp, ofSign_length, ofSign_length]
  split_ifs with hgt hlt
  · refine (Nat.compare_eq_gt.2 (Nat.lt_of_not_le fun hle => ?_)).symm
    exact Nat.not_le.2 hgt (len_mono hle)
  · refine (Nat.compare_eq_lt.2 (Nat.lt_of_not_le fun hle => ?_)).symm
    exact Nat.not_le.2 hlt (len_mono hle)
  · have hlen : len (2 ^ 32) a = len (2 ^ 32) b := by omega
    have ha := val_ofSign σ a
    have hb := val_ofSign τ b
    rw [val, ofSign_length] at ha hb
    rw [cmpWords_eq, ha, hlen, hb]

theorem cmp_ofNat (a b : ℕ) : cmp (ofNat a) (ofNat b) = compare a b :=
  cmp_ofSign 1 1 a b

/-! ## Addition -/

/-- The sums of the words with the carry. -/
theorem addLoop_spec (A C : BI) : ∀ n : ℕ,
    (addLoop A C n).2 = carry (2 ^ 32) (fun i => A.value i + C.value i) n ∧
    (addLoop A C n).2 ≤ 1 ∧ (addLoop A C n).1.sign = A.sign ∧
    (addLoop A C n).1.length = A.length ∧
    ∀ j, (addLoop A C n).1.value j = if j < n then
      (A.value j + C.value j + carry (2 ^ 32) (fun i => A.value i + C.value i) j) % 2 ^ 32
      else A.value j
  | 0 => ⟨rfl, zero_le 1, rfl, rfl, fun _ => rfl⟩
  | n + 1 => by
    obtain ⟨hcarry, hle, hsign, hlength, hvalue⟩ := addLoop_spec A C n
    have hA := A.value_lt n
    have hC := C.value_lt n
    rw [addLoop]
    dsimp only
    have hn : (addLoop A C n).1.value n = A.value n := by rw [hvalue, if_neg (lt_irrefl n)]
    refine ⟨?_, ?_, hsign, hlength, set_value_succ hvalue ?_⟩
    · rw [carry, hn, hcarry]
      split_ifs with h <;> omega
    · split_ifs <;> omega
    · rw [hn, hcarry, add_comm (C.value n)]

/-- The sum of two numbers, and how many words it has. -/
theorem addWords_spec (hA : A.Clear) (hC : C.Clear) (hlen : max A.length C.length < biMaxlen) :
    (addWords A C).sign = A.sign ∧ (addWords A C).Clear ∧ (addWords A C).val = A.val + C.val ∧
      max A.length C.length ≤ (addWords A C).length ∧
      ((addWords A C).length = max A.length C.length ∨
        (addWords A C).length = max A.length C.length + 1 ∧
        (2 ^ 32) ^ max A.length C.length ≤ (addWords A C).val) := by
  obtain ⟨L, hL⟩ : ∃ L, L = max A.length C.length := ⟨_, rfl⟩
  have hif : (if A.length < C.length then C.length else A.length) = L := by
    split_ifs <;> omega
  rw [← hL] at hlen ⊢
  rw [addWords]
  dsimp only
  rw [hif]
  obtain ⟨hcarry, hle, hsign, hlength, hvalue⟩ := addLoop_spec { A with length := L } C L
  obtain ⟨c, hc⟩ : ∃ c, c = carry (2 ^ 32) (fun i => A.value i + C.value i) L := ⟨_, rfl⟩
  rw [hcarry, ← hc] at hle
  rw [if_pos (by rw [hlength]; exact hlen), hcarry, hlength, ← hc]
  have hsum : A.val + C.val = Limbs.value (2 ^ 32) (fun i =>
      (A.value i + C.value i + carry (2 ^ 32) (fun i => A.value i + C.value i) i) % 2 ^ 32) L +
        c * (2 ^ 32) ^ L := by
    rw [hc, value_carry, value_add, hA.value_eq (by omega), hC.value_eq (by omega)]
  -- the words of the sum, with the carry above them
  obtain ⟨r, hr⟩ : ∃ r : BI, r = { (addLoop { A with length := L } C L).1.set L c with
    length := L + c } := ⟨_, rfl⟩
  rw [← hr]
  have hr_length : r.length = L + c := by rw [hr]
  have hr_value : ∀ j, r.value j = if j = L then c else if j < L then
      (A.value j + C.value j + carry (2 ^ 32) (fun i => A.value i + C.value i) j) % 2 ^ 32
      else A.value j := by
    intro j
    rw [hr]
    rw [set_value, hvalue, mod_eq_of_lt (by omega : c < 2 ^ 32)]
  have hclear : r.Clear := by
    intro i hi
    rw [hr_value]
    split_ifs with h1 h2
    · omega
    · omega
    · exact hA i (by omega)
  have hval : r.val = A.val + C.val := by
    rw [← hclear.value_eq (n := L + 1) (by omega), Limbs.value, hr_value L, if_pos rfl, hsum]
    congr 1
    refine value_congr fun j hj => ?_
    rw [hr_value, if_neg (by omega), if_pos hj]
  refine ⟨by rw [hr]; exact hsign, hclear, hval, by omega, ?_⟩
  rcases Nat.eq_zero_or_pos c with h0 | hpos
  · exact .inl (by omega)
  · obtain rfl : c = 1 := by omega
    refine .inr ⟨hr_length, ?_⟩
    omega

/-! ## Multiplication -/

/-- A row of the product. -/
theorem mulLoop_spec (A : BI) (hb : b < 2 ^ 32) (q : BI) : ∀ n : ℕ,
    (mulLoop A b q n).2 = carry (2 ^ 32) (fun i => A.value i * b) n ∧
    (mulLoop A b q n).2 < 2 ^ 32 ∧ (mulLoop A b q n).1.sign = q.sign ∧
    (mulLoop A b q n).1.length = q.length ∧
    ∀ j, (mulLoop A b q n).1.value j = if j < n then
      (A.value j * b + carry (2 ^ 32) (fun i => A.value i * b) j) % 2 ^ 32 else q.value j
  | 0 => ⟨rfl, Nat.two_pow_pos 32, rfl, rfl, fun _ => rfl⟩
  | n + 1 => by
    obtain ⟨hcarry, hlt, hsign, hlength, hvalue⟩ := mulLoop_spec A hb q n
    have hA := A.value_lt n
    rw [mulLoop]
    dsimp only
    refine ⟨?_, ?_, hsign, hlength, set_value_succ hvalue ?_⟩
    · rw [carry, hcarry, shiftRight_eq_div_pow]
    · have hmul : A.value n * b ≤ (2 ^ 32 - 1) * (2 ^ 32 - 1) :=
        Nat.mul_le_mul (by omega) (by omega)
      omega
    · rw [hcarry]

/-- The words are moved up. -/
theorem moveLoop_spec (q : BI) (i : ℕ) : ∀ {n : ℕ}, n + i ≤ q.length →
    (moveLoop q i n).sign = q.sign ∧ (moveLoop q i n).length = q.length ∧
    ∀ k, (moveLoop q i n).value k =
      if q.length - n ≤ k ∧ k < q.length then q.value (k - i) else q.value k
  | 0, _ => ⟨rfl, rfl, fun k => by rw [if_neg (by omega)]; rfl⟩
  | n + 1, hn => by
    obtain ⟨hsign, hlength, hvalue⟩ := moveLoop_spec q i (n := n) (by omega)
    refine ⟨hsign, hlength, fun k => ?_⟩
    -- the word that is read is below the words that were written
    have hread : (moveLoop q i n).value (q.length - 1 - n - i) =
        q.value (q.length - 1 - n - i) := by
      rw [hvalue]
      split_ifs with h
      · rw [show i = 0 by omega]
        rfl
      · rfl
    rw [moveLoop, set_value, hread, hvalue, mod_eq_of_lt (q.value_lt _)]
    by_cases hk : k = q.length - 1 - n
    · rw [if_pos hk, if_pos (by omega), hk]
    · rw [if_neg hk]
      split_ifs <;> first | rfl | omega

theorem clearLoop_spec (q : BI) : ∀ n : ℕ, (clearLoop q n).sign = q.sign ∧
    (clearLoop q n).length = q.length ∧
    ∀ k, (clearLoop q n).value k = if k < n then 0 else q.value k
  | 0 => ⟨rfl, rfl, fun _ => rfl⟩
  | n + 1 => by
    obtain ⟨hsign, hlength, hvalue⟩ := clearLoop_spec q n
    exact ⟨hsign, hlength, set_value_succ hvalue rfl⟩

/-- A shift by whole words. -/
theorem shiftWords_spec (q : BI) (i : ℕ) : (shiftWords q i).sign = q.sign ∧
    (shiftWords q i).length = q.length + i ∧
    ∀ k, (shiftWords q i).value k = if k < i then 0 else
      if k < q.length + i then q.value (k - i) else q.value k := by
  obtain ⟨hsign, hlength, hvalue⟩ := moveLoop_spec { q with length := q.length + i } i
    le_rfl
  obtain ⟨hsign', hlength', hvalue'⟩ := clearLoop_spec
    (moveLoop { q with length := q.length + i } i q.length) i
  rw [shiftWords]
  rw [Nat.add_sub_cancel]
  refine ⟨hsign'.trans hsign, hlength'.trans hlength, fun k => ?_⟩
  rw [hvalue', hvalue]
  dsimp only
  split_ifs <;> first | rfl | omega

/-- Moving the words up multiplies by a power of the base. -/
theorem val_shiftWords (q : BI) (i : ℕ) : (shiftWords q i).val = q.val * (2 ^ 32) ^ i := by
  obtain ⟨-, hlength, hvalue⟩ := shiftWords_spec q i
  rw [val, val, hlength, ← value_shift i, add_comm q.length]
  refine value_congr fun k hk => ?_
  rw [hvalue]
  split_ifs <;> first | rfl | omega

theorem clear_shiftWords (i : ℕ) (h : ∀ k, q.length + i ≤ k → q.value k = 0) :
    (shiftWords q i).Clear := by
  obtain ⟨-, hlength, hvalue⟩ := shiftWords_spec q i
  intro k hk
  rw [hlength] at hk
  rw [hvalue, if_neg (by omega), if_neg (by omega)]
  exact h k hk

/-- A row of the product. The words of the last row that are not written again are 0. -/
theorem mulRow_spec (hb : b < 2 ^ 32) (hlen : A.length + i + 1 < biMaxlen)
    (hq : ∀ k, A.length + i ≤ k → q.value k = 0) :
    (mulRow A b i q).sign = q.sign ∧ (mulRow A b i q).Clear ∧
      (mulRow A b i q).val = A.val * b * (2 ^ 32) ^ i ∧
      ((mulRow A b i q).length = A.length + i ∨ (mulRow A b i q).length = A.length + i + 1 ∧
        (2 ^ 32) ^ (A.length + i) ≤ (mulRow A b i q).val) := by
  obtain ⟨hcarry, hlt, hsign, hlength, hvalue⟩ :=
    mulLoop_spec A hb { q with length := A.length } A.length
  have hprod := value_carry (B := 2 ^ 32) (fun i => A.value i * b) A.length
  rw [value_mul, ← hcarry] at hprod
  obtain ⟨r, c, hrc⟩ : ∃ r c, mulLoop A b { q with length := A.length } A.length = (r, c) :=
    ⟨_, _, rfl⟩
  rw [hrc] at hcarry hlt hsign hlength hvalue hprod
  dsimp only at hcarry hlt hsign hlength hvalue hprod
  have hwords : Limbs.value (2 ^ 32) r.value A.length + c * (2 ^ 32) ^ A.length = A.val * b := by
    rw [val, ← hprod]
    congr 1
    refine value_congr fun j hj => ?_
    rw [hvalue, if_pos hj]
  have hstale : ∀ k, A.length + i ≤ k → r.value k = 0 := fun k hk => by
    rw [hvalue, if_neg (by omega)]
    exact hq k hk
  by_cases hc : c = 0
  · have hrow : mulRow A b i q = shiftWords r i := by
      simp only [mulRow, hrc, hc, ne_eq, not_true_eq_false, false_and, if_false]
      rw [if_pos (by omega)]
    rw [hrow]
    obtain ⟨hssign, hslength, -⟩ := shiftWords_spec r i
    rw [hlength] at hslength
    refine ⟨hssign.trans hsign, clear_shiftWords i (hlength ▸ hstale), ?_, .inl hslength⟩
    rw [val_shiftWords, val, hlength, ← hwords, hc, zero_mul, add_zero]
  · obtain ⟨r', hr'⟩ : ∃ r' : BI, r' = { r.set A.length c with length := A.length + 1 } := ⟨_, rfl⟩
    have hlength' : r'.length = A.length + 1 := by rw [hr']
    have hrow : mulRow A b i q = shiftWords r' i := by
      have hcond : c ≠ 0 ∧ A.length < biMaxlen := ⟨hc, by omega⟩
      simp only [mulRow, hrc, hlength, if_pos hcond]
      rw [← hr', if_pos (by omega)]
    have hvalue' : ∀ k, r'.value k = if k = A.length then c else r.value k := fun k => by
      rw [hr']
      rw [set_value, mod_eq_of_lt hlt]
    have hval' : r'.val = A.val * b := by
      rw [val, hlength', Limbs.value, hvalue', if_pos rfl, ← hwords]
      congr 1
      exact value_congr fun j hj => by rw [hvalue', if_neg (by omega)]
    rw [hrow]
    obtain ⟨hssign, hslength, -⟩ := shiftWords_spec r' i
    refine ⟨?_, clear_shiftWords i fun k hk => ?_, ?_, .inr ⟨by omega, ?_⟩⟩
    · rw [hssign, hr']
      exact hsign
    · rw [hvalue', if_neg (by omega)]
      exact hstale k (by omega)
    · rw [val_shiftWords, hval']
    · rw [val_shiftWords, hval', ← hwords, pow_add]
      refine mul_le_mul_right _ ?_
      have hpos : (2 ^ 32) ^ A.length ≤ c * (2 ^ 32) ^ A.length :=
        Nat.le_mul_of_pos_left _ (pos_of_ne_zero hc)
      omega

/-- The sum of the rows, and how many words it has. -/
theorem mulRows_spec (hA1 : 1 ≤ A.length) (C : BI) : ∀ {n : ℕ},
    A.length + n < biMaxlen → ∃ p q, mulRows A C n = some (p, q) ∧ p.sign = 1 ∧ q.sign = 1 ∧
      p.Clear ∧ p.val = A.val * Limbs.value (2 ^ 32) C.value n ∧
      (∀ k, A.length + n ≤ k → q.value k = 0) ∧ 1 ≤ p.length ∧ p.length ≤ A.length + n ∧
      (n ≠ 0 → p.length = A.length + n - 1 ∨
        p.length = A.length + n ∧ (2 ^ 32) ^ (A.length + n - 1) ≤ p.val)
  | 0, _ => ⟨init, init, rfl, rfl, rfl, fun _ _ => rfl, rfl, fun _ _ => rfl, le_rfl, hA1,
      fun h => absurd rfl h⟩
  | n + 1, hn => by
    obtain ⟨p, q, heq, hp, hq, hpc, hpv, hstale, hp1, hpl, -⟩ :=
      mulRows_spec hA1 C (n := n) (by omega)
    obtain ⟨hrs, hrc, hrv, hrl⟩ := mulRow_spec (C.value_lt n) hn hstale
    rw [mulRows, heq]
    dsimp only [bind, Option.bind]
    obtain ⟨r, hr⟩ : ∃ r, r = mulRow A (C.value n) n q := ⟨_, rfl⟩
    rw [← hr] at hrs hrc hrv hrl ⊢
    rw [add, if_pos (by rw [hp, hrs, hq])]
    obtain ⟨has, hac, hav, hal, hal'⟩ := addWords_spec hpc hrc (by omega)
    have hval : (addWords p r).val = A.val * Limbs.value (2 ^ 32) C.value (n + 1) := by
      rw [hav, hpv, hrv, Limbs.value]
      ring
    have hlt : (addWords p r).val < (2 ^ 32) ^ (A.length + (n + 1)) := by
      rw [hval, pow_add]
      exact mul_lt_mul'' A.val_lt (Limbs.value_lt fun i _ => C.value_lt i)
    -- a carry out of all words would make the product too large
    have hcarry : (2 ^ 32) ^ max p.length r.length ≤ (addWords p r).val →
        max p.length r.length ≤ A.length + n := fun hle =>
      Nat.le_of_lt_succ ((Nat.pow_lt_pow_iff_right (by decide)).1 (hle.trans_lt hlt))
    refine ⟨_, r, rfl, has.trans hp, hrs.trans hq, hac, hval, fun k hk => hrc k (by omega),
      by omega, by omega, fun _ => ?_⟩
    rw [Nat.add_sub_assoc (by omega), Nat.add_sub_cancel]
    rcases hal' with heq' | ⟨heq', hle⟩
    · rcases hrl with hrl | ⟨hrl, hle⟩
      · exact .inl (by omega)
      · exact .inr ⟨by omega, by omega⟩
    · have hmax : max p.length r.length = A.length + n := by
        omega
      exact .inr ⟨by omega, hmax ▸ hle⟩

/-- The product, and how many words it has. -/
theorem mul_spec (hA1 : 1 ≤ A.length) (hC1 : 1 ≤ C.length)
    (hlen : A.length + C.length < biMaxlen) : ∃ p, mul A C = some p ∧
      p.sign = (if A.sign + C.sign = 1 then 0 else 1) ∧ p.Clear ∧ p.val = A.val * C.val ∧
      (p.length = A.length + C.length - 1 ∨
        p.length = A.length + C.length ∧ (2 ^ 32) ^ (A.length + C.length - 1) ≤ p.val) := by
  obtain ⟨p, q, heq, -, -, hclear, hval, -, -, -, hlength⟩ := mulRows_spec hA1 C hlen
  refine ⟨{ p with sign := if A.sign + C.sign = 1 then 0 else 1 }, ?_, rfl, hclear, hval,
    hlength (by omega)⟩
  rw [mul, heq]
  rfl

/-- The number of words of a product of numbers with the least number of words. -/
theorem length_mul (hA : A.length = len (2 ^ 32) A.val) (hC : C.length = len (2 ^ 32) C.val)
    (hval : p.val = A.val * C.val)
    (hzero : A.val = 0 ∨ C.val = 0 → A.length = 1 ∧ C.length = 1)
    (h : p.length = A.length + C.length - 1 ∨
      p.length = A.length + C.length ∧ (2 ^ 32) ^ (A.length + C.length - 1) ≤ p.val) :
    p.length = len (2 ^ 32) p.val := by
  have hA1 := len_pos (2 ^ 32) A.val
  have hC1 := len_pos (2 ^ 32) C.val
  refine (len_eq (by omega) ?_ p.val_lt (by decide)).symm
  rcases h with hlength | ⟨hlength, hle⟩
  · -- the product has the leading words of its factors
    by_cases h0 : A.val = 0 ∨ C.val = 0
    · exact .inl (by have := hzero h0; omega)
    · obtain ⟨hA0, hC0⟩ := not_or.1 h0
      refine .inr ?_
      rw [hval, hlength,
        show A.length + C.length - 1 - 1 = (A.length - 1) + (C.length - 1) by omega,
        pow_add, hA, hC]
      exact Nat.mul_le_mul (pow_le_of_ne_zero hA0) (pow_le_of_ne_zero hC0)
  · exact .inr (hlength ▸ hle)

/-- The product is in normal form unless a number of several words is multiplied by 0. -/
theorem mul_ofNat (hlen : len (2 ^ 32) a + len (2 ^ 32) b < biMaxlen)
    (ha : a = 0 → len (2 ^ 32) b = 1) (hb : b = 0 → len (2 ^ 32) a = 1) :
    mul (ofNat a) (ofNat b) = some (ofNat (a * b)) := by
  obtain ⟨p, heq, hsign, hclear, hval, hlength⟩ :=
    mul_spec (A := ofNat a) (C := ofNat b) (len_pos _ a) (len_pos _ b) hlen
  have hzero : (ofNat a).val = 0 ∨ (ofNat b).val = 0 →
      (ofNat a).length = 1 ∧ (ofNat b).length = 1 := by
    have hlen0 : len (2 ^ 32) 0 = 1 := by rw [len, log_zero_right]
    simp only [val_ofNat, ofNat_length]
    rintro (rfl | rfl)
    · exact ⟨hlen0, ha rfl⟩
    · exact ⟨hb rfl, hlen0⟩
  have hwords := length_mul (by simp) (by simp) hval hzero hlength
  rw [val_ofNat, val_ofNat] at hval
  rw [heq, eq_ofNat hsign hclear hwords, hval]

/-- The words of a number are moved up. -/
theorem shiftWords_ofNat (ha : a ≠ 0) (i : ℕ) :
    shiftWords (ofNat a) i = ofNat (a * (2 ^ 32) ^ i) := by
  obtain ⟨hsign, hlength, -⟩ := shiftWords_spec (ofNat a) i
  have hval := val_shiftWords (ofNat a) i
  rw [val_ofNat] at hval
  rw [eq_ofNat hsign (clear_shiftWords i fun k hk => clear_ofNat a k (by omega)), hval]
  have ha1 := len_pos (2 ^ 32) a
  rw [ofNat_length] at hlength
  refine (len_eq (by omega) (.inr ?_) (val_lt _) (by decide)).symm
  rw [hval, hlength, show len (2 ^ 32) a + i - 1 = len (2 ^ 32) a - 1 + i by omega, pow_add]
  exact mul_le_mul_right _ (pow_le_of_ne_zero ha)

/-! ## Subtraction -/

/-- The loop of `Sub` : the difference is too large by the borrows that are lost, which are those
from a word 0. -/
theorem subLoop_spec {s d : ℕ → ℕ} (hs : ∀ i, s i < 2 ^ 32) (hd : ∀ i, d i < 2 ^ 32) (p : BI) :
    ∀ n : ℕ, (subLoop s d p n).2 ≤ 1 ∧ (subLoop s d p n).1.sign = p.sign ∧
    (∀ j, n ≤ j → (subLoop s d p n).1.value j = p.value j) ∧ ∃ e,
      Limbs.value (2 ^ 32) (subLoop s d p n).1.value n + Limbs.value (2 ^ 32) d n =
        Limbs.value (2 ^ 32) s n + (subLoop s d p n).2 * (2 ^ 32) ^ n + e ∧
      (e = 0 → (subLoop s d p n).2 = borrow s d n) ∧
      (e = 0 ↔ ∀ i < n, borrow s d i = 1 → s i ≠ 0)
  | 0 => ⟨zero_le 1, rfl, fun _ _ => rfl, 0, rfl, fun _ => rfl, by simp⟩
  | n + 1 => by
    obtain ⟨hc, hsign, habove, e, hval, hborrow, he⟩ := subLoop_spec hs hd p n
    have hsn := hs n
    have hdn := hd n
    rw [subLoop]
    generalize subLoop s d p n = q at *
    obtain ⟨q, c⟩ := q
    dsimp only at *
    have hpow : 0 < (2 ^ 32) ^ (n + 1) := Nat.pow_pos (by decide)
    -- a round that writes the word `x`, has the borrow `c'` and loses `l`
    have hround {x c' l : ℕ} (hx : x < 2 ^ 32) (hc' : c' ≤ 1)
        (hword : x + d n + c = s n + (c' + l) * 2 ^ 32) (hl : l = 0 ↔ (c = 1 → s n ≠ 0)) :
        c' ≤ 1 ∧ (q.set n x).sign = p.sign ∧
        (∀ j, n + 1 ≤ j → (q.set n x).value j = p.value j) ∧ ∃ e,
          Limbs.value (2 ^ 32) (q.set n x).value (n + 1) + Limbs.value (2 ^ 32) d (n + 1) =
            Limbs.value (2 ^ 32) s (n + 1) + c' * (2 ^ 32) ^ (n + 1) + e ∧
          (e = 0 → c' = borrow s d (n + 1)) ∧
          (e = 0 ↔ ∀ i < n + 1, borrow s d i = 1 → s i ≠ 0) := by
      have hzero : e + l * (2 ^ 32) ^ (n + 1) = 0 ↔ e = 0 ∧ l = 0 := by
        rw [Nat.add_eq_zero_iff, Nat.mul_eq_zero, or_iff_left hpow.ne']
      refine ⟨hc', hsign, fun j hj => ?_, e + l * (2 ^ 32) ^ (n + 1), ?_, fun h => ?_, ?_⟩
      · rw [set_value, if_neg (by omega), habove j (by omega)]
      · have hbelow : Limbs.value (2 ^ 32) (q.set n x).value n = Limbs.value (2 ^ 32) q.value n :=
          value_congr fun i hi => by rw [set_value, if_neg hi.ne]
        rw [Limbs.value, Limbs.value, Limbs.value, hbelow, set_value, if_pos rfl, mod_eq_of_lt hx]
        calc _ = Limbs.value (2 ^ 32) q.value n + Limbs.value (2 ^ 32) d n +
              (x + d n) * (2 ^ 32) ^ n := by ring
          _ = Limbs.value (2 ^ 32) s n + (x + d n + c) * (2 ^ 32) ^ n + e := by rw [hval]; ring
          _ = _ := by rw [hword]; ring
      · obtain ⟨h0, rfl⟩ := hzero.1 h
        rw [borrow, ← hborrow h0]
        split_ifs <;> omega
      · rw [hzero, forall_lt_succ_right, ← he]
        refine and_congr_right fun h0 => ?_
        rw [hl, hborrow h0]
    split_ifs with h
    · by_cases hlost : c = 1 ∧ s n = 0
      · exact hround (l := 1) (by omega) (zero_le 1) (by omega) (by omega)
      · exact hround (l := 0) (by omega) (zero_le 1) (by omega) (by omega)
    · exact hround (l := 0) (by omega) le_rfl (by omega) (by omega)

/-- The leading word of a number that is not 0 is found. -/
theorem leading_spec (p : BI) : ∀ {n : ℕ}, Limbs.value (2 ^ 32) p.value n ≠ 0 →
    ∃ k, leading p n = some k ∧ 1 ≤ k ∧ k ≤ n ∧ (∀ i, k ≤ i → i < n → p.value i = 0) ∧
      p.value (k - 1) ≠ 0
  | 0, h => absurd rfl h
  | n + 1, h => by
    rw [leading]
    split_ifs with hzero
    · rw [Limbs.value, hzero, zero_mul, add_zero] at h
      obtain ⟨k, heq, hk1, hkn, habove, htop⟩ := leading_spec p h
      refine ⟨k, heq, hk1, by omega, fun i hki hin => ?_, htop⟩
      rcases lt_or_eq_of_le (le_of_lt_succ hin) with hlt | rfl
      exacts [habove i hki hlt, hzero]
    · exact ⟨n + 1, rfl, by omega, le_rfl, fun i hki hin => by omega, hzero⟩

/-- The words are trimmed to the leading one. -/
theorem leading_eq_ofSign (hclear : ∀ i, n ≤ i → p.value i = 0)
    (hval : Limbs.value (2 ^ 32) p.value n = a) (ha : a ≠ 0) :
    (leading p n).map (fun len => { p with length := len }) = some (ofSign p.sign a) := by
  obtain ⟨k, heq, hk1, hkn, habove, htop⟩ := leading_spec p (hval ▸ ha)
  have hclear' : ({ p with length := k } : BI).Clear := fun i hi => by
    rcases lt_or_ge i n with hin | hin
    exacts [habove i hi hin, hclear i hin]
  have hval' : ({ p with length := k } : BI).val = a := by
    rw [← hclear'.value_eq hkn, hval]
  have hlen : k = len (2 ^ 32) ({ p with length := k } : BI).val := by
    refine (len_eq hk1 (.inr ?_) (val_lt _) (by decide)).symm
    obtain ⟨j, rfl⟩ : ∃ j, k = j + 1 := ⟨k - 1, by omega⟩
    exact (Nat.le_mul_of_pos_left _ (pos_of_ne_zero htop)).trans (Nat.le_add_left _ _)
  have hof := eq_ofSign hclear' hlen
  rw [heq, Option.map_some, hof, hval']

/-- The difference, too large by what is lost. -/
theorem leading_subLoop (hlt : b < a) (hp : ∀ i, len (2 ^ 32) a ≤ i → p.value i = 0) :
    ∃ e, (leading (subLoop (word (2 ^ 32) a) (word (2 ^ 32) b) p (len (2 ^ 32) a)).1
      (len (2 ^ 32) a)).map (fun len =>
        { (subLoop (word (2 ^ 32) a) (word (2 ^ 32) b) p (Limbs.len (2 ^ 32) a)).1 with
          length := len }) = some (ofSign p.sign (a - b + e)) ∧
      (e = 0 ↔ BorrowsWell (2 ^ 32) a b) ∧ a - b + e < (2 ^ 32) ^ len (2 ^ 32) a := by
  have hwa := word_lt (B := 2 ^ 32) (by decide) a
  have hwb := word_lt (B := 2 ^ 32) (by decide) b
  have hla := lt_pow_len (B := 2 ^ 32) (by decide) a
  obtain ⟨-, hsign, habove, e, hval, -, he⟩ := subLoop_spec hwa hwb p (len (2 ^ 32) a)
  rw [value_word, value_word, mod_eq_of_lt hla, mod_eq_of_lt (hlt.trans hla)]
    at hval
  generalize subLoop (word (2 ^ 32) a) (word (2 ^ 32) b) p (len (2 ^ 32) a) = q at *
  have hq : Limbs.value (2 ^ 32) q.1.value (len (2 ^ 32) a) < (2 ^ 32) ^ len (2 ^ 32) a :=
    Limbs.value_lt fun i _ => q.1.value_lt i
  have hc : q.2 = 0 := by
    by_contra hne
    have := Nat.le_mul_of_pos_left ((2 ^ 32) ^ len (2 ^ 32) a) (pos_of_ne_zero hne)
    omega
  rw [hc, zero_mul] at hval
  have hone (i : ℕ) : borrow (word (2 ^ 32) a) (word (2 ^ 32) b) i = 1 ↔
      a % (2 ^ 32) ^ i < b % (2 ^ 32) ^ i := by
    have hiff := borrow_eq_zero_iff hwa hwb i
    have hle := borrow_le_one (word (2 ^ 32) a) (word (2 ^ 32) b) i
    rw [value_word, value_word] at hiff
    omega
  simp only [hone] at he
  refine ⟨e, ?_, he.trans ⟨fun h i hi => h i ?_ hi, fun h i _ => h i⟩, by omega⟩
  · rw [← hsign]
    exact leading_eq_ofSign (fun i hi => (habove i hi).trans (hp i hi)) (by omega) (by omega)
  · by_contra hle
    have hlt' := hla.trans_le (Nat.pow_le_pow_right (by decide) (not_lt.1 hle))
    rw [mod_eq_of_lt hlt', mod_eq_of_lt (hlt.trans hlt')] at hi
    omega

theorem subWords_ofNat (hlt : b < a) : subWords (ofNat a) (ofNat b) =
    (leading (subLoop (word (2 ^ 32) a) (word (2 ^ 32) b) (ofNat a) (len (2 ^ 32) a)).1
      (len (2 ^ 32) a)).map fun len =>
        { (subLoop (word (2 ^ 32) a) (word (2 ^ 32) b) (ofNat a) (Limbs.len (2 ^ 32) a)).1 with
          length := len } := by
  rw [subWords, cmp_ofNat, Nat.compare_eq_gt.2 hlt]
  rfl

/-- The difference is right if no word 0 is borrowed from. -/
theorem sub_ofNat (hlt : b < a) (h : BorrowsWell (2 ^ 32) a b) :
    sub (ofNat a) (ofNat b) = some (ofNat (a - b)) := by
  obtain ⟨e, heq, he, -⟩ := leading_subLoop hlt (clear_ofNat a)
  rw [sub, ofNat_sign, ofNat_sign, if_pos rfl, subWords_ofNat hlt, heq, he.2 h]
  rfl

end BI

end OpenHMR
