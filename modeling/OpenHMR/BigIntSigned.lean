import OpenHMR.BigIntDiv

/-!
# Sums and differences of big integers

`Add` and `Sub` of numbers with signs, each of which calls the other for different signs : one of
them adds the words and is right, the other subtracts the smaller words from the larger, and is
right if and only if no word 0 is borrowed from (`BI.add_sub_iff`).
-/

namespace OpenHMR

open Nat
open Limbs hiding value value_lt

namespace BI

variable {A : BI} {σ : ℤ} {a b : ℕ}

/-! ## Signs -/

theorem toInt_ofSign (σ : ℤ) (a : ℕ) : (ofSign σ a).toInt = if σ = 1 then (a : ℤ) else -a := by
  rw [toInt, val_ofSign]
  rfl

theorem Trimmed.exists_ofSign (h : A.Trimmed) :
    ∃ σ a, (σ = 0 ∨ σ = 1) ∧ A = ofSign σ a :=
  ⟨_, _, h.sign, BI.eq_ofSign h.clear h.length_eq⟩

/-- The difference of the words. -/
theorem subWords_ofSign (hσ : σ = 0 ∨ σ = 1) (τ : ℤ) (ha : len (2 ^ 32) a ≤ biMaxlen)
    (hb : len (2 ^ 32) b ≤ biMaxlen) : ∃ p, subWords (ofSign σ a) (ofSign τ b) = some p ∧
      p.Trimmed ∧ (p.toInt = (if σ = 1 then (a : ℤ) - b else b - a) ↔
        BorrowsWell (2 ^ 32) (max a b) (min a b)) := by
  rw [subWords, cmp_ofSign]
  rcases lt_trichotomy a b with hlt | rfl | hlt
  · obtain ⟨e, heq, he, hlen⟩ := leading_subLoop hlt (p := ofSign σ a) fun i hi =>
      clear_ofNat a i ((len_mono hlt.le).trans hi)
    refine ⟨ofSign (1 - σ) (b - a + e), ?_, trimmed_ofSign (by omega) ?_, ?_⟩
    · rw [Nat.compare_eq_lt.2 hlt]
      have h := congrArg (Option.map fun q : BI => { q with sign := 1 - σ }) heq
      rwa [Option.map_map] at h
    · exact (len_le_of_lt_pow (len_pos _ _) hlen).trans hb
    · rw [max_eq_right hlt.le, min_eq_left hlt.le, ← he, toInt_ofSign]
      split_ifs <;> omega
  · refine ⟨init, by rw [Nat.compare_eq_eq.2 rfl], ?_, ?_⟩
    · exact init_eq ▸ trimmed_ofNat (by rw [len_zero]; decide)
    · rw [max_self, min_self]
      refine iff_of_true ?_ fun i h => absurd h (lt_irrefl _)
      simp [init_eq, toInt]
  · obtain ⟨e, heq, he, hlen⟩ := leading_subLoop hlt (p := ofSign σ a) (clear_ofNat a)
    refine ⟨ofSign σ (a - b + e), ?_, trimmed_ofSign hσ ?_, ?_⟩
    · rw [Nat.compare_eq_gt.2 hlt]
      exact heq
    · exact (len_le_of_lt_pow (len_pos _ _) hlen).trans ha
    · rw [max_eq_left hlt.le, min_eq_right hlt.le, ← he, toInt_ofSign]
      split_ifs <;> omega

/-- `Add` and `Sub` leave the sum and the difference, with the least number of words. -/
def AddsAndSubtracts (A B : BI) : Prop :=
  ∃ p q, add A B = some p ∧ sub A B = some q ∧ p.Trimmed ∧ q.Trimmed ∧
    p.toInt = A.toInt + B.toInt ∧ q.toInt = A.toInt - B.toInt

/-- `Add` and `Sub` are right if and only if no word 0 is borrowed from when the smaller number is
subtracted from the larger. -/
theorem add_sub_iff (A B : BI) (hA : A.Trimmed) (hB : B.Trimmed) (hlA : A.length ≤ 128)
    (hlB : B.length ≤ 128) :
    AddsAndSubtracts A B ↔ BorrowsWell (2 ^ 32) (max A.val B.val) (min A.val B.val) := by
  obtain ⟨σ, a, hσ, rfl⟩ := hA.exists_ofSign
  obtain ⟨τ, b, hτ, rfl⟩ := hB.exists_ofSign
  rw [ofSign_length] at hlA hlB
  have hmax : biMaxlen = 129 := rfl
  have hsum (τ : ℤ) : addWords (ofSign σ a) (ofSign τ b) = ofSign σ (a + b) :=
    addWords_ofSign σ τ (by omega) (by omega)
  obtain ⟨p, hp, htrim, hiff⟩ := subWords_ofSign hσ (if σ = τ then τ else 1 - τ)
    (by omega : len (2 ^ 32) a ≤ biMaxlen) (by omega : len (2 ^ 32) b ≤ biMaxlen)
  have htrim' : (ofSign σ (a + b)).Trimmed := by
    refine trimmed_ofSign hσ (len_le_of_lt_pow (by decide) ?_)
    have hlt {x : ℕ} (hx : len (2 ^ 32) x ≤ 128) : x < (2 ^ 32) ^ 128 :=
      (lt_pow_len (by decide) x).trans_le (Nat.pow_le_pow_right (by decide) hx)
    have h129 : (2 ^ 32) ^ biMaxlen = 2 ^ 32 * (2 ^ 32) ^ 128 := by decide +kernel
    have := hlt hlA
    have := hlt hlB
    omega
  rw [val_ofSign, val_ofSign, ← hiff]
  have hτ' : { ofSign τ b with sign := 1 - τ } = ofSign (1 - τ) b := rfl
  simp only [AddsAndSubtracts, add, sub, ofSign_sign, hτ', hsum]
  by_cases h : σ = τ
  · rw [if_pos h] at hp
    simp only [if_pos h, hp, Option.some.injEq, exists_and_left, exists_eq_left', htrim, htrim',
      true_and, toInt_ofSign]
    split_ifs <;> omega
  · rw [if_neg h] at hp
    simp only [if_neg h, hp, Option.some.injEq, exists_and_left, exists_eq_left', htrim, htrim',
      true_and, toInt_ofSign]
    split_ifs <;> omega

/-- A word is borrowed from word 1 and from word 2. -/
theorem add_sub_iff_threeWords :
    (ofSign 1 (2 ^ 64 + 5 * 2 ^ 32 + 7)).Trimmed ∧ (ofSign 0 (6 * 2 ^ 32 + 9)).Trimmed ∧
      AddsAndSubtracts (ofSign 1 (2 ^ 64 + 5 * 2 ^ 32 + 7)) (ofSign 0 (6 * 2 ^ 32 + 9)) := by
  have hlA : len (2 ^ 32) (2 ^ 64 + 5 * 2 ^ 32 + 7) ≤ 3 := len_le_of_lt_pow (by decide) (by decide)
  have hlB : len (2 ^ 32) (6 * 2 ^ 32 + 9) ≤ 2 := len_le_of_lt_pow (by decide) (by decide)
  have hA := trimmed_ofSign (.inr rfl) (hlA.trans (by decide : 3 ≤ biMaxlen))
  have hB := trimmed_ofSign (.inl rfl) (hlB.trans (by decide : 2 ≤ biMaxlen))
  refine ⟨hA, hB, (add_sub_iff _ _ hA hB (hlA.trans (by decide)) (hlB.trans (by decide))).2 ?_⟩
  exact borrowsWell_of_lt (n := 3) (by decide) (by decide) (by decide)

/-- The borrow from word 1 of `2 ^ 64`, which is 0, is lost. -/
theorem sub_one_lostBorrow : (ofNat (2 ^ 64)).Trimmed ∧ (ofNat 1).Trimmed ∧
    sub (ofNat (2 ^ 64)) (ofNat 1) = some (ofNat (2 ^ 65 - 1)) ∧
    ¬AddsAndSubtracts (ofNat (2 ^ 64)) (ofNat 1) := by
  have hlen : len (2 ^ 32) (2 ^ 64) = 3 := len_of_pow
  have hlen' : len (2 ^ 32) 1 ≤ 1 := len_le_of_lt_pow le_rfl (by decide)
  have hsub : sub (ofNat (2 ^ 64)) (ofNat 1) = some (ofNat (2 ^ 65 - 1)) :=
    sub_eq_of_subLoop (by decide) hlen (by decide +kernel) (by decide)
  refine ⟨trimmed_ofNat (hlen.le.trans (by decide)), trimmed_ofNat (hlen'.trans (by decide)),
    hsub, ?_⟩
  rintro ⟨p, q, -, hq, -, -, -, hval⟩
  obtain rfl : ofNat (2 ^ 65 - 1) = q := Option.some.inj (hsub.symm.trans hq)
  simp [toInt] at hval

end BI

end OpenHMR
