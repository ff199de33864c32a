import Mathlib.Algebra.Group.Nat.Defs
import Mathlib.Data.Nat.Notation
import Mathlib.Logic.Function.Basic
import Mathlib.Tactic.SplitIfs

/-!
# Flags in words

An array of words of `n` bits holds `n` flags in a word : flag `i` is bit `i % n` of word
`i / n`. A flag is cleared by masking its word, a range of flags is set by filling it, and
`setOnly` assigns a word in which no other flag is set. The lemmas say which flags an operation
changes (`setOnly_changes_iff`, `mask_changes_iff`, `fill_changes_iff`).
-/

namespace FlagWords

open Function Nat BitVec

variable {n : ℕ}

/-- Flag `i`. -/
def flag (words : ℕ → BitVec n) (i : ℕ) : Bool :=
  (words (i / n)).getLsbD (i % n)

/-- Word `k` becomes the word with flag `j` only. -/
def setOnly (words : ℕ → BitVec n) (k j : ℕ) : ℕ → BitVec n :=
  update words k (1#n <<< j)

/-- Flag `j` of word `k` is masked out. -/
def mask (words : ℕ → BitVec n) (k j : ℕ) : ℕ → BitVec n :=
  update words k (words k &&& ~~~(1#n <<< j))

/-- The first `m` flags from word `k` on are set. -/
def fill (words : ℕ → BitVec n) (k m : ℕ) : ℕ → BitVec n := fun i =>
  if k ≤ i then words i ||| BitVec.ofNat n (2 ^ (m - n * (i - k)) - 1) else words i

variable {words : ℕ → BitVec n} {i j k m : ℕ}

theorem eq_mul_add_iff (hj : j < n) : i = n * k + j ↔ i / n = k ∧ i % n = j := by
  refine ⟨?_, fun ⟨hk, hj⟩ => ?_⟩
  · rintro rfl
    exact ⟨by rw [mul_add_div (by omega), div_eq_of_lt hj, add_zero],
      by rw [mul_add_mod, mod_eq_of_lt hj]⟩
  · rw [← hk, ← hj, div_add_mod]

theorem getLsbD_one_shiftLeft (hj : j < n) (hi : i < n) :
    (1#n <<< j).getLsbD i = decide (i = j) := by
  rw [getLsbD_shiftLeft, getLsbD_one]
  by_cases hij : i = j
  · subst hij
    simp [hi]
    omega
  · simp [hij]
    omega

theorem flag_mul_add (words : ℕ → BitVec n) (k : ℕ) (hj : j < n) :
    flag words (n * k + j) = (words k).getLsbD j := by
  obtain ⟨hdiv, hmod⟩ := (eq_mul_add_iff hj).1 (rfl : n * k + j = n * k + j)
  rw [flag, hdiv, hmod]

theorem and_one_shiftLeft_ne_zero_iff {x : BitVec n} (hj : j < n) :
    x &&& 1#n <<< j ≠ 0 ↔ x.getLsbD j = true := by
  refine ⟨fun h => ?_, fun h h0 => ?_⟩
  · by_contra hx
    refine h (eq_of_getLsbD_eq fun i hi => ?_)
    change (x &&& 1#n <<< j).getLsbD i = (0#n).getLsbD i
    rw [getLsbD_and, getLsbD_one_shiftLeft hj hi, getLsbD_zero]
    by_cases hij : i = j
    · rw [hij, eq_false_of_ne_true hx, Bool.false_and]
    · rw [decide_eq_false hij, Bool.and_false]
  · have := congrArg (fun y => y.getLsbD j) h0
    simp [h, getLsbD_one_shiftLeft hj hj] at this

theorem flag_setOnly (hj : j < n) :
    flag (setOnly words k j) i = if i / n = k then decide (i = n * k + j) else flag words i := by
  have hi : i % n < n := mod_lt i (by omega)
  rw [flag, setOnly]
  split_ifs with h
  · rw [h, update_self, getLsbD_one_shiftLeft hj hi]
    exact decide_eq_decide.2 ((eq_mul_add_iff hj).trans (and_iff_right h)).symm
  · rw [update_of_ne h]
    rfl

theorem flag_mask (hj : j < n) :
    flag (mask words k j) i = (flag words i && !decide (i = n * k + j)) := by
  have hi : i % n < n := mod_lt i (by omega)
  have hij := (eq_mul_add_iff (i := i) (k := k) hj)
  rw [flag, mask]
  by_cases h : i / n = k
  · rw [h, update_self, getLsbD_and, getLsbD_not,
      getLsbD_one_shiftLeft hj hi, flag, h, decide_eq_true hi, Bool.true_and,
      decide_eq_decide.2 (hij.trans (and_iff_right h))]
  · rw [update_of_ne h, decide_eq_false fun heq => h (hij.1 heq).1]
    exact (Bool.and_true _).symm

/-- A run of flags is set. -/
theorem flag_fill (hn : 0 < n) :
    flag (fill words k m) i = (flag words i || decide (n * k ≤ i ∧ i < n * k + m)) := by
  have hi : i % n < n := mod_lt i hn
  have hdiv := div_add_mod i n
  rw [flag, fill]
  split_ifs with h
  · obtain ⟨d, hd⟩ := Nat.exists_eq_add_of_le h
    have hmul : n * (i / n) = n * k + n * d := by rw [hd, Nat.mul_add]
    rw [getLsbD_or, getLsbD_ofNat, testBit_two_pow_sub_one, decide_eq_true hi,
      Bool.true_and, hd, Nat.add_sub_cancel_left, ← hd]
    refine congrArg (flag words i || ·) (decide_eq_decide.2 ?_)
    omega
  · have hlt : i < n * k := by
      rw [mul_comm]
      exact (Nat.div_lt_iff_lt_mul hn).1 (Nat.lt_of_not_ge h)
    rw [decide_eq_false fun hk => Nat.not_le_of_lt hlt hk.1, Bool.or_false]
    rfl

/-- The assignment changes the other flags of the word that are set, and its own one if it is
not set. -/
theorem setOnly_changes_iff (hj : j < n) : flag (setOnly words k j) i ≠ flag words i ↔
    i / n = k ∧ (i ≠ n * k + j ↔ flag words i = true) := by
  rw [flag_setOnly hj]
  split_ifs with h
  · rw [and_iff_right h]
    by_cases hi : i = n * k + j <;> simp [hi]
  · simp [h]

theorem mask_changes_iff (hj : j < n) : flag (mask words k j) i ≠ flag words i ↔
    i = n * k + j ∧ flag words i = true := by
  rw [flag_mask hj]
  by_cases hi : i = n * k + j <;> simp [hi]

theorem fill_changes_iff (hn : 0 < n) : flag (fill words k m) i ≠ flag words i ↔
    (n * k ≤ i ∧ i < n * k + m) ∧ flag words i = false := by
  rw [flag_fill hn]
  cases flag words i <;> simp

end FlagWords
