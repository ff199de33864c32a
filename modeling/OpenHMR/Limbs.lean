import Mathlib.Data.Nat.Log
import Mathlib.Tactic.Ring

/-!
# Numbers as words

A number in base `B` as a sequence of words, the lowest first. `value B w n` is the number of the
first `n` words of `w`, `word B x` are the words of `x`, and `len B x` is how many of them `x` has.

Sums and products of words are brought below the base by `carry` (`value_carry`), differences by
`borrow` (`value_borrow`). `trial` is a multiple of the divisor that is found from the leading
words, and it can be subtracted (`trial_pos_and_lt`).
-/

namespace Limbs

open Nat

variable {B : ℕ} {w w' : ℕ → ℕ} {x i n m : ℕ}

/-- The number of the first `n` words. -/
def value (B : ℕ) (w : ℕ → ℕ) : ℕ → ℕ
  | 0 => 0
  | n + 1 => value B w n + w n * B ^ n

/-- The words of a number. -/
def word (B x i : ℕ) : ℕ :=
  x / B ^ i % B

/-- The number of words of a number, 1 for the number 0. -/
def len (B x : ℕ) : ℕ :=
  log B x + 1

theorem word_lt (hB : 0 < B) (x i : ℕ) : word B x i < B :=
  mod_lt _ hB

theorem word_zero (B x : ℕ) : word B x 0 = x % B := by
  rw [word, pow_zero, Nat.div_one]

/-- A word is what is left of the words from it on without those above it. -/
theorem div_pow_eq (B x i : ℕ) : x / B ^ i = B * (x / B ^ (i + 1)) + word B x i := by
  rw [word, pow_succ, ← Nat.div_div_eq_div_mul]
  exact (div_add_mod _ _).symm

theorem word_div (B x d i : ℕ) : word B (x / d) i = x / B ^ i / d % B := by
  rw [word, Nat.div_div_eq_div_mul, Nat.div_div_eq_div_mul, mul_comm]

theorem value_congr : ∀ {n : ℕ}, (∀ i < n, w i = w' i) → value B w n = value B w' n
  | 0, _ => rfl
  | n + 1, h => by
    rw [value, value, value_congr fun i hi => h i (lt_succ_of_lt hi), h n (lt_succ_self n)]

theorem value_lt : ∀ {n : ℕ}, (∀ i < n, w i < B) → value B w n < B ^ n
  | 0, _ => one_pos
  | n + 1, h => by
    have ih := value_lt fun i hi => h i (lt_succ_of_lt hi)
    have hn : (w n + 1) * B ^ n ≤ B * B ^ n := mul_le_mul_right _ (h n (lt_succ_self n))
    rw [value, pow_succ']
    rw [add_mul, one_mul] at hn
    omega

/-- The words of a number have its value. -/
theorem value_word (x : ℕ) : ∀ n : ℕ, value B (word B x) n = x % B ^ n
  | 0 => (mod_one x).symm
  | n + 1 => by rw [value, value_word x n, mod_pow_succ, word, mul_comm]

/-- The value has the words that it is made of. -/
theorem word_value (hw : ∀ i, w i < B) : ∀ {n : ℕ}, i < n → word B (value B w n) i = w i
  | n + 1, hi => by
    have hpos : 0 < B := pos_of_ne_zero fun h => by simpa [h] using hw 0
    have hlt : value B w n < B ^ n := value_lt fun i _ => hw i
    rcases lt_or_eq_of_le (le_of_lt_succ hi) with hin | rfl
    · have ih := word_value hw hin
      obtain ⟨k, rfl⟩ := Nat.exists_eq_add_of_lt hin
      rw [word, value, show w (i + k + 1) * B ^ (i + k + 1) = B ^ i * (w (i + k + 1) * B ^ k * B) by
        ring, add_mul_div_left _ _ (Nat.pow_pos hpos), add_mul_mod_self_right]
      exact ih
    · rw [word, value, add_mul_div_right _ _ (Nat.pow_pos hpos), div_eq_of_lt hlt,
        zero_add, mod_eq_of_lt (hw i)]

/-- The words of a word, in a base of which the base is a power. -/
theorem word_word (b k x j : ℕ) {r : ℕ} (hr : r < k) :
    word b (word (b ^ k) x j) r = word b x (k * j + r) := by
  have hsplit : b ^ k = b ^ r * b ^ (k - r) := by
    rw [← pow_add, Nat.add_sub_cancel' hr.le]
  have hdvd : b ∣ b ^ (k - r) := dvd_pow_self b (by omega)
  rw [word, word, hsplit, mod_mul_right_div_self, ← hsplit, mod_mod_of_dvd _ hdvd,
    Nat.div_div_eq_div_mul, ← Nat.pow_mul, ← pow_add, ← word]

theorem value_eq_of_zero (h : ∀ i, n ≤ i → w i = 0) : ∀ k : ℕ, value B w (n + k) = value B w n
  | 0 => rfl
  | k + 1 => by
    rw [← add_assoc, value, h (n + k) (le_add_right n k), zero_mul, add_zero, value_eq_of_zero h k]

theorem value_add : ∀ n : ℕ, value B (fun i => w i + w' i) n = value B w n + value B w' n
  | 0 => rfl
  | n + 1 => by
    rw [value, value_add n, value, value]
    ring

theorem value_mul (b : ℕ) : ∀ n : ℕ, value B (fun i => w i * b) n = value B w n * b
  | 0 => (zero_mul b).symm
  | n + 1 => by
    rw [value, value_mul b n, value]
    ring

/-- Words that are moved up. -/
theorem value_shift (k : ℕ) : ∀ n : ℕ,
    value B (fun j => if j < k then 0 else w (j - k)) (k + n) = value B w n * B ^ k
  | 0 => by
    have hzero : ∀ j : ℕ, j ≤ k → value B (fun j => if j < k then 0 else w (j - k)) j = 0 := by
      intro j
      induction j with
      | zero => exact fun _ => rfl
      | succ j ih =>
        intro hj
        rw [value, ih (by omega), if_pos (by omega), Nat.zero_mul]
    rw [Nat.add_zero, hzero k le_rfl, value, Nat.zero_mul]
  | n + 1 => by
    rw [← Nat.add_assoc, value, value_shift k n, if_neg (by omega), Nat.add_sub_cancel_left, value]
    ring

/-! ## Carry and borrow -/

/-- The carry into word `n` when the words `t` are brought below the base. -/
def carry (B : ℕ) (t : ℕ → ℕ) : ℕ → ℕ
  | 0 => 0
  | n + 1 => (t n + carry B t n) / B

theorem value_carry (t : ℕ → ℕ) : ∀ n : ℕ,
    value B (fun i => (t i + carry B t i) % B) n + carry B t n * B ^ n = value B t n
  | 0 => rfl
  | n + 1 => by
    have ih := value_carry t n
    have hdiv := mod_add_div (t n + carry B t n) B
    rw [value, carry, value, ← ih]
    calc _ = value B (fun i => (t i + carry B t i) % B) n +
          ((t n + carry B t n) % B + B * ((t n + carry B t n) / B)) * B ^ n := by ring
      _ = _ := by rw [hdiv]; ring

/-- The borrow from word `n` when the words `d` are subtracted from the words `s`. -/
def borrow (s d : ℕ → ℕ) : ℕ → ℕ
  | 0 => 0
  | n + 1 => if s n < d n + borrow s d n then 1 else 0

theorem borrow_le_one (s d : ℕ → ℕ) : ∀ n : ℕ, borrow s d n ≤ 1
  | 0 => zero_le 1
  | n + 1 => by
    rw [borrow]
    split_ifs <;> omega

/-- Subtraction with borrows. -/
theorem value_borrow {s d : ℕ → ℕ} (hs : ∀ i, s i < B) (hd : ∀ i, d i < B) : ∀ n : ℕ,
    value B (fun i => (s i + B - d i - borrow s d i) % B) n + value B d n =
      value B s n + borrow s d n * B ^ n
  | 0 => rfl
  | n + 1 => by
    have ih := value_borrow hs hd n
    have hle := borrow_le_one s d n
    have hsn := hs n
    have hdn := hd n
    have hword : (s n + B - d n - borrow s d n) % B + d n + borrow s d n =
        s n + borrow s d (n + 1) * B := by
      rw [borrow]
      split_ifs with h
      · rw [mod_eq_of_lt (by omega)]
        omega
      · rw [show s n + B - d n - borrow s d n = s n - d n - borrow s d n + B by omega,
          add_mod_right, mod_eq_of_lt (by omega)]
        omega
    rw [value, value, value]
    calc _ = value B (fun i => (s i + B - d i - borrow s d i) % B) n + value B d n +
          ((s n + B - d n - borrow s d n) % B + d n) * B ^ n := by ring
      _ = value B s n + ((s n + B - d n - borrow s d n) % B + d n + borrow s d n) * B ^ n := by
        rw [ih]; ring
      _ = _ := by rw [hword]; ring

/-- There is a borrow if the lower words are less. -/
theorem borrow_eq_zero_iff {s d : ℕ → ℕ} (hs : ∀ i, s i < B) (hd : ∀ i, d i < B) (n : ℕ) :
    borrow s d n = 0 ↔ value B d n ≤ value B s n := by
  have hpos : 0 < B := pos_of_ne_zero fun h => by simpa [h] using hs 0
  have hval := value_borrow hs hd n
  have hlt : value B (fun i => (s i + B - d i - borrow s d i) % B) n < B ^ n :=
    value_lt fun i _ => mod_lt _ hpos
  have hle := borrow_le_one s d n
  constructor
  · intro h
    rw [h] at hval
    omega
  · intro h
    by_contra hne
    rw [show borrow s d n = 1 by omega] at hval
    omega

/-! ## The number of words -/

theorem lt_pow_len (hB : 1 < B) (x : ℕ) : x < B ^ len B x :=
  lt_pow_succ_log_self hB x

theorem pow_le_of_ne_zero (hx : x ≠ 0) : B ^ (len B x - 1) ≤ x :=
  pow_log_le_self B hx

theorem len_pos (B x : ℕ) : 1 ≤ len B x :=
  le_add_left 1 _

theorem len_eq (hn : 1 ≤ n) (hle : n = 1 ∨ B ^ (n - 1) ≤ x) (hlt : x < B ^ n) (hB : 1 < B) :
    len B x = n := by
  by_cases hx : x = 0
  · subst hx
    rcases hle with rfl | hle
    · rw [len, log_zero_right]
    · exact absurd hle (Nat.not_le.2 (Nat.pow_pos (by omega)))
  · obtain ⟨k, rfl⟩ : ∃ k, n = k + 1 := ⟨n - 1, by omega⟩
    have hk : B ^ k ≤ x := by
      rcases hle with h1 | hle
      · rw [show k = 0 by omega, pow_zero]
        exact one_le_iff_ne_zero.2 hx
      · exact hle
    rw [len, (log_eq_iff (.inr ⟨hB, hx⟩)).2 ⟨hk, hlt⟩]

theorem len_mono (h : x ≤ m) : len B x ≤ len B m :=
  succ_le_succ (log_mono_right h)

theorem len_le_of_lt_pow (hn : 1 ≤ n) (h : x < B ^ n) : len B x ≤ n := by
  by_cases hx : x = 0
  · rw [hx, len, log_zero_right]
    exact hn
  · exact log_lt_of_lt_pow hx h

variable (hB : 1 < B)

include hB

theorem len_mul_le (x m : ℕ) : len B (x * m) ≤ len B x + len B m := by
  refine len_le_of_lt_pow (le_add_right_of_le (len_pos B x)) ?_
  rw [pow_add]
  exact mul_lt_mul'' (lt_pow_len hB x) (lt_pow_len hB m)

theorem word_eq_zero (h : len B x ≤ i) : word B x i = 0 := by
  rw [word, div_eq_of_lt ((lt_pow_len hB x).trans_le (Nat.pow_le_pow_right (by omega) h)), zero_mod]

/-- The leading word. -/
def top (B x : ℕ) : ℕ :=
  x / B ^ (len B x - 1)

theorem word_len (x : ℕ) : word B x (len B x - 1) = top B x := by
  refine mod_eq_of_lt ?_
  rw [Nat.div_lt_iff_lt_mul (Nat.pow_pos (by omega)), ← Nat.pow_succ', succ_eq_add_one,
    Nat.sub_add_cancel (len_pos B x)]
  exact lt_pow_len hB x

theorem top_lt (x : ℕ) : top B x < B :=
  word_len hB x ▸ word_lt (by omega) x _

theorem lt_pow_of_word_eq_zero (hlt : x < B ^ (n + 1)) (h : word B x n = 0) : x < B ^ n := by
  have hdiv := div_pow_eq B x n
  rw [h, div_eq_of_lt hlt] at hdiv
  exact lt_of_div_eq_zero (Nat.pow_pos (by omega)) hdiv

theorem len_eq_of_word (hlt : x < B ^ (n + 1)) (h : word B x n ≠ 0) : len B x = n + 1 := by
  refine len_eq (le_add_left 1 n) (.inr (le_of_not_gt fun hlt' : x < B ^ n => h ?_)) hlt hB
  rw [word, div_eq_of_lt hlt', zero_mod]

/-! ## Trial multiples -/

/-- A multiple of `m` from the leading words of `x` and `m` : with the quotient of the leading
words, or of the two leading words of `x` and the one of `m`, where `m` is rounded up. -/
def trial (B m x : ℕ) : ℕ :=
  if top B m < top B x then top B x / (top B m + 1) * m * B ^ (len B x - len B m)
  else if len B m < len B x then
    x / B ^ (len B x - 2) / (top B m + 1) * m * B ^ (len B x - len B m - 1)
  else m

/-- The leading words give a quotient. -/
abbrev Lead (B m x : ℕ) : Prop :=
  top B m < top B x ∨ len B m < len B x

omit hB in
theorem dvd_trial (B m x : ℕ) : m ∣ trial B m x := by
  unfold trial
  split_ifs
  · exact (dvd_mul_left m _).mul_right _
  · exact (dvd_mul_left m _).mul_right _
  · exact dvd_rfl

theorem lt_succ_top_mul (m : ℕ) : m < (top B m + 1) * B ^ (len B m - 1) := by
  rw [top, add_mul, one_mul]
  have := div_add_mod' m (B ^ (len B m - 1))
  have := mod_lt m (pow_pos (n := len B m - 1) (show 0 < B by omega))
  omega

omit hB in
/-- What is rounded down on the left and up on the right can be subtracted. -/
theorem quotient_mul_lt {a t k e : ℕ} (hm : m < (t + 1) * k) (ha : a * (k * e) ≤ x)
    (hq : 0 < a / (t + 1)) (he : 0 < e) : a / (t + 1) * m * e < x :=
  calc a / (t + 1) * m * e < a / (t + 1) * ((t + 1) * k) * e :=
        mul_lt_mul_of_pos_right (mul_lt_mul_of_pos_left hm hq) he
    _ = a / (t + 1) * (t + 1) * (k * e) := by ring
    _ ≤ a * (k * e) := mul_le_mul_right _ (div_mul_le_self _ _)
    _ ≤ x := ha

/-- The trial quotient makes progress. -/
theorem trial_pos_and_lt (hm : m ≠ 0) (hmx : m < x) (h : Lead B m x) :
    0 < trial B m x ∧ trial B m x < x := by
  have hpos : 0 < B := by omega
  have hlen := len_mono (B := B) hmx.le
  have hm1 := len_pos B m
  have hround := lt_succ_top_mul hB m
  unfold trial
  split_ifs with htop hlt
  · have hq : 0 < top B x / (top B m + 1) := div_pos htop (by omega)
    have he : 0 < B ^ (len B x - len B m) := Nat.pow_pos hpos
    refine ⟨mul_pos (mul_pos hq (by omega)) he, quotient_mul_lt hround ?_ hq he⟩
    rw [← pow_add, show len B m - 1 + (len B x - len B m) = len B x - 1 by omega, top]
    exact div_mul_le_self _ _
  · have hx : x ≠ 0 := by omega
    have htwo : B * B ^ (len B x - 2) ≤ x := by
      rw [← Nat.pow_succ', show (len B x - 2).succ = len B x - 1 by omega]
      exact pow_le_of_ne_zero hx
    have hnum : top B m + 1 ≤ x / B ^ (len B x - 2) :=
      (succ_le_of_lt (top_lt hB m)).trans ((Nat.le_div_iff_mul_le (Nat.pow_pos hpos)).2 htwo)
    have hq : 0 < x / B ^ (len B x - 2) / (top B m + 1) := div_pos hnum (by omega)
    have he : 0 < B ^ (len B x - len B m - 1) := Nat.pow_pos hpos
    refine ⟨mul_pos (mul_pos hq (by omega)) he, quotient_mul_lt hround ?_ hq he⟩
    rw [← pow_add, show len B m - 1 + (len B x - len B m - 1) = len B x - 2 by omega]
    exact div_mul_le_self _ _
  · exact absurd h (by omega)

/-- If no leading word gives a quotient, the divisor itself leaves less than the divisor. -/
theorem sub_lt_of_top_le (hm : m ≠ 0) (hmx : m < x) (htop : top B x ≤ top B m)
    (hlen : len B x ≤ len B m) : x - m < m := by
  have hlen' : len B x = len B m := le_antisymm hlen (len_mono hmx.le)
  have hx := lt_succ_top_mul hB x
  have hm' : top B m * B ^ (len B m - 1) ≤ m := div_mul_le_self _ _
  have hone : B ^ (len B m - 1) ≤ m := pow_le_of_ne_zero hm
  have hle : (top B x + 1) * B ^ (len B x - 1) ≤ (top B m + 1) * B ^ (len B m - 1) := by
    rw [hlen']
    exact mul_le_mul_right _ (by omega)
  rw [add_mul (top B m), one_mul] at hle
  omega

/-- What is left of `x` when trial multiples of `m` are subtracted as long as the leading words give
one. -/
def trialRest (B m x : ℕ) : ℕ :=
  if 1 < B ∧ m ≠ 0 ∧ m < x ∧ (top B m < top B x ∨ len B m < len B x) then
    trialRest B m (x - trial B m x)
  else x
termination_by x
decreasing_by
  rename_i h
  obtain ⟨hB, hm, hmx, hlead⟩ := h
  have htrial := trial_pos_and_lt hB hm hmx hlead
  omega

theorem trialRest_of_lead (hm : m ≠ 0) (hmx : m < x) (h : Lead B m x) :
    trialRest B m x = trialRest B m (x - trial B m x) := by
  rw [trialRest, if_pos ⟨hB, hm, hmx, h⟩]

omit hB in
theorem trialRest_of_not_lead (h : ¬(m < x ∧ Lead B m x)) : trialRest B m x = x := by
  rw [trialRest, if_neg fun hand => h hand.2.2]

/-- Induction along the trial multiples. -/
theorem trial_induction (hm : m ≠ 0) {P : ℕ → Prop}
    (hdone : ∀ x, ¬(m < x ∧ Lead B m x) → P x)
    (hstep : ∀ x, m < x → Lead B m x → P (x - trial B m x) → P x) (x : ℕ) : P x := by
  induction x using Nat.strongRecOn with
  | ind x ih =>
    by_cases h : m < x ∧ Lead B m x
    · have htrial := trial_pos_and_lt hB hm h.1 h.2
      exact hstep x h.1 h.2 (ih _ (by omega))
    · exact hdone x h

/-- The rest differs from the number by a multiple, and is less than twice the divisor. -/
theorem trialRest_spec (hm : m ≠ 0) (x : ℕ) : trialRest B m x ≤ x ∧
    m ∣ x - trialRest B m x ∧ trialRest B m x < 2 * m ∧ (0 < x → 0 < trialRest B m x) := by
  induction x using trial_induction hB hm with
  | hdone x h =>
    rw [trialRest_of_not_lead h]
    refine ⟨le_rfl, by rw [Nat.sub_self]; exact Nat.dvd_zero m, ?_, id⟩
    by_cases hmx : m < x
    · have hnot := fun hlead => h ⟨hmx, hlead⟩
      have hlt := sub_lt_of_top_le hB hm hmx (by omega) (by omega)
      omega
    · omega
  | hstep x hmx hlead ih =>
    obtain ⟨hpos, hlt⟩ := trial_pos_and_lt hB hm hmx hlead
    obtain ⟨hle, hdvd, hrest, hpos'⟩ := ih
    rw [trialRest_of_lead hB hm hmx hlead]
    refine ⟨by omega, ?_, hrest, fun _ => hpos' (by omega)⟩
    have hsum := Nat.dvd_add hdvd (dvd_trial B m x)
    rwa [show x - trial B m x - trialRest B m (x - trial B m x) + trial B m x =
      x - trialRest B m (x - trial B m x) by omega] at hsum

end Limbs
