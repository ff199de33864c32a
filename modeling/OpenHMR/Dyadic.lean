import Mathlib.Data.Nat.Bitwise
import Mathlib.Data.Set.Lattice
import Mathlib.Order.Interval.Set.Basic
import Mathlib.Tactic
import Mathlib.Order.CompletePartialOrder

/-!
# Dyadic blocks

A block is `2 ^ order` consecutive numbers from `head`. It is aligned if `head` is a
multiple of its size, and then the block is the fibre of `x ↦ x / 2 ^ order` over its
`index` (`Block.Aligned.mem_span`). Two aligned blocks that meet are nested
(`Block.Aligned.span_subset`), so aligned blocks form a binary tree : the other half of
the block above `b` is `b.buddy`, the block above it `b.parent`, and the two halves make
up the parent (`Block.Aligned.span_parent`).

The buddy and the parent are the bit operations of a buddy allocator : flip bit `order`
of the head, clear bit `order` of the head.
-/

namespace Buddy

open Nat

/-- The bits of `x` that are not in `m`, `x & ~m` in C. -/
def clear (x m : ℕ) : ℕ :=
  x ^^^ (x &&& m)

theorem testBit_clear (x m i : ℕ) : (clear x m).testBit i = (x.testBit i && !m.testBit i) := by
  rw [clear, testBit_xor, testBit_and]
  cases x.testBit i <;> cases m.testBit i <;> rfl

/-- `2 ^ order` consecutive numbers from `head`. -/
structure Block where
  /-- The first number. -/
  head : ℕ
  /-- The logarithm of the length. -/
  order : ℕ
deriving DecidableEq, Repr

namespace Block

/-- The numbers of a block. -/
def span (b : Block) : Set ℕ :=
  Set.Ico b.head (b.head + 2 ^ b.order)

/-- The head is a multiple of the size. -/
def Aligned (b : Block) : Prop :=
  2 ^ b.order ∣ b.head

instance (b : Block) : Decidable b.Aligned :=
  inferInstanceAs (Decidable (_ ∣ _))

/-- The number of the block among the blocks of its order. -/
def index (b : Block) : ℕ :=
  b.head / 2 ^ b.order

/-- The other half of the block above `b`. -/
def buddy (b : Block) : Block :=
  ⟨b.head ^^^ 2 ^ b.order, b.order⟩

/-- The block of the next order that `b` is half of. -/
def parent (b : Block) : Block :=
  ⟨clear b.head (2 ^ b.order), b.order + 1⟩

section

variable {b : Block}

variable {x u k n : ℕ}

theorem mem_span : x ∈ b.span ↔ b.head ≤ x ∧ x < b.head + 2 ^ b.order :=
  Iff.rfl

theorem head_mem_span (b : Block) : b.head ∈ b.span :=
  ⟨le_rfl, Nat.lt_add_of_pos_right (Nat.two_pow_pos _)⟩

@[simp] theorem buddy_order (b : Block) : b.buddy.order = b.order :=
  rfl

@[simp] theorem parent_order (b : Block) : b.parent.order = b.order + 1 :=
  rfl

/-! ## Heads and indices -/

theorem Aligned.head_eq (hb : b.Aligned) : b.head = b.index * 2 ^ b.order :=
  (Nat.div_mul_cancel hb).symm

/-- An aligned block is a fibre of division by its size. -/
theorem Aligned.mem_span (hb : b.Aligned) :
    x ∈ b.span ↔ x / 2 ^ b.order = b.index := by
  rw [Block.mem_span, hb.head_eq, Nat.div_eq_iff (Nat.two_pow_pos _)]
  have := Nat.two_pow_pos b.order
  omega

/-- Aligned blocks are their order and index. -/
theorem Aligned.ext {b c : Block} (hb : b.Aligned) (hc : c.Aligned) (ho : b.order = c.order)
    (hi : b.index = c.index) : b = c := by
  have h : b.head = c.head := by rw [hb.head_eq, hc.head_eq, ho, hi]
  cases b
  cases c
  simp_all

theorem xor_one_eq (q : ℕ) : q ^^^ 1 = if q % 2 = 0 then q + 1 else q - 1 := by
  split_ifs with h
  · exact xor_one_of_even (even_iff.2 h)
  · exact xor_one_of_odd (odd_iff.2 (by omega))

theorem mul_two_pow_xor (q k : ℕ) : q * 2 ^ k ^^^ 2 ^ k = (q ^^^ 1) * 2 ^ k := by
  have h := shiftLeft_xor_distrib (a := q) (b := 1) (i := k)
  simpa [shiftLeft_eq] using h.symm

theorem clear_mul_two_pow (q k : ℕ) : clear (q * 2 ^ k) (2 ^ k) = q / 2 * 2 ^ (k + 1) := by
  apply eq_of_testBit_eq
  intro i
  rw [testBit_clear, testBit_mul_two_pow, testBit_mul_two_pow, testBit_two_pow, testBit_div_two]
  rcases lt_trichotomy i k with h | rfl | h
  · simp [not_le.2 h, not_le.2 (lt_succ_of_lt h)]
  · simp
  · have hik : i - (k + 1) + 1 = i - k := by omega
    simp [h.le, h.ne, hik, succ_le_of_lt h]

/-- Flipping bit `k` below bit `n` only changes the number modulo `2 ^ n`. -/
theorem add_mod_xor_sub (hk : k < n) :
    u + (u % 2 ^ n ^^^ 2 ^ k) - u % 2 ^ n = u ^^^ 2 ^ k := by
  have hr : u % 2 ^ n < 2 ^ n := mod_lt _ (Nat.two_pow_pos _)
  have hx : u % 2 ^ n ^^^ 2 ^ k < 2 ^ n :=
    xor_lt_two_pow hr (Nat.pow_lt_pow_right (by norm_num) hk)
  have hdm := div_add_mod u (2 ^ n)
  have hu : u ^^^ 2 ^ k = 2 ^ n * (u / 2 ^ n) + (u % 2 ^ n ^^^ 2 ^ k) := by
    apply eq_of_testBit_eq
    intro j
    conv_lhs => rw [← hdm]
    rw [testBit_xor, testBit_two_pow_mul_add _ hr, testBit_two_pow_mul_add _ hx,
      testBit_xor, testBit_two_pow]
    split_ifs with hj
    · rfl
    · simp [show k ≠ j by omega]
  omega

/-- Clearing bit `k` below bit `n` only changes the number modulo `2 ^ n`. -/
theorem add_mod_clear_sub (hk : k < n) :
    u + clear (u % 2 ^ n) (2 ^ k) - u % 2 ^ n = clear u (2 ^ k) := by
  have hr : u % 2 ^ n < 2 ^ n := mod_lt _ (Nat.two_pow_pos _)
  have hx : clear (u % 2 ^ n) (2 ^ k) < 2 ^ n := by
    refine lt_pow_two_of_testBit _ fun j hj => ?_
    rw [testBit_clear, testBit_lt_two_pow (hr.trans_le (Nat.pow_le_pow_right two_pos hj))]
    rfl
  have hdm := div_add_mod u (2 ^ n)
  have hu : clear u (2 ^ k) = 2 ^ n * (u / 2 ^ n) + clear (u % 2 ^ n) (2 ^ k) := by
    apply eq_of_testBit_eq
    intro j
    conv_lhs => rw [← hdm]
    rw [testBit_clear, testBit_two_pow_mul_add _ hr, testBit_two_pow_mul_add _ hx,
      testBit_clear, testBit_two_pow]
    split_ifs with hj
    · rfl
    · simp [show k ≠ j by omega]
  omega

/-- Clearing bit `k` below bit `n` commutes with reducing modulo `2 ^ n`. -/
theorem clear_mod_two_pow : clear u (2 ^ k) % 2 ^ n =
    clear (u % 2 ^ n) (2 ^ k) := by
  apply eq_of_testBit_eq
  intro j
  rw [testBit_mod_two_pow, testBit_clear, testBit_clear, testBit_mod_two_pow, Bool.and_assoc]

variable (hb : b.Aligned)

include hb

theorem Aligned.buddy_head :
    b.buddy.head = (b.index ^^^ 1) * 2 ^ b.order := by
  rw [← mul_two_pow_xor, ← hb.head_eq]
  rfl

theorem Aligned.parent_head :
    b.parent.head = b.index / 2 * 2 ^ (b.order + 1) := by
  rw [← clear_mul_two_pow, ← hb.head_eq]
  rfl

theorem Aligned.buddy : b.buddy.Aligned :=
  ⟨b.index ^^^ 1, by rw [hb.buddy_head, mul_comm, buddy_order]⟩

theorem Aligned.parent : b.parent.Aligned :=
  ⟨b.index / 2, by rw [hb.parent_head, mul_comm, parent_order]⟩

theorem Aligned.index_buddy : b.buddy.index = b.index ^^^ 1 := by
  rw [Block.index, hb.buddy_head, buddy_order, Nat.mul_div_cancel _ (Nat.two_pow_pos _)]

theorem Aligned.index_parent : b.parent.index = b.index / 2 := by
  rw [Block.index, hb.parent_head, parent_order, Nat.mul_div_cancel _ (Nat.two_pow_pos _)]

omit hb in
@[simp] theorem buddy_buddy (b : Block) : b.buddy.buddy = b := by
  simp [Block.buddy]

theorem Aligned.parent_buddy : b.buddy.parent = b.parent := by
  refine hb.buddy.parent.ext hb.parent rfl ?_
  rw [hb.buddy.index_parent, hb.index_parent, hb.index_buddy, xor_one_eq]
  split_ifs <;> omega

/-! ## The tree of aligned blocks -/

omit hb in
theorem div_two_pow_succ (x k : ℕ) : x / 2 ^ (k + 1) = x / 2 ^ k / 2 := by
  rw [pow_succ, Nat.div_div_eq_div_mul]

/-- The two halves make up the parent. -/
theorem Aligned.span_parent :
    b.parent.span = b.span ∪ b.buddy.span := by
  ext x
  rw [Set.mem_union, hb.parent.mem_span, hb.mem_span, hb.buddy.mem_span, hb.index_parent,
    hb.index_buddy, parent_order, buddy_order, div_two_pow_succ, xor_one_eq]
  split_ifs <;> omega

theorem Aligned.disjoint_buddy : Disjoint b.span b.buddy.span := by
  refine Set.disjoint_left.2 fun x hx hx' => ?_
  rw [hb.mem_span] at hx
  rw [hb.buddy.mem_span, hb.index_buddy, buddy_order, hx, xor_one_eq] at hx'
  split_ifs at hx' <;> omega

theorem Aligned.span_subset_parent : b.span ⊆ b.parent.span := by
  rw [hb.span_parent]
  exact Set.subset_union_left

end

variable {c : Block} {x i k : ℕ}

/-- Aligned blocks that meet are nested. -/
theorem Aligned.span_subset {b : Block} (hb : b.Aligned) (hc : c.Aligned)
    (ho : b.order ≤ c.order) (hxb : x ∈ b.span) (hxc : x ∈ c.span) :
    b.span ⊆ c.span := by
  intro y hy
  rw [hb.mem_span] at hxb hy
  rw [hc.mem_span] at hxc ⊢
  obtain ⟨d, hd⟩ := Nat.exists_eq_add_of_le ho
  rw [← hxc, hd, pow_add, ← Nat.div_div_eq_div_mul, ← Nat.div_div_eq_div_mul, hxb, hy]

/-- Aligned blocks of one order that meet are equal. -/
theorem Aligned.eq_of_order_eq {b : Block} (hb : b.Aligned) (hc : c.Aligned)
    (ho : b.order = c.order) (hxb : x ∈ b.span) (hxc : x ∈ c.span) : b = c := by
  rw [hb.mem_span] at hxb
  rw [hc.mem_span, ← ho] at hxc
  exact hb.ext hc ho (hxb.symm.trans hxc)

/-- An aligned block that a larger one meets has its parent inside the larger one. -/
theorem Aligned.parent_subset {b : Block} (hb : b.Aligned) (hc : c.Aligned)
    (ho : b.order < c.order) (hxb : x ∈ b.span) (hxc : x ∈ c.span) :
    b.parent.span ⊆ c.span :=
  hb.parent.span_subset hc ho (hb.span_subset_parent hxb) hxc

theorem order_le_of_span_subset {b : Block} (h : b.span ⊆ c.span) : b.order ≤ c.order := by
  have h1 := h b.head_mem_span
  have h2 : b.head + (2 ^ b.order - 1) ∈ c.span := by
    refine h ⟨by omega, ?_⟩
    have := Nat.two_pow_pos b.order
    omega
  rw [mem_span] at h1 h2
  have hle : 2 ^ b.order ≤ 2 ^ c.order := by
    have := Nat.two_pow_pos b.order
    omega
  exact (Nat.pow_le_pow_iff_right (by norm_num)).1 hle

/-- The left half of an aligned block. -/
theorem Aligned.left (hb : Aligned ⟨i, k + 1⟩) : Aligned ⟨i, k⟩ :=
  (pow_dvd_pow 2 (le_succ k)).trans hb

/-- The right half of an aligned block is the buddy of the left half. -/
theorem Aligned.right_eq (hb : Aligned ⟨i, k + 1⟩) :
    (⟨i + 2 ^ k, k⟩ : Block) = Block.buddy ⟨i, k⟩ := by
  have hl := hb.left
  obtain ⟨c, hc⟩ := hb
  have hi : Block.index ⟨i, k⟩ = 2 * c := by
    simp only [Block.index] at hc ⊢
    rw [hc, Nat.pow_succ, mul_assoc, Nat.mul_div_cancel_left _ (Nat.two_pow_pos _)]
  have hd := Aligned.buddy_head hl
  have hh := Aligned.head_eq hl
  rw [hi] at hd hh
  rw [xor_one_eq, if_pos (by omega)] at hd
  simp only at hd hh
  have : (Block.buddy ⟨i, k⟩).head = i + 2 ^ k := by
    rw [hd, hh]
    ring
  rw [← this]
  rfl

/-- A block below `n` whose buddy is not below `n` ends at `n`, and is a left half. -/
theorem Aligned.eq_last (hc : c.Aligned) {n : ℕ} (hin : c.head + 2 ^ c.order ≤ n)
    (hout : n ≤ c.buddy.head) :
    c.head + 2 ^ c.order = n ∧ n % 2 ^ (c.order + 1) = 2 ^ c.order := by
  have hb := hc.buddy_head
  have hh := hc.head_eq
  rw [xor_one_eq] at hb
  split_ifs at hb with heven
  · rw [add_mul, one_mul, ← hh] at hb
    have hn : c.head + 2 ^ c.order = n := by omega
    have hhead : c.head = 2 ^ (c.order + 1) * (c.index / 2) := by
      have hq : c.index = 2 * (c.index / 2) := by omega
      rw [hh, pow_succ]
      conv_lhs => rw [hq]
      ring
    refine ⟨hn, ?_⟩
    rw [← hn, hhead, mul_add_mod]
    exact mod_eq_of_lt (Nat.pow_lt_pow_right (by norm_num) (lt_succ_self _))
  · have hpos := Nat.two_pow_pos c.order
    have : (c.index - 1) * 2 ^ c.order ≤ c.index * 2 ^ c.order :=
      mul_le_mul_right _ (sub_le _ _)
    omega

theorem Aligned.parent_left (hb : Aligned ⟨i, k + 1⟩) :
    Block.parent ⟨i, k⟩ = ⟨i, k + 1⟩ := by
  refine hb.left.parent.eq_of_order_eq hb rfl (hb.left.span_subset_parent ?_) (head_mem_span _)
  exact head_mem_span ⟨i, k⟩

end Block

/-! ## Lists of blocks -/

/-- The numbers of the blocks of a list. -/
def spans (l : List Block) : Set ℕ :=
  {x | ∃ b ∈ l, x ∈ b.span}

/-- The blocks of a list do not overlap. -/
def Apart (l : List Block) : Prop :=
  l.Pairwise fun b c => Disjoint b.span c.span

variable {l : List Block} {b : Block}

theorem mem_spans {x : ℕ} : x ∈ spans l ↔ ∃ b ∈ l, x ∈ b.span :=
  Iff.rfl

@[simp] theorem spans_nil : spans [] = ∅ := by
  ext x
  simp [mem_spans]

@[simp] theorem spans_cons : spans (b :: l) = b.span ∪ spans l := by
  ext x
  simp [mem_spans]

theorem span_subset_spans (hb : b ∈ l) : b.span ⊆ spans l :=
  fun _ hx => ⟨b, hb, hx⟩

theorem Apart.cons_erase (h : Apart l) (hb : b ∈ l) : Apart (b :: l.erase b) :=
  (List.perm_cons_erase hb).pairwise h fun hd => hd.symm

theorem apart_cons : Apart (b :: l) ↔ Disjoint b.span (spans l) ∧ Apart l := by
  refine List.pairwise_cons.trans (and_congr_left fun _ => ?_)
  refine ⟨fun h => Set.disjoint_left.2 ?_, fun h c hc => h.mono_right (span_subset_spans hc)⟩
  rintro x hx ⟨c, hc, hxc⟩
  exact Set.disjoint_left.1 (h c hc) hx hxc

theorem Apart.erase (h : Apart l) (hb : b ∈ l) : Apart (l.erase b) :=
  (apart_cons.1 (h.cons_erase hb)).2

/-- Without `b`, a list of disjoint blocks covers what it covered outside `b`. -/
theorem Apart.spans_erase (h : Apart l) (hb : b ∈ l) : spans (l.erase b) = spans l \ b.span := by
  have hd := (apart_cons.1 (h.cons_erase hb)).1
  have hu : spans l = b.span ∪ spans (l.erase b) := by
    rw [← spans_cons]
    ext x
    simp only [mem_spans, (List.perm_cons_erase hb).mem_iff]
  rw [hu, Set.union_sdiff_left, hd.sdiff_eq_right]

end Buddy
