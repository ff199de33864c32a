import OpenHMR.Dyadic

/-!
# Halving a block

A block falls into a left and a right half. Halving the right half again and again leaves the left
halves `b.leftHalves n`, of the sizes 1/2, 1/4, … of the block, and one last block `b.rest n` at its
end; together they are the block (`Block.mem_span_iff_halves`), and no two of them meet.
-/

namespace Buddy

open Nat

namespace Block

variable {b c : Block} {n x : ℕ}

/-- The first half. -/
def left (b : Block) : Block :=
  ⟨b.head, b.order - 1⟩

/-- The second half. -/
def right (b : Block) : Block :=
  ⟨b.head + 2 ^ (b.order - 1), b.order - 1⟩

/-- What is left at the end of a block after halving it `n` times. -/
def rest : Block → ℕ → Block
  | b, 0 => b
  | b, n + 1 => b.right.rest n

/-- The left halves that halving a block `n` times gives, the last one first. -/
def leftHalves : Block → ℕ → List Block
  | _, 0 => []
  | b, n + 1 => b.right.leftHalves n ++ [b.left]

theorem mem_span_iff_left_right (h : b.order ≠ 0) :
    x ∈ b.span ↔ x ∈ b.left.span ∨ x ∈ b.right.span := by
  obtain ⟨head, order⟩ := b
  obtain ⟨k, rfl⟩ := Nat.exists_eq_succ_of_ne_zero h
  simp only [span, left, right, Set.mem_Ico, Nat.succ_eq_add_one, Nat.add_sub_cancel, Nat.pow_succ]
  omega

theorem disjoint_left_right (b : Block) : Disjoint b.left.span b.right.span := by
  refine Set.disjoint_left.2 fun x hl hr => ?_
  simp only [span, left, right, Set.mem_Ico] at hl hr
  omega

theorem rest_order : ∀ (n : ℕ) (b : Block), (b.rest n).order = b.order - n
  | 0, _ => rfl
  | n + 1, b => by
    rw [rest, rest_order n, right]
    dsimp only
    omega

theorem rest_head : ∀ {n : ℕ} {b : Block}, n ≤ b.order →
    (b.rest n).head + 2 ^ (b.order - n) = b.head + 2 ^ b.order
  | 0, _, _ => rfl
  | n + 1, b, h => by
    have ih := rest_head (n := n) (b := b.right) (by simp only [right]; omega)
    obtain ⟨k, hk⟩ := exists_eq_succ_of_ne_zero (show b.order ≠ 0 by omega)
    simp only [right, hk, Nat.succ_eq_add_one, Nat.add_sub_cancel] at ih
    simp only [rest, right, hk, Nat.succ_eq_add_one, Nat.add_sub_add_right, Nat.add_sub_cancel]
    rw [ih, Nat.pow_succ]
    omega

theorem rest_span_subset : ∀ {n : ℕ} {b : Block}, n ≤ b.order → (b.rest n).span ⊆ b.span
  | 0, _, _ => subset_rfl
  | n + 1, b, h => fun x hx => by
    have hr : n ≤ b.right.order := by simp only [right]; omega
    exact (mem_span_iff_left_right (by omega)).2 (.inr (rest_span_subset hr hx))

/-- The left halves and the rest are the block. -/
theorem mem_span_iff_halves : ∀ {n : ℕ} {b : Block}, n ≤ b.order →
    (x ∈ b.span ↔ (∃ c ∈ b.leftHalves n, x ∈ c.span) ∨ x ∈ (b.rest n).span)
  | 0, b, _ => by simp [leftHalves, rest]
  | n + 1, b, h => by
    have hr : n ≤ b.right.order := by simp only [right]; omega
    rw [mem_span_iff_left_right (by omega), mem_span_iff_halves hr, leftHalves, rest]
    simp only [List.mem_append, List.mem_singleton, or_and_right, exists_or, exists_eq_left]
    rw [← or_assoc, or_comm (a := x ∈ b.left.span)]

theorem leftHalves_span_subset (h : n ≤ b.order) (hc : c ∈ b.leftHalves n) : c.span ⊆ b.span :=
  fun _ hx => (mem_span_iff_halves h).2 (.inl ⟨c, hc, hx⟩)

theorem leftHalves_disjoint : ∀ {n : ℕ} {b : Block}, n ≤ b.order →
    (b.leftHalves n).Pairwise fun c d => Disjoint c.span d.span
  | 0, _, _ => .nil
  | n + 1, b, h => by
    have hr : n ≤ b.right.order := by simp only [right]; omega
    refine List.pairwise_append.2 ⟨leftHalves_disjoint hr, List.pairwise_singleton _ _, ?_⟩
    intro c hc d hd
    obtain rfl := List.mem_singleton.1 hd
    exact b.disjoint_left_right.symm.mono_left (leftHalves_span_subset hr hc)

theorem leftHalves_disjoint_rest : ∀ {n : ℕ} {b : Block}, n ≤ b.order →
    ∀ c ∈ b.leftHalves n, Disjoint c.span (b.rest n).span
  | n + 1, b, h, c, hc => by
    have hr : n ≤ b.right.order := by simp only [right]; omega
    rcases List.mem_append.1 hc with hc | hc
    · exact leftHalves_disjoint_rest hr c hc
    · obtain rfl := List.mem_singleton.1 hc
      exact b.disjoint_left_right.mono_right (rest_span_subset (b := b.right) hr)

/-- What is before the rest is in the left halves. -/
theorem mem_leftHalves_iff (h : n ≤ b.order) :
    (∃ c ∈ b.leftHalves n, x ∈ c.span) ↔ x ∈ b.span ∧ x ∉ (b.rest n).span := by
  refine ⟨?_, fun hx => ((mem_span_iff_halves h).1 hx.1).resolve_right hx.2⟩
  rintro ⟨c, hc, hx⟩
  exact ⟨leftHalves_span_subset h hc hx, Set.disjoint_left.1 (leftHalves_disjoint_rest h c hc) hx⟩

theorem Aligned.left_right (hb : b.Aligned) :
    b.left.Aligned ∧ b.right.Aligned := by
  have hdvd : 2 ^ (b.order - 1) ∣ b.head := (pow_dvd_pow 2 (sub_le _ _)).trans hb
  exact ⟨hdvd, dvd_add hdvd (dvd_refl _)⟩

/-- The parts of an aligned block are aligned. -/
theorem Aligned.halves : ∀ {n : ℕ} {b : Block}, b.Aligned → n ≤ b.order →
    (∀ c ∈ b.leftHalves n, c.Aligned) ∧ (b.rest n).Aligned
  | 0, _, hb, _ => ⟨fun _ hc => absurd hc (List.not_mem_nil), hb⟩
  | n + 1, b, hb, h => by
    obtain ⟨hl, hr⟩ := hb.left_right
    obtain ⟨hhalves, hrest⟩ := Aligned.halves (n := n) hr (by simp only [right]; omega)
    refine ⟨fun c hc => ?_, hrest⟩
    rcases List.mem_append.1 hc with hc | hc
    · exact hhalves c hc
    · exact List.mem_singleton.1 hc ▸ hl

/-- `c` is one of the blocks that halving `b` gives. -/
def Piece (b c : Block) : Prop :=
  ∃ n ≤ b.order, c ∈ b.leftHalves n ∨ c = b.rest n

end Block

end Buddy
