import OpenHMR.MaximalBlocks

/-!
# Buddy stores

A store keeps a set of blocks in some concrete form. `Store` says what an allocator needs
from it : put a block in, take one off, test whether a block is in. `Store.carve` hands
out the first `2 ^ l` numbers of a block and puts the right halves back, `Store.climb`
merges a block upwards while its buddy is in the store.

If the store holds the maximal blocks of `U`, then after `take` and `carve` it holds the
maximal blocks of `U` without the block handed out (`Store.rep_alloc`), and after `climb`
and `put` those of `U` with the block given back (`Store.rep_free`).
-/

namespace Buddy

open Set

/-- A store of blocks of order at least `lo` with heads in `heads`. -/
structure Store (σ : Type*) where
  /-- Put a block in. -/
  put : Block → σ → σ
  /-- Take a block off. -/
  take : Block → σ → σ
  /-- Test whether a block is in. -/
  isFree : σ → Block → Bool
  /-- The blocks a state holds. -/
  Rep : σ → Set Block → Prop
  /-- The least order the store can tell from nothing. -/
  lo : ℕ
  /-- The heads the store can hold. -/
  heads : Set ℕ
  rep_put : ∀ {s F b}, Rep s F → lo ≤ b.order → b.head ∈ heads →
    (∀ c ∈ F, c.head ≠ b.head) → Rep (put b s) (insert b F)
  rep_take : ∀ {s F b}, Rep s F → b ∈ F → (∀ c ∈ F, c.head = b.head → c = b) →
    Rep (take b s) (F \ {b})
  isFree_iff : ∀ {s F b}, Rep s F → lo ≤ b.order → (isFree s b = true ↔ b ∈ F)

namespace Store

variable {σ : Type*} (S : Store σ) {M : ℕ} {U : Set ℕ} {s : σ} {b : Block}

/-- From a block of order `h` at `i`, put back the right halves down to order `l`. -/
def carve (i l : ℕ) : ℕ → σ → σ
  | 0, s => s
  | h + 1, s => if l < h + 1 then carve i l h (S.put ⟨i + 2 ^ h, h⟩ s) else s

/-- Merge `b` with its buddy, at most `n` times, while the buddy is in the store. -/
def climb : ℕ → Block → σ → Block × σ
  | 0, b, s => (b, s)
  | n + 1, b, s =>
    if S.isFree s b.buddy then climb n b.parent (S.take b.buddy s) else (b, s)

variable {S}

theorem rep_put_maximal (hs : S.Rep s (maximal M U)) (hb : b.Aligned) (hlo : S.lo ≤ b.order)
    (hM : b.order ≤ M) (hh : b.head ∈ S.heads) (hdisj : Disjoint b.span U)
    (hbuddy : b.order < M → b.buddy ∉ maximal M U) :
    S.Rep (S.put b s) (maximal M (U ∪ b.span)) := by
  rw [maximal_union hb hM hdisj hbuddy]
  refine S.rep_put hs hlo hh fun c hc he => ?_
  exact disjoint_left.1 hdisj b.head_mem_span
    (he ▸ span_subset_of_mem_maximal hc c.head_mem_span)

theorem rep_take_maximal (hs : S.Rep s (maximal M U)) (hb : b ∈ maximal M U) :
    S.Rep (S.take b s) (maximal M (U \ b.span)) := by
  rw [maximal_diff hb]
  exact S.rep_take hs hb fun c hc he => eq_of_head_eq hc hb he

/-- The halves of the block of order `h` at `i` that `carve` puts back. -/
theorem rep_carve {i l : ℕ} (hlo : S.lo ≤ l) :
    ∀ {h : ℕ} {s : σ} {U : Set ℕ}, S.Rep s (maximal M U) → Block.Aligned ⟨i, h⟩ → l ≤ h →
      h ≤ M → (⟨i, h⟩ : Block).span ⊆ S.heads → Disjoint (⟨i, h⟩ : Block).span U →
      S.Rep (S.carve i l h s)
        (maximal M (U ∪ (⟨i, h⟩ : Block).span \ (⟨i, l⟩ : Block).span))
  | 0, s, U, hs, _, hl, _, _, _ => by
    obtain rfl : l = 0 := Nat.le_zero.1 hl
    simpa [carve] using hs
  | h + 1, s, U, hs, ha, hl, hM, hh, hdisj => by
    rw [carve]
    split_ifs with hlt
    · have hpar := ha.left.span_parent
      rw [ha.parent_left, ← ha.right_eq] at hpar
      have hlr := ha.left.disjoint_buddy
      rw [← ha.right_eq] at hlr
      have hright : (⟨i + 2 ^ h, h⟩ : Block).Aligned := ha.right_eq ▸ ha.left.buddy
      have hput := maximal_union_right (M := M) ha (by omega) hdisj
      have hs' : S.Rep (S.put ⟨i + 2 ^ h, h⟩ s)
          (maximal M (U ∪ (⟨i + 2 ^ h, h⟩ : Block).span)) := by
        rw [hput]
        refine S.rep_put hs (by simp only; omega) (hh ?_) fun c hc he => ?_
        · exact hpar ▸ .inr (Block.head_mem_span _)
        · exact disjoint_left.1 hdisj (hpar ▸ .inr (Block.head_mem_span ⟨i + 2 ^ h, h⟩))
            (he ▸ span_subset_of_mem_maximal hc c.head_mem_span)
      have hl' : (⟨i, l⟩ : Block).span ⊆ (⟨i, h⟩ : Block).span := by
        have hal : Block.Aligned ⟨i, l⟩ :=
          (Nat.pow_dvd_pow 2 (Nat.lt_succ_iff.1 hlt)).trans ha.left
        exact hal.span_subset ha.left (Nat.lt_succ_iff.1 hlt) (Block.head_mem_span _)
          (Block.head_mem_span ⟨i, h⟩)
      have := rep_carve hlo hs' ha.left (by omega) (by omega)
        ((hpar ▸ subset_union_left : (⟨i, h⟩ : Block).span ⊆ _).trans hh) ?_
      · convert this using 2
        rw [hpar]
        ext x
        have h1 := @hl' x
        have h2 : x ∈ (⟨i, h⟩ : Block).span → x ∉ (⟨i + 2 ^ h, h⟩ : Block).span :=
          fun hx => disjoint_left.1 hlr hx
        simp only [mem_union, mem_sdiff]
        tauto
      · refine disjoint_left.2 fun x hx hx' => ?_
        rcases hx' with hx' | hx'
        · exact disjoint_left.1 hdisj (hpar ▸ .inl hx) hx'
        · exact disjoint_left.1 hlr hx hx'
    · obtain rfl : l = h + 1 := by omega
      simpa using hs

/-- Carving a maximal block that was taken off hands out its first `2 ^ l` numbers. -/
theorem rep_alloc {l : ℕ} (hb : b ∈ maximal M U) (hs : S.Rep s (maximal M (U \ b.span)))
    (hlo : S.lo ≤ l) (hl : l ≤ b.order) (hU : U ⊆ S.heads) :
    S.Rep (S.carve b.head l b.order s) (maximal M (U \ (⟨b.head, l⟩ : Block).span)) := by
  have hsub := span_subset_of_mem_maximal hb
  have hl' : (⟨b.head, l⟩ : Block).span ⊆ b.span := by
    have hal : Block.Aligned ⟨b.head, l⟩ := (Nat.pow_dvd_pow 2 hl).trans hb.1
    exact hal.span_subset hb.1 hl (Block.head_mem_span _) b.head_mem_span
  have := rep_carve (i := b.head) hlo hs hb.1 hl hb.2.1 (hsub.trans hU)
    (disjoint_left.2 fun x hx hx' => hx'.2 hx)
  convert this using 2
  ext x
  have h1 := @hl' x
  have h2 := @hsub x
  simp only [mem_union, mem_sdiff]
  tauto

/-- Climbing with a block outside `U` and putting the result in adds the block to `U`. -/
theorem rep_free :
    ∀ {n : ℕ} {b : Block} {s : σ} {U : Set ℕ}, S.Rep s (maximal M U) → b.Aligned →
      S.lo ≤ b.order → b.order + n = M → U ∪ b.span ⊆ S.heads → Disjoint b.span U →
      S.Rep (S.put (S.climb n b s).1 (S.climb n b s).2) (maximal M (U ∪ b.span))
  | 0, b, s, U, hs, ha, hlo, hn, hh, hdisj => by
    have hM : b.order = M := hn
    exact rep_put_maximal hs ha hlo hM.le (hh (.inr b.head_mem_span)) hdisj
      fun h => absurd hM h.ne
  | n + 1, b, s, U, hs, ha, hlo, hn, hh, hdisj => by
    rw [climb]
    split_ifs with hfree
    · have hmem := (S.isFree_iff (b := b.buddy) hs hlo).1 hfree
      have hbU := span_subset_of_mem_maximal hmem
      have hunion := diff_buddy_union_parent ha hbU
      rw [← hunion]
      refine rep_free (rep_take_maximal hs hmem) ha.parent (by rw [Block.parent_order]; omega)
        (by rw [Block.parent_order]; omega) (hunion ▸ hh) ?_
      rw [ha.span_parent]
      refine disjoint_left.2 fun x hx hx' => ?_
      exact hx.elim (fun hx => disjoint_left.1 hdisj hx hx'.1) hx'.2
    · have hM : b.order ≤ M := by omega
      exact rep_put_maximal hs ha hlo hM (hh (.inr b.head_mem_span)) hdisj
        fun _ hmem => hfree ((S.isFree_iff (b := b.buddy) hs hlo).2 hmem)

end Store

end Buddy
