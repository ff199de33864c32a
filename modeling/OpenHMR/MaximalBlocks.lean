import OpenHMR.Dyadic

/-!
# The maximal aligned blocks of a set

What a buddy allocator keeps on its free lists is determined by the set `U` of free
numbers alone : `maximal M U` is the set of aligned blocks of order at most `M` inside `U`
whose parent is not inside `U`. Its blocks are pairwise disjoint (`eq_of_mem_maximal`),
cover `U` (`exists_maximal_superset`) and no two of them of an order below `M` are buddies
(`buddy_notMem_maximal`).

The two moves of an allocator change it by one block. A block outside `U` whose buddy is
not on the list is added (`maximal_union`); a block of the list is taken off
(`maximal_diff`). Splitting and coalescing are runs of these two moves.
-/

namespace Buddy

open Set Nat Block

variable {M : ℕ} {U : Set ℕ} {b c : Block}

/-- The aligned blocks of order at most `M` inside `U` whose parent is not. -/
def maximal (M : ℕ) (U : Set ℕ) : Set Block :=
  {b | b.Aligned ∧ b.order ≤ M ∧ b.span ⊆ U ∧ (b.order < M → ¬b.parent.span ⊆ U)}

section

variable (h : b ∈ maximal M U)

include h

theorem aligned_of_mem_maximal : b.Aligned :=
  h.1

theorem order_le_of_mem_maximal : b.order ≤ M :=
  h.2.1

theorem span_subset_of_mem_maximal : b.span ⊆ U :=
  h.2.2.1

theorem parent_not_subset_of_mem_maximal (ho : b.order < M) :
    ¬b.parent.span ⊆ U :=
  h.2.2.2 ho

end

/-- Every aligned block inside `U` is inside a maximal one. -/
theorem exists_maximal_superset (hc : c.Aligned) (ho : c.order ≤ M) (hU : c.span ⊆ U) :
    ∃ b ∈ maximal M U, c.span ⊆ b.span := by
  obtain ⟨n, hn⟩ := Nat.exists_eq_add_of_le ho
  induction n generalizing c with
  | zero => exact ⟨c, ⟨hc, ho, hU, fun h => by omega⟩, Set.Subset.rfl⟩
  | succ n ih =>
    by_cases hp : c.parent.span ⊆ U
    · obtain ⟨b, hb, hs⟩ := ih hc.parent (by rw [parent_order]; omega) hp
        (by rw [parent_order]; omega)
      exact ⟨b, hb, hc.span_subset_parent.trans hs⟩
    · exact ⟨c, ⟨hc, ho, hU, fun _ => hp⟩, Set.Subset.rfl⟩

theorem exists_maximal_mem {x : ℕ} (hx : x ∈ U) : ∃ b ∈ maximal M U, x ∈ b.span := by
  have hs : (⟨x, 0⟩ : Block).span ⊆ U := by
    intro y hy
    obtain rfl : y = x := by
      rw [mem_span] at hy
      simp only [pow_zero] at hy
      omega
    exact hx
  obtain ⟨b, hb, hsub⟩ := exists_maximal_superset (M := M) (one_dvd _) (zero_le M) hs
  exact ⟨b, hb, hsub (head_mem_span _)⟩

section

variable (hb : b ∈ maximal M U)

include hb

/-- Maximal blocks that meet are equal. -/
theorem eq_of_mem_maximal (hc : c ∈ maximal M U) {x : ℕ}
    (hxb : x ∈ b.span) (hxc : x ∈ c.span) : b = c := by
  -- Of two maximal blocks that meet, the smaller one would have its parent inside the larger.
  have key : ∀ {b c : Block}, b ∈ maximal M U → c ∈ maximal M U → x ∈ b.span → x ∈ c.span →
      ¬b.order < c.order := by
    intro b c hb hc hxb hxc hlt
    exact hb.2.2.2 (hlt.trans_le hc.2.1)
      ((hb.1.parent_subset hc.1 hlt hxb hxc).trans hc.2.2.1)
  have ho : b.order = c.order :=
    le_antisymm (not_lt.1 (key hc hb hxc hxb)) (not_lt.1 (key hb hc hxb hxc))
  exact hb.1.eq_of_order_eq hc.1 ho hxb hxc

theorem disjoint_of_mem_maximal (hc : c ∈ maximal M U) (hne : b ≠ c) :
    Disjoint b.span c.span :=
  disjoint_left.2 fun _ hxb hxc => hne (eq_of_mem_maximal hb hc hxb hxc)

theorem eq_of_head_eq (hc : c ∈ maximal M U) (h : b.head = c.head) :
    b = c :=
  eq_of_mem_maximal hb hc b.head_mem_span (h ▸ c.head_mem_span)

/-- A maximal block below the top order is not next to its buddy. -/
theorem buddy_notMem_maximal (ho : b.order < M) :
    b.buddy ∉ maximal M U := by
  intro hc
  refine parent_not_subset_of_mem_maximal hb ho ?_
  rw [hb.1.span_parent]
  exact union_subset (span_subset_of_mem_maximal hb) (span_subset_of_mem_maximal hc)

omit hb in
/-- Some maximal block has order at least `k` exactly if some aligned block of order `k` is
inside `U`. -/
theorem exists_order_ge_iff {k : ℕ} (hk : k ≤ M) :
    (∃ b ∈ maximal M U, k ≤ b.order) ↔ ∃ i, Block.Aligned ⟨i, k⟩ ∧ (⟨i, k⟩ : Block).span ⊆ U := by
  constructor
  · rintro ⟨b, hb, hle⟩
    have ha : Block.Aligned ⟨b.head, k⟩ := (pow_dvd_pow 2 hle).trans hb.1
    refine ⟨b.head, ha, ?_⟩
    exact (ha.span_subset hb.1 hle (head_mem_span _) b.head_mem_span).trans hb.2.2.1
  · rintro ⟨i, ha, hs⟩
    obtain ⟨b, hb, hsub⟩ := exists_maximal_superset ha hk hs
    exact ⟨b, hb, order_le_of_span_subset hsub⟩

/-! ## Taking a block off, and adding one -/

/-- Taking a maximal block out of `U` takes it off the list. -/
theorem maximal_diff : maximal M (U \ b.span) = maximal M U \ {b} := by
  ext c
  constructor
  · rintro ⟨hc, ho, hs, hp⟩
    have hdisj : Disjoint c.span b.span :=
      disjoint_left.2 fun x hx hxb => (hs hx).2 hxb
    refine ⟨⟨hc, ho, hs.trans sdiff_subset, fun hlt hpU => hp hlt ?_⟩, ?_⟩
    · intro x hx
      refine ⟨hpU hx, fun hxb => ?_⟩
      obtain ⟨d, hd, hsub⟩ := exists_maximal_superset hc.parent (succ_le_of_lt hlt) hpU
      obtain rfl := eq_of_mem_maximal hd hb (hsub hx) hxb
      exact disjoint_left.1 hdisj c.head_mem_span
        (hsub (hc.span_subset_parent c.head_mem_span))
    · rintro rfl
      exact disjoint_left.1 hdisj c.head_mem_span c.head_mem_span
  · rintro ⟨hc, hne⟩
    refine ⟨hc.1, hc.2.1, fun x hx => ⟨hc.2.2.1 hx, ?_⟩, fun hlt hp => ?_⟩
    · exact disjoint_left.1 (disjoint_of_mem_maximal hc hb hne) hx
    · exact hc.2.2.2 hlt (hp.trans sdiff_subset)

end

/-- A block outside `U` whose buddy is not maximal has a parent that is not free with it. -/
theorem parent_not_subset_union (hb : b.Aligned) (hdisj : Disjoint b.span U)
    (hbuddy : b.order < M → b.buddy ∉ maximal M U) (ho : b.order < M) :
    ¬b.parent.span ⊆ U ∪ b.span := by
  intro hp
  have hbs : b.buddy.span ⊆ U := by
    intro x hx
    have hxp : x ∈ b.parent.span := by
      rw [hb.span_parent]
      exact .inr hx
    exact (hp hxp).resolve_right fun h => disjoint_left.1 hb.disjoint_buddy h hx
  refine hbuddy ho ⟨hb.buddy, ho.le, hbs, fun _ hpU => ?_⟩
  rw [hb.parent_buddy] at hpU
  exact disjoint_left.1 hdisj b.head_mem_span (hpU (hb.span_subset_parent b.head_mem_span))

/-- A block outside `U` whose buddy is not maximal is added to the list. -/
theorem maximal_union (hb : b.Aligned) (hM : b.order ≤ M) (hdisj : Disjoint b.span U)
    (hbuddy : b.order < M → b.buddy ∉ maximal M U) :
    maximal M (U ∪ b.span) = insert b (maximal M U) := by
  have hpar := parent_not_subset_union hb hdisj hbuddy
  ext c
  constructor
  · rintro ⟨hc, ho, hs, hp⟩
    by_cases hcb : c = b
    · exact .inl hcb
    right
    -- A block of the new list other than `b` misses `b` : below `b` it is not maximal, and
    -- above `b` it would hold the parent of `b`.
    have hmiss : ∀ x ∈ c.span, x ∉ b.span := by
      intro x hxc hxb
      rcases lt_trichotomy c.order b.order with hlt | heq | hlt
      · exact hp (hlt.trans_le hM)
          ((hc.parent_subset hb hlt hxc hxb).trans subset_union_right)
      · exact hcb (hc.eq_of_order_eq hb heq hxc hxb)
      · exact hpar (hlt.trans_le ho) ((hb.parent_subset hc hlt hxb hxc).trans hs)
    refine ⟨hc, ho, fun x hx => (hs hx).resolve_right (hmiss x hx), fun hlt hpU => ?_⟩
    exact hp hlt (hpU.trans subset_union_left)
  · rintro (rfl | hc)
    · exact ⟨hb, hM, subset_union_right, hpar⟩
    · refine ⟨hc.1, hc.2.1, hc.2.2.1.trans subset_union_left, fun hlt hp => ?_⟩
      -- The parent of `c` is not inside `U`, so it would reach into `b`, in the half `c.buddy`.
      obtain ⟨x, hx, hxU⟩ := not_subset.1 (hc.2.2.2 hlt)
      have hxb : x ∈ b.span := (hp hx).resolve_left hxU
      have hxc : x ∈ c.buddy.span := by
        rw [hc.1.span_parent] at hx
        exact hx.resolve_left fun h => hxU (hc.2.2.1 h)
      have hcs : c.buddy.span ⊆ U ∪ b.span := by
        refine Set.Subset.trans ?_ hp
        rw [hc.1.span_parent]
        exact subset_union_right
      rcases lt_trichotomy c.order b.order with hlt' | heq | hlt'
      · have hsub := hc.1.buddy.parent_subset hb hlt' hxc hxb
        rw [hc.1.parent_buddy] at hsub
        exact disjoint_left.1 hdisj (hsub (hc.1.span_subset_parent c.head_mem_span))
          (hc.2.2.1 c.head_mem_span)
      · obtain rfl := hc.1.buddy.eq_of_order_eq hb heq hxc hxb
        exact hbuddy hlt (by rwa [buddy_buddy])
      · exact hpar (hlt'.trans hlt) ((hb.parent_subset hc.1.buddy hlt' hxb hxc).trans hcs)

/-- Coalescing : `b` next to its maximal buddy is the parent next to the rest. -/
theorem diff_buddy_union_parent (hb : b.Aligned) (hU : b.buddy.span ⊆ U) :
    U \ b.buddy.span ∪ b.parent.span = U ∪ b.span := by
  rw [hb.span_parent]
  ext x
  simp only [mem_union, mem_sdiff]
  have := @hU x
  tauto

/-- Splitting : the right half of a block outside `U` goes on the list as it is. -/
theorem maximal_union_right {i k : ℕ} (hb : Block.Aligned ⟨i, k + 1⟩) (hM : k ≤ M)
    (hdisj : Disjoint (⟨i, k + 1⟩ : Block).span U) :
    maximal M (U ∪ (⟨i + 2 ^ k, k⟩ : Block).span) = insert ⟨i + 2 ^ k, k⟩ (maximal M U) := by
  have hpar := hb.left.span_parent
  rw [hb.parent_left] at hpar
  rw [hb.right_eq]
  refine maximal_union hb.left.buddy hM ?_ fun _ hmem => ?_
  · exact hdisj.mono_left (hpar ▸ subset_union_right)
  · rw [buddy_buddy] at hmem
    exact disjoint_left.1 hdisj (hpar ▸ .inl (head_mem_span _))
      (hmem.2.2.1 (head_mem_span _))

/-! ## Sets made of blocks of one order -/

/-- `U` is a union of aligned blocks of order `k`. -/
def Granular (k : ℕ) (U : Set ℕ) : Prop :=
  ∀ x y, x / 2 ^ k = y / 2 ^ k → x ∈ U → y ∈ U

theorem Block.Aligned.granular (hb : b.Aligned) {k : ℕ} (hk : k ≤ b.order) :
    Granular k b.span := by
  intro x y hxy hx
  obtain ⟨d, hd⟩ := Nat.exists_eq_add_of_le hk
  rw [hb.mem_span, hd, Nat.pow_add, ← Nat.div_div_eq_div_mul] at hx ⊢
  rw [← hxy, hx]

theorem Granular.diff {k : ℕ} {V : Set ℕ} (hU : Granular k U) (hV : Granular k V) :
    Granular k (U \ V) :=
  fun x y h hx => ⟨hU x y h hx.1, fun hy => hx.2 (hV y x h.symm hy)⟩

/-- The maximal blocks of a union of blocks of order `k` have order at least `k`. -/
theorem Granular.le_order {k : ℕ} (hU : Granular k U) (hk : k ≤ M) (hb : b ∈ maximal M U) :
    k ≤ b.order := by
  by_contra hlt
  push Not at hlt
  refine parent_not_subset_of_mem_maximal hb (hlt.trans_le hk) fun x hx => ?_
  refine hU b.head x ?_ (span_subset_of_mem_maximal hb b.head_mem_span)
  have hp := hb.1.parent
  have h1 := hp.mem_span.1 hx
  have h2 := hp.mem_span.1 (hb.1.span_subset_parent b.head_mem_span)
  obtain ⟨d, hd⟩ := Nat.exists_eq_add_of_le (Nat.succ_le_of_lt hlt)
  rw [parent_order] at h1 h2
  rw [hd, Nat.pow_add, ← Nat.div_div_eq_div_mul, ← Nat.div_div_eq_div_mul, h1, h2]

end Buddy
