import OpenHMR.DvrRuns

/-!
# The units the DVR blueprint touches

`init_dvrbp` allocates and clears `dvr_mem_map` for `spanned_pages` units. The functions of
`mm/dvrblueprint.c` then go to units by index, and the range checks of the page allocator
are commented out in them. This module writes down the units each function reads or
writes : the order fields, and through `list_add` and `list_del` the list links of a unit
and of its neighbours on a list.

A unit that is freed or handed out lies in the zone. Its buddy, whose order field is tested,
may lie behind it : if the zone ends in the middle of the block above the one that is free,
the buddy is the first unit after the zone. `blueprintInBounds_iff` says when that does not
happen : `2 ^ k` being the largest power of two that divides the size of the zone, `k` is
`MAX_ORDER - 1` or more, or a chunk of the last `2 ^ k` units is not handed over.

`dvrMemMap` reads `0` behind the zone, where the memory holds anything. Up to the first
access there, which is what this module is about, that makes no difference.
-/

open Buddy List Option Set

namespace OpenHMR

open Nat

/-! ## The units -/

/-- The entries before and after `x` on a list. -/
def neighbours : List ℕ → ℕ → List ℕ
  | a :: b :: l, x =>
    if a = x then [b] else if b = x then a :: l.head?.toList else neighbours (b :: l) x
  | _, _ => []

namespace Dvrbp

/-- The units of `putFree` : `list_add` also links the unit that was the first. -/
def putTouched (s : Dvrbp) (order unit : ℕ) : List ℕ :=
  unit :: (s.dvrFreeArea order).freeList.head?.toList

/-- The units of `takeFree` : `list_del` also links the neighbours of the unit, on whatever
list it is. -/
def takeTouched (s : Dvrbp) (unit : ℕ) : List ℕ :=
  unit :: (range maxOrder).flatMap fun k => neighbours (s.dvrFreeArea k).freeList unit

/-- The units of `expand(unit, low, high, area)`. -/
def expandTouched (unit low : ℕ) : ℕ → Dvrbp → List ℕ
  | 0, _ => []
  | high + 1, s =>
    if low < high + 1 then
      s.putTouched high (unit + 2 ^ high) ++
        expandTouched unit low high (s.putFree high (unit + 2 ^ high))
    else []

end Dvrbp

/-- The units of `alloc_mem_unit_bulk(order)`. -/
def allocTouched (order : ℕ) (s : Dvrbp) : List ℕ :=
  ((range' order (maxOrder - order)).findSome? fun currentOrder =>
    match (s.dvrFreeArea currentOrder).freeList with
    | [] => none
    | unit :: _ => some (s.takeTouched unit ++
        Dvrbp.expandTouched unit order currentOrder (s.takeFree currentOrder unit))).getD []

/-- The units of the loop of `free_mem_unit_bulk`, run at most `n` times, and of the lines
after it. -/
def mergeTouched : ℕ → ℕ → ℕ → ℕ → Dvrbp → List ℕ
  | 0, unit, _, order, s => s.putTouched order unit
  | n + 1, unit, unitIdx, order, s =>
    let combinedIdx := clear unitIdx (1 <<< order)
    let buddy := unitFindBuddy unit unitIdx order
    if s.dvrMemMap buddy ≠ order then buddy :: s.putTouched order unit
    else s.takeTouched buddy ++
      mergeTouched n (unit + combinedIdx - unitIdx) combinedIdx (order + 1)
        (s.takeFree order buddy)

/-- The units of `free_mem_unit_bulk(unit, order)`. -/
def freeTouched (unit order : ℕ) (s : Dvrbp) : List ℕ :=
  let unitIdx := unit &&& (1 <<< maxOrder - 1)
  if unitIdx &&& (1 <<< order - 1) ≠ 0 then []
  else mergeTouched (maxOrder - 1 - order) unit unitIdx order s

/-- The units of a call; `free_dvrbp_memory` goes to none for a page outside the zone. -/
def DvrCall.touched (z : ZoneSpan) (r : DvrRun) : DvrCall → List ℕ
  | .alloc order => allocTouched order r.bp
  | .free page order =>
    if z.outside page then [] else freeTouched (page - z.zoneStartPfn) order r.bp

/-- Every unit that `init_dvrbp` and the calls after it touch is one of the
`spanned_pages` units. -/
structure BlueprintInBounds (mars256MB : Bool) (z : ZoneSpan) (reserved : ℕ → Bool) : Prop where
  init : ∀ i < (z.spannedPages + 255) / 256, reserved (z.zoneStartPfn + 256 * i) = false →
    ∀ s, initChunks z reserved i = some s → ∀ x ∈ freeTouched (256 * i) 8 s, x < z.spannedPages
  call : ∀ r, DvrReach mars256MB z reserved r → ∀ c : DvrCall, c.Valid z r →
    ∀ x ∈ c.touched z r, x < z.spannedPages

/-- With `2 ^ k` the largest power of two that divides the size of the zone, and `k` below
`MAX_ORDER - 1`, a chunk of the last `2 ^ k` units is reserved. -/
def TailReserved (z : ZoneSpan) (reserved : ℕ → Bool) : Prop :=
  ∀ k < maxOrder - 1, z.spannedPages % 2 ^ (k + 1) = 2 ^ k →
    ∃ x < z.spannedPages, z.spannedPages ≤ x + 2 ^ k ∧
      reserved (z.zoneStartPfn + 256 * (x / 256)) = true

/-! ## Lists of units of the zone -/

theorem neighbours_subset : ∀ (l : List ℕ) (x : ℕ), neighbours l x ⊆ l
  | [], _ => by simp [neighbours]
  | [_], _ => by simp [neighbours]
  | a :: b :: l, x => by
    rw [neighbours]
    split_ifs
    · simp
    · cases l <;> simp
    · exact subset_cons_of_subset a (neighbours_subset (b :: l) x)

namespace Dvrbp

/-- The lists hold units below `n`. -/
def Below (n : ℕ) (s : Dvrbp) : Prop :=
  ∀ k, ∀ x ∈ (s.dvrFreeArea k).freeList, x < n

variable {n : ℕ} {s : Dvrbp}

theorem Free.below {U : Set ℕ} (hs : s.Free U) (hU : ∀ x ∈ U, x < n) : s.Below n := by
  intro k x hx
  have hmem := (hs.areas.mem_iff k x).1 hx
  exact hU x (span_subset_of_mem_maximal hmem (Block.head_mem_span _))

variable {order unit : ℕ}

theorem Below.putFree (hs : s.Below n) (hu : unit < n) :
    (s.putFree order unit).Below n := by
  intro k x hx
  by_cases hk : k = order
  · subst hk
    have hx' : x ∈ unit :: (s.dvrFreeArea k).freeList := by
      simpa [Dvrbp.putFree, FreeAreas.add] using hx
    rcases mem_cons.1 hx' with rfl | hx'
    · exact hu
    · exact hs k x hx'
  · refine hs k x ?_
    simpa [Dvrbp.putFree, FreeAreas.add, Function.update_of_ne hk] using hx

theorem Below.takeFree (hs : s.Below n) (order unit : ℕ) : (s.takeFree order unit).Below n :=
  fun k x hx => hs k x (mem_of_mem_erase hx)

theorem Below.putTouched (hs : s.Below n) (hu : unit < n) :
    ∀ x ∈ s.putTouched order unit, x < n := by
  refine forall_mem_cons.2 ⟨hu, fun x hx => hs order x ?_⟩
  exact List.mem_of_mem_head? (mem_toList.1 hx)

theorem Below.takeTouched (hs : s.Below n) (hu : unit < n) :
    ∀ x ∈ s.takeTouched unit, x < n := by
  refine forall_mem_cons.2 ⟨hu, fun x hx => ?_⟩
  obtain ⟨k, -, hx⟩ := mem_flatMap.1 hx
  exact hs k x (neighbours_subset _ _ hx)

/-- The halves that `expand` puts back lie in the block it splits. -/
theorem Below.expandTouched {low : ℕ} : ∀ {high : ℕ} {s : Dvrbp}, s.Below n →
    unit + 2 ^ high ≤ n → ∀ x ∈ Dvrbp.expandTouched unit low high s, x < n
  | 0, s, _, _ => by simp [Dvrbp.expandTouched]
  | high + 1, s, hs, hn => by
    have hpow : 2 ^ (high + 1) = 2 ^ high + 2 ^ high := by ring
    have hpos : 0 < 2 ^ high := Nat.two_pow_pos high
    have hright : unit + 2 ^ high < n := by omega
    rw [Dvrbp.expandTouched]
    split_ifs
    · intro x hx
      rcases mem_append.1 hx with hx | hx
      · exact hs.putTouched hright x hx
      · exact Below.expandTouched (hs.putFree hright) hright.le x hx
    · simp

end Dvrbp

/-- Allocation stays below `n`. -/
theorem allocTouched_lt {n order : ℕ} {s : Dvrbp} {U : Set ℕ} (hs : s.Free U)
    (hU : ∀ x ∈ U, x < n) : ∀ x ∈ allocTouched order s, x < n := by
  have hbelow := hs.below hU
  intro x hx
  rw [allocTouched] at hx
  cases hr : (range' order (maxOrder - order)).findSome? fun currentOrder =>
      match (s.dvrFreeArea currentOrder).freeList with
      | [] => none
      | unit :: _ => some (s.takeTouched unit ++
          Dvrbp.expandTouched unit order currentOrder (s.takeFree currentOrder unit)) with
  | none => simp [hr] at hx
  | some l =>
    rw [hr, getD_some] at hx
    obtain ⟨c, -, hc⟩ := List.exists_of_findSome?_eq_some hr
    cases hl : (s.dvrFreeArea c).freeList with
    | nil => simp [hl] at hc
    | cons unit rest =>
      simp only [hl, some.injEq] at hc
      have hb : (⟨unit, c⟩ : Block) ∈ maximal (maxOrder - 1) U :=
        (hs.areas.mem_iff c unit).1 (by simp [hl])
      have hlast : unit + (2 ^ c - 1) < n := by
        refine hU _ (span_subset_of_mem_maximal hb ⟨le_add_right _ _, ?_⟩)
        have := Nat.two_pow_pos c
        simp only
        omega
      have hpos := Nat.two_pow_pos c
      rw [← hc] at hx
      rcases mem_append.1 hx with hx | hx
      · exact hbelow.takeTouched (by omega) x hx
      · exact (hbelow.takeFree c unit).expandTouched (by omega) x hx

/-! ## The climb -/

/-- One round of the loop, with `unit_idx` the unit modulo `2 ^ MAX_ORDER`. -/
theorem mergeTouched_succ (n : ℕ) {b : Block} (ho : b.order < maxOrder) (s : Dvrbp) :
    mergeTouched (n + 1) b.head (b.head % 2 ^ maxOrder) b.order s =
      if s.dvrMemMap b.buddy.head ≠ b.order then b.buddy.head :: s.putTouched b.order b.head
      else s.takeTouched b.buddy.head ++
        mergeTouched n b.parent.head (b.parent.head % 2 ^ maxOrder) b.parent.order
          (s.takeFree b.order b.buddy.head) := by
  rw [mergeTouched]
  simp only [unitFindBuddy_eq ho, combinedUnit_eq ho]
  rw [combinedIdx_eq]
  rfl

theorem freeTouched_eq {b : Block} (ha : b.Aligned) (ho : b.order < maxOrder) (s : Dvrbp) :
    freeTouched b.head b.order s =
      mergeTouched (maxOrder - 1 - b.order) b.head (b.head % 2 ^ maxOrder) b.order s := by
  simp only [freeTouched, unitIdx_eq, unitIdx_and_eq_zero ha ho, ne_eq, not_true_eq_false, if_false]

/-- The climb from a block stays below `n` if the units free or given back lie in `U`, and
the blocks inside `U` have their buddies below `n`. -/
theorem mergeTouched_lt {n : ℕ} {U : Set ℕ} (hU : ∀ x ∈ U, x < n)
    (hbuddy : ∀ c : Block, c.Aligned → c.order < maxOrder - 1 → c.span ⊆ U → c.buddy.head < n) :
    ∀ {m : ℕ} {b : Block} {s : Dvrbp} {V : Set ℕ}, s.Free V → b.Aligned → 1 ≤ b.order →
      b.order + m = maxOrder - 1 → V ⊆ U → b.span ⊆ U → Disjoint b.span V →
      ∀ x ∈ mergeTouched m b.head (b.head % 2 ^ maxOrder) b.order s, x < n
  | 0, b, s, V, hs, _, _, _, hV, hb, _ =>
    (hs.below fun x hx => hU x (hV hx)).putTouched (hU _ (hb b.head_mem_span))
  | m + 1, b, s, V, hs, ha, hlo, hm, hV, hb, hdisj => by
    have hbelow := hs.below fun x hx => hU x (hV hx)
    have hlt : b.buddy.head < n := hbuddy b ha (by omega) hb
    rw [mergeTouched_succ m (by omega)]
    split_ifs with hfree
    · exact forall_mem_cons.2 ⟨hlt, hbelow.putTouched (hU _ (hb b.head_mem_span))⟩
    · have hmem : b.buddy ∈ maximal (maxOrder - 1) V :=
        (hs.order_eq_iff (b := b.buddy) hlo).1 (not_not.1 hfree)
      have hbV := span_subset_of_mem_maximal hmem
      intro x hx
      rcases mem_append.1 hx with hx | hx
      · exact hbelow.takeTouched hlt x hx
      · refine mergeTouched_lt hU hbuddy (V := V \ b.buddy.span)
          (Store.rep_take_maximal (S := Dvrbp.store) hs hmem) ha.parent
          (by rw [Block.parent_order]; omega) (by rw [Block.parent_order]; omega)
          (sdiff_subset.trans hV) ?_ ?_ x hx
        · rw [ha.span_parent]
          exact union_subset hb (hbV.trans hV)
        · rw [ha.span_parent]
          refine disjoint_left.2 fun y hy hy' => ?_
          exact hy.elim (fun h => disjoint_left.1 hdisj h hy'.1) hy'.2

/-- If the last part of a block `c` is given back, the climb tests the buddy of `c`. -/
theorem buddy_mem_mergeTouched {c : Block} (hc : c.Aligned) (hco : c.order < maxOrder - 1) :
    ∀ {m : ℕ} {b : Block} {s : Dvrbp} {V : Set ℕ}, s.Free V → b.Aligned → 1 ≤ b.order →
      b.order + m = maxOrder - 1 → Disjoint b.span V → b.span ⊆ c.span → c.span ⊆ V ∪ b.span →
      c.buddy.head ∈ mergeTouched m b.head (b.head % 2 ^ maxOrder) b.order s
  | 0, b, _, _, _, _, _, hm, _, hbc, _ => by
    have := Block.order_le_of_span_subset hbc
    omega
  | m + 1, b, s, V, hs, ha, hlo, hm, hdisj, hbc, hcV => by
    have hle := Block.order_le_of_span_subset hbc
    have hhead := hbc b.head_mem_span
    rw [mergeTouched_succ m (by omega)]
    rcases hle.eq_or_lt with heq | hlt
    · obtain rfl := ha.eq_of_order_eq hc heq b.head_mem_span hhead
      split_ifs
      · exact mem_cons_self
      · exact mem_append_left _ mem_cons_self
    · -- Below `c` the buddy is inside `c`, so it is free, and maximal since `b` is not.
      have hpar : b.parent.span ⊆ c.span := ha.parent_subset hc hlt b.head_mem_span hhead
      have hsplit := ha.span_parent
      have hbV : b.buddy.span ⊆ V := by
        intro x hx
        have hxc : x ∈ c.span := hpar (hsplit ▸ .inr hx)
        exact (hcV hxc).resolve_right fun h => disjoint_left.1 ha.disjoint_buddy h hx
      have hmem : b.buddy ∈ maximal (maxOrder - 1) V := by
        refine ⟨ha.buddy, by rw [Block.buddy_order]; omega, hbV, fun _ hp => ?_⟩
        rw [ha.parent_buddy] at hp
        exact disjoint_left.1 hdisj b.head_mem_span
          (hp (ha.span_subset_parent b.head_mem_span))
      have hfree : s.dvrMemMap b.buddy.head = b.order :=
        (hs.order_eq_iff (b := b.buddy) hlo).2 hmem
      rw [if_neg (not_not.2 hfree)]
      refine mem_append_right _ (buddy_mem_mergeTouched hc hco (V := V \ b.buddy.span)
        (Store.rep_take_maximal (S := Dvrbp.store) hs hmem) ha.parent
        (by rw [Block.parent_order]; omega) (by rw [Block.parent_order]; omega) ?_ hpar ?_)
      · rw [hsplit]
        refine disjoint_left.2 fun y hy hy' => ?_
        exact hy.elim (fun h => disjoint_left.1 hdisj h hy'.1) hy'.2
      · rw [diff_buddy_union_parent ha hbV]
        exact hcV

/-! ## The end of the zone -/

section Zone

variable {z : ZoneSpan} {reserved : ℕ → Bool}

theorem handedOver_lt : ∀ x ∈ handedOver z reserved, x < z.spannedPages :=
  fun _ hx => hx.1

/-- A block that is handed over has its buddy in the zone. -/
theorem TailReserved.buddy_lt (h : TailReserved z reserved) {c : Block} (hc : c.Aligned)
    (hco : c.order < maxOrder - 1) (hin : c.span ⊆ handedOver z reserved) :
    c.buddy.head < z.spannedPages := by
  by_contra hout
  have hpos := Nat.two_pow_pos c.order
  have hlast : c.head + (2 ^ c.order - 1) < z.spannedPages :=
    handedOver_lt _ (hin ⟨Nat.le_add_right _ _, by omega⟩)
  obtain ⟨hend, hmod⟩ := hc.eq_last (n := z.spannedPages) (by omega) (by omega)
  obtain ⟨x, hx, hle, hres⟩ := h c.order hco hmod
  have hmem : x ∈ handedOver z reserved := hin ⟨by omega, by omega⟩
  rw [hmem.2] at hres
  cases hres

/-- The last block of the zone, where `2 ^ k` is the largest power of two that divides
its size : its buddy is the first unit behind the zone. -/
theorem last_aligned {k : ℕ} (hmod : z.spannedPages % 2 ^ (k + 1) = 2 ^ k) :
    2 ^ k ≤ z.spannedPages ∧ Block.Aligned ⟨z.spannedPages - 2 ^ k, k⟩ ∧
      (Block.buddy ⟨z.spannedPages - 2 ^ k, k⟩).head = z.spannedPages := by
  have hdm := div_add_mod z.spannedPages (2 ^ (k + 1))
  rw [hmod] at hdm
  have hle : 2 ^ k ≤ z.spannedPages := by omega
  have hup : Block.Aligned ⟨z.spannedPages - 2 ^ k, k + 1⟩ :=
    ⟨z.spannedPages / 2 ^ (k + 1), by simp only; omega⟩
  refine ⟨hle, hup.left, ?_⟩
  rw [← hup.right_eq]
  exact Nat.sub_add_cancel hle

/-- The largest power of two that divides the size is a chunk at least. -/
theorem eight_le_of_mod {k : ℕ} (hz : 256 ∣ z.spannedPages)
    (hmod : z.spannedPages % 2 ^ (k + 1) = 2 ^ k) : 8 ≤ k := by
  by_contra hk
  have hdvd : 2 ^ (k + 1) ∣ z.spannedPages :=
    (Nat.pow_dvd_pow 2 (show k + 1 ≤ 8 by omega)).trans hz
  have := Nat.two_pow_pos k
  rw [Nat.mod_eq_zero_of_dvd hdvd] at hmod
  omega

/-- The chunk that `init_dvrbp` frees touches units of the zone only. -/
theorem init_touched_lt (hz : 256 ∣ z.spannedPages) (h : TailReserved z reserved) {i : ℕ}
    (hi : i < z.spannedPages / 256) (hres : reserved (z.zoneStartPfn + 256 * i) = false)
    {s : Dvrbp} (hs : initChunks z reserved i = some s) :
    ∀ x ∈ freeTouched (256 * i) 8 s, x < z.spannedPages := by
  obtain ⟨s', hs', hfree⟩ := initChunks_spec hz reserved i hi.le
  obtain rfl := some.inj (hs.symm.trans hs')
  have ha : Block.Aligned ⟨256 * i, 8⟩ := Dvd.intro _ rfl
  rw [freeTouched_eq ha (by norm_num [maxOrder])]
  refine mergeTouched_lt handedOver_lt (fun c hc => h.buddy_lt hc) hfree ha (by norm_num)
    (by norm_num [maxOrder]) (fun x hx => hx.1) (fun x hx => ?_) disjoint_chunk
  obtain rfl := mem_span_chunk.1 hx
  exact ⟨by omega, hres⟩

/-- A valid call touches units of the zone only. -/
theorem DvrInv.touched_lt {r : DvrRun} (hr : DvrInv z reserved r) (h : TailReserved z reserved)
    {c : DvrCall} (hv : c.Valid z r) : ∀ x ∈ c.touched z r, x < z.spannedPages := by
  cases c with
  | alloc order => exact allocTouched_lt hr.free fun x hx => DvrInv.lt_spannedPages hx
  | free page order =>
    obtain ⟨b, hb, rfl, rfl⟩ := hv
    have ha := hr.aligned b hb
    obtain ⟨hlo, hhi⟩ := hr.order b hb
    rw [DvrCall.touched, Nat.add_sub_cancel_left]
    split_ifs
    · simp
    · rw [freeTouched_eq ha hhi]
      exact mergeTouched_lt handedOver_lt (fun c hc => h.buddy_lt hc) hr.free ha hlo (by omega)
        sdiff_subset (hr.handed b hb) (DvrInv.disjoint_free hb)

/-- If the last block of the zone is handed over, `init_dvrbp` tests the order field behind
the zone when it frees the last chunk. -/
theorem end_mem_freeTouched (hz : 256 ∣ z.spannedPages) {k : ℕ} (hk : k < maxOrder - 1)
    (hmod : z.spannedPages % 2 ^ (k + 1) = 2 ^ k)
    (hhand : ∀ x < z.spannedPages, z.spannedPages ≤ x + 2 ^ k → x ∈ handedOver z reserved) :
    ∃ i < z.spannedPages / 256, reserved (z.zoneStartPfn + 256 * i) = false ∧
      ∃ s, initChunks z reserved i = some s ∧ z.spannedPages ∈ freeTouched (256 * i) 8 s := by
  obtain ⟨hle, hc, hend⟩ := last_aligned hmod
  have hpow : 2 ^ 8 ≤ 2 ^ k := Nat.pow_le_pow_right (by norm_num) (eight_le_of_mod hz hmod)
  obtain ⟨q, hq⟩ := hz
  have hpos : 1 ≤ q := by omega
  have hchunk : ∀ x < z.spannedPages, z.spannedPages / 256 - 1 ≤ x / 256 →
      x / 256 = z.spannedPages / 256 - 1 := by
    intro x hx hge
    omega
  obtain ⟨s, hs, hfree⟩ := initChunks_spec ⟨q, hq⟩ reserved (z.spannedPages / 256 - 1)
    (sub_le _ _)
  have ha : Block.Aligned ⟨256 * (z.spannedPages / 256 - 1), 8⟩ := Dvd.intro _ rfl
  refine ⟨z.spannedPages / 256 - 1, by omega, ?_, s, hs, ?_⟩
  · have hmem := (hhand (256 * (z.spannedPages / 256 - 1)) (by omega) (by omega)).2
    rwa [Nat.mul_div_cancel_left _ (by norm_num)] at hmem
  · rw [freeTouched_eq ha (by norm_num [maxOrder])]
    have hclimb := buddy_mem_mergeTouched hc hk hfree ha (by norm_num)
      (show 8 + 4 = maxOrder - 1 from rfl) disjoint_chunk ?_ ?_
    · rwa [hend] at hclimb
    · intro x hx
      have hx' := mem_span_chunk.1 hx
      exact ⟨by simp only; omega, by simp only; omega⟩
    · rintro x ⟨hlo, hhi⟩
      simp only at hlo hhi
      have hx : x ∈ handedOver z reserved := hhand x (by omega) (by omega)
      by_cases hlt : x / 256 < z.spannedPages / 256 - 1
      · exact .inl ⟨hx, hlt⟩
      · exact .inr (mem_span_chunk.2 (hchunk x hx.1 (by omega)))

end Zone

/-- The blueprint touches no unit behind the zone exactly if a chunk of the last block of
the zone is reserved. -/
theorem blueprintInBounds_iff (mars256MB : Bool) {z : ZoneSpan} (hz : 256 ∣ z.spannedPages)
    (reserved : ℕ → Bool) : BlueprintInBounds mars256MB z reserved ↔ TailReserved z reserved := by
  constructor
  · intro hb k hk hmod
    by_contra hnone
    push Not at hnone
    obtain ⟨i, hi, hres, s, hs, hmem⟩ := end_mem_freeTouched hz hk hmod
      fun x hx hle => ⟨hx, Bool.eq_false_of_not_eq_true (hnone x hx hle)⟩
    exact lt_irrefl _ (hb.init i (by rwa [chunks_eq hz]) hres s hs _ hmem)
  · intro h
    refine ⟨fun i hi hres s hs => ?_, fun r hr c hv => (hr.inv hz).touched_lt h hv⟩
    exact init_touched_lt hz h (by rwa [chunks_eq hz] at hi) hres hs

/-- A zone of 24 MB that is handed over as a whole : 6144 units, a top block and half of
one. The last chunk is merged up to the block of order 11 at unit 4096, whose buddy is
unit 6144. -/
theorem blueprint_behind_zone :
    256 ∣ 6144 ∧ ¬BlueprintInBounds true ⟨8192, 6144⟩ (fun _ => false) := by
  refine ⟨by decide, fun h => ?_⟩
  have hmem : ∃ s, initChunks ⟨8192, 6144⟩ (fun _ => false) 23 = some s ∧
      6144 ∈ freeTouched (256 * 23) 8 s := by
    refine ⟨_, (some_get ?_).symm, ?_⟩
    all_goals decide +kernel
  obtain ⟨s, hs, hx⟩ := hmem
  exact lt_irrefl _ (h.init 23 (by norm_num) rfl s hs _ hx)

/-- The same zone with its last chunk reserved. -/
theorem blueprintInBounds_reserved :
    BlueprintInBounds true ⟨8192, 6144⟩ (fun pfn => pfn == 14080) := by
  refine (blueprintInBounds_iff true (by norm_num) _).2 fun k hk hmod => ⟨5888, ?_⟩
  have hk' : k = 11 := by
    have : ∀ k < 12, 6144 % 2 ^ (k + 1) = 2 ^ k → k = 11 := by decide
    exact this k hk hmod
  subst hk'
  decide

end OpenHMR
