import OpenHMR.BuddyStore
import OpenHMR.MmZone

/-!
# The DVR blueprint

`mm/dvrblueprint.c` : a second buddy system over the DVR zone, with one `struct mem_unit`
for each page. A unit's `order` field is the order of the free block it heads, and `0` at
every other unit, so the blueprint can only hold blocks of order at least `1`.

The functions below follow the source. Units are indices into `dvr_mem_map`, pages are
page frame numbers, and `none` is a `BUG()` unless said otherwise. `Dvrbp.Free s U` says
that the free lists hold exactly the maximal aligned blocks of the free units `U` and
that the order fields mark their heads; `allocMemUnitBulk_spec` and
`freeMemUnitBulk_spec` say that the two bulk functions take a block out of `U` and give
one back.
-/

open Buddy Function Nat

namespace OpenHMR

/-- The static data of `dvrblueprint.c`. -/
structure Dvrbp where
  /-- The free lists `dvr_free_area`. -/
  dvrFreeArea : FreeAreas
  /-- The `order` fields of `dvr_mem_map`. -/
  dvrMemMap : ℕ → ℕ

namespace Dvrbp

/-- `list_add`, `nr_free++` and `unit->order = order`. -/
def putFree (s : Dvrbp) (order unit : ℕ) : Dvrbp :=
  ⟨s.dvrFreeArea.add order unit, update s.dvrMemMap unit order⟩

/-- `list_del`, `nr_free--` and `unit->order = 0`. -/
def takeFree (s : Dvrbp) (order unit : ℕ) : Dvrbp :=
  ⟨s.dvrFreeArea.del order unit, update s.dvrMemMap unit 0⟩

/-- `expand(unit, low, high, area)`, by recursion on `high`. -/
def expand (unit low : ℕ) : ℕ → Dvrbp → Dvrbp
  | 0, s => s
  | high + 1, s =>
    if low < high + 1 then expand unit low high (s.putFree high (unit + 2 ^ high)) else s

end Dvrbp

/-- `alloc_mem_unit_bulk(order)`; `none` is `NULL`. -/
def allocMemUnitBulk (order : ℕ) (s : Dvrbp) : Option (ℕ × Dvrbp) :=
  (List.range' order (maxOrder - order)).findSome? fun currentOrder =>
    match (s.dvrFreeArea currentOrder).freeList with
    | [] => none
    | unit :: _ => some (unit, Dvrbp.expand unit order currentOrder (s.takeFree currentOrder unit))

/-- `unit_find_buddy(unit, unit_idx, order)`. -/
def unitFindBuddy (unit unitIdx order : ℕ) : ℕ :=
  unit + (unitIdx ^^^ 1 <<< order) - unitIdx

/-- The loop of `free_mem_unit_bulk`, run at most `n` times : the merged unit, its order
and the lists without the blocks merged into it. -/
def mergeUnits : ℕ → ℕ → ℕ → ℕ → Dvrbp → ℕ × ℕ × Dvrbp
  | 0, unit, _, order, s => (unit, order, s)
  | n + 1, unit, unitIdx, order, s =>
    let combinedIdx := clear unitIdx (1 <<< order)
    let buddy := unitFindBuddy unit unitIdx order
    if s.dvrMemMap buddy ≠ order then (unit, order, s)
    else mergeUnits n (unit + combinedIdx - unitIdx) combinedIdx (order + 1)
      (s.takeFree order buddy)

/-- `free_mem_unit_bulk(unit, order)`. -/
def freeMemUnitBulk (unit order : ℕ) (s : Dvrbp) : Option Dvrbp :=
  let unitIdx := unit &&& (1 <<< maxOrder - 1)
  if unitIdx &&& (1 <<< order - 1) ≠ 0 then none
  else
    let r := mergeUnits (maxOrder - 1 - order) unit unitIdx order s
    some (r.2.2.putFree r.2.1 r.1)

/-- `init_dvrbp()`, where `reserved` is `PageReserved` by page frame : every chunk of 256
units whose first page is not reserved is freed with order 8. -/
def initDvrbp (z : ZoneSpan) (reserved : ℕ → Bool) : Option Dvrbp :=
  (List.range ((z.spannedPages + 255) / 256)).foldlM
    (fun s i =>
      if reserved (z.zoneStartPfn + 256 * i) then some s else freeMemUnitBulk (256 * i) 8 s)
    ⟨FreeAreas.init, fun _ => 0⟩

/-- `check_page(zone, page)`. -/
def checkPage (z : ZoneSpan) (page : ℕ) : Bool :=
  z.outside page

/-- `alloc_dvrbp_memory(order)` : the page, or `none` for `NULL`, and the new state. -/
def allocDvrbpMemory (z : ZoneSpan) (order : ℕ) (s : Dvrbp) : Option (Option ℕ × Dvrbp) :=
  match allocMemUnitBulk order s with
  | none => some (none, s)
  | some (unit, s') =>
    let page := z.zoneStartPfn + unit
    if checkPage z page then none else some (some page, s')

/-- `free_dvrbp_memory(page, order)`, where `mars256MB` is `CONFIG_REALTEK_MARS_256MB` :
with it a page of another zone is ignored before `check_page` sees it. -/
def freeDvrbpMemory (mars256MB : Bool) (z : ZoneSpan) (page : Option ℕ) (order : ℕ)
    (s : Dvrbp) : Option Dvrbp :=
  match page with
  | none => some s
  | some page =>
    if mars256MB && z.outside page then some s
    else if checkPage z page then none
    else freeMemUnitBulk (page - z.zoneStartPfn) order s

/-! ## The blueprint as a store of blocks -/

namespace Dvrbp

/-- The free lists hold the blocks of `F` and the order fields mark their heads. -/
structure Holds (s : Dvrbp) (F : Set Block) : Prop where
  areas : s.dvrFreeArea.Holds F
  order_of_mem : ∀ b ∈ F, s.dvrMemMap b.head = b.order
  order_of_notMem : ∀ i, (∀ b ∈ F, b.head ≠ i) → s.dvrMemMap i = 0

variable {s : Dvrbp} {F : Set Block} {b : Block}

theorem Holds.putFree (h : s.Holds F)
    (hb : ∀ c ∈ F, c.head ≠ b.head) : (s.putFree b.order b.head).Holds (insert b F) where
  areas := h.areas.add fun hm => hb b hm rfl
  order_of_mem := by
    rintro c (rfl | hc)
    · simp [Dvrbp.putFree]
    · simp [Dvrbp.putFree, update_of_ne (hb c hc), h.order_of_mem c hc]
  order_of_notMem i hi := by
    have hib : i ≠ b.head := fun e => hi b (Set.mem_insert _ _) e.symm
    simp only [Dvrbp.putFree, update_of_ne hib]
    exact h.order_of_notMem i fun c hc => hi c (Set.mem_insert_of_mem _ hc)

theorem Holds.takeFree (h : s.Holds F) (hb : b ∈ F) (huniq : ∀ c ∈ F, c.head = b.head → c = b) :
    (s.takeFree b.order b.head).Holds (F \ {b}) where
  areas := h.areas.del hb huniq
  order_of_mem c hc := by
    have hne : c.head ≠ b.head := fun e => hc.2 (huniq c hc.1 e)
    simp [Dvrbp.takeFree, update_of_ne hne, h.order_of_mem c hc.1]
  order_of_notMem i hi := by
    by_cases hib : i = b.head
    · simp [Dvrbp.takeFree, hib]
    · simp only [Dvrbp.takeFree, update_of_ne hib]
      refine h.order_of_notMem i fun c hc he => ?_
      exact hi c ⟨hc, fun e => hib (by rw [← he, e])⟩ he

/-- The map has the orders of the free blocks. -/
theorem Holds.order_eq_iff (h : s.Holds F)
    (hb : 1 ≤ b.order) : s.dvrMemMap b.head = b.order ↔ b ∈ F := by
  refine ⟨fun he => ?_, h.order_of_mem b⟩
  by_contra hm
  by_cases hex : ∃ c ∈ F, c.head = b.head
  · obtain ⟨c, hc, hcb⟩ := hex
    have := h.order_of_mem c hc
    rw [hcb, he] at this
    cases b
    cases c
    simp_all
  · push Not at hex
    have := h.order_of_notMem b.head hex
    omega

/-- The blueprint as a store : an order field of `0` marks no block. -/
def store : Store Dvrbp where
  put b s := s.putFree b.order b.head
  take b s := s.takeFree b.order b.head
  isFree s b := decide (s.dvrMemMap b.head = b.order)
  Rep := Holds
  lo := 1
  heads := Set.univ
  rep_put h _ _ hb := h.putFree hb
  rep_take h hb huniq := h.takeFree hb huniq
  isFree_iff h hlo := by rw [decide_eq_true_iff, h.order_eq_iff hlo]

/-- The free units are `U`. -/
def Free (s : Dvrbp) (U : Set ℕ) : Prop :=
  s.Holds (maximal (maxOrder - 1) U)

end Dvrbp

theorem Dvrbp.expand_eq (unit low : ℕ) : ∀ (high : ℕ) (s : Dvrbp),
    expand unit low high s = Dvrbp.store.carve unit low high s
  | 0, _ => rfl
  | high + 1, s => by
    rw [expand, Store.carve, expand_eq unit low high]
    rfl

variable {unit order : ℕ} {b : Block} {s : Dvrbp} {U : Set ℕ} {z : ZoneSpan}

theorem unitFindBuddy_eq (ho : order < maxOrder) :
    unitFindBuddy unit (unit % 2 ^ maxOrder) order = (Block.buddy ⟨unit, order⟩).head := by
  rw [unitFindBuddy, one_shiftLeft]
  exact Block.add_mod_xor_sub ho

theorem combinedUnit_eq (ho : order < maxOrder) :
    unit + clear (unit % 2 ^ maxOrder) (1 <<< order) - unit % 2 ^ maxOrder =
      (Block.parent ⟨unit, order⟩).head := by
  rw [one_shiftLeft]
  exact Block.add_mod_clear_sub ho

theorem combinedIdx_eq (unit order : ℕ) :
    clear (unit % 2 ^ maxOrder) (1 <<< order) =
      (Block.parent ⟨unit, order⟩).head % 2 ^ maxOrder := by
  rw [one_shiftLeft]
  exact Block.clear_mod_two_pow.symm

/-- The merge loop is the climb of the store : with `unit_idx` the unit modulo
`2 ^ MAX_ORDER`, the pointer arithmetic flips and clears one bit of the unit itself. -/
theorem mergeUnits_eq : ∀ (n unit order : ℕ) (s : Dvrbp), order + n < maxOrder →
    mergeUnits n unit (unit % 2 ^ maxOrder) order s =
      ((Dvrbp.store.climb n ⟨unit, order⟩ s).1.head, (Dvrbp.store.climb n ⟨unit, order⟩ s).1.order,
        (Dvrbp.store.climb n ⟨unit, order⟩ s).2)
  | 0, _, _, _, _ => rfl
  | n + 1, unit, order, s, hn => by
    have ho : order < maxOrder := by omega
    rw [mergeUnits, Store.climb]
    simp only [unitFindBuddy_eq ho, combinedUnit_eq ho]
    by_cases hfree : s.dvrMemMap (Block.buddy ⟨unit, order⟩).head = order
    · have ht : Dvrbp.store.isFree s (Block.buddy ⟨unit, order⟩) = true := decide_eq_true hfree
      rw [if_neg (not_not.2 hfree), if_pos ht, combinedIdx_eq, mergeUnits_eq n _ _ _ (by omega)]
      rfl
    · have ht : ¬Dvrbp.store.isFree s (Block.buddy ⟨unit, order⟩) = true :=
        fun h => hfree (of_decide_eq_true h)
      rw [if_pos hfree, if_neg ht]

/-! ## What the bulk functions do to the free units -/

theorem unitIdx_eq (unit : ℕ) : unit &&& (1 <<< maxOrder - 1) = unit % 2 ^ maxOrder := by
  rw [one_shiftLeft, and_two_pow_sub_one_eq_mod]

/-- An aligned block passes the `BUG_ON` of `free_mem_unit_bulk`. -/
theorem unitIdx_and_eq_zero (ha : b.Aligned) (hhi : b.order < maxOrder) :
    b.head % 2 ^ maxOrder &&& (1 <<< b.order - 1) = 0 := by
  rw [one_shiftLeft, and_two_pow_sub_one_eq_mod,
    mod_mod_of_dvd _ (Nat.pow_dvd_pow 2 hhi.le), mod_eq_zero_of_dvd ha]

/-- Freeing an aligned block of allocated units adds it to the free units. -/
theorem freeMemUnitBulk_spec (hs : s.Free U)
    (ha : b.Aligned) (hlo : 1 ≤ b.order) (hhi : b.order < maxOrder) (hdisj : Disjoint b.span U) :
    ∃ s', freeMemUnitBulk b.head b.order s = some s' ∧ s'.Free (U ∪ b.span) := by
  have hmerge := mergeUnits_eq (maxOrder - 1 - b.order) b.head b.order s (by omega)
  have hn : b.order + (maxOrder - 1 - b.order) = maxOrder - 1 := by omega
  refine ⟨_, ?_, Store.rep_free (S := Dvrbp.store) hs ha hlo hn (Set.subset_univ _) hdisj⟩
  simp only [freeMemUnitBulk, unitIdx_eq, unitIdx_and_eq_zero ha hhi, ne_eq, not_true_eq_false,
    if_false, hmerge]
  rfl

/-- Allocating takes the first part of a maximal free block. It fails only if no free block
is large enough. -/
theorem allocMemUnitBulk_spec (hs : s.Free U) (hlo : 1 ≤ order) :
    (allocMemUnitBulk order s = none ∧ ∀ b ∈ maximal (maxOrder - 1) U, b.order < order) ∨
      ∃ b ∈ maximal (maxOrder - 1) U, order ≤ b.order ∧
        ∃ s', allocMemUnitBulk order s = some (b.head, s') ∧
          s'.Free (U \ (⟨b.head, order⟩ : Block).span) := by
  cases hr : allocMemUnitBulk order s with
  | none =>
    refine .inl ⟨rfl, fun b hb => ?_⟩
    by_contra hle
    have hmem : b.order ∈ List.range' order (maxOrder - order) := by
      have := order_le_of_mem_maximal hb
      rw [List.mem_range'_1]
      simp only [maxOrder] at this ⊢
      omega
    have hlist := (hs.areas.mem_iff b.order b.head).2 hb
    have hnone := List.findSome?_eq_none_iff.1 hr _ hmem
    cases hl : (s.dvrFreeArea b.order).freeList with
    | nil => simp [hl] at hlist
    | cons unit rest => simp [hl] at hnone
  | some r =>
    right
    obtain ⟨c, hc, hsome⟩ := List.exists_of_findSome?_eq_some hr
    rw [List.mem_range'_1] at hc
    cases hl : (s.dvrFreeArea c).freeList with
    | nil => simp [hl] at hsome
    | cons unit rest =>
      simp only [hl, Option.some.injEq] at hsome
      have hb : (⟨unit, c⟩ : Block) ∈ maximal (maxOrder - 1) U :=
        (hs.areas.mem_iff c unit).1 (by simp [hl])
      refine ⟨⟨unit, c⟩, hb, hc.1, _, by rw [← hsome], ?_⟩
      rw [Dvrbp.expand_eq]
      exact Store.rep_alloc hb (Store.rep_take_maximal (S := Dvrbp.store) hs hb) hlo hc.1
        (Set.subset_univ _)

/-- `alloc_dvrbp_memory` never hits its `BUG_ON` : the page is in the zone. -/
theorem allocDvrbpMemory_spec (hs : s.Free U) (hU : ∀ x ∈ U, x < z.spannedPages) (hlo : 1 ≤ order) :
    (allocDvrbpMemory z order s = some (none, s) ∧
        ∀ b ∈ maximal (maxOrder - 1) U, b.order < order) ∨
      ∃ b ∈ maximal (maxOrder - 1) U, order ≤ b.order ∧
        ∃ s', allocDvrbpMemory z order s = some (some (z.zoneStartPfn + b.head), s') ∧
          s'.Free (U \ (⟨b.head, order⟩ : Block).span) := by
  rcases allocMemUnitBulk_spec hs hlo with ⟨hnone, hmax⟩ | ⟨b, hb, hle, s', hsome, hs'⟩
  · exact .inl ⟨by rw [allocDvrbpMemory, hnone], hmax⟩
  · have hin : checkPage z (z.zoneStartPfn + b.head) = false :=
      ZoneSpan.outside_add.2 (hU _ (span_subset_of_mem_maximal hb b.head_mem_span))
    exact .inr ⟨b, hb, hle, s', by simp [allocDvrbpMemory, hsome, hin], hs'⟩

/-- `free_dvrbp_memory` of an allocated block of the zone gives its units back. -/
theorem freeDvrbpMemory_spec (mars256MB : Bool)
    (hs : s.Free U) (ha : b.Aligned) (hlo : 1 ≤ b.order) (hhi : b.order < maxOrder)
    (hdisj : Disjoint b.span U) (hin : b.head < z.spannedPages) :
    ∃ s', freeDvrbpMemory mars256MB z (some (z.zoneStartPfn + b.head)) b.order s = some s' ∧
      s'.Free (U ∪ b.span) := by
  obtain ⟨s', hs', hfree⟩ := freeMemUnitBulk_spec hs ha hlo hhi hdisj
  have hout : z.outside (z.zoneStartPfn + b.head) = false := ZoneSpan.outside_add.2 hin
  exact ⟨s', by simpa [freeDvrbpMemory, checkPage, hout] using hs', hfree⟩

end OpenHMR
