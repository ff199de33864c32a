import OpenHMR.BuddyStore
import OpenHMR.MmZone

/-!
# The page allocator

The buddy system of `mm/page_alloc.c` in the build without
`CONFIG_REALTEK_ADVANCED_RECLAIM`. A free block is marked at its first page by
`PG_private` with the order in `page->private`. `__rmqueue` knows the DVR reservation :
while one is set, a request with `__GFP_EXHAUST` takes only the block that starts at the
reserved page, and any other request only blocks whose first page is outside the reserved
range.

Pages are page frame numbers and `none` is a `BUG()` unless said otherwise. `Zone.Free z U`
says that the free lists hold the maximal aligned blocks of the free pages `U`;
`rmqueue_spec` and `freePagesBulk_spec` say what the two functions do to `U`.
-/

open Buddy Function Nat Block

namespace OpenHMR

/-- The fields of `struct page` the buddy system reads. -/
structure Page where
  /-- `page->private`. -/
  priv : ℕ
  /-- `PG_private`. -/
  pgPrivate : Bool
  /-- `PG_reserved`. -/
  pgReserved : Bool
  /-- `page_count(page)`. -/
  count : ℕ

/-- `page_is_buddy(page, order)`. -/
def pageIsBuddy (page : Page) (order : ℕ) : Bool :=
  page.pgPrivate && decide (page.priv = order) && !page.pgReserved && decide (page.count = 0)

/-- `set_page_order(page, order)`. -/
def setPageOrder (page : Page) (order : ℕ) : Page :=
  { page with priv := order, pgPrivate := true }

/-- `rmv_page_order(page)`. -/
def rmvPageOrder (page : Page) : Page :=
  { page with priv := 0, pgPrivate := false }

/-- A `struct zone` with its pages. -/
structure Zone where
  /-- The page frames of the zone. -/
  span : ZoneSpan
  /-- The free lists. -/
  freeArea : FreeAreas
  /-- The counter `free_pages`, an `unsigned long`. -/
  freePages : UInt32
  /-- The pages by page frame. -/
  memMap : ℕ → Page

/-- The reservation `[dvr_reserved_start, dvr_reserved_start + dvr_reserved_count)`. -/
structure Reservation where
  /-- `dvr_reserved_start`. -/
  start : ℕ
  /-- `dvr_reserved_count`. -/
  count : ℕ

/-- `__GFP_EXHAUST`. -/
def gfpExhaust : ℕ :=
  0x20000

namespace Zone

/-- `bad_range(zone, page)`. -/
def badRange (z : Zone) (page : ℕ) : Bool :=
  z.span.outside page

/-- `list_add`, `nr_free++` and `set_page_order`. -/
def putFree (z : Zone) (order page : ℕ) : Zone :=
  { z with
    freeArea := z.freeArea.add order page
    memMap := update z.memMap page (setPageOrder (z.memMap page) order) }

/-- `list_del`, `nr_free--` and `rmv_page_order`. -/
def takeFree (z : Zone) (order page : ℕ) : Zone :=
  { z with
    freeArea := z.freeArea.del order page
    memMap := update z.memMap page (rmvPageOrder (z.memMap page)) }

/-- `expand(zone, page, low, high, area)`, by recursion on `high`. -/
def expand (page low : ℕ) : ℕ → Zone → Option Zone
  | 0, z => some z
  | high + 1, z =>
    if low < high + 1 then
      if z.badRange (page + 2 ^ high) then none
      else expand page low high (z.putFree high (page + 2 ^ high))
    else some z

end Zone

/-- The page `__rmqueue` takes from one free list : `none` goes on to the next order. The
argument `resv` is `none` if `dvr_reserved_start` is `0`. -/
def rmqueuePick (resv : Option Reservation) (gfpFlags : ℕ) (freeList : List ℕ) : Option ℕ :=
  match resv with
  | some r => freeList.find? fun page =>
      if gfpFlags &&& gfpExhaust ≠ 0 then decide (page = r.start)
      else decide (page < r.start) || decide (r.start + r.count ≤ page)
  | none => freeList.getLast?

/-- `__rmqueue(zone, order, gfp_flags)` : the page, or `none` for `NULL`, and the zone. -/
def rmqueue (resv : Option Reservation) (order gfpFlags : ℕ) (z : Zone) :
    Option (Option ℕ × Zone) :=
  let found := (List.range' order (maxOrder - order)).findSome? fun currentOrder =>
    (rmqueuePick resv gfpFlags (z.freeArea currentOrder).freeList).map fun page =>
      (page, currentOrder)
  match found with
  | none => some (none, z)
  | some (page, currentOrder) =>
    let z' :=
      { z.takeFree currentOrder page with freePages := z.freePages - UInt32.ofNat (1 <<< order) }
    (Zone.expand page order currentOrder z').map fun z' => (some page, z')

/-- `__page_find_buddy(page, page_idx, order)`. -/
def pageFindBuddy (page pageIdx order : ℕ) : ℕ :=
  page + (pageIdx ^^^ 1 <<< order) - pageIdx

/-- `__find_combined_index(page_idx, order)`. -/
def findCombinedIndex (pageIdx order : ℕ) : ℕ :=
  clear pageIdx (1 <<< order)

/-- The loop of `__free_pages_bulk`, run at most `n` times : the merged page, its order and
the zone without the blocks merged into it. -/
def mergePages : ℕ → ℕ → ℕ → ℕ → Zone → ℕ × ℕ × Zone
  | 0, page, _, order, z => (page, order, z)
  | n + 1, page, pageIdx, order, z =>
    let combinedIdx := findCombinedIndex pageIdx order
    let buddy := pageFindBuddy page pageIdx order
    if z.badRange buddy then (page, order, z)
    else if !pageIsBuddy (z.memMap buddy) order then (page, order, z)
    else mergePages n (page + combinedIdx - pageIdx) combinedIdx (order + 1)
      (z.takeFree order buddy)

/-- `__free_pages_bulk(page, zone, order)`, without `CONFIG_HUGETLB_PAGE`. -/
def freePagesBulk (page order : ℕ) (z : Zone) : Option Zone :=
  let pageIdx := page &&& (1 <<< maxOrder - 1)
  if pageIdx &&& (1 <<< order - 1) ≠ 0 then none
  else if z.badRange page then none
  else
    let z' := { z with freePages := z.freePages + UInt32.ofNat (1 <<< order) }
    let r := mergePages (maxOrder - 1 - order) page pageIdx order z'
    some (r.2.2.putFree r.2.1 r.1)

/-! ## The zone as a store of blocks -/

namespace Zone

/-- The free lists hold the blocks of `F`, which `page_is_buddy` recognises by their heads. -/
structure Holds (z : Zone) (F : Set Block) : Prop where
  areas : z.freeArea.Holds F
  isBuddy_iff : ∀ b : Block, pageIsBuddy (z.memMap b.head) b.order = true ↔ b ∈ F
  inZone : ∀ b ∈ F, z.span.outside b.head = false

/-- A page of the zone that is neither reserved nor in use. -/
def Quiet (z : Zone) (page : ℕ) : Prop :=
  z.span.outside page = false ∧ (z.memMap page).pgReserved = false ∧ (z.memMap page).count = 0

/-- The zones agree on what the buddy system does not write. -/
structure SameUse (z z' : Zone) : Prop where
  span : z'.span = z.span
  pgReserved : ∀ p, (z'.memMap p).pgReserved = (z.memMap p).pgReserved
  count : ∀ p, (z'.memMap p).count = (z.memMap p).count

theorem SameUse.refl (z : Zone) : z.SameUse z :=
  ⟨rfl, fun _ => rfl, fun _ => rfl⟩

variable {z z' z0 : Zone} {F : Set Block} {b : Block} {U : Set ℕ}

theorem SameUse.trans {z'' : Zone} (h : z.SameUse z') (h' : z'.SameUse z'') :
    z.SameUse z'' :=
  ⟨h'.span.trans h.span, fun p => (h'.pgReserved p).trans (h.pgReserved p),
    fun p => (h'.count p).trans (h.count p)⟩

theorem SameUse.quiet_iff (h : z.SameUse z') (p : ℕ) : z'.Quiet p ↔ z.Quiet p := by
  rw [Quiet, Quiet, h.span, h.pgReserved, h.count]

theorem sameUse_putFree (z : Zone) (order page : ℕ) : z.SameUse (z.putFree order page) := by
  refine ⟨rfl, fun p => ?_, fun p => ?_⟩ <;>
  · by_cases hp : p = page
    · simp [putFree, hp, setPageOrder]
    · simp [putFree, update_of_ne hp]

theorem sameUse_takeFree (z : Zone) (order page : ℕ) : z.SameUse (z.takeFree order page) := by
  refine ⟨rfl, fun p => ?_, fun p => ?_⟩ <;>
  · by_cases hp : p = page
    · simp [takeFree, hp, rmvPageOrder]
    · simp [takeFree, update_of_ne hp]

/-- A block is put on its list. -/
theorem Holds.putFree (h : z.Holds F) (hq : z.Quiet b.head)
    (hb : ∀ c ∈ F, c.head ≠ b.head) : (z.putFree b.order b.head).Holds (insert b F) where
  areas := h.areas.add fun hm => hb b hm rfl
  isBuddy_iff c := by
    by_cases hc : c.head = b.head
    · have hcF : c ∉ F := fun hm => hb c hm hc
      have hcb : c = b ↔ b.order = c.order := by
        cases b
        cases c
        simp_all [eq_comm]
      simp [Zone.putFree, hc, pageIsBuddy, setPageOrder, hq.2.1, hq.2.2, hcF, hcb]
    · have hcb : c ≠ b := fun e => hc (by rw [e])
      simp [Zone.putFree, update_of_ne hc, h.isBuddy_iff, hcb]
  inZone := by
    rintro c (rfl | hc)
    · exact hq.1
    · exact h.inZone c hc

theorem Holds.takeFree (h : z.Holds F) (hb : b ∈ F) (huniq : ∀ c ∈ F, c.head = b.head → c = b) :
    (z.takeFree b.order b.head).Holds (F \ {b}) where
  areas := h.areas.del hb huniq
  isBuddy_iff c := by
    by_cases hc : c.head = b.head
    · have hcF : c ∉ F \ {b} := fun hm => hm.2 (huniq c hm.1 hc)
      simp [Zone.takeFree, hc, pageIsBuddy, rmvPageOrder, hcF]
    · have hcb : c ≠ b := fun e => hc (by rw [e])
      simp [Zone.takeFree, update_of_ne hc, h.isBuddy_iff, hcb]
  inZone c hc := h.inZone c hc.1

/-- The zone as a store, among the zones whose pages are used as those of `z0`. -/
def store (z0 : Zone) : Store Zone where
  put b z := z.putFree b.order b.head
  take b z := z.takeFree b.order b.head
  isFree z b := !z.badRange b.head && pageIsBuddy (z.memMap b.head) b.order
  Rep z F := z0.SameUse z ∧ z.Holds F
  lo := 0
  heads := {p | z0.Quiet p}
  rep_put h _ hh hb :=
    ⟨h.1.trans (sameUse_putFree _ _ _), h.2.putFree ((h.1.quiet_iff _).2 hh) hb⟩
  rep_take h hb huniq := ⟨h.1.trans (sameUse_takeFree _ _ _), h.2.takeFree hb huniq⟩
  isFree_iff {z F b} h _ := by
    rw [Bool.and_eq_true, h.2.isBuddy_iff, and_iff_right_iff_imp]
    intro hb
    simp [badRange, h.2.inZone b hb]

/-- The free pages are `U`. -/
structure Free (z : Zone) (U : Set ℕ) : Prop where
  holds : z.Holds (maximal (maxOrder - 1) U)
  quiet : ∀ p ∈ U, z.Quiet p

theorem Free.rep (h : z.Free U) :
    (store z).Rep z (maximal (maxOrder - 1) U) :=
  ⟨SameUse.refl z, h.holds⟩

/-- The counter `free_pages` is not part of what the store represents. -/
theorem rep_freePages (n : UInt32) (h : (store z0).Rep z F) :
    (store z0).Rep { z with freePages := n } F :=
  ⟨⟨h.1.span, h.1.pgReserved, h.1.count⟩, h.2.areas, h.2.isBuddy_iff, h.2.inZone⟩

/-- What the store of `z` represents after an operation on `z`. -/
theorem free_of_rep (h : (store z).Rep z' (maximal (maxOrder - 1) U)) (hq : ∀ p ∈ U, z.Quiet p) :
    z.SameUse z' ∧ z'.Free U :=
  ⟨h.1, h.2, fun p hp => (h.1.quiet_iff p).2 (hq p hp)⟩

theorem expand_eq {page low : ℕ} : ∀ {high : ℕ} {z : Zone}, z.span = z0.span →
    Block.Aligned ⟨page, high⟩ → (∀ x ∈ (⟨page, high⟩ : Block).span, z0.span.outside x = false) →
    expand page low high z = some ((store z0).carve page low high z)
  | 0, _, _, _, _ => rfl
  | high + 1, z, hz, ha, hin => by
    rw [expand, Store.carve]
    have hpar := ha.left.span_parent
    rw [ha.parent_left, ← ha.right_eq] at hpar
    split_ifs with hlt hbad
    · have := hin (page + 2 ^ high) (hpar ▸ .inr (head_mem_span _))
      rw [badRange, hz, this] at hbad
      exact absurd hbad (by decide)
    · exact expand_eq hz ha.left fun x hx => hin x (hpar ▸ .inl hx)
    · rfl

end Zone

theorem pageFindBuddy_eq {page order : ℕ} (ho : order < maxOrder) :
    pageFindBuddy page (page % 2 ^ maxOrder) order = (buddy ⟨page, order⟩).head := by
  rw [pageFindBuddy, one_shiftLeft]
  exact add_mod_xor_sub ho

/-- The merge loop is the climb of the store. -/
theorem mergePages_eq (z0 : Zone) : ∀ (n page order : ℕ) (z : Zone), order + n < maxOrder →
    mergePages n page (page % 2 ^ maxOrder) order z =
      (((Zone.store z0).climb n ⟨page, order⟩ z).1.head,
        ((Zone.store z0).climb n ⟨page, order⟩ z).1.order,
        ((Zone.store z0).climb n ⟨page, order⟩ z).2)
  | 0, _, _, _, _ => rfl
  | n + 1, page, order, z, hn => by
    have ho : order < maxOrder := by omega
    have hc : page + findCombinedIndex (page % 2 ^ maxOrder) order - page % 2 ^ maxOrder =
        (parent ⟨page, order⟩).head := by
      rw [findCombinedIndex, one_shiftLeft]
      exact add_mod_clear_sub ho
    have hi : findCombinedIndex (page % 2 ^ maxOrder) order =
        (parent ⟨page, order⟩).head % 2 ^ maxOrder := by
      rw [findCombinedIndex, one_shiftLeft]
      exact clear_mod_two_pow.symm
    rw [mergePages, Store.climb]
    simp only [pageFindBuddy_eq ho, hc]
    cases hbad : z.badRange (buddy ⟨page, order⟩).head with
    | true => simp [Zone.store, hbad]
    | false =>
      cases hbuddy : pageIsBuddy (z.memMap (buddy ⟨page, order⟩).head) order with
      | false => simp [Zone.store, hbad, hbuddy]
      | true =>
        have ht : (Zone.store z0).isFree z (buddy ⟨page, order⟩) = true := by
          simp [Zone.store, hbad, hbuddy]
        rw [hi, mergePages_eq z0 n _ _ _ (by omega)]
        simp only [ht, Bool.false_eq_true, if_false, if_true, Bool.not_true]
        rfl

/-! ## What the two functions do to the free pages -/

/-- Freeing an aligned block of quiet pages adds it to the free pages. -/
theorem freePagesBulk_spec {z : Zone} {U : Set ℕ} {b : Block} (hz : z.Free U) (ha : b.Aligned)
    (hhi : b.order < maxOrder) (hdisj : Disjoint b.span U) (hq : ∀ p ∈ b.span, z.Quiet p) :
    ∃ z', freePagesBulk b.head b.order z = some z' ∧ z.SameUse z' ∧ z'.Free (U ∪ b.span) := by
  have hidx : b.head &&& (1 <<< maxOrder - 1) = b.head % 2 ^ maxOrder := by
    rw [one_shiftLeft, and_two_pow_sub_one_eq_mod]
  have hbug : b.head % 2 ^ maxOrder &&& (1 <<< b.order - 1) = 0 := by
    rw [one_shiftLeft, and_two_pow_sub_one_eq_mod,
      mod_mod_of_dvd _ (Nat.pow_dvd_pow 2 hhi.le), mod_eq_zero_of_dvd ha]
  have hbad : z.badRange b.head = false := (hq _ b.head_mem_span).1
  have hn : b.order + (maxOrder - 1 - b.order) = maxOrder - 1 := by omega
  have hquiet : ∀ p ∈ U ∪ b.span, z.Quiet p := fun p hp => hp.elim (hz.quiet p) (hq p)
  have hfree := Store.rep_free
    (Zone.rep_freePages (z.freePages + UInt32.ofNat (1 <<< b.order)) hz.rep) ha (Nat.zero_le _) hn
    hquiet hdisj
  refine ⟨_, ?_, Zone.free_of_rep hfree hquiet⟩
  simp only [freePagesBulk, hidx, hbug, hbad, ne_eq, not_true_eq_false, if_false,
    Bool.false_eq_true, mergePages_eq z (maxOrder - 1 - b.order) b.head b.order _ (by omega)]
  rfl

theorem mem_of_rmqueuePick {resv : Option Reservation} {gfpFlags page : ℕ} {freeList : List ℕ}
    (h : rmqueuePick resv gfpFlags freeList = some page) : page ∈ freeList := by
  cases resv with
  | none => exact List.mem_of_getLast? h
  | some r => exact List.mem_of_find?_eq_some h

/-- `__rmqueue` takes the first part of a maximal free block that it picked from its list.
It fails only if it can pick no block of a sufficient order. -/
theorem rmqueue_spec {z : Zone} {U : Set ℕ} (resv : Option Reservation) (order gfpFlags : ℕ)
    (hz : z.Free U) :
    (rmqueue resv order gfpFlags z = some (none, z) ∧ ∀ k, order ≤ k → k < maxOrder →
        rmqueuePick resv gfpFlags (z.freeArea k).freeList = none) ∨
      ∃ b ∈ maximal (maxOrder - 1) U, order ≤ b.order ∧
        rmqueuePick resv gfpFlags (z.freeArea b.order).freeList = some b.head ∧
        ∃ z', rmqueue resv order gfpFlags z = some (some b.head, z') ∧ z.SameUse z' ∧
          z'.Free (U \ (⟨b.head, order⟩ : Block).span) := by
  cases hf : (List.range' order (maxOrder - order)).findSome? fun currentOrder =>
      (rmqueuePick resv gfpFlags (z.freeArea currentOrder).freeList).map fun page =>
        (page, currentOrder) with
  | none =>
    refine .inl ⟨by simp only [rmqueue, hf], fun k hle hlt => ?_⟩
    have hmem : k ∈ List.range' order (maxOrder - order) := by
      rw [List.mem_range'_1]
      omega
    simpa using List.findSome?_eq_none_iff.1 hf k hmem
  | some r =>
    right
    obtain ⟨c, hc, hsome⟩ := List.exists_of_findSome?_eq_some hf
    rw [List.mem_range'_1] at hc
    obtain ⟨page, hpick, rfl⟩ := Option.map_eq_some_iff.1 hsome
    have hb : (⟨page, c⟩ : Block) ∈ maximal (maxOrder - 1) U :=
      (hz.holds.areas.mem_iff c page).1 (mem_of_rmqueuePick hpick)
    have hsub := span_subset_of_mem_maximal hb
    have halloc := Store.rep_alloc hb
      (Zone.rep_freePages (z.freePages - UInt32.ofNat (1 <<< order))
        (Store.rep_take_maximal hz.rep hb)) (Nat.zero_le order) hc.1 hz.quiet
    have hexp : Zone.expand page order c
        { z.takeFree c page with freePages := z.freePages - UInt32.ofNat (1 <<< order) } =
          some ((Zone.store z).carve page order c _) :=
      Zone.expand_eq rfl hb.1 fun x hx => (hz.quiet x (hsub hx)).1
    refine ⟨⟨page, c⟩, hb, hc.1, hpick, _, by simp only [rmqueue, hf, hexp]; rfl, ?_⟩
    exact Zone.free_of_rep halloc fun p hp => hz.quiet p hp.1

end OpenHMR
