import OpenHMR.MaximalBlocks

/-!
# Zones and free areas

The parts of `include/linux/mmzone.h` that the page allocator and the DVR blueprint share.
A `struct free_area` is, for one order, a list of block heads and its length.
`FreeAreas.add` is `list_add` followed by `nr_free++`, `FreeAreas.del` is `list_del`
followed by `nr_free--`. The lists hold a set of blocks (`FreeAreas.Holds`), and the two
operations add a block to it and take one off.
-/

open Buddy Function

namespace OpenHMR

/-- `MAX_ORDER` without `CONFIG_FORCE_MAX_ZONEORDER`. -/
def maxOrder : ℕ :=
  13

/-- The page frames of a `struct zone`. -/
structure ZoneSpan where
  /-- The first page frame, `zone_start_pfn`. -/
  zoneStartPfn : ℕ
  /-- The number of page frames, `spanned_pages`. -/
  spannedPages : ℕ

/-- A page frame outside the zone. The sources also compare `page_zone(page)` with the
zone, which `memmap_init_zone` has set for every page of the span. -/
def ZoneSpan.outside (z : ZoneSpan) (pfn : ℕ) : Bool :=
  decide (z.zoneStartPfn + z.spannedPages ≤ pfn) || decide (pfn < z.zoneStartPfn)

theorem ZoneSpan.le_of_outside {z : ZoneSpan} {pfn : ℕ} (h : z.outside pfn = false) :
    z.zoneStartPfn ≤ pfn := by
  simp only [ZoneSpan.outside, Bool.or_eq_false_iff, decide_eq_false_iff_not] at h
  omega

theorem ZoneSpan.outside_add {z : ZoneSpan} {i : ℕ} :
    z.outside (z.zoneStartPfn + i) = false ↔ i < z.spannedPages := by
  simp [ZoneSpan.outside]

/-- `struct free_area`. -/
structure FreeArea where
  /-- The heads on `free_list`, from `free_list.next` to `free_list.prev`. -/
  freeList : List ℕ
  /-- The counter `nr_free`. -/
  nrFree : ℕ

/-- The array `free_area[MAX_ORDER]`. -/
abbrev FreeAreas :=
  ℕ → FreeArea

namespace FreeAreas

/-- `INIT_LIST_HEAD` and `nr_free = 0` for every order. -/
def init : FreeAreas :=
  fun _ => ⟨[], 0⟩

/-- `list_add(&x->lru, &area->free_list)` and `area->nr_free++` for the area of order `k`. -/
def add (a : FreeAreas) (k x : ℕ) : FreeAreas :=
  update a k ⟨x :: (a k).freeList, (a k).nrFree + 1⟩

/-- `list_del(&x->lru)` and `area->nr_free--` for the area of order `k`. The list node
leaves whatever list it is on; the counter is that of order `k`. -/
def del (a : FreeAreas) (k x : ℕ) : FreeAreas :=
  fun j => ⟨(a j).freeList.erase x, if j = k then (a j).nrFree - 1 else (a j).nrFree⟩

/-- The blocks on the lists. -/
def blocks (a : FreeAreas) : Set Block :=
  {b | b.head ∈ (a b.order).freeList}

/-- The lists hold exactly the blocks of `F`, once each, and the counters are right. -/
structure Holds (a : FreeAreas) (F : Set Block) : Prop where
  mem_iff : ∀ k x, x ∈ (a k).freeList ↔ (⟨x, k⟩ : Block) ∈ F
  nodup : ∀ k, (a k).freeList.Nodup
  nrFree_eq : ∀ k, (a k).nrFree = (a k).freeList.length

theorem holds_init : init.Holds ∅ where
  mem_iff k x := by simp [init]
  nodup k := by simp [init]
  nrFree_eq k := by simp [init]

variable {a : FreeAreas} {F : Set Block} {b : Block}

theorem Holds.blocks_eq (h : a.Holds F) : a.blocks = F := by
  ext b
  exact h.mem_iff b.order b.head

theorem Holds.add (h : a.Holds F) (hb : b ∉ F) : (a.add b.order b.head).Holds (insert b F) where
  mem_iff k x := by
    by_cases hk : k = b.order
    · subst hk
      have : (⟨x, b.order⟩ : Block) = b ↔ x = b.head := by
        cases b
        simp
      simp [FreeAreas.add, h.mem_iff, this]
    · have : (⟨x, k⟩ : Block) ≠ b := fun e => hk (by rw [← e])
      simp [FreeAreas.add, update_of_ne hk, h.mem_iff, this]
  nodup k := by
    by_cases hk : k = b.order
    · subst hk
      simpa [FreeAreas.add, h.nodup, h.mem_iff] using hb
    · simpa [FreeAreas.add, update_of_ne hk] using h.nodup k
  nrFree_eq k := by
    by_cases hk : k = b.order
    · subst hk
      simp [FreeAreas.add, h.nrFree_eq]
    · simpa [FreeAreas.add, update_of_ne hk] using h.nrFree_eq k

/-- Taking `b` off is right if no other block of `F` has its head. -/
theorem Holds.del (h : a.Holds F) (hb : b ∈ F) (huniq : ∀ c ∈ F, c.head = b.head → c = b) :
    (a.del b.order b.head).Holds (F \ {b}) where
  mem_iff k x := by
    simp only [FreeAreas.del, (h.nodup k).mem_erase_iff, h.mem_iff, Set.mem_sdiff,
      Set.mem_singleton_iff]
    constructor
    · rintro ⟨hx, hm⟩
      exact ⟨hm, fun e => hx (by rw [← e])⟩
    · rintro ⟨hm, hne⟩
      exact ⟨fun e => hne (huniq _ hm e), hm⟩
  nodup k := (h.nodup k).erase _
  nrFree_eq k := by
    simp only [FreeAreas.del]
    split_ifs with hk
    · subst hk
      rw [List.length_erase_of_mem ((h.mem_iff _ _).2 hb), h.nrFree_eq]
    · rw [List.erase_of_not_mem, h.nrFree_eq]
      intro hm
      exact hk (congrArg Block.order (huniq _ ((h.mem_iff _ _).1 hm) rfl))

end FreeAreas

end OpenHMR
