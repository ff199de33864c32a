import OpenHMR.DvrRuns
import OpenHMR.PageAlloc

/-!
# The blueprint and the page allocator together

`start_remap` of `mm/pageremap.c` takes a block from the blueprint and reserves its pages;
once they are all free in the zone, `__rmqueue` with `__GFP_EXHAUST` must hand out exactly
that block. The two buddy systems are only loosely coupled : the zone's free pages are also
allocated and freed page by page, and the reserved block may have been merged into a larger
free block of the zone, which `__rmqueue` finds only if it starts at the reserved page.

`SystemReach` is the system's runs : the boot of the zone, `init_dvrbp`, and any interleaving of
ordinary allocations and frees, `start_remap`, the allocation of the reserved block,
`end_remap`, and frees of DVR blocks. The joint invariant is `SystemInv`. Its last field is
the reason for the agreement : a block around the reserved one whose pages the DVR users do
not hold starts at the reserved page, since otherwise the blueprint would have merged the
block it allocated from with its buddy.
-/

open Buddy Function Set

namespace OpenHMR

open Nat

/-! ## Ordinary use of a zone -/

namespace Zone

/-- The pages on the free lists. -/
def freeUnits (z : Zone) : Set ℕ :=
  {x | ∃ b ∈ z.freeArea.blocks, x ∈ b.span}

/-- The buddy invariant : the lists hold the maximal blocks of the free pages. -/
def Ok (z : Zone) : Prop :=
  z.Free z.freeUnits

theorem Free.freeUnits_eq {z : Zone} {U : Set ℕ} (h : z.Free U) : z.freeUnits = U := by
  ext x
  rw [freeUnits, h.holds.areas.blocks_eq]
  constructor
  · rintro ⟨b, hb, hx⟩
    exact span_subset_of_mem_maximal hb hx
  · exact fun hx => exists_maximal_mem hx

theorem Free.ok {z : Zone} {U : Set ℕ} (h : z.Free U) : z.Ok := by
  rw [Ok, h.freeUnits_eq]
  exact h

end Zone

/-- What `free_pages_check` asks of the fields of a page modelled here. -/
def freePagesCheck (page : Page) : Bool :=
  decide (page.count = 0) && !page.pgPrivate

/-- Ordinary allocations and frees. The second component is the pages in use. While a
reservation is set, only its owner passes `__GFP_EXHAUST`. -/
inductive PageOp (resv : Option Reservation) : Zone × Set ℕ → Zone × Set ℕ → Prop
  | alloc {z z' : Zone} {A : Set ℕ} {order gfpFlags page : ℕ} (ho : order < maxOrder)
      (hf : resv = none ∨ gfpFlags &&& gfpExhaust = 0)
      (h : rmqueue resv order gfpFlags z = some (some page, z')) :
      PageOp resv (z, A) (z', A ∪ (⟨page, order⟩ : Block).span)
  | free {z z' : Zone} {A : Set ℕ} {b : Block} (ho : b.order < maxOrder) (hb : b.span ⊆ A)
      (hc : ∀ p ∈ b.span, freePagesCheck (z.memMap p) = true)
      (h : freePagesBulk b.head b.order z = some z') : PageOp resv (z, A) (z', A \ b.span)

/-- A page in use changes hands : its fields other than `PG_reserved` may change, but
`PG_private` stays set only on a page with a reference. -/
inductive PageUse (A : Set ℕ) : Zone → Zone → Prop
  | touch {z : Zone} {p : ℕ} {page : Page} (hp : p ∈ A)
      (hr : page.pgReserved = (z.memMap p).pgReserved)
      (hu : page.count ≠ 0 ∨ page.pgPrivate = false) :
      PageUse A z { z with memMap := update z.memMap p page }

/-- The zone as `memmap_init_zone` and `free_area_init_core` leave it. -/
def bootZone (span : ZoneSpan) : Zone :=
  ⟨span, FreeAreas.init, 0, fun _ => ⟨0, false, true, 0⟩⟩

/-- `ClearPageReserved` for the pages of a block. -/
def clearReserved (b : Block) (z : Zone) : Zone :=
  { z with memMap := fun p => if b.head ≤ p ∧ p < b.head + 2 ^ b.order
      then { z.memMap p with pgReserved := false } else z.memMap p }

/-- The zone and its pages in use before `init_dvrbp` : the boot allocator releases blocks of
reserved pages, and ordinary use has begun. -/
inductive Booted (span : ZoneSpan) : Zone × Set ℕ → Prop
  | start : Booted span (bootZone span, ∅)
  | release {z z' : Zone} {A : Set ℕ} {b : Block} (h : Booted span (z, A)) (ho : b.order < maxOrder)
      (hb : ∀ p ∈ b.span, (z.memMap p).pgReserved = true ∧ freePagesCheck (z.memMap p) = true)
      (hin : ∀ p ∈ b.span, span.outside p = false)
      (hz : freePagesBulk b.head b.order (clearReserved b z) = some z') : Booted span (z', A)
  | op {u u' : Zone × Set ℕ} (h : Booted span u) (hu : PageOp none u u') : Booted span u'
  | use {z z' : Zone} {A : Set ℕ} (h : Booted span (z, A)) (hu : PageUse A z z') :
      Booted span (z', A)

/-- What holds of a zone and its pages in use : the pages in use are pages of the zone that
are neither free nor reserved. -/
structure PageInv (span : ZoneSpan) (z : Zone) (A : Set ℕ) : Prop where
  ok : z.Ok
  span_eq : z.span = span
  notFree : Disjoint A z.freeUnits
  inZone : ∀ p ∈ A, span.outside p = false
  notReserved : ∀ p ∈ A, (z.memMap p).pgReserved = false

theorem aligned_of_freePagesBulk {z z' : Zone} {b : Block} (ho : b.order < maxOrder)
    (h : freePagesBulk b.head b.order z = some z') : b.Aligned := by
  have hbug : b.head &&& (1 <<< maxOrder - 1) &&& (1 <<< b.order - 1) = 0 := by
    by_contra hne
    simp [freePagesBulk, hne] at h
  rw [one_shiftLeft, one_shiftLeft, and_two_pow_sub_one_eq_mod,
    and_two_pow_sub_one_eq_mod, mod_mod_of_dvd _ (pow_dvd_pow 2 ho.le)] at hbug
  exact dvd_of_mod_eq_zero hbug

/-- Pages outside the free pages that pass `free_pages_check` can be given any mark that does
not make them a buddy. -/
theorem Zone.Free.congr {z z' : Zone} {U : Set ℕ} (h : z.Free U) (hspan : z'.span = z.span)
    (harea : z'.freeArea = z.freeArea) (hU : ∀ p ∈ U, z'.memMap p = z.memMap p)
    (hn : ∀ p ∉ U, ∀ k, pageIsBuddy (z'.memMap p) k = false) : z'.Free U := by
  refine ⟨⟨harea ▸ h.holds.areas, fun b => ?_, hspan ▸ h.holds.inZone⟩, fun p hp => ?_⟩
  · by_cases hb : b.head ∈ U
    · rw [hU _ hb]
      exact h.holds.isBuddy_iff b
    · have hm : b ∉ maximal (maxOrder - 1) U := fun hm =>
        hb (span_subset_of_mem_maximal hm b.head_mem_span)
      simp [hn _ hb, hm]
  · rw [Zone.Quiet, hspan, hU p hp]
    exact h.quiet p hp

theorem Zone.Free.not_isBuddy {z : Zone} {U : Set ℕ} (h : z.Free U) {p : ℕ} (hp : p ∉ U) (k : ℕ) :
    pageIsBuddy (z.memMap p) k = false := by
  have hm : (⟨p, k⟩ : Block) ∉ maximal (maxOrder - 1) U := fun hm =>
    hp (span_subset_of_mem_maximal hm (Block.head_mem_span _))
  rw [← Bool.not_eq_true, h.holds.isBuddy_iff ⟨p, k⟩]
  exact hm

/-! ## Ordinary use keeps the zone in order -/

section PageInv

variable {z z' : Zone} {A : Set ℕ}

/-- What an allocation does. -/
theorem rmqueue_some {resv : Option Reservation} {order gfpFlags page : ℕ} (hz : z.Ok)
    (h : rmqueue resv order gfpFlags z = some (some page, z')) :
    ∃ b ∈ maximal (maxOrder - 1) z.freeUnits, b.head = page ∧ order ≤ b.order ∧
      rmqueuePick resv gfpFlags (z.freeArea b.order).freeList = some page ∧
      (⟨page, order⟩ : Block).span ⊆ b.span ∧ z.SameUse z' ∧ z'.Ok ∧
      z'.freeUnits = z.freeUnits \ (⟨page, order⟩ : Block).span := by
  rcases rmqueue_spec resv order gfpFlags hz with ⟨hnone, -⟩ | ⟨b, hb, hle, hpick, w, hw, hs, hf⟩
  · rw [hnone] at h
    cases h
  · rw [hw] at h
    cases h
    have ha : Block.Aligned ⟨b.head, order⟩ := (pow_dvd_pow 2 hle).trans hb.1
    exact ⟨b, hb, rfl, hle, hpick,
      ha.span_subset hb.1 hle (Block.head_mem_span _) b.head_mem_span, hs, hf.ok, hf.freeUnits_eq⟩

variable {b : Block} {p : ℕ}

/-- What a free of pages that are not free does. -/
theorem freePagesBulk_some (hz : z.Ok) (ho : b.order < maxOrder)
    (hn : Disjoint b.span z.freeUnits) (hq : ∀ p ∈ b.span, z.Quiet p)
    (h : freePagesBulk b.head b.order z = some z') :
    z.SameUse z' ∧ z'.Ok ∧ z'.freeUnits = z.freeUnits ∪ b.span := by
  obtain ⟨w, hw, hs, hf⟩ :=
    freePagesBulk_spec hz (aligned_of_freePagesBulk ho h) ho hn hq
  obtain rfl := Option.some.inj (h.symm.trans hw)
  exact ⟨hs, hf.ok, hf.freeUnits_eq⟩

theorem count_of_freePagesCheck {page : Page} (h : freePagesCheck page = true) :
    page.count = 0 := by
  simp only [freePagesCheck, Bool.and_eq_true, decide_eq_true_eq] at h
  exact h.1

namespace PageInv

variable {span : ZoneSpan}

/-- Pages are taken from the zone. -/
theorem alloc (h : PageInv span z A) {resv : Option Reservation} {order gfpFlags page : ℕ}
    (hr : rmqueue resv order gfpFlags z = some (some page, z')) :
    PageInv span z' (A ∪ (⟨page, order⟩ : Block).span) ∧ z.SameUse z' ∧
      Disjoint A (⟨page, order⟩ : Block).span := by
  obtain ⟨b, hb, -, -, -, hsub, hs, hok, hU⟩ := rmqueue_some h.ok hr
  have hfree : (⟨page, order⟩ : Block).span ⊆ z.freeUnits :=
    hsub.trans (span_subset_of_mem_maximal hb)
  have hd : Disjoint A (⟨page, order⟩ : Block).span := h.notFree.mono_right hfree
  refine ⟨⟨hok, hs.span.trans h.span_eq, ?_, ?_, ?_⟩, hs, hd⟩
  · rw [hU]
    exact disjoint_union_left.2
      ⟨h.notFree.mono_right sdiff_subset, disjoint_sdiff_right⟩
  · rintro p (hp | hp)
    · exact h.inZone p hp
    · exact h.span_eq ▸ (h.ok.quiet p (hfree hp)).1
  · rintro p (hp | hp)
    · rw [hs.pgReserved, h.notReserved p hp]
    · rw [hs.pgReserved, (h.ok.quiet p (hfree hp)).2.1]

theorem free (h : PageInv span z A) {b : Block} (ho : b.order < maxOrder) (hb : b.span ⊆ A)
    (hc : ∀ p ∈ b.span, freePagesCheck (z.memMap p) = true)
    (hr : freePagesBulk b.head b.order z = some z') :
    PageInv span z' (A \ b.span) ∧ z.SameUse z' := by
  have hq : ∀ p ∈ b.span, z.Quiet p := fun p hp =>
    ⟨h.span_eq ▸ h.inZone p (hb hp), h.notReserved p (hb hp), count_of_freePagesCheck (hc p hp)⟩
  obtain ⟨hs, hok, hU⟩ := freePagesBulk_some h.ok ho (h.notFree.mono_left hb) hq hr
  refine ⟨⟨hok, hs.span.trans h.span_eq, ?_, fun p hp => h.inZone p hp.1,
    fun p hp => by rw [hs.pgReserved, h.notReserved p hp.1]⟩, hs⟩
  rw [hU]
  exact disjoint_union_right.2
    ⟨h.notFree.mono_left sdiff_subset, disjoint_sdiff_left⟩

/-- Ordinary allocations and frees keep the invariant, also of pages `T` in other use. -/
theorem op {resv : Option Reservation} {A' T : Set ℕ} (h : PageInv span z (A ∪ T))
    (hd : Disjoint A T) (hu : PageOp resv (z, A) (z', A')) :
    PageInv span z' (A' ∪ T) ∧ z.SameUse z' ∧ Disjoint A' T := by
  cases hu with
  | alloc _ _ hr =>
    obtain ⟨hinv, hs, hdis⟩ := h.alloc hr
    rw [union_right_comm] at hinv
    exact ⟨hinv, hs, disjoint_union_left.2 ⟨hd, (disjoint_union_left.1 hdis).2.symm⟩⟩
  | free ho hb hc hr =>
    obtain ⟨hinv, hs⟩ := h.free ho (hb.trans subset_union_left) hc hr
    rw [union_sdiff_distrib, (hd.mono_left hb).symm.sdiff_eq_left] at hinv
    exact ⟨hinv, hs, hd.mono_left sdiff_subset⟩

end PageInv

/-- Use of pages that are not free touches neither the free pages nor `PG_reserved`. -/
theorem PageUse.spec (hz : z.Ok) (hA : Disjoint A z.freeUnits) (hu : PageUse A z z') :
    z'.Ok ∧ z'.freeUnits = z.freeUnits ∧ z'.span = z.span ∧
      ∀ p, (z'.memMap p).pgReserved = (z.memMap p).pgReserved := by
  cases hu with
  | touch hp hr hu =>
    rename_i p page
    have hpU : p ∉ z.freeUnits := disjoint_left.1 hA hp
    have hf : Zone.Free { z with memMap := update z.memMap p page } z.freeUnits := by
      refine Zone.Free.congr hz rfl rfl (fun q hq => ?_) fun q hq k => ?_
      · have hne : q ≠ p := fun e => hpU (e ▸ hq)
        simp [update_of_ne hne]
      · rcases eq_or_ne q p with rfl | hne
        · rcases hu with hu | hu <;> simp [pageIsBuddy, hu]
        · simp only [update_of_ne hne]
          exact hz.not_isBuddy hq k
    refine ⟨hf.ok, hf.freeUnits_eq, rfl, fun q => ?_⟩
    rcases eq_or_ne q p with rfl | hne
    · simp [hr]
    · simp [update_of_ne hne]

theorem PageInv.use {span : ZoneSpan} (h : PageInv span z A) (hu : PageUse A z z') :
    PageInv span z' A := by
  obtain ⟨hok, hU, hspan, hres⟩ := hu.spec h.ok h.notFree
  exact ⟨hok, hspan.trans h.span_eq, hU ▸ h.notFree, h.inZone,
    fun p hp => by rw [hres, h.notReserved p hp]⟩

theorem bootZone_ok (span : ZoneSpan) : (bootZone span).Free ∅ := by
  have hmax : maximal (maxOrder - 1) (∅ : Set ℕ) = ∅ :=
    eq_empty_of_forall_notMem fun b hb => span_subset_of_mem_maximal hb b.head_mem_span
  refine ⟨?_, fun p hp => hp.elim⟩
  rw [hmax]
  exact ⟨FreeAreas.holds_init, fun b => by simp [bootZone, pageIsBuddy], fun b hb => hb.elim⟩

theorem clearReserved_of_mem (hp : p ∈ b.span) :
    (clearReserved b z).memMap p = { z.memMap p with pgReserved := false } :=
  if_pos (b.mem_span.1 hp)

theorem clearReserved_of_notMem (hp : p ∉ b.span) :
    (clearReserved b z).memMap p = z.memMap p :=
  if_neg fun h => hp (b.mem_span.2 h)

theorem pageIsBuddy_of_freePagesCheck {page : Page} (h : freePagesCheck page = true) (r : Bool)
    (k : ℕ) : pageIsBuddy { page with pgReserved := r } k = false := by
  simp only [freePagesCheck, Bool.and_eq_true, Bool.not_eq_true'] at h
  simp [pageIsBuddy, h.2]

/-- The boot allocator's pages become free. -/
theorem PageInv.release {span : ZoneSpan} (h : PageInv span z A) (ho : b.order < maxOrder)
    (hb : ∀ p ∈ b.span, (z.memMap p).pgReserved = true ∧ freePagesCheck (z.memMap p) = true)
    (hin : ∀ p ∈ b.span, span.outside p = false)
    (hr : freePagesBulk b.head b.order (clearReserved b z) = some z') :
    PageInv span z' A ∧ z'.freeUnits = z.freeUnits ∪ b.span := by
  have hbU : ∀ p ∈ z.freeUnits, p ∉ b.span := fun p hpU hp => by
    have := (hb p hp).1
    rw [(h.ok.quiet p hpU).2.1] at this
    exact Bool.false_ne_true this
  have hbA : ∀ p ∈ A, p ∉ b.span := fun p hpA hp => by
    have := (hb p hp).1
    rw [h.notReserved p hpA] at this
    exact Bool.false_ne_true this
  have hf : (clearReserved b z).Free z.freeUnits := by
    refine Zone.Free.congr h.ok rfl rfl (fun p hp => clearReserved_of_notMem (hbU p hp)) ?_
    intro p hp k
    by_cases hpb : p ∈ b.span
    · rw [clearReserved_of_mem hpb]
      exact pageIsBuddy_of_freePagesCheck (hb p hpb).2 false k
    · rw [clearReserved_of_notMem hpb]
      exact Zone.Free.not_isBuddy h.ok hp k
  have hquiet : ∀ p ∈ b.span, (clearReserved b z).Quiet p := fun p hp => by
    refine ⟨h.span_eq ▸ hin p hp, ?_, ?_⟩
    · rw [clearReserved_of_mem hp]
    · rw [clearReserved_of_mem hp]
      exact count_of_freePagesCheck (hb p hp).2
  obtain ⟨hs, hok, hU⟩ := freePagesBulk_some hf.ok ho
    (hf.freeUnits_eq ▸ disjoint_left.2 fun p hp hpU => hbU p hpU hp) hquiet hr
  rw [hf.freeUnits_eq] at hU
  refine ⟨⟨hok, hs.span.trans h.span_eq, ?_, h.inZone, fun p hp => ?_⟩, hU⟩
  · rw [hU]
    exact disjoint_union_right.2 ⟨h.notFree, disjoint_left.2 hbA⟩
  · rw [hs.pgReserved, clearReserved_of_notMem (hbA p hp), h.notReserved p hp]

end PageInv

/-- The invariant holds throughout the boot. -/
theorem Booted.inv {span : ZoneSpan} {u : Zone × Set ℕ} (h : Booted span u) :
    PageInv span u.1 u.2 := by
  induction h with
  | start => exact ⟨(bootZone_ok span).ok, rfl, by simp, by simp, by simp⟩
  | release _ ho hb hin hz ih => exact (ih.release ho hb hin hz).1
  | op _ hu ih =>
    have := PageInv.op (T := ∅) (by simpa using ih) (by simp) hu
    simpa using this.1
  | use _ hu ih => exact ih.use hu

/-! ## The joint system -/

/-- The block of pages that a block of units of the blueprint stands for. -/
def ZoneSpan.pageBlock (z : ZoneSpan) (b : Block) : Block :=
  ⟨z.zoneStartPfn + b.head, b.order⟩

/-- The pages that units of the blueprint stand for. -/
def ZoneSpan.pages (z : ZoneSpan) (U : Set ℕ) : Set ℕ :=
  (z.zoneStartPfn + ·) '' U

/-- Where the holder of `remap_sem` is. -/
inductive RemapPhase where
  /-- No reservation is set. -/
  | idle
  /-- `start_remap` has reserved the block. -/
  | reserved (b : Block)
  /-- `__rmqueue` has handed out the reserved block and `end_remap` is still to come. -/
  | taken (b : Block)

/-- The zone and the blueprint. -/
structure DvrSystem where
  /-- The zone. -/
  zone : Zone
  /-- The blueprint with the blocks allocated from it. -/
  run : DvrRun
  /-- The phase of a remapping. -/
  phase : RemapPhase
  /-- The pages in ordinary use. -/
  inUse : Set ℕ

namespace DvrSystem

/-- The reserved block of units. -/
def reserved (s : DvrSystem) : Option Block :=
  match s.phase with
  | .idle => none
  | .reserved b => some b
  | .taken b => some b

/-- `dvr_reserved_start` and `dvr_reserved_count`. -/
def reservation (s : DvrSystem) : Option Reservation :=
  s.reserved.map fun b => ⟨s.zone.span.zoneStartPfn + b.head, 1 <<< b.order⟩

/-- The blocks of the blueprint whose pages the DVR users hold. -/
def held (s : DvrSystem) : List Block :=
  match s.phase with
  | .reserved b => s.run.live.erase b
  | _ => s.run.live

/-- The pages the DVR users hold. -/
def heldPages (s : DvrSystem) : Set ℕ :=
  s.zone.span.pages (spans s.held)

end DvrSystem

/-- The steps of the system. A call of `start_remap` for which the blueprint has no block
changes nothing, and one that does not come back from a `BUG()` is not a step. -/
inductive SystemStep (mars256MB : Bool) (s : DvrSystem) : DvrSystem → Prop
  | page {z : Zone} {A : Set ℕ} (h : PageOp s.reservation (s.zone, s.inUse) (z, A)) :
      SystemStep mars256MB s { s with zone := z, inUse := A }
  | use {z : Zone} (h : PageUse (s.inUse ∪ s.heldPages) s.zone z) :
      SystemStep mars256MB s { s with zone := z }
  | startRemap {order page : ℕ} {bp : Dvrbp} (hp : s.phase = .idle) (hlo : 1 ≤ order)
      (hhi : order < maxOrder)
      (h : allocDvrbpMemory s.zone.span order s.run.bp = some (some page, bp)) :
      SystemStep mars256MB s { s with
        run := ⟨bp, ⟨page - s.zone.span.zoneStartPfn, order⟩ :: s.run.live⟩
        phase := .reserved ⟨page - s.zone.span.zoneStartPfn, order⟩ }
  | take {b : Block} {gfpFlags : ℕ} {z : Zone} (hp : s.phase = .reserved b)
      (hf : gfpFlags &&& gfpExhaust ≠ 0)
      (h : rmqueue s.reservation b.order gfpFlags s.zone =
        some (some (s.zone.span.zoneStartPfn + b.head), z)) :
      SystemStep mars256MB s { s with zone := z, phase := .taken b }
  | endRemap {b : Block} (hp : s.phase = .taken b) :
      SystemStep mars256MB s { s with phase := .idle }
  | dvrFree {b : Block} {z : Zone} {bp : Dvrbp} (hp : s.phase = .idle) (hb : b ∈ s.run.live)
      (hc : ∀ p ∈ (s.zone.span.pageBlock b).span, freePagesCheck (s.zone.memMap p) = true)
      (hz : freePagesBulk (s.zone.span.zoneStartPfn + b.head) b.order s.zone = some z)
      (h : freeDvrbpMemory mars256MB s.zone.span (some (s.zone.span.zoneStartPfn + b.head))
        b.order s.run.bp = some bp) :
      SystemStep mars256MB s { s with zone := z, run := ⟨bp, s.run.live.erase b⟩ }

/-- The states of the runs of the system. -/
inductive SystemReach (mars256MB : Bool) (span : ZoneSpan) : DvrSystem → Prop
  | init {z : Zone} {A : Set ℕ} {bp : Dvrbp} (h : Booted span (z, A))
      (hbp : initDvrbp span (fun p => (z.memMap p).pgReserved) = some bp) :
      SystemReach mars256MB span ⟨z, ⟨bp, []⟩, .idle, A⟩
  | step {s s' : DvrSystem} (h : SystemReach mars256MB span s) (hs : SystemStep mars256MB s s') :
      SystemReach mars256MB span s'

end OpenHMR
