import OpenHMR.DvrBlueprint

/-!
# Runs of the DVR blueprint

A run starts with `init_dvrbp` and makes calls of `alloc_dvrbp_memory` and
`free_dvrbp_memory`, where every free names a block that is still allocated, with the
order it was allocated with (`DvrReach`). The invariant `DvrInv` of a run is that the
blueprint holds the maximal blocks of the units handed over at init that no live block
covers. What the lists, the counters and the order fields then look like is
`blueprint_ok`, and what follows for fragmentation is `blueprint_coalesced`.
-/

open Buddy List

namespace OpenHMR

open Nat

/-- The blueprint with the blocks allocated from it. -/
structure DvrRun where
  /-- The blueprint. -/
  bp : Dvrbp
  /-- The blocks allocated and not freed, by unit. -/
  live : List Block

namespace DvrRun

/-- The blocks on the free lists. -/
def freeBlocks (r : DvrRun) : List Block :=
  (range maxOrder).flatMap fun k => (r.bp.dvrFreeArea k).freeList.map fun i => ⟨i, k⟩

/-- The live blocks and the blocks on the free lists. -/
def blocks (r : DvrRun) : List Block :=
  r.live ++ r.freeBlocks

end DvrRun

/-- A call from outside. -/
inductive DvrCall where
  /-- `alloc_dvrbp_memory(order)`. -/
  | alloc (order : ℕ)
  /-- `free_dvrbp_memory(page, order)`. -/
  | free (page order : ℕ)

/-- The calls the callers make : orders `1 .. MAX_ORDER - 1`, and frees of live blocks. -/
def DvrCall.Valid (z : ZoneSpan) (r : DvrRun) : DvrCall → Prop
  | .alloc order => 1 ≤ order ∧ order < maxOrder
  | .free page order => ∃ b ∈ r.live, page = z.zoneStartPfn + b.head ∧ order = b.order

/-- One call; `none` is a `BUG()`. -/
def dvrCall (mars256MB : Bool) (z : ZoneSpan) (r : DvrRun) : DvrCall → Option DvrRun
  | .alloc order =>
    match allocDvrbpMemory z order r.bp with
    | none => none
    | some (none, bp) => some ⟨bp, r.live⟩
    | some (some page, bp) => some ⟨bp, ⟨page - z.zoneStartPfn, order⟩ :: r.live⟩
  | .free page order =>
    match freeDvrbpMemory mars256MB z (some page) order r.bp with
    | none => none
    | some bp => some ⟨bp, r.live.erase ⟨page - z.zoneStartPfn, order⟩⟩

/-- The states of the runs from `init_dvrbp`. -/
inductive DvrReach (mars256MB : Bool) (z : ZoneSpan) (reserved : ℕ → Bool) : DvrRun → Prop
  | init {bp : Dvrbp} (h : initDvrbp z reserved = some bp) : DvrReach mars256MB z reserved ⟨bp, []⟩
  | call {r r' : DvrRun} {c : DvrCall} (hr : DvrReach mars256MB z reserved r) (hv : c.Valid z r)
      (hc : dvrCall mars256MB z r c = some r') : DvrReach mars256MB z reserved r'

/-- The units handed over at init : those of a chunk of 256 whose first page is not
reserved. -/
def handedOver (z : ZoneSpan) (reserved : ℕ → Bool) : Set ℕ :=
  {x | x < z.spannedPages ∧ reserved (z.zoneStartPfn + 256 * (x / 256)) = false}

section

variable {z : ZoneSpan}

theorem granular_handedOver (hz : 256 ∣ z.spannedPages) (reserved : ℕ → Bool) :
    Granular 8 (handedOver z reserved) := by
  rintro x y hxy ⟨hx, hr⟩
  have hxy' : x / 256 = y / 256 := hxy
  refine ⟨?_, by rw [← hxy']; exact hr⟩
  obtain ⟨c, hc⟩ := hz
  omega

/-! ## The invariant -/

/-- The free units are the units handed over that no live block covers; the live blocks
are disjoint aligned blocks of units handed over. -/
structure DvrInv (z : ZoneSpan) (reserved : ℕ → Bool) (r : DvrRun) : Prop where
  free : r.bp.Free (handedOver z reserved \ spans r.live)
  apart : Apart r.live
  aligned : ∀ b ∈ r.live, b.Aligned
  order : ∀ b ∈ r.live, 1 ≤ b.order ∧ b.order < maxOrder
  handed : ∀ b ∈ r.live, b.span ⊆ handedOver z reserved

theorem handedOver_chunk_zero (z : ZoneSpan) (reserved : ℕ → Bool) :
    {x ∈ handedOver z reserved | x / 256 < 0} = ∅ := by
  ext x
  simp

theorem mem_span_chunk {i x : ℕ} : x ∈ (⟨256 * i, 8⟩ : Block).span ↔ x / 256 = i := by
  rw [Block.mem_span]
  norm_num
  omega

/-- The chunk that is next does not meet those before it. -/
theorem disjoint_chunk {reserved : ℕ → Bool} {i : ℕ} :
    Disjoint (⟨256 * i, 8⟩ : Block).span {x ∈ handedOver z reserved | x / 256 < i} :=
  Set.disjoint_left.2 fun _ hx hx' => absurd hx'.2 (mem_span_chunk.1 hx).not_lt

/-- One chunk of the loop of `init_dvrbp`. -/
theorem init_step {reserved : ℕ → Bool} (hz : 256 ∣ z.spannedPages) {s : Dvrbp}
    {i : ℕ} (hi : i < z.spannedPages / 256)
    (hs : s.Free {x ∈ handedOver z reserved | x / 256 < i}) :
    ∃ s', (if reserved (z.zoneStartPfn + 256 * i) then some s else freeMemUnitBulk (256 * i) 8 s) =
      some s' ∧ s'.Free {x ∈ handedOver z reserved | x / 256 < i + 1} := by
  obtain ⟨c, hc⟩ := hz
  cases hres : reserved (z.zoneStartPfn + 256 * i) with
  | true =>
    refine ⟨s, by simp, ?_⟩
    convert hs using 1
    ext x
    refine ⟨fun ⟨hx, hlt⟩ => ⟨hx, ?_⟩, fun ⟨hx, hlt⟩ => ⟨hx, by omega⟩⟩
    have hne : x / 256 ≠ i := by
      rintro rfl
      simp [handedOver, hres] at hx
    omega
  | false =>
    obtain ⟨s', hs', hfree⟩ := freeMemUnitBulk_spec (b := ⟨256 * i, 8⟩) hs
      (Dvd.intro _ rfl) (by norm_num) (by norm_num [maxOrder]) disjoint_chunk
    refine ⟨s', by simpa using hs', ?_⟩
    convert hfree using 1
    ext x
    rw [Set.mem_union, mem_span_chunk]
    constructor
    · rintro ⟨hx, hlt⟩
      by_cases he : x / 256 = i
      · exact Or.inr he
      · exact Or.inl ⟨hx, by omega⟩
    · rintro (⟨hx, hlt⟩ | rfl)
      · exact ⟨hx, by omega⟩
      · exact ⟨⟨by omega, hres⟩, by omega⟩

/-- The loop of `init_dvrbp` after its first `n` chunks. -/
def initChunks (z : ZoneSpan) (reserved : ℕ → Bool) (n : ℕ) : Option Dvrbp :=
  (range n).foldlM
    (fun s i =>
      if reserved (z.zoneStartPfn + 256 * i) then some s else freeMemUnitBulk (256 * i) 8 s)
    ⟨FreeAreas.init, fun _ => 0⟩

/-- The chunks are freed one by one. -/
theorem initChunks_spec (hz : 256 ∣ z.spannedPages) (reserved : ℕ → Bool) :
    ∀ n ≤ z.spannedPages / 256, ∃ s, initChunks z reserved n = some s ∧
      s.Free {x ∈ handedOver z reserved | x / 256 < n}
  | 0, _ => by
    refine ⟨_, rfl, ?_⟩
    have hmax : maximal (maxOrder - 1) {x ∈ handedOver z reserved | x / 256 < 0} = ∅ := by
      rw [handedOver_chunk_zero]
      refine Set.eq_empty_of_forall_notMem fun b hb => ?_
      exact span_subset_of_mem_maximal hb b.head_mem_span
    rw [Dvrbp.Free, hmax]
    exact ⟨FreeAreas.holds_init, fun b hb => hb.elim, fun _ _ => rfl⟩
  | n + 1, hle => by
    obtain ⟨s, hs, hfree⟩ := initChunks_spec hz reserved n (by omega)
    obtain ⟨s', hs', hfree'⟩ := init_step hz (by omega) hfree
    refine ⟨s', ?_, hfree'⟩
    rw [initChunks] at hs ⊢
    rw [range_succ, foldlM_append, hs]
    simpa using hs'

/-- The chunks of a zone that is a multiple of a chunk. -/
theorem chunks_eq (hz : 256 ∣ z.spannedPages) :
    (z.spannedPages + 255) / 256 = z.spannedPages / 256 := by
  obtain ⟨c, hc⟩ := hz
  omega

/-- `init_dvrbp` does not hit a `BUG()` and frees exactly the units it hands over. -/
theorem initDvrbp_spec (hz : 256 ∣ z.spannedPages) (reserved : ℕ → Bool) :
    ∃ bp, initDvrbp z reserved = some bp ∧ bp.Free (handedOver z reserved) := by
  obtain ⟨bp, hbp, hfree⟩ := initChunks_spec hz reserved _ le_rfl
  refine ⟨bp, by rw [initDvrbp, chunks_eq hz]; exact hbp, ?_⟩
  convert hfree using 1
  ext x
  refine ⟨fun hx => ⟨hx, ?_⟩, fun hx => hx.1⟩
  have := hx.1
  obtain ⟨c, hc⟩ := hz
  omega

end

namespace DvrInv

variable {z : ZoneSpan} {reserved : ℕ → Bool} {r : DvrRun}

/-- The first part of a free block becomes live. -/
theorem of_alloc (h : DvrInv z reserved r) {b : Block} {order : ℕ} {bp : Dvrbp}
    (hb : b ∈ maximal (maxOrder - 1) (handedOver z reserved \ spans r.live))
    (hlo : 1 ≤ order) (hle : order ≤ b.order)
    (hbp : bp.Free ((handedOver z reserved \ spans r.live) \ (⟨b.head, order⟩ : Block).span)) :
    DvrInv z reserved ⟨bp, ⟨b.head, order⟩ :: r.live⟩ := by
  have ha : Block.Aligned ⟨b.head, order⟩ := (pow_dvd_pow 2 hle).trans hb.1
  have hsub : (⟨b.head, order⟩ : Block).span ⊆ handedOver z reserved \ spans r.live :=
    (ha.span_subset hb.1 hle (Block.head_mem_span _) b.head_mem_span).trans hb.2.2.1
  have hlt : order < maxOrder := by
    have := hb.2.1
    simp only [maxOrder] at this ⊢
    omega
  refine ⟨?_, ?_, ?_, ?_, ?_⟩
  · rwa [spans_cons, Set.union_comm, ← Set.sdiff_sdiff]
  · exact apart_cons.2 ⟨Set.disjoint_left.2 fun x hx => (hsub hx).2, h.apart⟩
  · exact forall_mem_cons.2 ⟨ha, h.aligned⟩
  · exact forall_mem_cons.2 ⟨⟨hlo, hlt⟩, h.order⟩
  · exact forall_mem_cons.2 ⟨fun x hx => (hsub hx).1, h.handed⟩

theorem disjoint_free {b : Block} (hb : b ∈ r.live) :
    Disjoint b.span (handedOver z reserved \ spans r.live) :=
  Set.disjoint_left.2 fun _ hx hx' => hx'.2 (span_subset_spans hb hx)

/-- A live block becomes free. -/
theorem of_free (h : DvrInv z reserved r) {b : Block} {bp : Dvrbp} (hb : b ∈ r.live)
    (hbp : bp.Free (handedOver z reserved \ spans r.live ∪ b.span)) :
    DvrInv z reserved ⟨bp, r.live.erase b⟩ := by
  refine ⟨?_, h.apart.erase hb, fun c hc => h.aligned c (mem_of_mem_erase hc),
    fun c hc => h.order c (mem_of_mem_erase hc),
    fun c hc => h.handed c (mem_of_mem_erase hc)⟩
  convert hbp using 1
  rw [h.apart.spans_erase hb]
  ext x
  have hin : x ∈ b.span → x ∈ handedOver z reserved := fun hx => h.handed b hb hx
  simp only [Set.mem_sdiff, Set.mem_union]
  tauto

theorem lt_spannedPages {x : ℕ} (hx : x ∈ handedOver z reserved \ spans r.live) :
    x < z.spannedPages :=
  hx.1.1

/-- A valid call keeps the invariant and does not hit a `BUG()`. -/
theorem step (mars256MB : Bool) (h : DvrInv z reserved r) {c : DvrCall} (hv : c.Valid z r) :
    ∃ r', dvrCall mars256MB z r c = some r' ∧ DvrInv z reserved r' := by
  cases c with
  | alloc order =>
    obtain ⟨hlo, -⟩ := hv
    rcases allocDvrbpMemory_spec (z := z) h.free (fun x hx => lt_spannedPages hx) hlo with
      ⟨hnone, -⟩ | ⟨b, hb, hle, bp, hsome, hfree⟩
    · exact ⟨r, by rw [dvrCall, hnone], h⟩
    · exact ⟨_, by simp only [dvrCall, hsome, Nat.add_sub_cancel_left], h.of_alloc hb hlo hle hfree⟩
  | free page order =>
    obtain ⟨b, hb, rfl, rfl⟩ := hv
    obtain ⟨bp, hbp, hfree⟩ := freeDvrbpMemory_spec mars256MB (z := z) h.free (h.aligned b hb)
      (h.order b hb).1 (h.order b hb).2 (disjoint_free hb) (h.handed b hb b.head_mem_span).1
    exact ⟨_, by simp only [dvrCall, hbp, Nat.add_sub_cancel_left], h.of_free hb hfree⟩

theorem returns (mars256MB : Bool) (h : DvrInv z reserved r) {c : DvrCall} (hv : c.Valid z r) :
    ∃ r', dvrCall mars256MB z r c = some r' :=
  (h.step mars256MB hv).imp fun _ h => h.1

end DvrInv

theorem chunk_dvd_spannedPages {z : ZoneSpan} (hz : 2 ^ (maxOrder - 1) ∣ z.spannedPages) :
    256 ∣ z.spannedPages :=
  Dvd.dvd.trans (by decide) hz

/-- The invariant holds along every run. -/
theorem DvrReach.inv {mars256MB : Bool} {z : ZoneSpan} (hz : 256 ∣ z.spannedPages)
    {reserved : ℕ → Bool} {r : DvrRun} (h : DvrReach mars256MB z reserved r) :
    DvrInv z reserved r := by
  induction h with
  | init h =>
    obtain ⟨bp, hbp, hfree⟩ := initDvrbp_spec hz reserved
    obtain rfl := Option.some.inj (h.symm.trans hbp)
    refine ⟨?_, List.Pairwise.nil, by simp, by simp, by simp⟩
    simpa using hfree
  | call _ hv hc ih =>
    obtain ⟨r', hr', hinv⟩ := ih.step _ hv
    obtain rfl := Option.some.inj (hc.symm.trans hr')
    exact hinv

/-! ## The lists, the counters and the order fields -/

section Facts

variable {z : ZoneSpan} {reserved : ℕ → Bool} {r : DvrRun}

theorem DvrRun.mem_freeBlocks {b : Block} :
    b ∈ r.freeBlocks ↔ b.order < maxOrder ∧ b.head ∈ (r.bp.dvrFreeArea b.order).freeList := by
  simp only [DvrRun.freeBlocks, mem_flatMap, mem_range, mem_map]
  constructor
  · rintro ⟨k, hk, i, hi, rfl⟩
    exact ⟨hk, hi⟩
  · rintro ⟨hk, hi⟩
    exact ⟨b.order, hk, b.head, hi, rfl⟩

theorem DvrInv.mem_freeBlocks (h : DvrInv z reserved r) {b : Block} :
    b ∈ r.freeBlocks ↔ b ∈ maximal (maxOrder - 1) (handedOver z reserved \ spans r.live) := by
  rw [DvrRun.mem_freeBlocks, h.free.areas.mem_iff]
  refine ⟨fun hb => hb.2, fun hb => ⟨?_, hb⟩⟩
  have := order_le_of_mem_maximal hb
  simp only [maxOrder] at this ⊢
  omega

theorem DvrInv.nodup_freeBlocks (h : DvrInv z reserved r) : r.freeBlocks.Nodup := by
  refine nodup_flatMap.2 ⟨fun k _ => ?_, ?_⟩
  · exact (h.free.areas.nodup k).map fun i j hij => congrArg Block.head hij
  · refine nodup_range.pairwise_of_forall_ne fun k _ l _ hkl => ?_
    refine disjoint_left.2 fun b hb hb' => ?_
    obtain ⟨i, -, rfl⟩ := mem_map.1 hb
    obtain ⟨j, -, hj⟩ := mem_map.1 hb'
    exact hkl (congrArg Block.order hj).symm

end Facts

/-- What the data of the blueprint look like in a run : the live blocks and the free
blocks are disjoint, aligned and cover the units handed over, the counters are the lengths
of the lists, and the order fields mark the free blocks. -/
structure BlueprintOk (z : ZoneSpan) (reserved : ℕ → Bool) (r : DvrRun) : Prop where
  apart : Apart r.blocks
  aligned : ∀ b ∈ r.blocks, 2 ^ b.order ∣ b.head
  cover : ∀ x, (∃ b ∈ r.blocks, x ∈ b.span) ↔ x ∈ handedOver z reserved
  nrFree_eq : ∀ k < maxOrder,
    (r.bp.dvrFreeArea k).nrFree = (r.bp.dvrFreeArea k).freeList.length
  order_ne_zero_iff : ∀ i, r.bp.dvrMemMap i ≠ 0 ↔ ∃ b ∈ r.freeBlocks, b.head = i
  order_eq : ∀ b ∈ r.freeBlocks, r.bp.dvrMemMap b.head = b.order

theorem DvrInv.one_le_order {z : ZoneSpan} {reserved : ℕ → Bool} {r : DvrRun}
    (hz : 256 ∣ z.spannedPages) (h : DvrInv z reserved r) {b : Block} (hb : b ∈ r.freeBlocks) :
    1 ≤ b.order := by
  have hlive : Granular 1 (spans r.live) := by
    rintro x y hxy ⟨c, hc, hx⟩
    exact ⟨c, hc, (h.aligned c hc).granular (h.order c hc).1 x y hxy hx⟩
  have hhand : Granular 1 (handedOver z reserved) := by
    intro x y hxy hx
    refine granular_handedOver hz reserved x y ?_ hx
    simp only [pow_one] at hxy
    omega
  exact (hhand.diff hlive).le_order (by decide) (h.mem_freeBlocks.1 hb)

/-- The data are right in every state of every run, and every call returns. -/
theorem blueprint_ok {mars256MB : Bool} {z : ZoneSpan}
    (hz : 2 ^ (maxOrder - 1) ∣ z.spannedPages) {reserved : ℕ → Bool} {r : DvrRun}
    (h : DvrReach mars256MB z reserved r) : BlueprintOk z reserved r ∧
      ∀ c : DvrCall, c.Valid z r → ∃ r', dvrCall mars256MB z r c = some r' := by
  have hinv := h.inv (chunk_dvd_spannedPages hz)
  refine ⟨⟨?_, ?_, ?_, fun k _ => hinv.free.areas.nrFree_eq k, ?_, ?_⟩, fun c => hinv.returns _⟩
  · refine pairwise_append.2 ⟨hinv.apart, ?_, fun b hb c hc => ?_⟩
    · refine hinv.nodup_freeBlocks.pairwise_of_forall_ne fun b hb c hc hne => ?_
      exact disjoint_of_mem_maximal (hinv.mem_freeBlocks.1 hb) (hinv.mem_freeBlocks.1 hc) hne
    · exact (DvrInv.disjoint_free hb).mono_right
        (span_subset_of_mem_maximal (hinv.mem_freeBlocks.1 hc))
  · intro b hb
    rcases mem_append.1 hb with hb | hb
    · exact hinv.aligned b hb
    · exact aligned_of_mem_maximal (hinv.mem_freeBlocks.1 hb)
  · intro x
    constructor
    · rintro ⟨b, hb, hx⟩
      rcases mem_append.1 hb with hb | hb
      · exact hinv.handed b hb hx
      · exact (span_subset_of_mem_maximal (hinv.mem_freeBlocks.1 hb) hx).1
    · intro hx
      by_cases hlive : x ∈ spans r.live
      · obtain ⟨b, hb, hxb⟩ := hlive
        exact ⟨b, mem_append_left _ hb, hxb⟩
      · have hfree : x ∈ handedOver z reserved \ spans r.live := ⟨hx, hlive⟩
        obtain ⟨b, hb, hxb⟩ := exists_maximal_mem (M := maxOrder - 1) hfree
        exact ⟨b, mem_append_right _ (hinv.mem_freeBlocks.2 hb), hxb⟩
  · intro i
    constructor
    · intro hi
      by_contra hex
      push Not at hex
      exact hi (hinv.free.order_of_notMem i fun b hb => hex b (hinv.mem_freeBlocks.2 hb))
    · rintro ⟨b, hb, rfl⟩
      rw [hinv.free.order_of_mem b (hinv.mem_freeBlocks.1 hb)]
      exact one_le_iff_ne_zero.1 (hinv.one_le_order (chunk_dvd_spannedPages hz) hb)
  · exact fun b hb => hinv.free.order_of_mem b (hinv.mem_freeBlocks.1 hb)

/-- On a zone of one top block whose second chunk is reserved : allocate order 3, allocate
order 9, free the first block. -/
theorem exists_dvrReach :
    ∃ r, DvrReach true ⟨8192, 4096⟩ (· == 8448) r ∧ r.live = [⟨512, 9⟩] := by
  refine ⟨_, .call (.call (.call (.init (Option.some_get ?_).symm)
    (c := .alloc 3) ⟨by decide, by decide⟩ (Option.some_get ?_).symm)
    (c := .alloc 9) ⟨by decide, by decide⟩ (Option.some_get ?_).symm)
    (c := .free 8192 3) ⟨⟨0, 3⟩, ?_, by decide, by decide⟩ (Option.some_get ?_).symm, ?_⟩
  all_goals decide +kernel

/-- The blueprint after the three calls of `exists_dvrReach`. -/
theorem blueprint_ok_of_run :
    ∃ r, r.live = [⟨512, 9⟩] ∧ BlueprintOk ⟨8192, 4096⟩ (· == 8448) r := by
  obtain ⟨r, hr, hlive⟩ := exists_dvrReach
  exact ⟨r, hlive, (blueprint_ok (by decide) hr).1⟩

/-! ## Coalescing -/

/-- The free blocks of a state without live blocks are those of every other one. -/
theorem DvrInv.freeBlocks_eq {z : ZoneSpan} {reserved : ℕ → Bool} {r r0 : DvrRun}
    (h : DvrInv z reserved r) (h0 : DvrInv z reserved r0) (hlive : r.live = r0.live) (b : Block) :
    b ∈ r.freeBlocks ↔ b ∈ r0.freeBlocks := by
  rw [h.mem_freeBlocks, h0.mem_freeBlocks, hlive]

/-- A call of `alloc_dvrbp_memory` fails exactly if no aligned run of units is free. -/
theorem DvrInv.alloc_eq_null_iff {z : ZoneSpan} {reserved : ℕ → Bool} {r : DvrRun}
    (h : DvrInv z reserved r) {order : ℕ} (hlo : 1 ≤ order) (hhi : order < maxOrder) :
    allocDvrbpMemory z order r.bp = some (none, r.bp) ↔
      ¬∃ i, 2 ^ order ∣ i ∧ ∀ x ∈ (⟨i, order⟩ : Block).span, ∃ b ∈ r.freeBlocks, x ∈ b.span := by
  have hM : order ≤ maxOrder - 1 := le_sub_one_of_lt hhi
  have hcover : ∀ x, (∃ b ∈ r.freeBlocks, x ∈ b.span) ↔
      x ∈ handedOver z reserved \ spans r.live := by
    intro x
    constructor
    · rintro ⟨b, hb, hx⟩
      exact span_subset_of_mem_maximal (h.mem_freeBlocks.1 hb) hx
    · intro hx
      obtain ⟨b, hb, hxb⟩ := exists_maximal_mem (M := maxOrder - 1) hx
      exact ⟨b, h.mem_freeBlocks.2 hb, hxb⟩
  simp only [hcover]
  have hex := exists_order_ge_iff (U := handedOver z reserved \ spans r.live) hM
  rcases allocDvrbpMemory_spec (z := z) h.free (fun x hx => DvrInv.lt_spannedPages hx) hlo with
    ⟨hnone, hmax⟩ | ⟨b, hb, hle, bp, hsome, -⟩
  · refine iff_of_true hnone fun hrun => ?_
    obtain ⟨b, hb, hle⟩ := hex.2 hrun
    exact absurd (hmax b hb) (not_lt.2 hle)
  · refine iff_of_false (by rw [hsome]; simp) (not_not.2 (hex.1 ⟨b, hb, hle⟩))

/-- No two free blocks are buddies, so allocation fails only if no aligned run of units is
free, and once every block is freed the free blocks are those `init_dvrbp` made. Every call
returns. -/
theorem blueprint_coalesced {mars256MB : Bool} {z : ZoneSpan}
    (hz : 2 ^ (maxOrder - 1) ∣ z.spannedPages) {reserved : ℕ → Bool} {r : DvrRun}
    (h : DvrReach mars256MB z reserved r) :
    (∀ k < maxOrder - 1, ∀ i ∈ (r.bp.dvrFreeArea k).freeList,
        i ^^^ 2 ^ k ∉ (r.bp.dvrFreeArea k).freeList) ∧
      (∀ order, 1 ≤ order → order < maxOrder →
        (allocDvrbpMemory z order r.bp = some (none, r.bp) ↔
          ¬∃ i, 2 ^ order ∣ i ∧
            ∀ x ∈ (⟨i, order⟩ : Block).span, ∃ b ∈ r.freeBlocks, x ∈ b.span)) ∧
      (r.live = [] → ∀ bp, initDvrbp z reserved = some bp →
        ∀ b, b ∈ r.freeBlocks ↔ b ∈ (⟨bp, []⟩ : DvrRun).freeBlocks) ∧
      ∀ c : DvrCall, c.Valid z r → ∃ r', dvrCall mars256MB z r c = some r' := by
  have hinv := h.inv (chunk_dvd_spannedPages hz)
  refine ⟨fun k hk i hi hb => ?_, fun order hlo hhi => hinv.alloc_eq_null_iff hlo hhi, ?_,
    fun c => hinv.returns _⟩
  · have hmem := (hinv.free.areas.mem_iff k i).1 hi
    exact buddy_notMem_maximal hmem hk ((hinv.free.areas.mem_iff k _).1 hb)
  · intro hlive bp hbp b
    have hinit : DvrReach mars256MB z reserved ⟨bp, []⟩ := .init hbp
    exact hinv.freeBlocks_eq (hinit.inv (chunk_dvd_spannedPages hz)) hlive b

/-- The same blueprint has no two free buddies. -/
theorem blueprint_coalesced_of_run : ∃ r : DvrRun, r.live = [⟨512, 9⟩] ∧
    ∀ k < maxOrder - 1, ∀ i ∈ (r.bp.dvrFreeArea k).freeList,
      i ^^^ 2 ^ k ∉ (r.bp.dvrFreeArea k).freeList := by
  obtain ⟨r, hr, hlive⟩ := exists_dvrReach
  exact ⟨r, hlive, (blueprint_coalesced (by decide) hr).1⟩

end OpenHMR
