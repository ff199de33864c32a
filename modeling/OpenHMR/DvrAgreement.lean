import OpenHMR.DvrSystem

/-!
# The blueprint and the zone agree

A reserved block of the blueprint is the first part of a maximal block of its free units.
A block around it whose pages the DVR users do not hold, and none of whose pages is
reserved, consists of units the blueprint had free, so it lies in that maximal block or is
around it, and in both cases it starts where the reserved block starts (`leading_of_maximal`).
The zone's free blocks are such blocks. Hence `__rmqueue` finds the reserved block at the
head of a free block (`rmqueue_eq_reserved`), and requests of others, which only look at
the heads of free blocks, never cut into it (`rmqueue_spares_reserved`).
-/

open Buddy Option Set Block

namespace OpenHMR

open Nat ZoneSpan DvrSystem

/-! ## Blocks of units and blocks of pages -/

section PageBlock

variable {span : ZoneSpan} {b : Block}

variable {U V : Set ℕ}

theorem ZoneSpan.mem_pages {x : ℕ} : span.zoneStartPfn + x ∈ span.pages U ↔ x ∈ U :=
  (add_right_injective _).mem_set_image

theorem ZoneSpan.pages_span : span.pages b.span = (span.pageBlock b).span := by
  ext p
  simp only [pages, mem_image, mem_span, pageBlock]
  constructor
  · rintro ⟨x, hx, rfl⟩
    omega
  · exact fun hp => ⟨p - span.zoneStartPfn, by omega, by omega⟩

theorem ZoneSpan.pages_subset : span.pages U ⊆ span.pages V ↔ U ⊆ V :=
  image_subset_image_iff (add_right_injective _)

theorem ZoneSpan.pages_union : span.pages (U ∪ V) = span.pages U ∪ span.pages V :=
  image_union _ _ _

theorem ZoneSpan.pages_sdiff : span.pages (U \ V) = span.pages U \ span.pages V :=
  image_sdiff (add_right_injective _) _ _

theorem ZoneSpan.aligned_pageBlock (hstart : 2 ^ (maxOrder - 1) ∣ span.zoneStartPfn)
    (hb : b.order ≤ maxOrder - 1) : (span.pageBlock b).Aligned ↔ b.Aligned :=
  (Nat.dvd_add_right ((Nat.pow_dvd_pow 2 hb).trans hstart))

end PageBlock

/-- The reserved block is the first part of any block around it that the DVR users do not
hold and that has no reserved pages. -/
def Leading (span : ZoneSpan) (reserved : ℕ → Bool) (held : List Block) (b : Block) : Prop :=
  ∀ c : Block, c.Aligned → c.order ≤ maxOrder - 1 → b.span ⊆ c.span →
    (∀ x ∈ c.span, x < span.spannedPages ∧ reserved (span.zoneStartPfn + x) = false ∧
      x ∉ spans held) → c.head = b.head

/-- The units of a block without reserved pages were handed over if one of them was. -/
theorem subset_handedOver {span : ZoneSpan} {reserved : ℕ → Bool} {c : Block} (hc : c.Aligned)
    (hin : ∀ x ∈ c.span, x < span.spannedPages ∧ reserved (span.zoneStartPfn + x) = false) {y : ℕ}
    (hy : y ∈ c.span) (hyh : y ∈ handedOver span reserved) : c.span ⊆ handedOver span reserved := by
  intro x hx
  refine ⟨(hin x hx).1, ?_⟩
  have hxc := hc.mem_span.1 hx
  have hyc := hc.mem_span.1 hy
  rcases lt_or_ge c.order 8 with hlt | hge
  · have hxy : x / 256 = y / 256 := by
      have h256 : 256 = 2 ^ c.order * 2 ^ (8 - c.order) := by
        rw [← pow_add, Nat.add_sub_cancel' hlt.le]
        rfl
      rw [h256, ← Nat.div_div_eq_div_mul, ← Nat.div_div_eq_div_mul, hxc, hyc]
    rw [hxy]
    exact hyh.2
  · refine (hin _ (hc.mem_span.2 ?_)).2
    have h256 : 2 ^ c.order = 256 * 2 ^ (c.order - 8) := by
      rw [show 256 = 2 ^ 8 by norm_num, ← pow_add, Nat.add_sub_cancel' hge]
    rw [← hxc, h256, ← Nat.div_div_eq_div_mul, ← Nat.div_div_eq_div_mul,
      Nat.mul_div_cancel_left _ (by norm_num)]

/-- The first part of a maximal block of the blueprint's free units leads. -/
theorem leading_of_maximal {span : ZoneSpan} {reserved : ℕ → Bool} {live : List Block} {b : Block}
    {order : ℕ} (hb : b ∈ maximal (maxOrder - 1) (handedOver span reserved \ spans live)) :
    Leading span reserved live ⟨b.head, order⟩ := by
  intro c hc hco hsub hfree
  have hbc : b.head ∈ c.span := hsub (head_mem_span _)
  have hbU := span_subset_of_mem_maximal hb b.head_mem_span
  have hcb : c.span ⊆ b.span := by
    rcases le_total c.order b.order with hle | hle
    · exact hc.span_subset hb.1 hle hbc b.head_mem_span
    · have hcU : c.span ⊆ handedOver span reserved \ spans live := fun x hx =>
        ⟨subset_handedOver hc (fun y hy => ⟨(hfree y hy).1, (hfree y hy).2.1⟩) hbc hbU.1 hx,
          (hfree x hx).2.2⟩
      obtain ⟨d, hd, hcd⟩ := exists_maximal_superset hc hco hcU
      obtain rfl := eq_of_mem_maximal hd hb (hcd hbc) b.head_mem_span
      exact hcd
  exact le_antisymm (mem_span.1 hbc).1 (mem_span.1 (hcb c.head_mem_span)).1

/-! ## The joint invariant -/

/-- The zone is in order, the blueprint is in order, the pages in ordinary use and those the
DVR users hold are apart, and a reserved block leads. -/
structure SystemInv (span : ZoneSpan) (reserved : ℕ → Bool) (s : DvrSystem) : Prop where
  page : PageInv span s.zone (s.inUse ∪ span.pages (spans s.held))
  apart : Disjoint s.inUse (span.pages (spans s.held))
  dvr : DvrInv span reserved s.run
  pgReserved : ∀ p, (s.zone.memMap p).pgReserved = reserved p
  leading : ∀ b, s.phase = .reserved b → b ∈ s.run.live ∧ Leading span reserved s.held b
  taken : ∀ b, s.phase = .taken b → b ∈ s.run.live

namespace SystemInv

variable {span : ZoneSpan} {reserved : ℕ → Bool} {s : DvrSystem}

variable (h : SystemInv span reserved s)

include h

variable {resv : Option Reservation} {z : Zone} {bp : Dvrbp}

theorem page_step {A : Set ℕ} (hp : PageOp resv (s.zone, s.inUse) (z, A)) :
    SystemInv span reserved { s with zone := z, inUse := A } := by
  obtain ⟨hinv, hs, hd⟩ := h.page.op h.apart hp
  exact ⟨hinv, hd, h.dvr, fun p => (hs.pgReserved p).trans (h.pgReserved p), h.leading, h.taken⟩

theorem use_step (hu : PageUse (s.inUse ∪ span.pages (spans s.held)) s.zone z) :
    SystemInv span reserved { s with zone := z } := by
  obtain ⟨-, -, -, hres⟩ := hu.spec h.page.ok h.page.notFree
  exact ⟨h.page.use hu, h.apart, h.dvr, fun p => (hres p).trans (h.pgReserved p), h.leading,
    h.taken⟩

/-- A block is reserved. -/
theorem startRemap_step {order page : ℕ} (hp : s.phase = .idle) (hlo : 1 ≤ order)
    (ha : allocDvrbpMemory span order s.run.bp = some (some page, bp)) :
    SystemInv span reserved { s with
      run := ⟨bp, ⟨page - span.zoneStartPfn, order⟩ :: s.run.live⟩
      phase := .reserved ⟨page - span.zoneStartPfn, order⟩ } := by
  rcases allocDvrbpMemory_spec (z := span) h.dvr.free (fun x hx => DvrInv.lt_spannedPages hx) hlo
    with ⟨hnone, -⟩ | ⟨b, hb, hle, w, hsome, hfree⟩
  · rw [hnone] at ha
    cases ha
  · rw [hsome] at ha
    cases ha
    have hheld : s.held = s.run.live := by rw [held, hp]
    have hpage := h.page
    have hapart := h.apart
    rw [hheld] at hpage hapart
    simp only [Nat.add_sub_cancel_left]
    refine ⟨?_, ?_, h.dvr.of_alloc hb hlo hle hfree, h.pgReserved, ?_, ?_⟩
    · simpa [held] using hpage
    · simpa [held] using hapart
    · rintro c ⟨⟩
      refine ⟨List.mem_cons_self, ?_⟩
      simpa [held] using leading_of_maximal hb
    · rintro c ⟨⟩

theorem take_step {b : Block} {gfpFlags : ℕ} (hp : s.phase = .reserved b)
    (hr : rmqueue resv b.order gfpFlags s.zone = some (some (span.zoneStartPfn + b.head), z)) :
    SystemInv span reserved { s with zone := z, phase := .taken b } := by
  obtain ⟨hb, -⟩ := h.leading b hp
  have hheld : s.held = s.run.live.erase b := by rw [held, hp]
  have hspans : span.pages (spans s.run.live) =
      span.pages (spans s.held) ∪ (span.pageBlock b).span := by
    rw [hheld, h.dvr.apart.spans_erase hb, ← pages_span, ← pages_union,
      sdiff_union_of_subset (span_subset_spans hb)]
  obtain ⟨hinv, hs, hd⟩ := h.page.alloc hr
  rw [union_assoc] at hinv
  refine ⟨hspans ▸ hinv, ?_, h.dvr, fun p => (hs.pgReserved p).trans (h.pgReserved p), ?_, ?_⟩
  · change Disjoint s.inUse (span.pages (spans s.run.live))
    rw [hspans]
    exact disjoint_union_right.2 ⟨h.apart, (disjoint_union_left.1 hd).1⟩
  · rintro c ⟨⟩
  · rintro c ⟨⟩
    exact hb

theorem endRemap_step {b : Block} (hp : s.phase = .taken b) :
    SystemInv span reserved { s with phase := .idle } := by
  have hheld : s.held = s.run.live := by rw [held, hp]
  have hpage := h.page
  have hapart := h.apart
  rw [hheld] at hpage hapart
  exact ⟨hpage, hapart, h.dvr, h.pgReserved, by rintro c ⟨⟩, by rintro c ⟨⟩⟩

/-- A live block is freed in the zone and in the blueprint. -/
theorem dvrFree_step (mars256MB : Bool) {b : Block} (hp : s.phase = .idle) (hb : b ∈ s.run.live)
    (hc : ∀ p ∈ (span.pageBlock b).span, freePagesCheck (s.zone.memMap p) = true)
    (hz : freePagesBulk (span.zoneStartPfn + b.head) b.order s.zone = some z)
    (hf : freeDvrbpMemory mars256MB span (some (span.zoneStartPfn + b.head)) b.order s.run.bp =
      some bp) :
    SystemInv span reserved { s with zone := z, run := ⟨bp, s.run.live.erase b⟩ } := by
  have hheld : s.held = s.run.live := by rw [held, hp]
  have hpage := h.page
  have hapart := h.apart
  rw [hheld] at hpage hapart
  have hsub : (span.pageBlock b).span ⊆ span.pages (spans s.run.live) := by
    rw [← pages_span]
    exact pages_subset.2 (span_subset_spans hb)
  have herase : span.pages (spans (s.run.live.erase b)) =
      span.pages (spans s.run.live) \ (span.pageBlock b).span := by
    rw [h.dvr.apart.spans_erase hb, pages_sdiff, pages_span]
  obtain ⟨hinv, hs⟩ := hpage.free (b := span.pageBlock b) (h.dvr.order b hb).2
    (hsub.trans subset_union_right) hc hz
  rw [union_sdiff_distrib, (hapart.mono_right hsub).sdiff_eq_left, ← herase] at hinv
  obtain ⟨r, hr, hdvr⟩ := h.dvr.step mars256MB (c := .free _ _) ⟨b, hb, rfl, rfl⟩
  simp only [dvrCall, hf, Nat.add_sub_cancel_left, some.injEq] at hr
  have hheld' : held { s with zone := z, run := ⟨bp, s.run.live.erase b⟩ } =
      s.run.live.erase b := by simp only [held, hp]
  refine ⟨?_, ?_, hr ▸ hdvr, fun p => (hs.pgReserved p).trans (h.pgReserved p), ?_, ?_⟩
  · rw [hheld']
    exact hinv
  · rw [hheld', herase]
    exact hapart.mono_right sdiff_subset
  · intro c hc
    cases hp.symm.trans hc
  · intro c hc
    cases hp.symm.trans hc

theorem step {mars256MB : Bool} {s' : DvrSystem}
    (hs : SystemStep mars256MB s s') : SystemInv span reserved s' := by
  obtain rfl := h.page.span_eq
  cases hs with
  | page hp => exact h.page_step hp
  | use hu => exact h.use_step hu
  | startRemap hp hlo _ ha => exact h.startRemap_step hp hlo ha
  | take hp _ hr => exact h.take_step hp hr
  | endRemap hp => exact h.endRemap_step hp
  | dvrFree hp hb hc hz hf => exact h.dvrFree_step mars256MB hp hb hc hz hf

end SystemInv

/-- The joint invariant holds along every run. -/
theorem SystemReach.inv {mars256MB : Bool} {span : ZoneSpan}
    (hspan : 2 ^ (maxOrder - 1) ∣ span.spannedPages) {s : DvrSystem}
    (h : SystemReach mars256MB span s) : ∃ reserved, SystemInv span reserved s := by
  induction h with
  | init hb hbp =>
    have hdvr : DvrReach mars256MB span _ _ := .init hbp
    refine ⟨_, ?_, ?_, hdvr.inv (chunk_dvd_spannedPages hspan), fun _ => rfl, ?_, ?_⟩
    · simpa [held, pages] using hb.inv
    · simp [held, pages]
    · rintro c ⟨⟩
    · rintro c ⟨⟩
  | step _ hs ih =>
    obtain ⟨reserved, hinv⟩ := ih
    exact ⟨reserved, hinv.step hs⟩

/-! ## What `__rmqueue` does while a block is reserved -/

section Reserved

variable {span : ZoneSpan} {reserved : ℕ → Bool} {s : DvrSystem} {b : Block}

variable (h : SystemInv span reserved s)

include h

/-- The DVR users hold the pages of a reserved block that was taken. -/
theorem SystemInv.notMem_freeUnits (hp : s.phase = .taken b) {p : ℕ}
    (hpb : p ∈ (span.pageBlock b).span) : p ∉ s.zone.freeUnits := by
  have hheld : s.held = s.run.live := by rw [held, hp]
  refine disjoint_left.1 h.page.notFree (.inr ?_)
  rw [hheld]
  rw [← pages_span] at hpb
  exact pages_subset.2 (span_subset_spans (h.taken b hp)) hpb

theorem SystemInv.mem_live (hp : s.reserved = some b) :
    b ∈ s.run.live := by
  cases hphase : s.phase with
  | idle => simp [DvrSystem.reserved, hphase] at hp
  | reserved e =>
    obtain rfl : e = b := by simpa [DvrSystem.reserved, hphase] using hp
    exact (h.leading e hphase).1
  | taken e =>
    obtain rfl : e = b := by simpa [DvrSystem.reserved, hphase] using hp
    exact h.taken e hphase

/-- A free block of the zone around a reserved block starts at the reserved page. -/
theorem SystemInv.head_eq (hstart : 2 ^ (maxOrder - 1) ∣ span.zoneStartPfn)
    (hp : s.reserved = some b) {c : Block} (hc : c ∈ maximal (maxOrder - 1) s.zone.freeUnits)
    (hsub : (span.pageBlock b).span ⊆ c.span) :
    c.head = span.zoneStartPfn + b.head := by
  have hfree := span_subset_of_mem_maximal hc
  have hin : ∀ p ∈ c.span, span.outside p = false := fun p hp =>
    h.page.span_eq ▸ (h.page.ok.quiet p (hfree hp)).1
  obtain ⟨d, rfl⟩ : ∃ d, c = span.pageBlock d := by
    obtain ⟨x, hx⟩ := Nat.exists_eq_add_of_le (le_of_outside (hin _ c.head_mem_span))
    exact ⟨⟨x, c.order⟩, by rw [pageBlock, ← hx]⟩
  cases hphase : s.phase with
  | idle => simp [DvrSystem.reserved, hphase] at hp
  | taken e =>
    obtain rfl : e = b := by simpa [DvrSystem.reserved, hphase] using hp
    exact absurd (hfree (hsub (head_mem_span _)))
      (h.notMem_freeUnits hphase (head_mem_span _))
  | reserved e =>
    obtain rfl : e = b := by simpa [DvrSystem.reserved, hphase] using hp
    have hM : (span.pageBlock d).order ≤ maxOrder - 1 := order_le_of_mem_maximal hc
    refine congrArg (span.zoneStartPfn + ·) ((h.leading e hphase).2 d ?_ hM ?_ fun x hx => ?_)
    · exact (aligned_pageBlock (b := d) hstart hM).1 (aligned_of_mem_maximal hc)
    · rwa [← pages_span, ← pages_span, pages_subset] at hsub
    · have hxd : span.zoneStartPfn + x ∈ (span.pageBlock d).span := by
        rwa [← pages_span, mem_pages]
      refine ⟨outside_add.1 (hin _ hxd), ?_, fun hheld => ?_⟩
      · rw [← h.pgReserved]
        exact (h.page.ok.quiet _ (hfree hxd)).2.1
      · exact disjoint_left.1 h.page.notFree (.inr (mem_pages.2 hheld)) (hfree hxd)

end Reserved

/-- Once the pages of the reserved block are free in the zone, `__rmqueue` with
`__GFP_EXHAUST` hands out exactly that block. -/
theorem rmqueue_eq_reserved {mars256MB : Bool} {span : ZoneSpan}
    (hstart : 2 ^ (maxOrder - 1) ∣ span.zoneStartPfn)
    (hspan : 2 ^ (maxOrder - 1) ∣ span.spannedPages) {s : DvrSystem}
    (h : SystemReach mars256MB span s) {b : Block} (hp : s.reserved = some b)
    (hfree : ∀ p ∈ (span.pageBlock b).span, p ∈ s.zone.freeUnits) {gfpFlags : ℕ}
    (hf : gfpFlags &&& gfpExhaust ≠ 0) :
    ∃ z', rmqueue s.reservation b.order gfpFlags s.zone =
      some (some (span.zoneStartPfn + b.head), z') := by
  obtain ⟨reserved, hinv⟩ := h.inv hspan
  have hlive := hinv.mem_live hp
  have hM : b.order ≤ maxOrder - 1 := le_sub_one_of_lt (hinv.dvr.order b hlive).2
  have ha : (span.pageBlock b).Aligned :=
    (aligned_pageBlock hstart hM).2 (hinv.dvr.aligned b hlive)
  obtain ⟨c, hc, hsub⟩ := exists_maximal_superset ha hM hfree
  have hhead := hinv.head_eq hstart hp hc hsub
  have hresv : s.reservation = some ⟨span.zoneStartPfn + b.head, 1 <<< b.order⟩ := by
    rw [reservation, hp, hinv.page.span_eq]
    rfl
  have hpick : ∀ l page, rmqueuePick s.reservation gfpFlags l = some page →
      page = span.zoneStartPfn + b.head := by
    intro l page hl
    rw [hresv] at hl
    simpa [hf] using List.find?_some hl
  rcases rmqueue_spec s.reservation b.order gfpFlags hinv.page.ok with
    ⟨-, hnone⟩ | ⟨d, -, -, hd, z', hz', -, -⟩
  · have hle : (span.pageBlock b).order ≤ c.order := order_le_of_span_subset hsub
    have hlt : c.order < maxOrder := lt_of_le_pred (by decide) (order_le_of_mem_maximal hc)
    have hlist := (hinv.page.ok.holds.areas.mem_iff c.order c.head).2 hc
    have hfind := hnone c.order hle hlt
    rw [hresv] at hfind
    exact absurd (List.find?_eq_none.1 hfind _ hlist) (by simp [hf, hhead])
  · rw [hpick _ _ hd] at hz'
    exact ⟨z', hz'⟩

/-- A zone of one top block, released by the boot allocator. -/
def oneBlockZone : Zone :=
  (freePagesBulk 4096 12 (clearReserved ⟨4096, 12⟩ (bootZone ⟨4096, 4096⟩))).get
    (by decide +kernel)

theorem oneBlockZone_spec : Booted ⟨4096, 4096⟩ (oneBlockZone, ∅) ∧
    oneBlockZone.freeUnits = (⟨4096, 12⟩ : Block).span := by
  have hz : freePagesBulk 4096 12 (clearReserved ⟨4096, 12⟩ (bootZone ⟨4096, 4096⟩)) =
    some oneBlockZone := (some_get _).symm
  have hin : ∀ p ∈ (⟨4096, 12⟩ : Block).span, outside ⟨4096, 4096⟩ p = false := by
    intro p hp
    change 4096 ≤ p ∧ p < 4096 + 4096 at hp
    simp only [outside, Bool.or_eq_false_iff, decide_eq_false_iff_not]
    omega
  refine ⟨.release (b := ⟨4096, 12⟩) .start (by decide) (fun p _ => ⟨rfl, rfl⟩) hin hz, ?_⟩
  have hboot : Booted ⟨4096, 4096⟩ _ := .start
  have hU := (hboot.inv.release (b := ⟨4096, 12⟩) (by decide) (fun p _ => ⟨rfl, rfl⟩) hin hz).2
  rw [hU, (bootZone_ok _).freeUnits_eq, empty_union]

/-- `start_remap(order)` right after `init_dvrbp`. -/
theorem exists_systemReach {span : ZoneSpan} {z : Zone} {A : Set ℕ} (hz : Booted span (z, A))
    (order i : ℕ) (hlo : 1 ≤ order) (hhi : order < maxOrder)
    (h : ((initDvrbp span fun p => (z.memMap p).pgReserved).bind fun bp =>
      (allocDvrbpMemory span order bp).map Prod.fst) = some (some (span.zoneStartPfn + i))) :
    ∃ s, SystemReach true span s ∧ s.reserved = some ⟨i, order⟩ ∧ s.zone = z := by
  obtain ⟨bp, hbp, hsome⟩ := bind_eq_some_iff.1 h
  obtain ⟨⟨page, bp'⟩, halloc, hpage⟩ := map_eq_some_iff.1 hsome
  obtain rfl : page = some (span.zoneStartPfn + i) := hpage
  obtain rfl := hz.inv.span_eq
  refine ⟨_, .step (.init hz hbp) (.startRemap rfl hlo hhi halloc), ?_, rfl⟩
  simp [reserved]

/-- A started region of eight pages is handed out to a request of order 3. -/
theorem rmqueue_eq_reserved_of_run : ∃ s : DvrSystem, s.reserved = some ⟨0, 3⟩ ∧ ∃ z',
    rmqueue s.reservation 3 gfpExhaust s.zone = some (some 4096, z') := by
  obtain ⟨hb, hU⟩ := oneBlockZone_spec
  obtain ⟨s, hs, hresv, hzone⟩ := exists_systemReach hb 3 0 (by decide) (by decide)
    (by decide +kernel)
  refine ⟨s, hresv, rmqueue_eq_reserved (by decide) (by decide) hs hresv (fun p hp => ?_)
    (by decide)⟩
  rw [hzone, hU]
  change 4096 ≤ p ∧ p < 4096 + 8 at hp
  change 4096 ≤ p ∧ p < 4096 + 4096
  omega

/-! ## Any request -/

/-- In every state of the system `__rmqueue` meets no `BUG_ON`, hands out no page that is in use,
and without a reservation it fails only if there is no free block. -/
theorem rmqueue_of_reach {mars256MB : Bool} {span : ZoneSpan}
    (hspan : 2 ^ (maxOrder - 1) ∣ span.spannedPages) {s : DvrSystem}
    (h : SystemReach mars256MB span s) (order gfpFlags : ℕ) (ho : order < maxOrder) :
    ∃ page z', rmqueue s.reservation order gfpFlags s.zone = some (page, z') ∧
      (∀ p ∈ page, Disjoint (s.inUse ∪ s.heldPages) (⟨p, order⟩ : Block).span) ∧
      (page = none → s.reserved = none → ∀ i, Block.Aligned ⟨i, order⟩ →
        ¬(⟨i, order⟩ : Block).span ⊆ s.zone.freeUnits) := by
  obtain ⟨reserved, hinv⟩ := h.inv hspan
  obtain rfl := hinv.page.span_eq
  rcases rmqueue_spec s.reservation order gfpFlags hinv.page.ok with
    ⟨hr, hnone⟩ | ⟨b, -, -, -, z', hr, -⟩
  · refine ⟨none, _, hr, nofun, fun _ hresv i ha hsub => ?_⟩
    obtain ⟨c, hc, hic⟩ := exists_maximal_superset ha (le_sub_one_of_lt ho) hsub
    have hlist := hnone c.order (order_le_of_span_subset hic)
      (lt_of_le_pred (by decide) (order_le_of_mem_maximal hc))
    have hmem := (hinv.page.ok.holds.areas.mem_iff c.order c.head).2 hc
    rw [reservation, hresv] at hlist
    rw [List.getLast?_eq_none_iff.1 hlist] at hmem
    exact List.not_mem_nil hmem
  · refine ⟨some b.head, z', hr, ?_, nofun⟩
    rintro p ⟨⟩
    exact (hinv.page.alloc hr).2.2

/-- The same request without the flag, in the same system. -/
theorem rmqueue_of_reach_eight : ∃ s : DvrSystem, s.reserved = some ⟨0, 3⟩ ∧ ∃ page z',
    rmqueue s.reservation 3 0 s.zone = some (page, z') := by
  obtain ⟨s, hs, hresv, -⟩ := exists_systemReach oneBlockZone_spec.1 3 0 (by decide) (by decide)
    (by decide +kernel)
  obtain ⟨page, z', hr, -⟩ := rmqueue_of_reach (by decide) hs 3 0 (by decide)
  exact ⟨s, hresv, page, z', hr⟩

/-! ## Other requests -/

/-- The block handed out is apart from the block `b`, whose free pages stay free. -/
def Spares (z z' : Zone) (page order : ℕ) (b : Block) : Prop :=
  Disjoint (⟨page, order⟩ : Block).span b.span ∧
    ∀ p ∈ b.span, p ∈ z.freeUnits → p ∈ z'.freeUnits

theorem outside_of_rmqueuePick {r : Reservation} {gfpFlags page : ℕ} {l : List ℕ}
    (hf : gfpFlags &&& gfpExhaust = 0) (h : rmqueuePick (some r) gfpFlags l = some page) :
    page < r.start ∨ r.start + r.count ≤ page := by
  simpa [hf] using List.find?_some h

/-- The head of the free block tells that it is apart from the reserved block, unless it is
around it; then the part handed out is still apart from it if it is not larger. -/
theorem spares_reserved {z z' : Zone} (hz : z.Ok) {b : Block} (hb : b.Aligned)
    {order gfpFlags page : ℕ} (hf : gfpFlags &&& gfpExhaust = 0)
    (h : rmqueue (some ⟨b.head, 1 <<< b.order⟩) order gfpFlags z = some (some page, z'))
    (hc : order ≤ b.order ∨ ∀ c ∈ maximal (maxOrder - 1) z.freeUnits,
      b.span ⊆ c.span → c.head = b.head) :
    Spares z z' page order b := by
  obtain ⟨c, hmax, rfl, hle, hpick, hsub, -, -, hU⟩ := rmqueue_some hz h
  have hout : c.head < b.head ∨ b.head + 1 <<< b.order ≤ c.head := outside_of_rmqueuePick hf hpick
  rw [one_shiftLeft] at hout
  have hhead : c.head ∉ b.span := by
    rw [mem_span]
    omega
  have ha : Block.Aligned ⟨c.head, order⟩ := (pow_dvd_pow 2 hle).trans hmax.1
  have hd : Disjoint (⟨c.head, order⟩ : Block).span b.span := by
    refine disjoint_left.2 fun x hx hxb => ?_
    rcases hc with hc | hc
    · exact hhead (ha.span_subset hb hc hx hxb (head_mem_span _))
    · rcases le_total c.order b.order with hcb | hcb
      · exact hhead (hmax.1.span_subset hb hcb (hsub hx) hxb c.head_mem_span)
      · exact hhead (hc c hmax (hb.span_subset hmax.1 hcb hxb (hsub hx)) ▸ b.head_mem_span)
  refine ⟨hd, fun p hp hfree => ?_⟩
  rw [hU]
  exact ⟨hfree, disjoint_right.1 hd hp⟩

/-- The head test alone is not enough : a request larger than the reservation gets the whole
free block, whose second half is reserved. -/
theorem rmqueue_not_spares_reserved : oneBlockZone.Ok ∧ Block.Aligned ⟨6144, 11⟩ ∧
    ∃ z', rmqueue (some ⟨6144, 1 <<< 11⟩) 12 0 oneBlockZone = some (some 4096, z') ∧
      ¬Spares oneBlockZone z' 4096 12 ⟨6144, 11⟩ := by
  have hpage : (rmqueue (some ⟨6144, 1 <<< 11⟩) 12 0 oneBlockZone).map Prod.fst =
      some (some 4096) := by decide +kernel
  obtain ⟨⟨page, z'⟩, hz', rfl⟩ := map_eq_some_iff.1 hpage
  refine ⟨oneBlockZone_spec.1.inv.ok, by decide, z', hz', fun h => ?_⟩
  have h1 : 6144 ∈ (⟨4096, 12⟩ : Block).span := ⟨by decide, by decide⟩
  exact disjoint_left.1 h.1 h1 (head_mem_span _)

/-- A request without `__GFP_EXHAUST` spares the reserved block if it is not larger, or if
the free blocks around the reserved block start where it starts. In every run of the system
a reserved block is spared by every request. -/
theorem rmqueue_spares_reserved :
    (∀ (z z' : Zone) (b : Block) (order gfpFlags page : ℕ), z.Ok → b.Aligned →
      gfpFlags &&& gfpExhaust = 0 →
      rmqueue (some ⟨b.head, 1 <<< b.order⟩) order gfpFlags z = some (some page, z') →
      (order ≤ b.order ∨ ∀ k, ∀ head ∈ (z.freeArea k).freeList,
        b.span ⊆ (⟨head, k⟩ : Block).span → head = b.head) →
      Spares z z' page order b) ∧
    ∀ (mars256MB : Bool) (span : ZoneSpan), 2 ^ (maxOrder - 1) ∣ span.zoneStartPfn →
      2 ^ (maxOrder - 1) ∣ span.spannedPages → ∀ (s : DvrSystem) (z' : Zone) (b : Block)
      (order gfpFlags page : ℕ), SystemReach mars256MB span s → s.reserved = some b →
      gfpFlags &&& gfpExhaust = 0 →
      rmqueue s.reservation order gfpFlags s.zone = some (some page, z') →
      Spares s.zone z' page order (span.pageBlock b) := by
  refine ⟨fun z z' b order gfpFlags page hz hb hf h hc => ?_, ?_⟩
  · exact spares_reserved hz hb hf h <| hc.imp_right fun hc c hmax hsub =>
      hc c.order c.head ((hz.holds.areas.mem_iff _ _).2 hmax) hsub
  · intro mars256MB span hstart hspan s z' b order gfpFlags page hs hp hf h
    obtain ⟨reserved, hinv⟩ := hs.inv hspan
    have hlive := hinv.mem_live hp
    have ha : (span.pageBlock b).Aligned := (aligned_pageBlock hstart
      (le_sub_one_of_lt (hinv.dvr.order b hlive).2)).2 (hinv.dvr.aligned b hlive)
    refine spares_reserved hinv.page.ok ha hf ?_ (.inr fun c hc hsub => ?_)
    · rw [reservation, hp, hinv.page.span_eq] at h
      exact h
    · exact hinv.head_eq hstart hp hc hsub

/-- Half of the zone is in use when its pages are reserved; other requests get the other
half. -/
theorem rmqueue_spares_reserved_of_run : ∃ (s : DvrSystem) (z' : Zone),
    s.reserved = some ⟨0, 11⟩ ∧ rmqueue s.reservation 0 0 s.zone = some (some 6144, z') ∧
      Spares s.zone z' 6144 0 ⟨4096, 11⟩ := by
  have hpage : (rmqueue none 11 0 oneBlockZone).map Prod.fst = some (some 4096) := by
    decide +kernel
  have hremap : ((rmqueue none 11 0 oneBlockZone).bind fun r =>
      (initDvrbp ⟨4096, 4096⟩ fun p => (r.2.memMap p).pgReserved).bind fun bp =>
        (allocDvrbpMemory ⟨4096, 4096⟩ 11 bp).map Prod.fst) = some (some 4096) := by
    decide +kernel
  have hother : ((rmqueue none 11 0 oneBlockZone).bind fun r =>
      (rmqueue (some ⟨4096, 1 <<< 11⟩) 0 0 r.2).map Prod.fst) = some (some 6144) := by
    decide +kernel
  obtain ⟨⟨page, z⟩, hz, rfl⟩ := map_eq_some_iff.1 hpage
  rw [hz] at hremap hother
  have hb : Booted ⟨4096, 4096⟩ (z, _) :=
    .op oneBlockZone_spec.1 (.alloc (by decide) (.inl rfl) hz)
  obtain ⟨s, hs, hresv, rfl⟩ := exists_systemReach hb 11 0 (by decide) (by decide) hremap
  obtain ⟨⟨page, z'⟩, hz', rfl⟩ := map_eq_some_iff.1 hother
  have hr : s.reservation = some ⟨4096, 1 <<< 11⟩ := by
    rw [reservation, hresv, hb.inv.span_eq]
    rfl
  rw [← hr] at hz'
  exact ⟨s, z', hresv, hz', rmqueue_spares_reserved.2 true _ (by decide) (by decide) s z' ⟨0, 11⟩
    0 0 6144 hs hresv (by decide) hz'⟩

/-! ## Runs of ordinary use -/

/-- An allocation, a free, or a use of pages that are in use. -/
def PageStep (u u' : Zone × Set ℕ) : Prop :=
  PageOp none u u' ∨ PageUse u.2 u.1 u'.1 ∧ u'.2 = u.2

variable {span : ZoneSpan}

/-- A step moves pages between those in use and the free ones. -/
theorem PageStep.keeps {u u' : Zone × Set ℕ} (hs : PageStep u u') (h : PageInv span u.1 u.2) :
    PageInv span u'.1 u'.2 ∧ u'.2 ∪ u'.1.freeUnits = u.2 ∪ u.1.freeUnits := by
  obtain ⟨z, A⟩ := u
  obtain ⟨z', A'⟩ := u'
  rcases hs with hop | ⟨huse, rfl⟩
  · cases hop with
    | alloc _ _ hr =>
      obtain ⟨b, hb, -, -, -, hsub, -, -, hU⟩ := rmqueue_some h.ok hr
      refine ⟨(h.alloc hr).1, ?_⟩
      rw [hU, union_assoc, union_sdiff_cancel (hsub.trans (span_subset_of_mem_maximal hb))]
    | free ho hb hc hr =>
      have hq (p) (hp : p ∈ _) : z.Quiet p := ⟨h.span_eq ▸ h.inZone p (hb hp),
        h.notReserved p (hb hp), count_of_freePagesCheck (hc p hp)⟩
      obtain ⟨-, -, hU⟩ := freePagesBulk_some h.ok ho (h.notFree.mono_left hb) hq hr
      refine ⟨(h.free ho hb hc hr).1, ?_⟩
      rw [hU, union_comm z.freeUnits, ← union_assoc, sdiff_union_of_subset hb]
  · exact ⟨h.use huse, by rw [(huse.spec h.ok h.notFree).2.1]⟩

/-- When the same pages are in use again, the free lists hold the same blocks again. -/
theorem freeLists_of_run {z z' : Zone} {A : Set ℕ} (h : Booted span (z, A))
    (hrun : Relation.ReflTransGen PageStep (z, A) (z', A)) (k : ℕ) :
    (z'.freeArea k).freeList.Perm (z.freeArea k).freeList := by
  have hkeeps {u} (hr : Relation.ReflTransGen PageStep (z, A) u) :
      PageInv span u.1 u.2 ∧ u.2 ∪ u.1.freeUnits = A ∪ z.freeUnits := by
    induction hr with
    | refl => exact ⟨h.inv, rfl⟩
    | tail _ hs ih => exact ⟨(hs.keeps ih.1).1, (hs.keeps ih.1).2.trans ih.2⟩
  obtain ⟨hinv', hunion⟩ := hkeeps hrun
  have hU : z'.freeUnits = z.freeUnits := by
    rw [← hinv'.notFree.sdiff_eq_right, ← union_sdiff_left, hunion, union_sdiff_left,
      h.inv.notFree.sdiff_eq_right]
  have hareas := h.inv.ok.holds.areas
  have hareas' := hU ▸ hinv'.ok.holds.areas
  exact (List.perm_ext_iff_of_nodup (hareas'.nodup k) (hareas.nodup k)).2 fun x =>
    (hareas'.mem_iff k x).trans (hareas.mem_iff k x).symm

/-- A page is allocated, which splits the only block, and freed, which joins its parts again. -/
theorem freeLists_of_split : ∃ z z' : Zone, rmqueue none 0 0 oneBlockZone = some (some 4096, z) ∧
    (z.freeArea 0).freeList = [4097] ∧ freePagesBulk 4096 0 z = some z' ∧
      ∀ k, (z'.freeArea k).freeList.Perm (oneBlockZone.freeArea k).freeList := by
  have hrun : ((rmqueue none 0 0 oneBlockZone).bind fun r => (freePagesBulk 4096 0 r.2).map fun _ =>
      (r.1, (r.2.freeArea 0).freeList, freePagesCheck (r.2.memMap 4096))) =
        some (some 4096, [4097], true) := by
    decide +kernel
  obtain ⟨⟨page, z⟩, hz, hfree⟩ := bind_eq_some_iff.1 hrun
  obtain ⟨z', hz', heq⟩ := map_eq_some_iff.1 hfree
  simp only [Prod.mk.injEq] at heq
  obtain ⟨rfl, hlist, hcheck⟩ := heq
  have halloc : PageOp none (oneBlockZone, ∅) (z, ∅ ∪ (⟨4096, 0⟩ : Block).span) :=
    .alloc (by decide) (.inl rfl) hz
  have hcheck' : ∀ p ∈ (⟨4096, 0⟩ : Block).span, freePagesCheck (z.memMap p) = true := by
    intro p hp
    change 4096 ≤ p ∧ p < 4096 + 1 at hp
    rwa [show p = 4096 by omega]
  have hop : PageOp none _ _ := .free (b := ⟨4096, 0⟩) (by decide) (subset_union_right (s := ∅))
    hcheck' hz'
  rw [empty_union, sdiff_self] at hop
  rw [empty_union] at halloc
  exact ⟨z, z', hz, hlist, hz', freeLists_of_run oneBlockZone_spec.1
    (.tail (.single (.inl halloc)) (.inl hop))⟩

end OpenHMR
