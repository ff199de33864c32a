import Mathlib.Data.List.TakeWhile
import OpenHMR.NandCache
import OpenHMR.NandFormRuns

/-!
# Sound tables on one chip

The table of a device with one chip, as `scan_last_die_BB` makes it : it has the form of
`NandForm`, and its remap blocks are in the reserve area, the last `RBA` blocks of the chip.
The other blocks are the data blocks. Two data blocks never stand for each other
(`TableSound.blockOf_inj`), a data block that is in the table stands for a reserve block, and
`Recording` says how entering a bad block changes all that (`TableSound.record`). The cached
translation, which is older than the new entry, still leads to the right pages if the block was in
the table before (`Slot.Right.pages_recording`).
-/

open Remap List Nat

namespace OpenHMR

open OpenHMR.Geometry

/-- The number of blocks before the reserve area. -/
def Geometry.dataBlocks (g : Geometry) : ℕ :=
  g.blockNum - g.rba

/-- The table of a device with one chip. -/
structure TableSound (g : Geometry) (bbt : List BBt) : Prop extends TableFit g bbt where
  dies : DiesBelow 1 bbt
  reserve : ∀ e ∈ bbt, e.remapBlock ≠ rbInit → g.dataBlocks ≤ e.remapBlock.toNat

section Links

variable {g : Geometry} {bbt : List BBt} {q b : ℕ} {r : List BBt × BBt}

theorem mem_usedEntries {e : BBt} (h : e ∈ usedEntries bbt) : e ∈ bbt ∧ e.badBlock ≠ bbInit :=
  ⟨(takeWhile_subset _) h, by simpa using mem_takeWhile_imp h⟩

theorem mem_targets {x : DieBlock} (h : x ∈ targets (links bbt)) :
    ∃ e ∈ bbt, e.badBlock ≠ bbInit ∧ e.remap = x := by
  simp only [targets, links, map_map, mem_map] at h
  obtain ⟨e, he, rfl⟩ := h
  obtain ⟨hm, hne⟩ := mem_usedEntries he
  exact ⟨e, hm, hne, rfl⟩

/-- All blocks that stood at the new bad block go to its remap block. -/
theorem blockOf_record (hs : g.Supported) (h : TableFit g bbt) (hd : DiesBelow 1 bbt)
    (hq : q < g.blockNum) (hr : recordBad 0 q bbt = some r) (b : ℕ) :
    blockOf r.1 b = if blockOf bbt b = q then r.2.remapBlock.toNat else blockOf bbt b := by
  have hf := follow_zero (recordBad_dies hd hr).1 b
  have heq : ((0, blockOf bbt b) : DieBlock) = (0, q) ↔ blockOf bbt b = q := by simp
  rw [h.links_record hs hd hq hr, follow_concat, follow_zero hd] at hf
  simp only [heq] at hf
  refine (congrArg Prod.snd hf).symm.trans ?_
  split_ifs <;> rfl

theorem TableFit.blockOf_lt (h : TableFit g bbt) (hb : b < g.blockNum) :
    blockOf bbt b < g.blockNum :=
  (walkBbt_below h.used_below hb (by simp)).1

end Links

namespace TableSound

variable {g : Geometry} {bbt : List BBt} {b b' : ℕ}

variable (h : TableSound g bbt)

include h

theorem targets_nodup : (targets (links bbt)).Nodup := by
  have htgt : targets (links bbt) = (usedEntries bbt).map BBt.remap := by
    rw [targets, links, map_map]
    rfl
  have hdist := h.form.distinct.sublist (takeWhile_sublist fun e => e.badBlock ≠ bbInit)
  rw [htgt, List.Nodup, pairwise_map]
  refine List.Pairwise.imp_of_mem (fun {x y} hx _ hxy heq => ?_) hdist
  obtain ⟨hm, hne⟩ := mem_usedEntries hx
  exact h.real x hm hne (hxy (UInt16.toNat_inj.1 (congrArg Prod.snd heq)))

theorem data_notMem_targets (hb : b < g.dataBlocks) :
    ((0, b) : DieBlock) ∉ targets (links bbt) := fun hm => by
  obtain ⟨e, he, hne, heq⟩ := mem_targets hm
  have hremap : e.remapBlock.toNat = b := congrArg Prod.snd heq
  exact absurd hb (not_lt.2 (hremap ▸ h.reserve e he (h.real e he hne)))

/-- Where a data block goes. -/
theorem blockOf_cases (b : ℕ) :
    blockOf bbt b = b ∨ ((0, blockOf bbt b) : DieBlock) ∈ targets (links bbt) := by
  rcases follow_mem (links bbt) (0, b) with hf | hf <;> rw [follow_zero h.dies] at hf
  · exact .inl (congrArg Prod.snd hf)
  · exact .inr hf

theorem le_blockOf (hb : b < g.dataBlocks) : b ≤ blockOf bbt b := by
  rcases h.blockOf_cases b with hc | hc
  · exact hc.ge
  · exact hb.le.trans (not_lt.1 fun hlt => h.data_notMem_targets hlt hc)

/-- A data block that is in the table does not stand for itself. -/
theorem blockOf_eq_iff (hb : b < g.dataBlocks) :
    blockOf bbt b = b ↔ ¬Recorded bbt b := by
  refine ⟨fun heq hrec => ?_, blockOf_of_not_recorded h.dies⟩
  have hm := follow_mem_targets hrec
  rw [follow_zero h.dies, heq] at hm
  exact h.data_notMem_targets hb hm

/-- Two data blocks do not stand for each other. -/
theorem blockOf_inj (hb : b < g.dataBlocks) (hb' : b' < g.dataBlocks)
    (heq : blockOf bbt b = blockOf bbt b') : b = b' := by
  have hf : follow (links bbt) (0, b) = follow (links bbt) (0, b') := by
    rw [follow_zero h.dies, follow_zero h.dies, heq]
  exact congrArg Prod.snd (follow_injOn h.targets_nodup (h.data_notMem_targets hb)
    (h.data_notMem_targets hb') hf)

theorem pageOf_inj {x y : ℕ} (hx : x / g.ppb < g.dataBlocks) (hy : y / g.ppb < g.dataBlocks)
    (heq : g.pageOf bbt x = g.pageOf bbt y) : x = y := by
  obtain ⟨h1, h2⟩ := (g.eq_page_iff (mod_lt y g.ppb_pos)).1 heq
  rw [pageOf, g.page_div _ (mod_lt x g.ppb_pos)] at h1
  rw [pageOf, g.page_mod _ (mod_lt x g.ppb_pos)] at h2
  rw [← div_add_mod' x g.ppb, ← div_add_mod' y g.ppb, h.blockOf_inj hx hy h1, h2]

theorem le_pageOf {y : ℕ} (hy : y / g.ppb < g.dataBlocks) : y ≤ g.pageOf bbt y := by
  have hle := mul_le_mul_right g.ppb (h.le_blockOf hy)
  have hdm := div_add_mod' y g.ppb
  rw [pageOf]
  omega

/-- In a range of data blocks the block before never stands in the place of a block. -/
theorem crossOk_iff {clean : Prop} {b0 : ℕ} (hb0 : b0 < b) (hb : b < g.dataBlocks) :
    CrossOk bbt clean b0 b ↔
      (¬Recorded bbt b → clean ∧ ∀ a, b0 < a → a < b → ¬Recorded bbt a) := by
  rw [CrossOk, if_neg]
  rcases h.blockOf_cases (b - 1) with hc | hc
  · omega
  · exact fun heq => h.data_notMem_targets hb (heq ▸ hc)

end TableSound

/-! ## A new entry -/

/-- The table `bbt'` has one entry more than `bbt`, from the block `q` to a block `r` not in
use. -/
structure Recording (g : Geometry) (bbt bbt' : List BBt) (q r : ℕ) : Prop where
  sound : TableSound g bbt
  sound' : TableSound g bbt'
  blockOf_eq : ∀ b, blockOf bbt' b = if blockOf bbt b = q then r else blockOf bbt b
  recorded_iff : ∀ b, Recorded bbt' b ↔ Recorded bbt b ∨ b = q
  unused : ((0, r) : DieBlock) ∉ targets (links bbt)
  reserve : g.dataBlocks ≤ r

/-- Entering a bad block. -/
theorem TableSound.record {g : Geometry} {bbt : List BBt} {q : ℕ} {r : List BBt × BBt}
    (h : TableSound g bbt) (hg : g.Supported) (hq : q < g.blockNum)
    (hr : recordBad 0 q bbt = some r) : Recording g bbt r.1 q r.2.remapBlock.toNat := by
  have hlinks := h.links_record hg h.dies hq hr
  obtain ⟨e, he, hspare, hmem, hr2⟩ := mem_recordBad hr
  have hremap : r.2.remapBlock = e.remapBlock := by rw [hr2]
  have hres := h.reserve e he hspare.2
  refine ⟨h, ⟨h.toTableFit.record hg hq hr, (recordBad_dies h.dies hr).1, fun x hx hre => ?_⟩,
    blockOf_record hg h.toTableFit h.dies hq hr, fun b => by simp [Recorded, hlinks, sources],
    fun hm => ?_, hremap ▸ hres⟩
  · rcases hmem x hx with rfl | hx
    · exact hremap ▸ hres
    · exact h.reserve x hx hre
  · obtain ⟨x, hx, hu, hxr⟩ := mem_targets hm
    have hxe : x.remapBlock = e.remapBlock :=
      UInt16.toNat_inj.1 ((congrArg Prod.snd hxr).trans (by rw [hremap]))
    exact hu (h.form.eq_of_remapBlock hx he hxe (h.real x hx hu) ▸ hspare.1)

section Recording

variable {g : Geometry} {bbt bbt' : List BBt} {q r b : ℕ}

variable (h : Recording g bbt bbt' q r)

include h

/-- The remap block is not in use. -/
theorem Recording.blockOf_ne (hb : b < g.dataBlocks) : blockOf bbt b ≠ r := by
  intro heq
  rcases h.sound.blockOf_cases b with hb' | hb'
  · have := h.reserve
    omega
  · exact h.unused (heq ▸ hb')

/-- The other data blocks stay. -/
theorem Recording.other {b0 : ℕ} (hq : q = blockOf bbt b0)
    (hb0 : b0 < g.dataBlocks) (hb : b < g.dataBlocks) (hne : b ≠ b0) :
    (Recorded bbt b ↔ Recorded bbt' b) ∧ blockOf bbt b = blockOf bbt' b := by
  have hbq : b ≠ q := by
    rintro rfl
    rcases h.sound.blockOf_cases b0 with hc | hc
    · exact hne (hq.trans hc)
    · exact h.sound.data_notMem_targets hb (hq ▸ hc)
  rw [h.recorded_iff, h.blockOf_eq, or_iff_left hbq, if_neg]
  · exact ⟨Iff.rfl, rfl⟩
  · exact fun heq => hne (h.sound.blockOf_inj hb hb0 (heq.trans hq))

omit h in
/-- Only the blocks accessed matter. -/
theorem Slot.pages_congr : ∀ {n p : ℕ} {c : Slot}, (∀ j < n,
      (Recorded bbt ((p + j) / g.ppb) ↔ Recorded bbt' ((p + j) / g.ppb)) ∧
        blockOf bbt ((p + j) / g.ppb) = blockOf bbt' ((p + j) / g.ppb)) →
    Slot.pages g bbt n p c = Slot.pages g bbt' n p c ∧ g.pagesOf bbt n p = g.pagesOf bbt' n p
  | 0, _, _, _ => ⟨rfl, rfl⟩
  | n + 1, p, c, h => by
    obtain ⟨hrec, hblock⟩ := h 0 (succ_pos n)
    rw [add_zero] at hrec hblock
    have hstep : c.step bbt (p / g.ppb) = c.step bbt' (p / g.ppb) := by
      simp only [Slot.step, hrec, hblock]
    obtain ⟨h1, h2⟩ := Slot.pages_congr (n := n) (p := p + 1) (c := c.step bbt (p / g.ppb))
      fun j hj => by
        have := h (j + 1) (by omega)
        rwa [show p + (j + 1) = p + 1 + j by omega] at this
    rw [Slot.pages, Slot.pages, h1, hstep, pagesOf_succ, pagesOf_succ, h2, pageOf, pageOf, hblock]
    exact ⟨rfl, rfl⟩

/-- The pages after the failing one, `p`, are right if they would have been without the failure
and, if the next page is in the same block, that block was in the table. -/
theorem Slot.Right.pages_recording {m p : ℕ} {c : Slot} (hc : c.Right bbt (p / g.ppb))
    (hq : q = blockOf bbt (p / g.ppb)) (hdata : (p + m) / g.ppb < g.dataBlocks)
    (hrec : m ≠ 0 → (p + 1) / g.ppb = p / g.ppb → Recorded bbt (p / g.ppb))
    (hpages : Slot.pages g bbt m (p + 1) c = g.pagesOf bbt m (p + 1)) :
    Slot.pages g bbt' m (p + 1) c = g.pagesOf bbt' m (p + 1) := by
  have hdata0 : p / g.ppb < g.dataBlocks := (Nat.div_le_div_right (by omega)).trans_lt hdata
  cases m with
  | zero => rfl
  | succ m =>
    by_cases hsame : (p + 1) / g.ppb = p / g.ppb
    · -- the table is walked again, and the new link is found
      replace hrec := hrec (succ_ne_zero m) hsame
      rw [hc.pages_iff h.sound.dies] at hpages
      have hb := mt (h.sound.blockOf_eq_iff hdata0).1 (not_not.2 hrec)
      have hrec' : Recorded bbt' (p / g.ppb) := (h.recorded_iff _).2 (.inl hrec)
      have hremap : (c.step bbt' (p / g.ppb)).remap = some (blockOf bbt' (p / g.ppb)) :=
        (if_neg fun hs => hb (hc.prev.symm.trans hs.1)).trans (if_pos hrec')
      have hprev : (c.step bbt' (p / g.ppb)).prev = blockOf bbt' (p / g.ppb) := by
        change (c.step bbt' (p / g.ppb)).remap.getD _ = _
        rw [hremap, Option.getD_some]
      have hright : (c.step bbt' ((p + 1) / g.ppb)).Right bbt' ((p + 1) / g.ppb) := by
        rw [hsame]
        exact .of_step hprev
      rw [Slot.pages, pagesOf_succ, cons.injEq, pageOf, page_eq_iff,
        hright.pages_iff h.sound'.dies, and_iff_right hright.prev, hsame, hremap]
      intro b hb0 hb1
      have hne : c.remap ≠ none := fun hn => hb (hc.of_none hn)
      have hb1' : b ≤ (p + (m + 1)) / g.ppb := by rwa [add_assoc, add_comm 1 m] at hb1
      have hbd : b < g.dataBlocks := hb1'.trans_lt hdata
      have hold := hpages b hb0 hb1'
      rw [h.sound.crossOk_iff hb0 hbd, (h.other hq hdata0 hbd hb0.ne').1] at hold
      rw [h.sound'.crossOk_iff hb0 hbd]
      exact fun hb => absurd (hold hb).1 hne
    · have hlt : p / g.ppb < (p + 1) / g.ppb :=
        lt_of_le_of_ne (Nat.div_le_div_right (by omega)) (Ne.symm hsame)
      obtain ⟨h1, h2⟩ := Slot.pages_congr (g := g) (n := m + 1) (p := p + 1) (c := c) fun j hj =>
        h.other hq hdata0 ((Nat.div_le_div_right (by omega)).trans_lt hdata)
          (hlt.trans_le (Nat.div_le_div_right (by omega))).ne'
      rw [← h1, ← h2, hpages]

end Recording

end OpenHMR
