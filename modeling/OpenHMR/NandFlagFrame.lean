import OpenHMR.NandDevice
import OpenHMR.NandFlags

/-!
# Which flags of erased pages a call changes

A read that finds its page blank assigns the whole word and so clears the flags of the 31 other
pages in it, and the flags that are changed are those of the chip number that is passed, also
where another chip is enabled. `flagsFramed_iff` is the exact condition for a call to change no
flags but its own and to stay in the array. `rtk_update_bbt` passes chip 1 when it erases block 1
of chip 0, which on a device with one chip is behind the array (`updateErase_not_framed`).
-/

open FlagWords Nat

namespace OpenHMR

namespace Geometry.Accepted

variable {g : Geometry} (h : g.Accepted)

include h

theorem dvd_ppb : 32 ∣ g.ppb := by
  obtain ⟨-, he⟩ := h.shifts
  exact pow_dvd_pow 2 (m := 5) (by omega)

theorem pageNum_lt : g.pageNum < 2 ^ 32 := by
  have hc := h.chipShift_le
  exact Nat.pow_lt_pow_right (by decide) (by omega)

theorem pageNum_dvd : g.pageNum ∣ 2 ^ 32 := by
  have hc := h.chipShift_le
  exact pow_dvd_pow 2 (by omega)

theorem one_lt_sections : 1 < g.pageSize / 1024 := by
  obtain ⟨hp | hp, -⟩ := h.shifts <;> rw [Geometry.pageSize, hp] <;> decide

end Geometry.Accepted

namespace FlagCall

/-! ## The frame -/

section Frame

variable (g : Geometry) (c : FlagCall) (hw : Registers) (words : ℕ → BitVec 32)

/-- Bit `i` is the flag of the page, or of a page of the block, on the enabled chip. -/
def Own (i : ℕ) : Prop :=
  c.selected * g.pageNum + c.page ≤ i ∧
    i < c.selected * g.pageNum + c.page + if c.kind = .eraseBlock then g.ppb else 1

/-- The call changes its own flags only, and touches no bit behind the array. -/
def Framed : Prop :=
  (∀ i, flag (c.run g hw ⟨words, []⟩).2.words i ≠ flag words i → c.Own g i) ∧
    ∀ r ∈ (c.run g hw ⟨words, []⟩).2.touched, r.1 + r.2 ≤ g.numchips * g.pageNum

/-- The flags of the chip that is passed are those of the enabled chip. -/
def OwnChip : Prop :=
  c.chipBase g = c.selected * g.pageNum

/-- A call that touches the array has a page within it. One that finds its page blank finds no
other flag in the word. Unless the flags to be changed are those of the enabled chip, they have
the new value already. -/
structure Safe : Prop where
  within : c.Touches g hw → c.chipBase g + c.page < g.numchips * g.pageNum
  alone : c.Marks g hw words → ∀ i, i / 32 = c.word g → i ≠ c.pos g → flag words i = false
  marks : c.Marks g hw words → c.OwnChip g ∨ flag words (c.pos g) = true
  clears : c.Clears g hw → c.OwnChip g ∨ flag words (c.pos g) = false
  fills : c.Fills g hw → c.OwnChip g ∨
    ∀ i < g.ppb, flag words (c.chipBase g + c.page + i) = true

end Frame

section Accepted

variable {g : Geometry} {c : FlagCall} {hw : Registers} {words : ℕ → BitVec 32}

theorem ppb_le_pageNum (g : Geometry) : g.ppb ≤ g.pageNum :=
  le_of_dvd (Nat.two_pow_pos _) g.ppb_dvd_pageNum

theorem add_le_iff_lt {d a N : ℕ} (hd : 0 < d) (ha : d ∣ a) (hN : d ∣ N) : a + d ≤ N ↔ a < N := by
  obtain ⟨x, rfl⟩ := ha
  obtain ⟨y, rfl⟩ := hN
  rw [← mul_succ, Nat.mul_le_mul_left_iff hd, Nat.mul_lt_mul_left hd, succ_le_iff]

variable (hg : g.Accepted)

include hg

theorem pageNum_dvd_chipBase (c : FlagCall) : g.pageNum ∣ c.chipBase g :=
  (dvd_mod_iff hg.pageNum_dvd).2 (dvd_mul_left _ _)

theorem pos_eq (c : FlagCall) : c.pos g = c.chipBase g + c.page := by
  have hdvd : 32 ∣ c.chipBase g :=
    (hg.dvd_ppb.trans g.ppb_dvd_pageNum).trans (pageNum_dvd_chipBase hg c)
  rw [pos, word, index]
  omega

/-- The flags of two chips are at least a chip apart. -/
theorem apart_of_not_ownChip (h : ¬c.OwnChip g) :
    c.chipBase g + g.pageNum ≤ c.selected * g.pageNum ∨
      c.selected * g.pageNum + g.pageNum ≤ c.chipBase g := by
  have hpos := g.pageNum_pos
  have hbase := pageNum_dvd_chipBase hg c
  have hsel : g.pageNum ∣ c.selected * g.pageNum := dvd_mul_left _ _
  rw [add_le_iff_lt hpos hbase hsel, add_le_iff_lt hpos hsel hbase]
  exact lt_or_gt_of_ne h

omit hg in
theorem own_iff (hk : c.kind ≠ .eraseBlock) {i : ℕ} :
    c.Own g i ↔ i = c.selected * g.pageNum + c.page := by
  rw [Own, if_neg hk]
  omega

/-- When a mark changes own flags only. -/
theorem marks_own_iff (hk : c.kind ≠ .eraseBlock) :
    (∀ i, flag (setOnly words (c.word g) c.index) i ≠ flag words i → c.Own g i) ↔
      (∀ i, i / 32 = c.word g → i ≠ c.pos g → flag words i = false) ∧
        (c.OwnChip g ∨ flag words (c.pos g) = true) := by
  have hpos := pos_eq hg c
  have hin := c.index_lt
  have hpage : 32 ≤ g.pageNum :=
    (le_of_dvd g.ppb_pos hg.dvd_ppb).trans (ppb_le_pageNum g)
  have hdef : c.pos g = 32 * c.word g + c.index := rfl
  simp only [setOnly_changes_iff hin, own_iff hk, ← hdef]
  refine ⟨fun h => ⟨fun i hi hne => ?_, ?_⟩, fun ⟨hone, hown⟩ i ⟨hi, hch⟩ => ?_⟩
  · by_contra hflag
    have hti := h i ⟨hi, iff_of_true hne (by simpa using hflag)⟩
    by_cases hchip : c.OwnChip g
    · exact hne (hti.trans (hchip ▸ hpos.symm))
    · have := apart_of_not_ownChip hg hchip
      omega
  · by_contra hno
    rw [not_or] at hno
    have hti := h (c.pos g) ⟨by omega, iff_of_false (by simp) hno.2⟩
    exact hno.1 (add_right_cancel (hpos.symm.trans hti))
  · by_cases hip : i = c.pos g
    · rw [hip] at hch
      have hchip : c.OwnChip g := hown.resolve_right fun hflag => hch.2 hflag rfl
      rw [hip, hpos, hchip]
    · have htrue := hch.1 hip
      rw [hone i hi hip] at htrue
      contradiction

theorem clears_own_iff (hk : c.kind ≠ .eraseBlock) :
    (∀ i, flag (mask words (c.word g) c.index) i ≠ flag words i → c.Own g i) ↔
      c.OwnChip g ∨ flag words (c.pos g) = false := by
  have hpos := pos_eq hg c
  have hdef : c.pos g = 32 * c.word g + c.index := rfl
  simp only [mask_changes_iff c.index_lt, own_iff hk, ← hdef]
  refine ⟨fun h => ?_, fun h i ⟨hi, hflag⟩ => ?_⟩
  · rw [or_iff_not_imp_right, Bool.not_eq_false]
    exact fun hflag => add_right_cancel (hpos.symm.trans (h _ ⟨rfl, hflag⟩))
  · rw [hi] at hflag ⊢
    have hchip : c.OwnChip g := h.resolve_right (by simp [hflag])
    rw [hpos, hchip]

theorem word_of_dvd (hd : g.ppb ∣ c.page) :
    32 * c.word g = c.chipBase g + c.page ∧ 8 * (g.ppb / 8) = g.ppb := by
  have h1 := pos_eq hg c
  have h2 : 32 ∣ c.page := hg.dvd_ppb.trans hd
  have h3 := hg.dvd_ppb
  rw [pos, index] at h1
  exact ⟨by omega, by omega⟩

/-- When an erase changes own flags only. -/
theorem fills_own_iff (hk : c.kind = .eraseBlock) (hd : g.ppb ∣ c.page) :
    (∀ i, flag (fill words (c.word g) (8 * (g.ppb / 8))) i ≠ flag words i → c.Own g i) ↔
      c.OwnChip g ∨ ∀ i < g.ppb, flag words (c.chipBase g + c.page + i) = true := by
  obtain ⟨hword, hlen⟩ := word_of_dvd hg hd
  have hpage := ppb_le_pageNum g
  simp only [fill_changes_iff (by decide : 0 < 32), hword, hlen, Own, if_pos hk]
  refine ⟨fun h => ?_, fun h i ⟨hi, hflag⟩ => ?_⟩
  · rw [or_iff_not_imp_left]
    intro hchip i hi
    by_contra hflag
    have hti := h _ ⟨⟨le_add_right _ i, by omega⟩, by simpa using hflag⟩
    have := apart_of_not_ownChip hg hchip
    omega
  · rcases h with hchip | hall
    · rw [← hchip]
      exact hi
    · have htrue := hall (i - (c.chipBase g + c.page)) (by omega)
      rw [Nat.add_sub_cancel' hi.1, hflag] at htrue
      contradiction

/-- The range that is touched is in the array if the page is. -/
theorem range_le_iff (ht : c.Touches g hw) :
    (c.range g).1 + (c.range g).2 ≤ g.numchips * g.pageNum ↔
      c.chipBase g + c.page < g.numchips * g.pageNum := by
  have hN : g.pageNum ∣ g.numchips * g.pageNum := dvd_mul_left _ _
  rw [range]
  split_ifs with hk
  · have hd : g.ppb ∣ c.page := by
      have h := ht.2
      rw [hk] at h
      exact h.1
    obtain ⟨hword, hlen⟩ := word_of_dvd hg hd
    rw [hword, hlen]
    exact add_le_iff_lt g.ppb_pos
      ((Nat.dvd_add_right (g.ppb_dvd_pageNum.trans (pageNum_dvd_chipBase hg c))).2 hd)
      (g.ppb_dvd_pageNum.trans hN)
  · have h32 : 32 ∣ g.numchips * g.pageNum := (hg.dvd_ppb.trans g.ppb_dvd_pageNum).trans hN
    have hpos := pos_eq hg c
    have hin := c.index_lt
    rw [pos] at hpos
    rw [add_le_iff_lt (by decide) (dvd_mul_right 32 _) h32]
    omega

/-- The bits touched are in the array if the page is. -/
theorem touched_within_iff :
    (∀ r ∈ (c.run g hw ⟨words, []⟩).2.touched, r.1 + r.2 ≤ g.numchips * g.pageNum) ↔
      (c.Touches g hw → c.chipBase g + c.page < g.numchips * g.pageNum) := by
  have hlast : lastSection g ≠ 0 := sub_ne_zero_of_lt hg.one_lt_sections
  refine ⟨fun h ht => (range_le_iff hg ht).1 (h _ ((mem_run_touched hlast).2 (Or.inr ⟨rfl, ht⟩))),
    fun h r hr => ?_⟩
  rcases (mem_run_touched hlast).1 hr with hr | ⟨rfl, ht⟩
  · exact absurd hr List.not_mem_nil
  · exact (range_le_iff hg ht).2 (h ht)

/-- The flags changed are the call's own. -/
theorem changed_own_iff :
    (∀ i, flag (c.run g hw ⟨words, []⟩).2.words i ≠ flag words i → c.Own g i) ↔
      (c.Marks g hw words → (∀ i, i / 32 = c.word g → i ≠ c.pos g → flag words i = false) ∧
        (c.OwnChip g ∨ flag words (c.pos g) = true)) ∧
      (c.Clears g hw → c.OwnChip g ∨ flag words (c.pos g) = false) ∧
      (c.Fills g hw → c.OwnChip g ∨
        ∀ i < g.ppb, flag words (c.chipBase g + c.page + i) = true) := by
  have hlast : lastSection g ≠ 0 := sub_ne_zero_of_lt hg.one_lt_sections
  -- a read may find its page blank, the other operations clear or fill if they touch the array
  by_cases hread : c.kind = .readOob ∨ c.kind = .readEccPage
  · have hc : ¬c.Clears g hw := fun h => by rcases hread with hk | hk <;> simp [Clears, hk] at h
    have hf : ¬c.Fills g hw := fun h => by rcases hread with hk | hk <;> simp [Fills, hk] at h
    have hk : c.kind ≠ .eraseBlock := by rcases hread with hk | hk <;> simp [hk]
    by_cases hm : c.Marks g hw words
    · rw [run_words_of_marks hlast hm, imp_iff_right hm]
      exact (marks_own_iff hg hk).trans
        (and_iff_left ⟨fun h => absurd h hc, fun h => absurd h hf⟩).symm
    · rw [run_words_of_read hlast hread hm]
      exact iff_of_true (fun i h => absurd rfl h)
        ⟨fun h => absurd h hm, fun h => absurd h hc, fun h => absurd h hf⟩
  · have hm : ¬c.Marks g hw words := fun h => by
      rw [Marks] at h
      cases hk : c.kind <;> simp_all
    rw [and_iff_right fun h => absurd h hm]
    by_cases ht : c.Touches g hw
    · by_cases hk : c.kind = .eraseBlock
      · have hf : c.Fills g hw := ⟨ht, hk⟩
        have hc : ¬c.Clears g hw := fun h => by simp [Clears, hk] at h
        have hd := ht.2
        rw [hk] at hd
        rw [run_of_fills hf, imp_iff_right hf, and_iff_right fun h => absurd h hc]
        exact fills_own_iff hg hk hd.1
      · have hc : c.Clears g hw := ⟨ht, by cases h : c.kind <;> simp_all⟩
        have hf : ¬c.Fills g hw := fun h => hk h.2
        rw [run_of_clears hc, imp_iff_right hc, and_iff_left fun h => absurd h hf]
        exact clears_own_iff hg hk
    · rw [run_of_not_touches (not_or.1 hread) ht]
      exact iff_of_true (fun i h => absurd rfl h)
        ⟨fun h => absurd h.1 ht, fun h => absurd h.1 ht⟩

end Accepted

end FlagCall

/-! ## The calls of the driver -/

/-- The call as it is in the log. -/
def FlagCall.op (c : FlagCall) (rc : ℤ) : FlashOp :=
  ⟨c.kind, c.chipnr, c.selected, c.page, rc⟩

/-- The erase of block 1 by `rtk_update_bbt`. -/
def updateErase (g : Geometry) : FlagCall :=
  ⟨.eraseBlock, 1, 0, g.ppb, 0, false⟩

section Update

variable {g : Geometry} {hw : Registers}

/-- On a device with one chip, this erase writes behind the array whenever it completes. -/
theorem updateErase_not_framed (hg : g.Accepted) (h1 : g.numchips = 1)
    (hi : hw.interrupted = false) (hf : hw.failed = false) (words : ℕ → BitVec 32) :
    ¬(updateErase g).Framed g hw words := by
  have ht : (updateErase g).Touches g hw := ⟨hi, dvd_rfl, hf⟩
  intro h
  have hlt := (FlagCall.touched_within_iff hg).1 h.2 ht
  have hbase : (updateErase g).chipBase g = g.pageNum := by
    rw [FlagCall.chipBase, updateErase, one_mul, mod_eq_of_lt hg.pageNum_lt]
  rw [hbase, h1, one_mul] at hlt
  omega

end Update

/-! ## The condition -/

/-- For every content of the array and all answers of the hardware, a call changes its own flags
only and touches no bit behind the array, if and only if it is safe. -/
theorem flagsFramed_iff {g : Geometry} (hg : g.Accepted) (c : FlagCall) (hw : Registers)
    (words : ℕ → BitVec 32) : c.Framed g hw words ↔ c.Safe g hw words := by
  rw [FlagCall.Framed, FlagCall.changed_own_iff hg, FlagCall.touched_within_iff hg]
  refine ⟨fun ⟨⟨hm, hc, hf⟩, hw⟩ => ⟨hw, fun h => (hm h).1, fun h => (hm h).2, hc, hf⟩, fun h => ?_⟩
  exact ⟨⟨fun hm => ⟨h.alone hm, h.marks hm⟩, h.clears, h.fills⟩, h.within⟩

/-- The hardware completes an operation, and reports every section as blank. -/
def blankRegisters : Registers :=
  ⟨false, 0, fun _ => 0x02, fun _ => 0⟩

/-- The read of the spare area of page 1 of block 200. -/
def readBlock200 : FlagCall :=
  ⟨.readOob, 0, 0, 12801, 64, false⟩

/-- The read of block 200 on the chip `K9F1G08U0B`. -/
theorem flagsFramed_readBlock200 : k9f1g08u0b.Accepted ∧
    readBlock200.Framed k9f1g08u0b blankRegisters fun _ => 0 := by
  refine ⟨k9f1g08u0b_accepted, (flagsFramed_iff k9f1g08u0b_accepted _ _ _).2
    ⟨fun _ => by decide +kernel, fun _ i _ _ => ?_, fun _ => Or.inl rfl,
      fun h => absurd h.2 (by decide), fun h => absurd h.2 (by decide)⟩⟩
  exact BitVec.getLsbD_zero

/-- On a chip whose pages are all marked as erased, a read of the spare area of page 1 of block
200 clears the flag of page 0, and the update of the table after any failure sets flags behind
the array. -/
theorem flags_not_framed :
    ((PageCall.readOob (12801 * 2048) 64).run .allOk k9f1g08u0b newChip).log =
        [readBlock200.op 0] ∧
      ¬readBlock200.Framed k9f1g08u0b blankRegisters (fun _ => BitVec.allOnes 32) ∧
      (updateErase k9f1g08u0b).op 0 ∈ (rtkUpdateBbt .allOk k9f1g08u0b newChip).2.log ∧
      ¬(updateErase k9f1g08u0b).Framed k9f1g08u0b blankRegisters fun _ => BitVec.allOnes 32 := by
  refine ⟨by decide +kernel, fun h => ?_, by decide +kernel,
    updateErase_not_framed k9f1g08u0b_accepted rfl rfl (by decide) _⟩
  have hown := h.1 12800 (by decide +kernel)
  exact absurd hown.1 (by decide)

end OpenHMR
