import Mathlib.Data.UInt
import OpenHMR.RemapTable

/-!
# The bad block table

The table `this->bbt` of `drivers/mtd/nand/nand_base_rtk.c` has `RBA` entries of type
`BB_t`. A used entry says that a block of a die is bad and which block stands for it; an
unused one has `BB_INIT` in place of the bad block and keeps its remap block for later, or
`RB_INIT` if there is none. Five functions of the driver find the block to access by the
same walk through the table, which stops at the first unused entry (`walkBbt`), and enter a
new bad block by the same search for a slot (`recordBad`).

`links` is the table as a remapping table on pairs of die and block, and `walkBbt_pos` says
that the walk follows it.
-/

open Remap List

namespace OpenHMR

/-- `BB_t`. -/
structure BBt where
  /-- The die of the bad block. -/
  bbDie : UInt16
  /-- The bad block, or `BB_INIT`. -/
  badBlock : UInt16
  /-- The die of the remap block. -/
  rbDie : UInt16
  /-- The block used instead, or `RB_INIT`. -/
  remapBlock : UInt16
  deriving DecidableEq, Repr

/-- `BB_INIT`. -/
def bbInit : UInt16 :=
  0xFFFE

/-- `RB_INIT`. -/
def rbInit : UInt16 :=
  0xFFFD

/-- `BB_DIE_INIT`. -/
def bbDieInit : UInt16 :=
  0xEEEE

/-- What `nand_select_chip(mtd, chip)` enables : a chip number above 3 enables chip 0. -/
def selectChip (chip : ℤ) : ℕ :=
  if 0 ≤ chip ∧ chip ≤ 3 then chip.toNat else 0

/-- `n` unused entries with the remap blocks `b`, `b - 1`, … of die 0, as `scan_last_die_BB`
makes them on a device with one chip. -/
def spareEntries (b n : ℕ) : List BBt :=
  (range n).map fun i => ⟨bbDieInit, bbInit, 0, UInt16.ofNat (b - i)⟩

/-! ## The walk -/

/-- The variables of the walk. -/
structure Walk where
  /-- `this->active_chip`, an `unsigned char`. -/
  activeChip : UInt8
  /-- The enabled chip. -/
  selected : ℕ
  /-- `chipnr_remap`. -/
  chipnrRemap : ℤ
  /-- `block`. -/
  block : ℕ
  /-- `read_remap_block` or `write_remap_block`; `none` is `0xFFFFFFFF`. -/
  remapBlock : Option ℕ

/-- The body of the walk at a used entry. -/
def BBt.walkStep (e : BBt) (w : Walk) : Walk :=
  if w.activeChip.toNat = e.bbDie.toNat ∧ w.block = e.badBlock.toNat then
    let w := { w with block := e.remapBlock.toNat, remapBlock := some e.remapBlock.toNat }
    if e.bbDie ≠ e.rbDie then
      { w with
        activeChip := UInt8.ofNat e.rbDie.toNat
        selected := selectChip e.rbDie.toNat
        chipnrRemap := e.rbDie.toNat }
    else w
  else w

/-- The walk through the table. -/
def walkBbt : List BBt → Walk → Walk
  | [], w => w
  | e :: bbt, w => if e.badBlock ≠ bbInit then walkBbt bbt (e.walkStep w) else w

/-- The entries before the first unused one. -/
def usedEntries (bbt : List BBt) : List BBt :=
  bbt.takeWhile fun e => e.badBlock ≠ bbInit

/-- A block of a die. -/
abbrev DieBlock := ℕ × ℕ

/-- The bad block of an entry. -/
def BBt.bad (e : BBt) : DieBlock :=
  (e.bbDie.toNat, e.badBlock.toNat)

/-- The remap block of an entry. -/
def BBt.remap (e : BBt) : DieBlock :=
  (e.rbDie.toNat, e.remapBlock.toNat)

/-- The table as a remapping table. -/
def links (bbt : List BBt) : List (DieBlock × DieBlock) :=
  (usedEntries bbt).map fun e => (e.bad, e.remap)

/-- The block of the walk. -/
def Walk.pos (w : Walk) : DieBlock :=
  (w.activeChip.toNat, w.block)

/-- The remap blocks of the table are on dies that exist. -/
def DiesBelow (n : ℕ) (bbt : List BBt) : Prop :=
  ∀ e ∈ bbt, e.rbDie.toNat < n

instance (n : ℕ) (bbt : List BBt) : Decidable (DiesBelow n bbt) :=
  inferInstanceAs (Decidable (∀ e ∈ bbt, e.rbDie.toNat < n))

variable {e : BBt} {bbt : List BBt} {die : ℤ} {block : ℕ}

theorem links_cons_of_ne (h : e.badBlock ≠ bbInit) :
    links (e :: bbt) = (e.bad, e.remap) :: links bbt := by
  simp [links, usedEntries, h]

theorem links_cons_of_eq (h : e.badBlock = bbInit) :
    links (e :: bbt) = [] := by
  simp [links, usedEntries, h]

theorem Walk.pos_eq_bad {w : Walk} :
    w.pos = e.bad ↔ w.activeChip.toNat = e.bbDie.toNat ∧ w.block = e.badBlock.toNat := by
  rw [Walk.pos, BBt.bad, Prod.mk.injEq]

theorem BBt.walkStep_pos (he : e.rbDie.toNat < 256) (w : Walk) :
    (e.walkStep w).pos = if w.pos = e.bad then e.remap else w.pos := by
  by_cases h : w.activeChip.toNat = e.bbDie.toNat ∧ w.block = e.badBlock.toNat
  · rw [if_pos (Walk.pos_eq_bad.2 h), BBt.walkStep, if_pos h]
    split_ifs with hd
    · rw [Walk.pos, BBt.remap, UInt8.toNat_ofNat_of_lt' he]
    · rw [Walk.pos, BBt.remap, h.1, Classical.not_not.1 hd]
  · rw [if_neg fun hp => h (Walk.pos_eq_bad.1 hp), BBt.walkStep, if_neg h]

theorem BBt.walkStep_remapBlock (e : BBt) (w : Walk) :
    (e.walkStep w).remapBlock =
      if w.pos = e.bad then some (e.walkStep w).block else w.remapBlock := by
  by_cases h : w.activeChip.toNat = e.bbDie.toNat ∧ w.block = e.badBlock.toNat
  · rw [if_pos (Walk.pos_eq_bad.2 h), BBt.walkStep, if_pos h]
    split_ifs <;> rfl
  · rw [if_neg fun hp => h (Walk.pos_eq_bad.1 hp), BBt.walkStep, if_neg h]

/-- The walk follows the table. -/
theorem walkBbt_pos : ∀ {bbt : List BBt} (w : Walk), DiesBelow 256 bbt →
    (walkBbt bbt w).pos = follow (links bbt) w.pos
  | [], _, _ => rfl
  | e :: bbt, w, h => by
    rw [walkBbt]
    split_ifs with he
    · rw [walkBbt_pos _ fun x hx => h x (mem_cons_of_mem _ hx),
        BBt.walkStep_pos (h e mem_cons_self), links_cons_of_ne he, follow]
    · rw [links_cons_of_eq (Classical.not_not.1 he), follow_nil]

/-- The walk changes the cached remap block exactly if its start is in the table. -/
theorem walkBbt_remapBlock : ∀ {bbt : List BBt} (w : Walk), DiesBelow 256 bbt →
    (walkBbt bbt w).remapBlock =
      if w.pos ∈ sources (links bbt) then some (walkBbt bbt w).block else w.remapBlock
  | [], _, _ => by simp [walkBbt, links, usedEntries]
  | e :: bbt, w, h => by
    have hbbt : DiesBelow 256 bbt := fun x hx => h x (mem_cons_of_mem _ hx)
    rw [walkBbt]
    split_ifs with he hmem hmem
    · rw [walkBbt_remapBlock _ hbbt, BBt.walkStep_remapBlock]
      rw [links_cons_of_ne he, sources_cons, mem_cons] at hmem
      split_ifs with h1 h2
      · rfl
      · have hend := walkBbt_pos (e.walkStep w) hbbt
        rw [follow_of_notMem h1] at hend
        exact congrArg (fun p : DieBlock => some p.2) hend.symm
      · rw [BBt.walkStep_pos (h e mem_cons_self), if_neg h2] at h1
        exact absurd (hmem.resolve_left h2) h1
    · rw [links_cons_of_ne he, sources_cons, mem_cons, not_or] at hmem
      have hpos := BBt.walkStep_pos (h e mem_cons_self) w
      rw [if_neg hmem.1] at hpos
      rw [walkBbt_remapBlock _ hbbt, hpos, if_neg hmem.2, BBt.walkStep_remapBlock, if_neg hmem.1]
    · simp [links_cons_of_eq (Classical.not_not.1 he)] at hmem
    · rfl

/-! ## Entering a bad block -/

/-- The search for a slot and its use : the table with the block `block` of die `die` in the
first unused entry that has a remap block, and that entry. -/
def recordBad (die : ℤ) (block : ℕ) : List BBt → Option (List BBt × BBt)
  | [] => none
  | e :: bbt =>
    if e.badBlock = bbInit ∧ e.remapBlock ≠ rbInit then
      let e := { e with bbDie := UInt16.ofInt die, badBlock := UInt16.ofNat block }
      some (e :: bbt, e)
    else (recordBad die block bbt).map fun r => (e :: r.1, r.2)

/-- The table after the search, also if there is no slot. -/
def enterBad (die : ℤ) (block : ℕ) (bbt : List BBt) : List BBt :=
  match recordBad die block bbt with
  | some r => r.1
  | none => bbt

/-- An unused entry with a remap block. -/
def BBt.Spare (e : BBt) : Prop :=
  e.badBlock = bbInit ∧ e.remapBlock ≠ rbInit

theorem recordBad_eq_some : ∀ {bbt : List BBt} {r : List BBt × BBt},
    recordBad die block bbt = some r → ∃ pre e post, bbt = pre ++ e :: post ∧
      (∀ x ∈ pre, ¬x.Spare) ∧ e.Spare ∧ r.1 = pre ++ r.2 :: post ∧
      r.2 = { e with bbDie := UInt16.ofInt die, badBlock := UInt16.ofNat block }
  | [], _, h => by simp [recordBad] at h
  | e :: bbt, r, h => by
    rw [recordBad] at h
    split_ifs at h with he
    · obtain rfl := Option.some.inj h
      exact ⟨[], e, bbt, rfl, by simp, he, rfl, rfl⟩
    · obtain ⟨r', hr', rfl⟩ := Option.map_eq_some_iff.1 h
      obtain ⟨pre, x, post, rfl, hpre, hx, hr, hx'⟩ := recordBad_eq_some hr'
      refine ⟨e :: pre, x, post, rfl, ?_, hx, by simp [hr], hx'⟩
      exact forall_mem_cons.2 ⟨he, hpre⟩

/-- Entering a bad block changes one unused entry. -/
theorem mem_recordBad {bbt : List BBt} {r : List BBt × BBt} (h : recordBad die block bbt = some r) :
    ∃ e ∈ bbt, e.Spare ∧ (∀ x ∈ r.1, x = r.2 ∨ x ∈ bbt) ∧
      r.2 = { e with bbDie := UInt16.ofInt die, badBlock := UInt16.ofNat block } := by
  obtain ⟨pre, e, post, rfl, -, he, hr, hr2⟩ := recordBad_eq_some h
  refine ⟨e, mem_append_right _ mem_cons_self, he, fun x hx => ?_, hr2⟩
  rw [hr] at hx
  simp only [mem_append, mem_cons] at hx ⊢
  tauto

theorem recordBad_eq_none : ∀ {bbt : List BBt},
    recordBad die block bbt = none ↔ ∀ e ∈ bbt, ¬e.Spare
  | [] => by simp [recordBad]
  | e :: bbt => by
    rw [recordBad, forall_mem_cons]
    split_ifs with he
    · exact iff_of_false (by simp) fun h => h.1 he
    · rw [Option.map_eq_none_iff, recordBad_eq_none]
      exact ⟨fun h => ⟨he, h⟩, fun h => h.2⟩

end OpenHMR
