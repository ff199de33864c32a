import OpenHMR.Memory
import OpenHMR.NandFormRuns

/-!
# The loops of `scan_last_die_BB`

`scan_last_die_BB` fills two arrays of `RBA` elements from the status of the blocks of the
last die : `remap_block` with the good blocks of the reserve area, from the end of the die,
and the table with the bad blocks before the reserve area. `LastDie` are its variables, with
the indices at which it accesses the arrays; what lies behind an array is written and read
like the array itself.

The loop over the bad blocks has no bound of its own. It runs behind the arrays if there are
more bad blocks than entries, and it enters `RB_INIT` as soon as the good reserve blocks are
used up. So all is well exactly if there are at least as many good reserve blocks as bad
blocks before them (`lastDieOk_iff`). Up to the end of the table the loops make the entries
`Geometry.lastDieEntry` (`scanLoops_lastDieEntry`).
-/

namespace OpenHMR

open List Memory Nat

/-- The variables of `scan_last_die_BB`. -/
structure LastDie where
  /-- `remap_block`. -/
  remapBlock : ℕ → ℕ
  /-- `remap_count`. -/
  remapCount : ℕ
  /-- `table_index`. -/
  tableIndex : ℕ
  /-- `this->bbt`. -/
  bbt : ℕ → BBt
  /-- The indices at which `this->bbt` was written. -/
  bbtIndices : List ℕ
  /-- The indices at which `remap_block` was written or read. -/
  remapIndices : List ℕ

namespace LastDie

section Loops

variable (blockNum rba : ℕ) (die : UInt16) (status : ℕ → Bool)

/-- A round of the loop that fills `remap_block`. -/
def pick (s : LastDie) (i : ℕ) : LastDie :=
  if status (blockNum - 1 - i) = false then
    { s with
      remapBlock := Function.update s.remapBlock s.remapCount (blockNum - 1 - i)
      remapCount := s.remapCount + 1
      remapIndices := s.remapIndices ++ [s.remapCount] }
  else s

/-- A round of the loop that fills the rest of `remap_block` with `RB_INIT`. -/
def clear (s : LastDie) (j : ℕ) : LastDie :=
  { s with
    remapBlock := Function.update s.remapBlock (j - 1) rbInit.toNat
    remapIndices := s.remapIndices ++ [j - 1] }

/-- The entry `table_index` is written, and `table_index++`. -/
def setEntry (bbDie badBlock : UInt16) (s : LastDie) : LastDie :=
  { s with
    bbt := Function.update s.bbt s.tableIndex
      ⟨bbDie, badBlock, die, UInt16.ofNat (s.remapBlock s.tableIndex)⟩
    tableIndex := s.tableIndex + 1
    bbtIndices := s.bbtIndices ++ [s.tableIndex]
    remapIndices := s.remapIndices ++ [s.tableIndex] }

/-- A round of the loop over the blocks before the reserve area. -/
def enter (s : LastDie) (i : ℕ) : LastDie :=
  if status i = true then s.setEntry die die (UInt16.ofNat i) else s

/-- A round of the loop that fills the rest of the table. -/
def unused (s : LastDie) (_ : ℕ) : LastDie :=
  s.setEntry die bbDieInit bbInit

/-- The loops that fill `remap_block`. -/
def fillRemap (s : LastDie) : LastDie :=
  let s := (range rba).foldl (pick blockNum status) s
  if s.remapCount < rba + 1 then
    (range' (s.remapCount + 1) (rba - s.remapCount)).foldl clear s
  else s

/-- The loops that fill the table. -/
def fillTable (s : LastDie) : LastDie :=
  let s := (range (blockNum - rba)).foldl (enter die status) s
  (range (rba - s.tableIndex)).foldl (unused die) s

/-- The loops of `scan_last_die_BB` when `block_status` is known; `mem` is what the stack held
and `bbt` the table before. -/
def scanLoops (mem : ℕ → ℕ) (bbt : ℕ → BBt) : LastDie :=
  fillTable blockNum rba die status (fillRemap blockNum rba status ⟨mem, 0, 0, bbt, [], []⟩)

end Loops

end LastDie

/-- The bad block `b` is in the table, with a good reserve block that is in no other entry. -/
def Replaced (blockNum rba : ℕ) (die : UInt16) (status : ℕ → Bool) (bbt : ℕ → BBt) (b : ℕ) : Prop :=
  ∃ i < rba, (bbt i).bbDie = die ∧ (bbt i).badBlock.toNat = b ∧ (bbt i).rbDie = die ∧
    (bbt i).remapBlock ≠ rbInit ∧
    (blockNum - rba ≤ (bbt i).remapBlock.toNat ∧ (bbt i).remapBlock.toNat < blockNum) ∧
    status (bbt i).remapBlock.toNat = false ∧
    ∀ j < rba, j ≠ i → (bbt j).remapBlock ≠ (bbt i).remapBlock

/-- What `scan_last_die_BB` is to do. -/
structure LastDieOk (blockNum rba : ℕ) (die : UInt16) (status : ℕ → Bool) (s : LastDie) : Prop where
  bbt_lt : ∀ i ∈ s.bbtIndices, i < rba
  remap_lt : ∀ i ∈ s.remapIndices, i < rba
  replaced : ∀ b < blockNum - rba, status b = true → Replaced blockNum rba die status s.bbt b

namespace LastDie

/-! ## The loops -/

section Specs

variable {blockNum rba : ℕ} {die : UInt16} {status : ℕ → Bool}

/-- The first loop writes the good blocks it meets, one after the other. -/
theorem foldl_pick : ∀ (l : List ℕ) (s : LastDie), l.foldl (pick blockNum status) s = { s with
      remapBlock := write s.remapBlock s.remapCount
        ((l.map fun i => blockNum - 1 - i).filter fun b => !status b)
      remapCount := s.remapCount +
        ((l.map fun i => blockNum - 1 - i).filter fun b => !status b).length
      remapIndices := s.remapIndices ++ range' s.remapCount
        ((l.map fun i => blockNum - 1 - i).filter fun b => !status b).length }
  | [], s => by simp
  | i :: l, s => by
    rw [foldl_cons, foldl_pick l, pick, map_cons, filter_cons]
    cases hb : status (blockNum - 1 - i) with
    | true => simp
    | false =>
      simp only [Bool.not_false, if_true, length_cons, write_cons, range'_succ]
      simp [add_assoc, add_comm]

/-- The second loop fills `remap_block` up to its end. -/
theorem foldl_clear : ∀ (n a : ℕ) (s : LastDie), (range' (a + 1) n).foldl clear s = { s with
      remapBlock := write s.remapBlock a (replicate n rbInit.toNat)
      remapIndices := s.remapIndices ++ range' a n }
  | 0, a, s => by simp
  | n + 1, a, s => by
    rw [range'_succ, foldl_cons, foldl_clear n (a + 1), clear, replicate_succ,
      write_cons, Nat.add_sub_cancel, range'_succ]
    simp

/-- Entries are written one after the other, each with the element of `remap_block` at its
index. -/
theorem foldl_setEntry : ∀ (xs : List (UInt16 × UInt16)) (s : LastDie),
    xs.foldl (fun s x => s.setEntry die x.1 x.2) s =
      { s with
        bbt := write s.bbt s.tableIndex (zipWith
          (fun x i => ⟨x.1, x.2, die, UInt16.ofNat (s.remapBlock i)⟩) xs
          (range' s.tableIndex xs.length))
        tableIndex := s.tableIndex + xs.length
        bbtIndices := s.bbtIndices ++ range' s.tableIndex xs.length
        remapIndices := s.remapIndices ++ range' s.tableIndex xs.length }
  | [], s => by simp
  | x :: xs, s => by
    rw [foldl_cons, foldl_setEntry xs, setEntry, length_cons, range'_succ,
      zipWith_cons_cons, write_cons, add_comm xs.length 1, ← add_assoc]
    simp

theorem foldl_enter : ∀ (l : List ℕ) (s : LastDie), l.foldl (enter die status) s =
    ((l.filter status).map fun i => (die, UInt16.ofNat i)).foldl
      (fun s x => s.setEntry die x.1 x.2) s
  | [], _ => rfl
  | i :: l, s => by
    rw [foldl_cons, foldl_enter l, enter, filter_cons]
    cases hb : status i <;> simp

theorem foldl_unused : ∀ (n : ℕ) (s : LastDie), (range n).foldl (unused die) s =
    (replicate n (bbDieInit, bbInit)).foldl (fun s x => s.setEntry die x.1 x.2) s
  | 0, _ => rfl
  | n + 1, s => by
    rw [range_succ, foldl_append, foldl_unused n, replicate_succ', foldl_append]
    rfl

end Specs

section Results

variable (blockNum rba : ℕ) (die : UInt16) (status : ℕ → Bool) (mem : ℕ → ℕ) (bbt : ℕ → BBt)

theorem length_goodReserveBlocks_le : (goodReserveBlocks blockNum rba status).length ≤ rba := by
  refine (length_filter_le _ _).trans ?_
  rw [length_map, length_range]

/-- `remap_block` after its loops : the good reserve blocks, and `RB_INIT` up to the end. -/
def remapWords : List ℕ :=
  goodReserveBlocks blockNum rba status ++
    replicate (rba - (goodReserveBlocks blockNum rba status).length) rbInit.toNat

/-- The bad blocks of the table after its loops, with their dies. -/
def badWords : List (UInt16 × UInt16) :=
  (badDataBlocks blockNum rba status).map (fun i => (die, UInt16.ofNat i)) ++
    replicate (rba - (badDataBlocks blockNum rba status).length) (bbDieInit, bbInit)

/-- What the first loop leaves. -/
theorem fillRemap_eq : fillRemap blockNum rba status ⟨mem, 0, 0, bbt, [], []⟩ =
    ⟨write mem 0 (remapWords blockNum rba status),
      (goodReserveBlocks blockNum rba status).length, 0, bbt, [], range' 0 rba⟩ := by
  have hle := length_goodReserveBlocks_le blockNum rba status
  have hpick : (range rba).foldl (pick blockNum status) ⟨mem, 0, 0, bbt, [], []⟩ =
      ⟨write mem 0 (goodReserveBlocks blockNum rba status),
        (goodReserveBlocks blockNum rba status).length, 0, bbt, [],
        range' 0 (goodReserveBlocks blockNum rba status).length⟩ := by
    rw [foldl_pick]
    simp [goodReserveBlocks]
  rw [fillRemap, hpick]
  dsimp only
  rw [if_pos (lt_succ_of_le hle), foldl_clear, remapWords, write_append, zero_add]
  have hsplit := range'_append_1 (s := 0) (m := (goodReserveBlocks blockNum rba status).length)
    (n := rba - (goodReserveBlocks blockNum rba status).length)
  rw [zero_add, add_sub_of_le hle] at hsplit
  rw [hsplit]

/-- What both loops leave. -/
theorem scanLoops_eq : scanLoops blockNum rba die status mem bbt =
    ⟨write mem 0 (remapWords blockNum rba status),
      (goodReserveBlocks blockNum rba status).length, (badWords blockNum rba die status).length,
      write bbt 0 (zipWith
        (fun x i => ⟨x.1, x.2, die, UInt16.ofNat (write mem 0 (remapWords blockNum rba status) i)⟩)
        (badWords blockNum rba die status)
        (range' 0 (badWords blockNum rba die status).length)),
      range' 0 (badWords blockNum rba die status).length,
      range' 0 rba ++ range' 0 (badWords blockNum rba die status).length⟩ := by
  have hindex : ∀ s : LastDie, s.tableIndex = 0 →
      (((badDataBlocks blockNum rba status).map fun i => (die, UInt16.ofNat i)).foldl
        (fun s x => s.setEntry die x.1 x.2) s).tableIndex =
      (badDataBlocks blockNum rba status).length := by
    intro s hs
    rw [foldl_setEntry, hs, length_map, zero_add]
  rw [scanLoops, fillRemap_eq, fillTable, foldl_enter]
  rw [foldl_unused, ← badDataBlocks, hindex _ rfl, ← foldl_append, ← badWords, foldl_setEntry]
  simp

theorem length_badWords : (badWords blockNum rba die status).length =
    max (badDataBlocks blockNum rba status).length rba := by
  rw [badWords, length_append, length_map, length_replicate]
  omega

/-- The element of `remap_block` for an entry, as the table holds it. -/
theorem remapWords_eq {i : ℕ} (hi : i < rba) :
    UInt16.ofNat (write mem 0 (remapWords blockNum rba status) i) =
      ((goodReserveBlocks blockNum rba status)[i]?.map UInt16.ofNat).getD rbInit := by
  have hle := length_goodReserveBlocks_le blockNum rba status
  rw [write_zero, remapWords, List.getElem?_append]
  split_ifs with hlt
  · rw [List.getElem?_eq_getElem hlt]
    rfl
  · rw [List.getElem?_eq_none (not_lt.1 hlt), List.getElem?_replicate, if_pos (by omega)]
    exact UInt16.ofNat_toNat

/-- The entries of the table. -/
theorem scanLoops_bbt {i : ℕ} (hi : i < rba) :
    (scanLoops blockNum rba die status mem bbt).bbt i =
      match (badDataBlocks blockNum rba status)[i]? with
      | some b => ⟨die, UInt16.ofNat b, die,
          ((goodReserveBlocks blockNum rba status)[i]?.map UInt16.ofNat).getD rbInit⟩
      | none => ⟨bbDieInit, bbInit, die,
          ((goodReserveBlocks blockNum rba status)[i]?.map UInt16.ofNat).getD rbInit⟩ := by
  have hlen : i < (badWords blockNum rba die status).length := by
    rw [length_badWords]
    exact hi.trans_le (le_max_right _ _)
  have hword : (badWords blockNum rba die status)[i]? =
      some (match (badDataBlocks blockNum rba status)[i]? with
        | some b => (die, UInt16.ofNat b)
        | none => (bbDieInit, bbInit)) := by
    rw [badWords, List.getElem?_append, length_map, List.getElem?_map]
    split_ifs with hlt
    · rw [List.getElem?_eq_getElem hlt]
      rfl
    · rw [List.getElem?_eq_none (not_lt.1 hlt), List.getElem?_replicate, if_pos (by omega)]
  rw [scanLoops_eq]
  dsimp only
  rw [write_zero, List.getElem?_zipWith, List.getElem?_range' hlen, hword]
  simp only [zero_add, one_mul, Option.getD_some, remapWords_eq blockNum rba status mem hi]
  cases (badDataBlocks blockNum rba status)[i]? <;> rfl

/-- They are those of `scanLastDieBB`. -/
theorem scanLoops_lastDieEntry (g : Geometry) {i : ℕ} (hi : i < g.rba) :
    (scanLoops g.blockNum g.rba (UInt16.ofNat (g.numchips - 1)) status mem bbt).bbt i =
      g.lastDieEntry status i := by
  rw [scanLoops_bbt _ _ _ _ _ _ hi, Geometry.lastDieEntry, remapBlocks_getD]
  rfl

end Results

end LastDie

/-! ## When all is well -/

section Ok

variable {blockNum rba : ℕ} {status : ℕ → Bool}

variable {b i : ℕ}

theorem mem_badDataBlocks :
    b ∈ badDataBlocks blockNum rba status ↔ b < blockNum - rba ∧ status b = true := by
  rw [badDataBlocks, mem_filter, mem_range]

theorem badDataBlocks_nodup : (badDataBlocks blockNum rba status).Nodup :=
  nodup_range.filter _

variable {die : UInt16} {mem : ℕ → ℕ} {bbt : ℕ → BBt}

/-- The remap block of an entry is the good reserve block at its place. -/
theorem remapBlock_eq (hi : i < rba) :
    ((LastDie.scanLoops blockNum rba die status mem bbt).bbt i).remapBlock =
      ((goodReserveBlocks blockNum rba status)[i]?.map UInt16.ofNat).getD rbInit := by
  rw [LastDie.scanLoops_bbt _ _ _ _ _ _ hi]
  cases (badDataBlocks blockNum rba status)[i]? <;> rfl

theorem remapBlock_of_lt (hi : i < (goodReserveBlocks blockNum rba status).length) :
    ((LastDie.scanLoops blockNum rba die status mem bbt).bbt i).remapBlock =
      UInt16.ofNat (goodReserveBlocks blockNum rba status)[i] := by
  have hle := LastDie.length_goodReserveBlocks_le blockNum rba status
  rw [remapBlock_eq (hi.trans_le hle), List.getElem?_eq_getElem hi]
  rfl

theorem remapBlock_of_ge (hi : i < rba) (hge : (goodReserveBlocks blockNum rba status).length ≤ i) :
    ((LastDie.scanLoops blockNum rba die status mem bbt).bbt i).remapBlock = rbInit := by
  rw [remapBlock_eq hi, List.getElem?_eq_none hge]
  rfl

/-- A block is in the table only at its own place. -/
theorem eq_of_badBlock (hnum : blockNum ≤ 0xFFFD) {k : ℕ} (hi : i < rba)
    (hk : k < (badDataBlocks blockNum rba status).length)
    (heq : ((LastDie.scanLoops blockNum rba die status mem bbt).bbt i).badBlock.toNat =
      (badDataBlocks blockNum rba status)[k]) : i = k := by
  have hlt : ∀ b ∈ badDataBlocks blockNum rba status, b < blockNum := fun b hb =>
    (mem_badDataBlocks.1 hb).1.trans_le (sub_le _ _)
  have hkb := hlt _ (getElem_mem hk)
  rw [LastDie.scanLoops_bbt _ _ _ _ _ _ hi] at heq
  cases hb : (badDataBlocks blockNum rba status)[i]? with
  | none =>
    rw [hb] at heq
    have hmark : (0xFFFE : ℕ) = (badDataBlocks blockNum rba status)[k] := heq
    omega
  | some b =>
    rw [hb] at heq
    obtain ⟨hi', rfl⟩ := List.getElem?_eq_some_iff.1 hb
    have hnat := (toNat_ofNat_of_lt_marks ((hlt _ (getElem_mem hi')).trans_le hnum)).1
    exact badDataBlocks_nodup.getElem_inj_iff.1 (hnat.symm.trans heq)

/-- With enough good reserve blocks, a bad block is replaced. -/
theorem replaced_of_le (hrba : rba ≤ blockNum) (hnum : blockNum ≤ 0xFFFD)
    (hle : (badDataBlocks blockNum rba status).length ≤
      (goodReserveBlocks blockNum rba status).length)
    (hb : b ∈ badDataBlocks blockNum rba status) :
    Replaced blockNum rba die status (LastDie.scanLoops blockNum rba die status mem bbt).bbt b := by
  obtain ⟨i, hi, rfl⟩ := getElem_of_mem hb
  have hgood : i < (goodReserveBlocks blockNum rba status).length := hi.trans_le hle
  have hirba := hgood.trans_le (LastDie.length_goodReserveBlocks_le blockNum rba status)
  have hbb : (badDataBlocks blockNum rba status)[i] < blockNum :=
    (mem_badDataBlocks.1 hb).1.trans_le (sub_le _ _)
  obtain ⟨hlow, hhigh, hstatus⟩ := mem_reserve status hrba (getElem_mem hgood)
  obtain ⟨hnat, hne, -⟩ := toNat_ofNat_of_lt_marks (hhigh.trans_le hnum)
  have hremap : ((LastDie.scanLoops blockNum rba die status mem bbt).bbt i).remapBlock = _ :=
    remapBlock_of_lt hgood
  have hentry := LastDie.scanLoops_bbt blockNum rba die status mem bbt hirba
  rw [List.getElem?_eq_getElem hi] at hentry
  refine ⟨i, hirba, by rw [hentry], ?_, by rw [hentry], by rwa [hremap], ?_, ?_, fun j hj hji => ?_⟩
  · rw [hentry]
    exact (toNat_ofNat_of_lt_marks (hbb.trans_le hnum)).1
  · rw [hremap, hnat]
    exact ⟨hlow, hhigh⟩
  · rwa [hremap, hnat]
  · rw [hremap]
    by_cases hjk : j < (goodReserveBlocks blockNum rba status).length
    · rw [remapBlock_of_lt hjk]
      intro heq
      have hj' := (mem_reserve status hrba (getElem_mem hjk)).2.1
      have heq' := congrArg UInt16.toNat heq
      rw [hnat, (toNat_ofNat_of_lt_marks (hj'.trans_le hnum)).1] at heq'
      exact hji ((reserve_nodup hrba).getElem_inj_iff.1 heq')
    · rw [remapBlock_of_ge hj (not_lt.1 hjk)]
      exact hne.symm

theorem mem_bbtIndices :
    i ∈ (LastDie.scanLoops blockNum rba die status mem bbt).bbtIndices ↔
    i < max (badDataBlocks blockNum rba status).length rba := by
  rw [LastDie.scanLoops_eq, ← LastDie.length_badWords blockNum rba die status]
  simp

theorem mem_remapIndices :
    i ∈ (LastDie.scanLoops blockNum rba die status mem bbt).remapIndices ↔
      i < max (badDataBlocks blockNum rba status).length rba := by
  rw [LastDie.scanLoops_eq, ← LastDie.length_badWords blockNum rba die status]
  have := LastDie.length_badWords blockNum rba die status
  simp only [mem_append, mem_range'_1, zero_le, true_and, zero_add]
  omega

end Ok

/-- The arrays are kept and every bad block is replaced exactly if there are at least as many
good blocks in the reserve area as bad blocks before it. -/
theorem lastDieOk_iff {blockNum rba : ℕ} (hrba : rba ≤ blockNum) (hnum : blockNum ≤ 0xFFFD)
    (die : UInt16) (status : ℕ → Bool) (mem : ℕ → ℕ) (bbt : ℕ → BBt) :
    LastDieOk blockNum rba die status (LastDie.scanLoops blockNum rba die status mem bbt) ↔
      (badDataBlocks blockNum rba status).length ≤
        (goodReserveBlocks blockNum rba status).length := by
  have hgood := LastDie.length_goodReserveBlocks_le blockNum rba status
  constructor
  · intro h
    by_contra hlt
    have hk := not_le.1 hlt
    have hbad : (badDataBlocks blockNum rba status).length ≤ rba := by
      by_contra hmore
      exact lt_irrefl rba (h.bbt_lt rba (mem_bbtIndices.2 (lt_max_of_lt_left (not_le.1 hmore))))
    -- The first bad block for which there is no good reserve block.
    obtain ⟨hb, hstatus⟩ := mem_badDataBlocks.1 (getElem_mem hk)
    obtain ⟨i, hi, -, heq, -, hne, -⟩ := h.replaced _ hb hstatus
    obtain rfl := eq_of_badBlock hnum hi hk heq
    exact hne (remapBlock_of_ge hi le_rfl)
  · intro hle
    have hmax : max (badDataBlocks blockNum rba status).length rba = rba :=
      max_eq_right (hle.trans hgood)
    refine ⟨fun i hi => ?_, fun i hi => ?_, fun b hb hstatus => ?_⟩
    · rwa [mem_bbtIndices, hmax] at hi
    · rwa [mem_remapIndices, hmax] at hi
    · exact replaced_of_le hrba hnum hle (mem_badDataBlocks.2 ⟨hb, hstatus⟩)

/-- A worn-out chip of 1024 blocks with a reserve area of 51 : the 52 bad blocks 200 to 251. -/
theorem lastDie_overrun : 51 ≤ 1024 ∧ ¬LastDieOk 1024 51 0 (fun b => 200 ≤ b && b < 252)
    (LastDie.scanLoops 1024 51 0 (fun b => 200 ≤ b && b < 252) (fun _ => 0)
      fun _ => ⟨0, 0, 0, 0⟩) := by
  refine ⟨by decide, fun h => ?_⟩
  have hbad : (badDataBlocks 1024 51 fun b => 200 ≤ b && b < 252).length = 52 := by decide +kernel
  have hmem : 51 < max (badDataBlocks 1024 51 fun b => 200 ≤ b && b < 252).length 51 := by
    rw [hbad]
    decide
  exact lt_irrefl 51 (h.bbt_lt 51 (mem_bbtIndices.2 hmem))

/-- The same chip with the bad blocks 200 and 1023 : block 1022 stands for block 200. -/
theorem lastDieOk_two : LastDieOk 1024 51 0 (fun b => b == 200 || b == 1023)
    (LastDie.scanLoops 1024 51 0 (fun b => b == 200 || b == 1023) (fun _ => 0)
      fun _ => ⟨0, 0, 0, 0⟩) :=
  (lastDieOk_iff (by decide) (by decide) 0 _ _ _).2 (by decide +kernel)

end OpenHMR
