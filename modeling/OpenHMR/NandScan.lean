import OpenHMR.NandBase

/-!
# Finding and making the table

`rtk_nand_scan_bbt` loads the bad block table from its copy in block 0 or, if that has no tag or
cannot be read, from the copy in block 1. If there is no table, `rtk_create_bbt` makes one from
the marks of the bad blocks : `scan_last_die_BB` takes the good blocks at the end of the last die
as remap blocks and enters the bad blocks of that die, and `scan_other_die_BB` enters those of the
other dies.
-/

open Buffer List

namespace OpenHMR

/-! ## The marks of bad blocks -/

section Marks

variable (env : Env) (g : Geometry)

/-- `rtk_block_isbad(mtd, chipnr, ofs)`. -/
def rtkBlockIsbad (chipnr ofs : ℕ) (s : Nand) : Bool × Nand :=
  let page := ofs / g.pageSize
  let block := page / g.ppb
  let page := if g.isLastPage then block * g.ppb + (g.ppb - 1) else page
  let (rc, content, s) := readOob env g chipnr page g.oobSize s
  (decide (rc ≠ 0 ∨ content.oob.getD 0 0xFF ≠ 0xFF), s)

/-- Where the scan of a die starts : it spares the boot code, which is on die 0. -/
def startPage (die : ℕ) : ℕ :=
  if die = 0 then 0x01000000 else 0

/-- The number of rounds of the loops `for (addr = start; addr < chip_size; addr += block_size)`. -/
def Geometry.scanRounds (start : ℕ) : ℕ :=
  (2 ^ g.chipShift - start + (g.erasesize - 1)) / g.erasesize

/-! ## The last die -/

/-- The loop that fills `block_status` : `n` rounds from the address `addr` on. -/
def scanStatus (chipnr : ℕ) : ℕ → ℕ → (ℕ → Bool) → Nand → (ℕ → Bool) × Nand
  | 0, _, status, s => (status, s)
  | n + 1, addr, status, s =>
    let (bad, s) := rtkBlockIsbad env g chipnr addr s
    let status := if bad then Function.update status (addr / g.erasesize) true else status
    scanStatus chipnr n (addr + g.erasesize) status s

/-- The good blocks of the reserve area, the last `RBA` blocks, from the end. -/
def goodReserveBlocks (blockNum rba : ℕ) (status : ℕ → Bool) : List ℕ :=
  ((range rba).map fun i => blockNum - 1 - i).filter fun b => !status b

/-- The bad blocks before the reserve area. -/
def badDataBlocks (blockNum rba : ℕ) (status : ℕ → Bool) : List ℕ :=
  (range (blockNum - rba)).filter status

/-- The good reserve blocks of the device. -/
def Geometry.goodReserve (status : ℕ → Bool) : List ℕ :=
  goodReserveBlocks g.blockNum g.rba status

/-- `remap_block`. -/
def Geometry.remapBlocks (status : ℕ → Bool) : List UInt16 :=
  (g.goodReserve status).map UInt16.ofNat ++
    replicate (g.rba - (g.goodReserve status).length) rbInit

/-- The bad blocks of the device before the reserve area. -/
def Geometry.badBlocks (status : ℕ → Bool) : List ℕ :=
  badDataBlocks g.blockNum g.rba status

/-- The entry `table_index` of the table that `scan_last_die_BB` makes. -/
def Geometry.lastDieEntry (status : ℕ → Bool) (tableIndex : ℕ) : BBt :=
  let die := UInt16.ofNat (g.numchips - 1)
  let remap := (g.remapBlocks status).getD tableIndex rbInit
  match (g.badBlocks status)[tableIndex]? with
  | some b => ⟨die, UInt16.ofNat b, die, remap⟩
  | none => ⟨bbDieInit, bbInit, die, remap⟩

/-- `scan_last_die_BB`. It enters every bad block, also beyond the end of the table. -/
def scanLastDieBB (s : Nand) : Nand :=
  let die := g.numchips - 1
  let s := { s with activeChip := UInt8.ofNat die }.select die
  let (status, s) :=
    scanStatus env g die (g.scanRounds (startPage die)) (startPage die) (fun _ => false) s
  { s with
    bbt := (range g.rba).map (g.lastDieEntry status)
    overrun := s.overrun || decide (g.rba < (g.badBlocks status).length) }

/-- `block_status` when `scan_last_die_BB` has read the marks. -/
def lastDieStatus (s : Nand) : ℕ → Bool :=
  let die := g.numchips - 1
  (scanStatus env g die (g.scanRounds (startPage die)) (startPage die) (fun _ => false)
    ({ s with activeChip := UInt8.ofNat die }.select die)).1

/-! ## The other dies -/

/-- The search for a slot and its use in `scan_other_die_BB`. -/
def Geometry.enterOther (k block : ℕ) : List BBt → List BBt
  | [] => []
  | e :: bbt =>
    if e.badBlock = bbInit ∧ e.remapBlock ≠ rbInit then
      { e with
        bbDie := UInt16.ofNat k
        badBlock := UInt16.ofNat block
        rbDie := UInt16.ofNat (g.numchips - 1) } :: bbt
    else e :: enterOther k block bbt

/-- The loop over the blocks of die `k`. -/
def scanOther (k : ℕ) : ℕ → ℕ → Nand → Nand
  | 0, _, s => s
  | n + 1, addr, s =>
    let (bad, s) := rtkBlockIsbad env g k addr s
    let s := if bad then s.setBbt (g.enterOther k (addr / g.erasesize) s.bbt) else s
    scanOther k n (addr + g.erasesize) s

/-- The body of `scan_other_die_BB` for die `k`. -/
def scanOtherDie (s : Nand) (k : ℕ) : Nand :=
  scanOther env g k (g.scanRounds (startPage k)) (startPage k)
    ({ s with activeChip := UInt8.ofNat k }.select k)

/-- `scan_other_die_BB`. -/
def scanOtherDieBB (s : Nand) : Nand :=
  (range (g.numchips - 1)).foldl (scanOtherDie env g) s

end Marks

/-! ## Copies of several pages -/

/-- `mem_page_num`, a `u8`. -/
def Geometry.memPageNum (g : Geometry) : UInt8 :=
  UInt8.ofNat ((8 * g.rba + g.pageSize - 1) / g.pageSize)

/-- `temp_BBT` of `rtk_create_bbt` and `rtk_nand_scan_bbt` when it is allocated. -/
def Geometry.blankBbt (g : Geometry) : List UInt8 :=
  replicate (g.memPageNum.toNat * g.pageSize) 0xFF

/-- A `u16` from memory. -/
def decodeU16 (lo hi : UInt8) : UInt16 :=
  UInt16.ofNat (lo.toNat + 256 * hi.toNat)

/-- The table from its bytes. -/
def decodeBbt : List UInt8 → List BBt
  | a0 :: a1 :: b0 :: b1 :: c0 :: c1 :: d0 :: d1 :: bytes =>
    ⟨decodeU16 a0 a1, decodeU16 b0 b1, decodeU16 c0 c1, decodeU16 d0 d1⟩ :: decodeBbt bytes
  | _ => []

section Copies

variable (env : Env) (g : Geometry)

/-! ## Making the table -/

/-- The loop that writes the pages of `temp_BBT` from page `page` on; `page_counter` does not
reach 256. -/
def createPages (page : ℕ) (tempBbt : List UInt8) : ℕ → ℕ → Nand → ℤ × Nand
  | 0, _, s => (0, s)
  | n + 1, pageCounter, s =>
    let data := (tempBbt.drop (pageCounter * g.pageSize)).take g.pageSize
    let (rc, s) := writeEccPage env g 0 (page + pageCounter) data (some s.oobbuf) true s
    if rc ≠ 0 then (-1, s) else createPages page tempBbt n (pageCounter + 1) s

/-- The table that `rtk_create_bbt` makes in memory. -/
def scanDies (s : Nand) : Nand :=
  let s := scanLastDieBB env g s
  if 1 < g.numchips then scanOtherDieBB env g s else s

/-- `rtk_create_bbt(mtd, page)`. -/
def rtkCreateBbt (page : ℕ) (s : Nand) : ℤ × Nand :=
  let s := (scanDies env g s).select 0
  let (rc, s) := eraseBlock env g 0 page s
  if rc ≠ 0 then (-1, s)
  else
    let s := { s with oobbuf := s.oobbuf.set 0 bbtTag }
    createPages env g page (memcpy g.blankBbt (bbtBytes s.bbt)) g.memPageNum.toNat 0 s

/-! ## Loading the table -/

/-- A page that was read to `g_databuf` is copied to `temp_BBT`. -/
def copyPage (pageCounter : ℕ) (tempBbt : List UInt8) (s : Nand) : List UInt8 × Nand :=
  (memcpyAt (pageCounter * g.pageSize) tempBbt s.databuf,
    { s with overrun := s.overrun || decide (tempBbt.length < (pageCounter + 1) * g.pageSize) })

/-- The loop that reads the further pages; `none` if one cannot be read. -/
def loadPages (page : ℕ) : ℕ → ℕ → List UInt8 → Nand → Option (List UInt8) × Nand
  | 0, _, tempBbt, s => (some tempBbt, s)
  | n + 1, pageCounter, tempBbt, s =>
    let (rc, s) := readEccPageBuf env g 0 (page + pageCounter) s
    if rc ≠ 0 then (none, s)
    else
      let (tempBbt, s) := copyPage g pageCounter tempBbt s
      loadPages page n (pageCounter + 1) tempBbt s

/-- The table is loaded from the copy at page `page`, whose first page is in `g_databuf`. -/
def loadBbt (page : ℕ) (s : Nand) : ℤ × Nand :=
  let (tempBbt, s) := copyPage g 0 g.blankBbt s
  match loadPages env g page (g.memPageNum - 1).toNat 1 tempBbt s with
  | (none, s) => (-1, s)
  | (some tempBbt, s) => (0, s.setBbt (decodeBbt (tempBbt.take (8 * g.rba))))

/-- The tag in `g_oobbuf`. -/
def Nand.tagged (s : Nand) : Prop :=
  s.oobbuf.getD 0 0 = bbtTag

instance (s : Nand) : Decidable s.tagged :=
  inferInstanceAs (Decidable (_ = _))

/-- The copy in block 1 is loaded; `create` is what happens if it has no tag, `fail` if it cannot
be read. -/
def loadB1 (create : Nand → Nand) (fail : ℤ → Nand → ℤ × Nand) (s : Nand) : ℤ × Nand :=
  let (rc, s) := readEccPageBuf env g 0 g.ppb s
  if rc = 0 then
    if s.tagged then loadBbt env g g.ppb s else (0, create s)
  else fail rc s

/-- `rtk_nand_scan_bbt`. -/
def rtkNandScanBbt (s : Nand) : ℤ × Nand :=
  let createB0 := fun s => (rtkCreateBbt env g 0 s).2
  let createB1 := fun s => (rtkCreateBbt env g g.ppb s).2
  let (rc, s) := readEccPageBuf env g 0 0 s
  if rc = 0 then
    if s.tagged then loadBbt env g 0 s
    else loadB1 env g (fun s => createB1 (createB0 s)) (fun rc s => (rc, createB0 s)) s
  else loadB1 env g createB1 (fun _ s => (-1, s)) s

end Copies

end OpenHMR
