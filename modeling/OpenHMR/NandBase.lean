import OpenHMR.BoundedLoop
import OpenHMR.Buffer
import OpenHMR.NandFlash

/-!
# Reading, writing and erasing

The five calls of `nand_base_rtk.c` that other code makes : `nand_read_ecc`,
`nand_read_oob`, `nand_write_ecc`, `nand_write_oob` and `nand_erase_nand`. They run over the
pages, or the blocks, of a range of the device. For each one they find the block to access
in the bad block table (`locate`), access it, and deal with a failure : they enter the bad
block in the table, write the table to the flash (`rtkUpdateBbt`), move the data of the
block where data are written, and mark the block as bad.

The four calls on pages differ in the cache they use, the operation and the reaction to a
failure; their common body is `pageBody`. A call that leaves its loop early returns `-1`.
-/

open BoundedLoop Buffer

namespace OpenHMR

/-! ## The table in the flash -/

/-- A `u16` in memory. -/
def encodeU16 (x : UInt16) : List UInt8 :=
  [UInt8.ofNat (x.toNat % 256), UInt8.ofNat (x.toNat / 256)]

/-- An entry of the table in memory. -/
def BBt.encode (e : BBt) : List UInt8 :=
  encodeU16 e.bbDie ++ encodeU16 e.badBlock ++ encodeU16 e.rbDie ++ encodeU16 e.remapBlock

section Update

variable (env : Env) (g : Geometry)

/-- The bytes of the table. -/
def bbtBytes (bbt : List BBt) : List UInt8 :=
  bbt.flatMap BBt.encode

/-- The table fits in one page. -/
def Geometry.fitsPage (bytes : List UInt8) : Bool :=
  decide (bytes.length ≤ g.pageSize)

/-- `temp_BBT` of `rtk_update_bbt`, of two pages. -/
def Geometry.tempBbt (bytes : List UInt8) : List UInt8 :=
  memcpy (List.replicate (2 * g.pageSize) 0xFF) bytes

/-- What `data_buf` holds for the second page of a copy. -/
def Geometry.secondPage (bytes : List UInt8) : List UInt8 :=
  memcpy (List.replicate g.pageSize 0xFF)
    (((g.tempBbt bytes).drop g.pageSize).take (bytes.length - g.pageSize))

/-- The start of `rtk_update_bbt` : the tag, the chip and the data of the first page. -/
def prepareBbt (bytes : List UInt8) (s : Nand) : Nand :=
  let s := { s with oobbuf := s.oobbuf.set 0 bbtTag }
  let s := s.select 0
  if g.fitsPage bytes then { s with databuf := memcpy s.databuf bytes }
  else { s with
    databuf := (g.tempBbt bytes).take g.pageSize
    overrun := s.overrun || decide (2 * g.pageSize < bytes.length) }

/-- One page of a copy of the table. -/
def writeBbtPage (page : ℕ) (s : Nand) : ℤ × Nand :=
  writeEccPageBuf env g 0 page true s

/-- The copy in block 0. Its failures are not reported. -/
def updateB0 (bytes : List UInt8) (s : Nand) : Nand :=
  let (_, s) := eraseBlock env g 0 0 s
  let (rc, s) := writeBbtPage env g 0 s
  if rc = 0 ∧ g.fitsPage bytes = false then
    (writeBbtPage env g 1 { s with databuf := g.secondPage bytes }).2
  else s

/-- The copy in block 1. Its first page is written from `data_buf` as it is. -/
def updateB1 (bytes : List UInt8) (s : Nand) : ℤ × Nand :=
  let (rc, s) := eraseBlock env g 1 g.ppb s
  if rc ≠ 0 then (-1, s)
  else
    let (rc, s) := writeBbtPage env g g.ppb s
    if rc ≠ 0 then (-1, s)
    else if g.fitsPage bytes then (0, s)
    else
      let (rc, s) := writeBbtPage env g (g.ppb + 1) { s with databuf := g.secondPage bytes }
      if rc ≠ 0 then (-1, s) else (0, s)

/-- `rtk_update_bbt(mtd, this->g_databuf, this->g_oobbuf, this->bbt)`. -/
def rtkUpdateBbt (s : Nand) : ℤ × Nand :=
  let activeChip := s.activeChip
  let bytes := bbtBytes s.bbt
  let s := updateB0 env g bytes (prepareBbt g bytes s)
  let (rc, s) := updateB1 env g bytes s
  if rc ≠ 0 then (-1, s) else (0, s.select activeChip.toNat)

/-- The mark of a bad block : the status byte of two of its pages is cleared. -/
def markBad (chipnr block : ℕ) (s : Nand) : Nand :=
  let s := { s with oobbuf := s.oobbuf.set 0 0 }
  let (p1, p2) := if g.isLastPage then (block * g.ppb + g.ppb - 1, block * g.ppb + g.ppb - 2)
    else (block * g.ppb, block * g.ppb + 1)
  let s := (writeOob env g chipnr p1 g.oobSize s.oobbuf s).2
  (writeOob env g chipnr p2 g.oobSize s.oobbuf s).2

end Update

/-! ## The loops -/

/-- The local variables of the loops. -/
structure Cursor where
  /-- `old_page`, the page of the range on its chip. -/
  oldPage : ℕ
  /-- `page`, at first the page of the range, then the page accessed last. -/
  page : ℕ
  /-- `page_offset`. -/
  pageOffset : ℕ
  /-- `block`. -/
  block : ℕ
  /-- `chipnr`. -/
  chipnr : ℤ
  /-- `chipnr_remap`. -/
  chipnrRemap : ℤ

/-- The state of a loop. -/
structure Loop where
  /-- The local variables. -/
  cur : Cursor
  /-- The driver. -/
  nand : Nand
  /-- `rc`. -/
  rc : ℤ
  /-- What was read so far. -/
  out : List PageContent
  /-- `instr->fail_addr` of an erase. -/
  failAddr : ℕ

namespace Loop

/-- The walk through the table from the variables of the loop. -/
def walk (remapBlock : Option ℕ) (l : Loop) : Walk :=
  walkBbt l.nand.bbt
    ⟨l.nand.activeChip, l.nand.selected, l.cur.chipnrRemap, l.cur.block, remapBlock⟩

/-- The variables after the walk. -/
def setWalk (w : Walk) (l : Loop) : Loop :=
  { l with
    nand := { l.nand with activeChip := w.activeChip, selected := w.selected }
    cur := { l.cur with chipnrRemap := w.chipnrRemap, block := w.block } }

/-- `page` becomes the page at the offset in the block `block`. -/
def setPage (g : Geometry) (block : ℕ) (l : Loop) : Loop :=
  { l with cur := { l.cur with page := block * g.ppb + l.cur.pageOffset } }

/-- The die on which a failure is recorded. -/
def errDie (l : Loop) : ℤ :=
  if l.cur.chipnr ≠ l.cur.chipnrRemap then l.cur.chipnrRemap else l.cur.chipnr

end Loop

section Locate

variable (g : Geometry)

/-- The address of the functions on the spare area : a walk for every page. -/
def locatePlain (l : Loop) : Loop :=
  let l := l.setWalk (l.walk none)
  l.setPage g l.cur.block

/-- The address of `nand_read_ecc` and `nand_write_ecc` : on a device with one chip, the walk
is skipped if the page accessed last is in the block and the table was walked. -/
def locateCached (sel : CacheSel) (l : Loop) : Loop :=
  let c := l.nand.cache sel
  if g.numchips = 1 ∧ l.cur.block * g.ppb ≤ l.cur.page ∧ l.cur.page < (l.cur.block + 1) * g.ppb ∧
      c.hasCheckBbt = true then
    l.setPage g (c.remapBlock.getD l.cur.block)
  else
    let w := l.walk c.remapBlock
    let c := { c with remapBlock := w.remapBlock, hasCheckBbt := true }
    let l := l.setWalk w
    let l := { l with nand := { l.nand with cache := Function.update l.nand.cache sel c } }
    l.setPage g (if g.numchips = 1 then w.remapBlock.getD w.block else w.block)

/-- The address of the next page. -/
def locate : Option CacheSel → Loop → Loop
  | none => locatePlain g
  | some sel => locateCached g sel

/-- The end of a round that went over `step` pages; `more` says that another round follows. -/
def advance (step : ℕ) (more : Bool) (l : Loop) : Loop :=
  let oldPage := l.cur.oldPage + step
  let pageOffset := oldPage &&& (g.ppb - 1)
  if more ∧ oldPage &&& g.pagemask = 0 then
    let oldPage := oldPage &&& g.pagemask
    let chipnr := l.cur.chipnr + 1
    { l with
      nand := { l.nand with activeChip := UInt8.ofInt chipnr }.select chipnr
      cur := { l.cur with oldPage, pageOffset, block := oldPage / g.ppb, chipnr } }
  else { l with cur := { l.cur with oldPage, pageOffset, block := oldPage / g.ppb } }

/-- The variables at the start of a call on the page `realpage` of the device, which is on
the chip `chipnr`. -/
def Loop.start (chipnr : ℤ) (realpage : ℕ) (s : Nand) : Loop :=
  let page := realpage &&& g.pagemask
  ⟨⟨page, page, page &&& (g.ppb - 1), page / g.ppb, chipnr, chipnr⟩,
    { s with activeChip := UInt8.ofInt chipnr }.select chipnr, 0, [], 0xFFFFFFFF⟩

/-- The start of `nand_read_ecc` and `nand_write_ecc` : a call on another block than the
cached one clears the cache. -/
def Loop.resetCache (sel : CacheSel) (l : Loop) : Loop :=
  if g.numchips = 1 ∧ (l.nand.cache sel).block ≠ some l.cur.block then
    { l with
      nand := { l.nand with
        cache := Function.update l.nand.cache sel ⟨some l.cur.block, none, false⟩ } }
  else l

end Locate

/-! ## Failures -/

section Failures

variable (env : Env) (g : Geometry)

/-- The failure of a read : the block is entered in the table if there is a slot, and marked
as bad. -/
def readFail (l : Loop) : Except Loop Loop :=
  let bbt := enterBad l.errDie (l.cur.page / g.ppb) l.nand.bbt
  let (rc, s) := rtkUpdateBbt env g (l.nand.setBbt bbt)
  if rc ≠ 0 then .error { l with nand := s }
  else .ok { l with nand := markBad env g s.activeChip.toNat l.cur.block s }

/-- `active_chip` and the enabled chip become `chip`, unless the two dies are the same. -/
def switchDie (errDie errDieRemap chip : ℤ) (s : Nand) : Nand :=
  if errDie ≠ errDieRemap then { s with activeChip := UInt8.ofInt chip }.select chip else s

/-- One page of the backup of a block. -/
def backupPage (errDie errDieRemap : ℤ) (block blockRemap i : ℕ) (s : Nand) : Nand :=
  let s := switchDie errDie errDieRemap errDie s
  let s := (readEccPageBuf env g s.activeChip.toNat (block * g.ppb + i) s).2
  let s := { s with oobbuf := reverseToYaffs2Tags s.oobbuf }
  let s := switchDie errDie errDieRemap errDieRemap s
  (writeEccPageBuf env g s.activeChip.toNat (blockRemap * g.ppb + i) false s).2

/-- The rescue of a block, whose failure is recorded in the entry `e` : the remap block is
erased and gets the first `n` pages of the block and, in page `n`, what is to be written. -/
def rescue (retry : ℕ → Nand → ℤ × Nand) (errDie : ℤ) (e : BBt) (block n : ℕ) (s : Nand) : Nand :=
  let errDieRemap : ℤ := e.rbDie.toNat
  let blockRemap := e.remapBlock.toNat
  let s := s.select errDieRemap
  let s := (eraseBlock env g e.rbDie.toNat (blockRemap * g.ppb) s).2
  let s := (List.range n).foldl
    (fun s i => backupPage env g errDie errDieRemap block blockRemap i s) s
  let s := (retry (blockRemap * g.ppb + n) s).2
  switchDie errDie errDieRemap errDie s

/-- The failure of a write : the block is entered in the table, the pages before the failing
one and the data to be written go to its remap block, and the block is marked as bad. -/
def writeFail (retry : ℕ → Nand → ℤ × Nand) (l : Loop) : Except Loop Loop :=
  match recordBad l.errDie (l.cur.page / g.ppb) l.nand.bbt with
  | none => .error l
  | some (bbt, e) =>
    let (rc, s) := rtkUpdateBbt env g (l.nand.setBbt bbt)
    if rc ≠ 0 then .error { l with nand := s }
    else
      let s := rescue env g retry l.errDie e l.cur.block (l.cur.page &&& (g.ppb - 1)) s
      .ok { l with nand := markBad env g s.activeChip.toNat l.cur.block s }

end Failures

/-! ## The calls on pages -/

section Calls

variable (env : Env) (g : Geometry)

/-- A round of a loop over pages : the address, the access, and the reaction to a failure. -/
def pageBody (sel : Option CacheSel) (access : ℕ → Loop → ℤ × Loop)
    (fail : ℕ → Loop → Except Loop Loop) (i n : ℕ) (l : Loop) : Except Loop Loop :=
  let (rc, l) := access i (locate g sel l)
  let l := { l with rc := rc }
  if rc < 0 then
    if rc = -1 then
      match fail i l with
      | .error l => .error l
      | .ok l => .ok (advance g 1 (n ≠ 0) l)
    else .error l
  else .ok (advance g 1 (n ≠ 0) l)

/-- What a call returns. -/
structure IoResult where
  /-- The return code. -/
  rc : ℤ
  /-- `*retlen`, if it is set. -/
  retlen : Option ℕ
  /-- What was read. -/
  out : List PageContent
  /-- The driver afterwards. -/
  nand : Nand

/-- `-EINVAL`. -/
def eInval : ℤ :=
  -22

/-- The read of a page into the caller's buffers. -/
def readEccAccess (_ : ℕ) (l : Loop) : ℤ × Loop :=
  let (rc, content, s) := readEccPage env g l.nand.activeChip.toNat l.cur.page l.nand
  (rc, { l with nand := s, out := l.out ++ [content] })

/-- `nand_read_ecc(mtd, from, len, retlen, buf, oob_buf, oobsel)`, where `hwEcc` says that
`oobsel` asks for `MTD_ECC_RTK_HW`. -/
def nandReadEcc (start len : ℕ) (hwEcc : Bool) (s : Nand) : IoResult :=
  if g.mtdSize < start + len then ⟨eInval, some 0, [], s⟩
  else if start &&& (g.pageSize - 1) ≠ 0 ∨ len &&& (g.pageSize - 1) ≠ 0 then ⟨eInval, none, [], s⟩
  else
    let l := Loop.start g (start / 2 ^ g.chipShift : ℕ) (start / g.pageSize) { s with hwEcc }
    let l := l.resetCache g .read
    match loop (pageBody g (some .read) (readEccAccess env g) fun _ => readFail env g)
        (len / g.pageSize) 0 l with
    | .error l => ⟨-1, some 0, l.out, l.nand⟩
    | .ok l => ⟨0, some len, l.out, l.nand⟩

/-- The length of the piece of the caller's buffer for page `i` of a call on spare areas. -/
def Geometry.thislen (len i : ℕ) : ℕ :=
  min g.oobSize (len - i * g.oobSize)

/-- The number of pages of a call on spare areas. -/
def Geometry.oobPages (len : ℕ) : ℕ :=
  (len + g.oobSize - 1) / g.oobSize

/-- The read of the spare area of a page. -/
def readOobAccess (len i : ℕ) (l : Loop) : ℤ × Loop :=
  let (rc, content, s) :=
    readOob env g l.nand.activeChip.toNat l.cur.page (g.thislen len i) l.nand
  (rc, { l with nand := s, out := l.out ++ [content] })

/-- `nand_read_oob(mtd, from, len, retlen, oob_buf)`. -/
def nandReadOob (start len : ℕ) (s : Nand) : IoResult :=
  if g.mtdSize < start + len then ⟨eInval, some 0, [], s⟩
  else if start &&& (g.pageSize - 1) ≠ 0 then ⟨eInval, none, [], s⟩
  else
    let l := Loop.start g (start / 2 ^ g.chipShift : ℕ) (start / g.pageSize) s
    match loop (pageBody g none (readOobAccess env g len) fun _ => readFail env g)
        (g.oobPages len) 0 l with
    | .error l => ⟨-1, some 0, l.out, l.nand⟩
    | .ok l => ⟨0, some len, l.out, l.nand⟩

/-- The write of page `i` of the caller's buffers to the page `page`. -/
def writeEccUser (buf : ℕ → List UInt8) (oobBuf : Option (ℕ → List UInt8)) (i page : ℕ)
    (s : Nand) : ℤ × Nand :=
  writeEccPage env g s.activeChip.toNat page (buf i) (oobBuf.map fun w => w i) false s

/-- The write of a page from the caller's buffers. -/
def writeEccAccess (buf : ℕ → List UInt8) (oobBuf : Option (ℕ → List UInt8)) (i : ℕ) (l : Loop) :
    ℤ × Loop :=
  let (rc, s) := writeEccUser env g buf oobBuf i l.cur.page l.nand
  (rc, { l with nand := s })

/-- `nand_write_ecc(mtd, to, len, retlen, buf, oob_buf, oobsel)`, where `buf i` and
`oobBuf i` are the pieces of the caller's buffers for page `i`, and `oobBuf` is `none` if
there is no buffer for the spare areas. A write that is repeated finds the piece encrypted. -/
def nandWriteEcc (start len : ℕ) (buf : ℕ → List UInt8) (oobBuf : Option (ℕ → List UInt8))
    (s : Nand) : IoResult :=
  if g.mtdSize < start + len then ⟨eInval, some 0, [], s⟩
  else if start &&& (g.pageSize - 1) ≠ 0 ∨ len &&& (g.pageSize - 1) ≠ 0 then ⟨eInval, none, [], s⟩
  else
    let l := Loop.start g (start / 2 ^ g.chipShift : ℕ) (start / g.pageSize) s
    let l := l.resetCache g .write
    match loop (pageBody g (some .write) (writeEccAccess env g buf oobBuf)
        fun i => writeFail env g (writeEccUser env g (env.encrypt ∘ buf) oobBuf i))
        (len / g.pageSize) 0 l with
    | .error l => ⟨-1, some 0, l.out, l.nand⟩
    | .ok l => ⟨0, some len, l.out, l.nand⟩

/-- The write of piece `i` of the caller's buffer to the spare area of the page `page`. -/
def writeOobUser (oobBuf : ℕ → List UInt8) (len i page : ℕ) (s : Nand) : ℤ × Nand :=
  writeOob env g s.activeChip.toNat page len (oobBuf i) s

/-- The write of the spare area of a page. -/
def writeOobAccess (oobBuf : ℕ → List UInt8) (len i : ℕ) (l : Loop) : ℤ × Loop :=
  let (rc, s) := writeOobUser env g oobBuf (g.thislen len i) i l.cur.page l.nand
  (rc, { l with nand := s })

/-- `nand_write_oob(mtd, to, len, retlen, oob_buf)`. It returns the code of the last write. -/
def nandWriteOob (start len : ℕ) (oobBuf : ℕ → List UInt8) (s : Nand) : IoResult :=
  if g.mtdSize < start + len then ⟨eInval, some 0, [], s⟩
  else if start &&& (g.pageSize - 1) ≠ 0 then ⟨eInval, none, [], s⟩
  else
    let l := Loop.start g (start / 2 ^ g.chipShift : ℕ) (start / g.pageSize) s
    match loop (pageBody g none (writeOobAccess env g oobBuf len)
        fun i => writeFail env g (writeOobUser env g oobBuf g.oobSize i)) (g.oobPages len) 0 l with
    | .error l => ⟨-1, some 0, l.out, l.nand⟩
    | .ok l => ⟨l.rc, some len, l.out, l.nand⟩

/-! ## Erasing -/

/-- The failure of an erase : the block is entered in the table and marked as bad, and its
remap block is erased. -/
def eraseFail (l : Loop) : Except Loop Loop :=
  match recordBad l.errDie (l.cur.page / g.ppb) l.nand.bbt with
  | none => .error l
  | some (bbt, e) =>
    let (rc, s) := rtkUpdateBbt env g (l.nand.setBbt bbt)
    if rc ≠ 0 then .error { l with nand := s }
    else
      let s := markBad env g (UInt16.ofInt l.cur.chipnr).toNat l.cur.block s
      let s := (eraseBlock env g (UInt16.ofInt l.cur.chipnrRemap).toNat
        (e.remapBlock.toNat * g.ppb) s).2
      .ok { l with nand := s }

/-- The end of a round of the erase loop. -/
def eraseNext (n : ℕ) (l : Loop) : Loop :=
  let l := if l.cur.chipnr ≠ l.cur.chipnrRemap then { l with nand := l.nand.select l.cur.chipnr }
    else l
  advance g g.ppb (n ≠ 0) l

/-- A round of the erase loop. -/
def eraseBody (_ n : ℕ) (l : Loop) : Except Loop Loop :=
  let l := l.setWalk (l.walk none)
  let l := { l with cur := { l.cur with page := l.cur.block * g.ppb } }
  let (rc, s) := eraseBlock env g l.nand.activeChip.toNat l.cur.page l.nand
  let l := { l with nand := s, rc := rc }
  if rc ≠ 0 then
    match eraseFail env g { l with failAddr := l.cur.page * g.pageSize } with
    | .error l => .error l
    | .ok l => .ok (eraseNext g n l)
  else .ok (eraseNext g n l)

/-- What an erase returns. -/
structure EraseResult where
  /-- The return code. -/
  rc : ℤ
  /-- `instr->fail_addr`, if it is set. -/
  failAddr : Option ℕ
  /-- The driver afterwards. -/
  nand : Nand

/-- `-ENODEV`. -/
def eNoDev : ℤ :=
  -19

/-- The chip of an address that is converted to a signed 32-bit number. -/
def Geometry.eraseChip (addr : ℕ) : ℤ :=
  (if addr < 2 ^ 31 then (addr : ℤ) else addr - 2 ^ 32) / 2 ^ g.chipShift

/-- `nand_erase_nand(mtd, instr, allowbbt)` for `instr->addr` and `instr->len`, both
`u_int32_t`. -/
def nandEraseNand (addr len : ℕ) (s : Nand) : EraseResult :=
  if g.mtdSize = 0 then ⟨eNoDev, none, s⟩
  else if g.mtdSize < (addr + len) % 2 ^ 32 then ⟨eInval, none, s⟩
  else if addr &&& (g.erasesize - 1) ≠ 0 then ⟨eInval, none, s⟩
  else
    match loop (eraseBody env g) ((len + g.erasesize - 1) / g.erasesize) 0
        (Loop.start g (g.eraseChip addr) (addr / g.pageSize) s) with
    | .error l => ⟨-1, some l.failAddr, l.nand⟩
    | .ok l => ⟨l.rc, some l.failAddr, l.nand⟩

end Calls

end OpenHMR
