import OpenHMR.NandTable

/-!
# The flash operations

The state of the driver of `drivers/mtd/nand` with the flash behind it, and the operations
of `rtk_nand.c` on one page or one block. What the hardware does to an operation is given
by an environment : it completes, it fails, or the wait for the semaphore is interrupted.
The return codes follow from that and from the checks of the operations, most of all that
nobody writes to the boot code, the first 16 MB of chip 0.

Every operation is entered in a log with the arguments it was called with, the chip that was
enabled and its return code. The content of a page whose programming failed, or that could
not be read, is up to the environment.

With `this->mcp` set to `MCP_AES_ECB` a page is encrypted in the buffer it is written from,
before the checks of the write, and decrypted in the buffer it was read to.
-/

namespace OpenHMR

open List Nat

/-! ## Geometry -/

/-- The geometry of the device, as `rtk_nand_scan` sets it up from the sizes in bytes, which
are powers of two. -/
structure Geometry where
  /-- `this->page_shift`. -/
  pageShift : ℕ
  /-- `this->phys_erase_shift`. -/
  eraseShift : ℕ
  /-- `this->chip_shift`. -/
  chipShift : ℕ
  /-- `oob_size`. -/
  oobSize : ℕ
  /-- `this->numchips`. -/
  numchips : ℕ
  /-- `isLastPage` : bad blocks are marked in the last two pages of a block. -/
  isLastPage : Bool
  pageShift_le : pageShift ≤ eraseShift
  eraseShift_le : eraseShift ≤ chipShift
  deriving DecidableEq

namespace Geometry

variable (g : Geometry)

/-- `page_size`. -/
def pageSize : ℕ :=
  2 ^ g.pageShift

/-- The bytes of a block, `mtd->erasesize`. -/
def erasesize : ℕ :=
  2 ^ g.eraseShift

/-- `ppb`, the pages of a block. -/
def ppb : ℕ :=
  2 ^ (g.eraseShift - g.pageShift)

/-- `this->page_num`, the pages of a chip. -/
def pageNum : ℕ :=
  2 ^ (g.chipShift - g.pageShift)

/-- `this->block_num`, the blocks of a chip. -/
def blockNum : ℕ :=
  2 ^ (g.chipShift - g.eraseShift)

/-- `this->pagemask`. -/
def pagemask : ℕ :=
  g.pageNum - 1

/-- `mtd->size`, an `u_int32_t`. -/
def mtdSize : ℕ :=
  g.numchips * 2 ^ g.chipShift % 2 ^ 32

/-- `RBA`, five percent of the blocks. -/
def rba : ℕ :=
  g.mtdSize / g.erasesize * 5 / 100

/-- The pages of the boot code. -/
def bootPages : ℕ :=
  16 * 1024 * 1024 / g.pageSize

/-- The test of the operations for the boot code. -/
def bootArea (chipnr page : ℕ) : Bool :=
  decide (chipnr = 0) && decide (page < g.bootPages)

theorem ppb_pos : 0 < g.ppb :=
  Nat.two_pow_pos _

theorem pageSize_pos : 0 < g.pageSize :=
  Nat.two_pow_pos _

theorem erasesize_pos : 0 < g.erasesize :=
  Nat.two_pow_pos _

theorem pageNum_pos : 0 < g.pageNum :=
  Nat.two_pow_pos _

theorem page_div (block : ℕ) {n : ℕ} (hn : n < g.ppb) : (block * g.ppb + n) / g.ppb = block := by
  rw [mul_comm, mul_add_div g.ppb_pos, div_eq_of_lt hn, add_zero]

theorem page_mod (block : ℕ) {n : ℕ} (hn : n < g.ppb) : (block * g.ppb + n) % g.ppb = n := by
  rw [mul_comm, mul_add_mod, mod_eq_of_lt hn]

theorem eq_page_iff {a block n : ℕ} (hn : n < g.ppb) :
    a = block * g.ppb + n ↔ a / g.ppb = block ∧ a % g.ppb = n := by
  refine ⟨?_, fun ⟨h1, h2⟩ => ?_⟩
  · rintro rfl
    exact ⟨g.page_div block hn, g.page_mod block hn⟩
  · rw [← h1, ← h2, div_add_mod']

theorem and_ppb (x : ℕ) : x &&& (g.ppb - 1) = x % g.ppb :=
  and_two_pow_sub_one_eq_mod x _

theorem and_pagemask (x : ℕ) : x &&& g.pagemask = x % g.pageNum :=
  and_two_pow_sub_one_eq_mod x _

theorem and_pageSize (x : ℕ) : x &&& (g.pageSize - 1) = x % g.pageSize :=
  and_two_pow_sub_one_eq_mod x _

theorem pageNum_mul_pageSize : g.pageNum * g.pageSize = 2 ^ g.chipShift := by
  rw [pageNum, pageSize, ← pow_add, Nat.sub_add_cancel (g.pageShift_le.trans g.eraseShift_le)]

theorem ppb_mul_pageSize : g.ppb * g.pageSize = g.erasesize := by
  rw [erasesize, ppb, pageSize, ← pow_add, Nat.sub_add_cancel g.pageShift_le]

theorem mul_div_pageSize (k : ℕ) : g.erasesize * k / g.pageSize = k * g.ppb := by
  rw [← ppb_mul_pageSize, mul_right_comm, Nat.mul_div_cancel _ g.pageSize_pos, mul_comm]

theorem blockNum_mul_erasesize : g.blockNum * g.erasesize = 2 ^ g.chipShift := by
  rw [blockNum, erasesize, ← pow_add, Nat.sub_add_cancel g.eraseShift_le]

theorem blockNum_mul_ppb : g.blockNum * g.ppb = g.pageNum := by
  rw [blockNum, ppb, pageNum, ← pow_add]
  congr 1
  have := g.pageShift_le
  have := g.eraseShift_le
  omega

theorem ppb_dvd_pageNum : g.ppb ∣ g.pageNum :=
  ⟨g.blockNum, by rw [mul_comm, g.blockNum_mul_ppb]⟩

end Geometry

/-- What the sizes of all supported chips satisfy : a block has several pages, the first two
blocks are in the boot code, and a block number is below the marks of unused entries. -/
structure Geometry.Supported (g : Geometry) : Prop where
  pages : g.pageShift < g.eraseShift
  boot : g.eraseShift ≤ 23
  blocks : g.chipShift ≤ g.eraseShift + 15

namespace Geometry.Supported

variable {g : Geometry} (h : g.Supported)

include h

theorem one_lt_ppb : 1 < g.ppb :=
  Nat.one_lt_two_pow (sub_ne_zero_of_lt h.pages)

theorem two_ppb_le : 2 * g.ppb ≤ g.bootPages := by
  have hpages := h.pages
  have hboot := h.boot
  have hb : g.bootPages = 2 ^ (24 - g.pageShift) :=
    Nat.pow_div (m := 24) (by omega) Nat.zero_lt_two
  rw [hb, ppb, ← pow_succ']
  exact Nat.pow_le_pow_right Nat.zero_lt_two (by omega)

theorem blockNum_lt : g.blockNum < 0xFFFD := by
  have hle : g.blockNum ≤ 2 ^ 15 :=
    Nat.pow_le_pow_right Nat.zero_lt_two (by have := h.blocks; omega)
  exact hle.trans_lt (by decide)

end Geometry.Supported

/-- The chip `K9F1G08U0B`, of 128 MB. -/
def k9f1g08u0b : Geometry :=
  ⟨11, 17, 27, 64, 1, false, by decide, by decide⟩

/-! ## Pages -/

/-- The content of a page : its data and its spare area. -/
structure PageContent where
  /-- The data. -/
  data : List UInt8
  /-- The spare area. -/
  oob : List UInt8
  deriving DecidableEq

/-- An erased page. -/
def Geometry.blank (g : Geometry) : PageContent :=
  ⟨replicate g.pageSize 0xFF, replicate g.oobSize 0xFF⟩

/-- `BBT_TAG`. -/
def bbtTag : UInt8 :=
  0xBB

/-- `read_oob_from_PP`, for all sections of 1 KB of a page : what the buffer `old` holds
afterwards. Sections after the second overwrite what it gave. -/
def Geometry.readOobFromPP (g : Geometry) (hwEcc : Bool) (raw old : List UInt8) : List UInt8 :=
  let byte := fun i => raw.getD i 0xFF
  let last := g.pageSize / 1024 - 1
  if hwEcc then
    let second := if 0 < last then (range 32).map fun i => byte (32 * last + i)
      else (old.drop 32).take 32
    (range 32).map byte ++ second ++ old.drop 64
  else
    let second := if 0 < last then [0, 1, 2, 3, 16, 17, 18, 19].map fun i => byte (32 * last + i)
      else (old.drop 9).take 8
    [0, 1, 2, 3, 4, 16, 17, 18, 19].map byte ++ second ++ old.drop 17

/-- `write_oob_to_TableSram` with a shift : the spare area with `first` in the status byte
and 16 bytes of `w` in the places around the ECC. -/
def Geometry.shiftedOob (g : Geometry) (first : UInt8) (w : List UInt8) : List UInt8 :=
  let byte := fun i => w.getD i 0xFF
  let ff := fun n => replicate n (0xFF : UInt8)
  (first :: [0, 1, 2].map byte ++ [byte 3, 0, 0, 0] ++ ff 8 ++ [4, 5, 6, 7].map byte ++ ff 12 ++
    [8, 9, 10, 11].map byte ++ ff 12 ++ [12, 13, 14, 15].map byte ++ ff (g.oobSize - 52)).take
      g.oobSize

/-- The spare area that `rtk_write_ecc_page` programs : the status byte of the pages of the
table has the tag. -/
def Geometry.writtenOob (g : Geometry) (page : ℕ) : Option (List UInt8) → List UInt8
  | some w =>
    g.shiftedOob (if page = 0 ∨ page = 1 ∨ page = g.ppb ∨ page = g.ppb + 1 then bbtTag else 0xFF) w
  | none => replicate g.oobSize 0xFF

/-- `reverse_to_Yaffs2Tags`. -/
def reverseToYaffs2Tags (oobbuf : List UInt8) : List UInt8 :=
  (oobbuf.drop 1).take 16 ++ oobbuf.drop 16

/-! ## The driver and the hardware -/

/-- What happens to an operation. -/
inductive Outcome where
  /-- It completes. -/
  | ok
  /-- The status bit or the ECC reports a failure. -/
  | failed
  /-- `down_interruptible` is interrupted. -/
  | interrupted
  deriving DecidableEq

/-- `MCP_AES_ECB_Encryption` and `MCP_AES_ECB_Decryption` of a page, with the key of the chip. -/
structure McpAesEcb where
  encryption : List UInt8 → List UInt8
  decryption : List UInt8 → List UInt8
  decryption_encryption : ∀ data, decryption (encryption data) = data
  encryption_decryption : ∀ data, encryption (decryption data) = data
  length_encryption : ∀ data, (encryption data).length = data.length

/-- A cipher that inverts every bit. -/
def McpAesEcb.inverting : McpAesEcb where
  encryption := map (~~~·)
  decryption := map (~~~·)
  decryption_encryption _ := by simp [Function.comp_def]
  encryption_decryption _ := by simp [Function.comp_def]
  length_encryption _ := length_map _

/-- The environment, by the number of operations before. -/
structure Env where
  /-- What happens to the operation. -/
  outcome : ℕ → Outcome
  /-- What a page then holds, or what is read from it, where it is not determined. -/
  noise : ℕ → ℕ → PageContent
  /-- The cipher, if `this->mcp` is `MCP_AES_ECB`. -/
  mcp : Option McpAesEcb

namespace Env

/-- The environment in which every operation completes. -/
def allOk : Env :=
  ⟨fun _ => .ok, fun _ _ => ⟨[], []⟩, none⟩

/-- The environment in which operation `n` fails. -/
def failing (n : ℕ) : Env :=
  ⟨fun m => if m = n then .failed else .ok, fun _ _ => ⟨[], []⟩, none⟩

/-- The environment in which the operations `ns` fail. -/
def failingAt (ns : List ℕ) : Env :=
  ⟨fun m => if m ∈ ns then .failed else .ok, fun _ _ => ⟨[], []⟩, none⟩

/-- A page as it is programmed. -/
def encrypt (env : Env) (data : List UInt8) : List UInt8 :=
  match env.mcp with
  | some aes => aes.encryption data
  | none => data

/-- A page as it is read. -/
def decrypt (env : Env) (data : List UInt8) : List UInt8 :=
  match env.mcp with
  | some aes => aes.decryption data
  | none => data

@[simp] theorem decrypt_encrypt (env : Env) (data : List UInt8) :
    env.decrypt (env.encrypt data) = data := by
  unfold encrypt decrypt
  cases env.mcp with
  | none => rfl
  | some aes => exact aes.decryption_encryption data

@[simp] theorem encrypt_decrypt (env : Env) (data : List UInt8) :
    env.encrypt (env.decrypt data) = data := by
  unfold encrypt decrypt
  cases env.mcp with
  | none => rfl
  | some aes => exact aes.encryption_decryption data

theorem encrypt_of_none {env : Env} (h : env.mcp = none) (data : List UInt8) :
    env.encrypt data = data := by
  rw [encrypt, h]

theorem decrypt_of_none {env : Env} (h : env.mcp = none) (data : List UInt8) :
    env.decrypt data = data := by
  rw [decrypt, h]

@[simp] theorem length_encrypt (env : Env) (data : List UInt8) :
    (env.encrypt data).length = data.length := by
  unfold encrypt
  cases env.mcp with
  | none => rfl
  | some aes => exact aes.length_encryption data

end Env

/-- The operations of `rtk_nand.c`. -/
inductive FlashKind where
  | readOob | readEccPage | writeOob | writeEccPage | eraseBlock
  deriving DecidableEq

/-- An operation that was called. -/
structure FlashOp where
  /-- The operation. -/
  kind : FlashKind
  /-- The argument `chipnr`. -/
  chipnr : ℕ
  /-- The chip that was enabled. -/
  selected : ℕ
  /-- The argument `page`. -/
  page : ℕ
  /-- The return code. -/
  rc : ℤ
  deriving DecidableEq

/-- The variables `read_block`, `read_remap_block` and `read_has_check_bbt`, or those for
writing. `none` is `0xFFFFFFFF`. -/
structure BlockCache where
  /-- The first block of the last call. -/
  block : Option ℕ
  /-- The remap block found last. -/
  remapBlock : Option ℕ
  /-- The table was walked. -/
  hasCheckBbt : Bool
  deriving DecidableEq

/-- The two sets of these variables. -/
inductive CacheSel where
  | read | write
  deriving DecidableEq

/-- The state of the driver. -/
structure Nand where
  /-- The bad block table. -/
  bbt : List BBt
  /-- `this->active_chip`. -/
  activeChip : UInt8
  /-- The enabled chip. -/
  selected : ℕ
  /-- The cached translations. -/
  cache : CacheSel → BlockCache
  /-- `mtd->ecctype` is `MTD_ECC_RTK_HW`. -/
  hwEcc : Bool
  /-- `this->g_databuf`. -/
  databuf : List UInt8
  /-- `this->g_oobbuf`. -/
  oobbuf : List UInt8
  /-- The flash, by chip and page. -/
  flash : ℕ → ℕ → PageContent
  /-- Some copy went beyond its buffer. -/
  overrun : Bool
  /-- The operations so far. -/
  log : List FlashOp

namespace Nand

/-- The driver with the table `bbt` before the first call, on an erased flash. -/
def fresh (g : Geometry) (bbt : List BBt) : Nand :=
  ⟨bbt, 0, 0, fun _ => ⟨none, none, false⟩, false, g.blank.data, g.blank.oob, fun _ _ => g.blank,
    false, []⟩

/-- `this->select_chip(mtd, chip)`. -/
def select (chip : ℤ) (s : Nand) : Nand :=
  { s with selected := selectChip chip }

/-- The table in memory changes. -/
def setBbt (bbt : List BBt) (s : Nand) : Nand :=
  { s with bbt := bbt }

/-- The entry of an operation in the log. -/
def logged (kind : FlashKind) (chipnr page : ℕ) (rc : ℤ) (s : Nand) : Nand :=
  { s with log := s.log ++ [⟨kind, chipnr, s.selected, page, rc⟩] }

/-- A page of the enabled chip gets a new content. -/
def program (page : ℕ) (content : PageContent) (s : Nand) : Nand :=
  { s with
    flash := Function.update s.flash s.selected
      (Function.update (s.flash s.selected) page content) }

end Nand

/-- The driver of a chip without bad blocks. -/
def newChip : Nand :=
  .fresh k9f1g08u0b (spareEntries 1023 51)

/-- `-ERESTARTSYS`. -/
def eRestartSys : ℤ :=
  -512

/-- The return code of `rtk_read_oob`, `rtk_read_ecc_page` and `rtk_erase_block` : failures
in the boot code are not reported. -/
def Geometry.plainRc (g : Geometry) (o : Outcome) (chipnr page : ℕ) : ℤ :=
  match o with
  | .interrupted => eRestartSys
  | .failed => if g.bootArea chipnr page then 0 else -1
  | .ok => 0

/-- The return code of `rtk_write_oob` and `rtk_write_ecc_page`. -/
def Geometry.writeRc (g : Geometry) (o : Outcome) (chipnr page : ℕ) (permitted : Bool) : ℤ :=
  match o with
  | .interrupted => eRestartSys
  | .failed => if g.bootArea chipnr page && !permitted then -2 else -1
  | .ok => if g.bootArea chipnr page && !permitted then -2 else 0

section Operations

variable (env : Env) (g : Geometry)

/-- `rtk_read_ecc_page(mtd, chipnr, page, data_buf, oob_buf)` : the return code and what it
read. A page that cannot be read is not decrypted. -/
def readEccPage (chipnr page : ℕ) (s : Nand) : ℤ × PageContent × Nand :=
  let n := s.log.length
  let rc := g.plainRc (env.outcome n) chipnr page
  let content := if env.outcome n = .ok then s.flash s.selected page else env.noise n page
  (rc, ⟨if rc = 0 then env.decrypt content.data else content.data, content.oob⟩,
    s.logged .readEccPage chipnr page rc)

/-- `rtk_read_ecc_page` into `g_databuf` and `g_oobbuf`. -/
def readEccPageBuf (chipnr page : ℕ) (s : Nand) : ℤ × Nand :=
  let (rc, content, s) := readEccPage env g chipnr page s
  if rc = eRestartSys then (rc, s)
  else (rc, { s with
    databuf := content.data, oobbuf := g.readOobFromPP s.hwEcc content.oob s.oobbuf })

/-- `rtk_read_oob(mtd, chipnr, page, len, oob_buf)`. The data of the page go to
`g_databuf`. -/
def readOob (chipnr page len : ℕ) (s : Nand) : ℤ × PageContent × Nand :=
  let n := s.log.length
  let rc := if env.outcome n ≠ .interrupted ∧ g.oobSize < len then -1
    else g.plainRc (env.outcome n) chipnr page
  let content := if env.outcome n = .ok then s.flash s.selected page else env.noise n page
  let s := s.logged .readOob chipnr page rc
  (rc, content, if rc = eRestartSys ∨ g.oobSize < len then s else
    { s with databuf := content.data })

/-- `rtk_write_oob(mtd, chipnr, page, len, oob_buf)` programs the spare area; the data it
programs are `0xFF`, which leaves them as they are. -/
def writeOob (chipnr page len : ℕ) (oobBuf : List UInt8) (s : Nand) : ℤ × Nand :=
  let n := s.log.length
  let rc := g.writeRc (if env.outcome n = .ok ∧ g.oobSize < len then .failed else env.outcome n)
    chipnr page false
  let s := s.logged .writeOob chipnr page rc
  let s := if rc = eRestartSys then s
    else { s with databuf := replicate g.pageSize 0xFF }
  if rc = 0 then (rc, s.program page ⟨(s.flash s.selected page).data, oobBuf⟩)
  else if rc = -1 ∧ len ≤ g.oobSize then (rc, s.program page (env.noise n page))
  else (rc, s)

/-- `rtk_write_ecc_page(mtd, chipnr, page, data_buf, oob_buf, isBBT)`, where `data_buf` holds
`data`. -/
def writeEccPage (chipnr page : ℕ) (data : List UInt8) (oobBuf : Option (List UInt8))
    (isBBT : Bool) (s : Nand) : ℤ × Nand :=
  let n := s.log.length
  let rc := g.writeRc (env.outcome n) chipnr page (isBBT && decide (page < 2 * g.ppb))
  let s := s.logged .writeEccPage chipnr page rc
  let s := if rc = eRestartSys ∨ oobBuf.isSome then s
    else { s with oobbuf := replicate g.oobSize 0xFF }
  if rc = 0 then (rc, s.program page ⟨env.encrypt data, g.writtenOob page oobBuf⟩)
  else if rc = -1 then (rc, s.program page (env.noise n page))
  else (rc, s)

/-- `rtk_write_ecc_page` from `g_databuf` and `g_oobbuf`. The data in the buffer are encrypted
even if the write is refused. -/
def writeEccPageBuf (chipnr page : ℕ) (isBBT : Bool) (s : Nand) : ℤ × Nand :=
  let (rc, s) := writeEccPage env g chipnr page s.databuf (some s.oobbuf) isBBT s
  (rc, if rc = eRestartSys then s else { s with databuf := env.encrypt s.databuf })

/-- `rtk_erase_block(mtd, chipnr, page)`. -/
def eraseBlock (chipnr page : ℕ) (s : Nand) : ℤ × Nand :=
  let n := s.log.length
  let aligned := page &&& (g.ppb - 1) = 0
  let rc := if env.outcome n ≠ .interrupted ∧ ¬aligned then -1
    else g.plainRc (env.outcome n) chipnr page
  let s := s.logged .eraseBlock chipnr page rc
  if rc = eRestartSys ∨ ¬aligned then (rc, s)
  else
    let content := fun p =>
      if page ≤ p ∧ p < page + g.ppb then
        if env.outcome n = .ok then g.blank else env.noise n p
      else s.flash s.selected p
    (rc, { s with flash := Function.update s.flash s.selected content })

end Operations

end OpenHMR
