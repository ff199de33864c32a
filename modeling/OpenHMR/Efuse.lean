import Mathlib.Data.List.Basic
import Mathlib.Data.Fintype.Pi
import Mathlib.Algebra.GroupWithZero.Nat

/-!
# The efuse of the wireless adapter (`rtl8191su/HAL/rtl8192u/r8192S_Efuse.c`)

The efuse is a memory of 512 bytes, blank (`0xFF`) at first, in which programming clears bits for
ever. It holds a log of packets : a header with the number of a section and with the words that
follow (a bit 0 in the low nibble for each of the four words that is there), and these words. The
map of 16 sections of 4 words is read by replaying the log (`readEFuse`).

`efuse_PgPacketWrite` writes words of a section. It puts them into an old packet of this section
whose data is still blank, as far as this packet has these words, and appends a packet for the
others. It reads back what it has programmed, repeats what has failed, and counts its repetitions in
a static variable.

What the hardware does, and what is on the stack, is `EfuseHw`. The functions that only read are
functions of the memory; the address bits that they leave behind are overwritten by the next read.
-/

namespace OpenHMR

/-- `EFUSE_MAX_SIZE` and `EFUSE_REAL_CONTENT_LEN`. -/
def efuseMaxSize : ℕ :=
  512

/-- `EFUSE_MAX_SIZE - EFUSE_OOB_PROTECT_BYTES`. -/
def efuseLimit : ℕ :=
  efuseMaxSize - 14

/-- `EFUSE_REPEAT_THRESHOLD_`. -/
def efuseRepeatThreshold : ℕ :=
  3

/-! ## Words -/

instance neZeroFour : NeZero 4 := ⟨by decide⟩

/-- The 8 bytes of a section, by words. -/
abbrev PgData :=
  Fin 4 → UInt8 × UInt8

/-- A word in which no bit is cleared. -/
def blankWord : UInt8 × UInt8 :=
  (0xFF, 0xFF)

/-- `BIT0` to `BIT3`. -/
def wordBit (w : Fin 4) : UInt8 :=
  1 <<< UInt8.ofNat w

/-- `!(word_en & BITw)`. -/
def WordEnabled (wordEn : UInt8) (w : Fin 4) : Prop :=
  wordEn &&& wordBit w = 0

instance (wordEn : UInt8) (w : Fin 4) : Decidable (WordEnabled wordEn w) :=
  inferInstanceAs (Decidable (_ = _))

/-- The words of a packet, in their order. -/
def enabledWords (wordEn : UInt8) : List (Fin 4) :=
  (List.finRange 4).filter (WordEnabled wordEn ·)

/-- `efuse_CalculateWordCnts`. -/
def calculateWordCnts (wordEn : UInt8) : ℕ :=
  (enabledWords wordEn).length

/-- `efuse_WordEnableDataRead`. -/
def wordEnableDataRead (wordEn : UInt8) (sourdata targetdata : PgData) : PgData :=
  fun w => if WordEnabled wordEn w then sourdata w else targetdata w

/-- The words that are cleared in `0x0F`, as it is written for each of the four bits. -/
def clearWords (p : Fin 4 → Prop) [DecidablePred p] : UInt8 :=
  (List.finRange 4).foldl (fun en w => if p w then en &&& ~~~wordBit w else en) 0x0F

/-- `match_word_en` : the words that are in both packets. -/
def matchWordEn (target tmp : UInt8) : UInt8 :=
  clearWords fun w => (target &&& wordBit w) ||| (tmp &&& wordBit w) = 0

/-- `tmp_word_en` : the words that are not in the old packet. -/
def restWordEn (target match_ : UInt8) : UInt8 :=
  clearWords fun w => (target &&& wordBit w) ^^^ (match_ &&& wordBit w) ≠ 0

/-- The number of a section in a header. -/
def headerOffset (header : UInt8) : UInt8 :=
  (header >>> 4) &&& 0x0F

/-- The words in a header. -/
def headerWordEn (header : UInt8) : UInt8 :=
  header &&& 0x0F

/-- `pg_header`. -/
def pgHeader (offset wordEn : UInt8) : UInt8 :=
  ((offset <<< 4) &&& 0xF0) ||| wordEn

/-! ## Reading -/

/-- The rounds of `efuse_GetCurrentSize` from the header at `addr` on. -/
def currentSizeFrom (fuse : ℕ → UInt8) : ℕ → ℕ → ℕ
  | 0, addr => addr
  | n + 1, addr =>
    if addr < efuseMaxSize ∧ fuse addr ≠ 0xFF then
      currentSizeFrom fuse n (addr + calculateWordCnts (headerWordEn (fuse addr)) * 2 + 1)
    else addr

/-- `efuse_GetCurrentSize`. Each round advances by one byte at least. -/
def getCurrentSize (fuse : ℕ → UInt8) : ℕ :=
  currentSizeFrom fuse efuseMaxSize 0

/-- All bytes of the packet at `addr` are blank. -/
def DataEmpty (fuse : ℕ → UInt8) (addr cnts : ℕ) : Prop :=
  ∀ i < cnts * 2, fuse (addr + 1 + i) = 0xFF

instance (fuse : ℕ → UInt8) (addr cnts : ℕ) : Decidable (DataEmpty fuse addr cnts) :=
  Nat.decidableBallLT _ _

/-- The rounds of `efuse_PgPacketRead`, with the address that was read last. The bytes of a packet
are in `tmpdata` one after the other, and `efuse_WordEnableDataRead` takes each word from its place
in the section. -/
def pgPacketReadFrom (fuse : ℕ → UInt8) (offset : UInt8) :
    ℕ → ℕ → ℕ → (ℕ → UInt8) → PgData → PgData × ℕ
  | 0, _, last, _, data => (data, last)
  | n + 1, addr, last, tmpdata, data =>
    if efuseMaxSize ≤ addr then (data, last)
    else if fuse addr = 0xFF then (data, addr)
    else
      let wordEn := headerWordEn (fuse addr)
      let cnts := calculateWordCnts wordEn
      let next := addr + cnts * 2 + 1
      if headerOffset (fuse addr) = offset then
        let tmpdata := fun i => if i < cnts * 2 then fuse (addr + 1 + i) else tmpdata i
        let words : PgData := fun w => (tmpdata (2 * w), tmpdata (2 * w + 1))
        if DataEmpty fuse addr cnts then
          pgPacketReadFrom fuse offset n next (addr + cnts * 2) tmpdata data
        else
          pgPacketReadFrom fuse offset n next (addr + cnts * 2) tmpdata
            (wordEnableDataRead wordEn words data)
      else pgPacketReadFrom fuse offset n next addr tmpdata data

/-- `efuse_PgPacketRead`, with the address that was read last. -/
def pgPacketRead (fuse : ℕ → UInt8) (offset : UInt8) : PgData × ℕ :=
  pgPacketReadFrom fuse offset efuseMaxSize 0 0 (fun _ => 0xFF) fun _ => blankWord

/-- What `ReadEFuse` has read : `eFuseWord`, `eFuse_Addr` and `efuse_utilized`. -/
structure EfuseReader where
  word : UInt8 → PgData
  addr : ℕ
  utilized : ℕ

namespace EfuseReader

/-- One byte is read. -/
def advance (r : EfuseReader) : EfuseReader :=
  { r with addr := r.addr + 1, utilized := r.utilized + 1 }

/-- `eFuseWord[offset][w]` is set. -/
def setWord (r : EfuseReader) (offset : UInt8) (w : Fin 4) (v : UInt8 × UInt8) : EfuseReader :=
  { r with word := fun o w' => if o = offset ∧ w' = w then v else r.word o w' }

/-- The words of a packet. The loop is left at the end of the efuse. -/
def readWords (fuse : ℕ → UInt8) (offset : UInt8) : List (Fin 4) → EfuseReader → EfuseReader
  | [], r => r
  | w :: ws, r =>
    let low := fuse r.addr
    let r := (r.setWord offset w (low, 0)).advance
    if efuseMaxSize ≤ r.addr then r
    else
      let r := (r.setWord offset w (low, fuse r.addr)).advance
      if efuseMaxSize ≤ r.addr then r else readWords fuse offset ws r

/-- The rounds of `ReadEFuse`, with the header of the next packet. -/
def readFrom (fuse : ℕ → UInt8) : ℕ → UInt8 → EfuseReader → EfuseReader
  | 0, _, r => r
  | n + 1, header, r =>
    if header ≠ 0xFF ∧ r.addr < efuseMaxSize then
      let r := readWords fuse (headerOffset header) (enabledWords (headerWordEn header)) r
      let header := fuse r.addr
      if header ≠ 0xFF ∧ r.addr < efuseMaxSize then readFrom fuse n header r.advance
      else readFrom fuse n header r
    else r

end EfuseReader

/-- `ReadEFuse`, up to the collection of the map. -/
def readEFuseWords (fuse : ℕ → UInt8) : EfuseReader :=
  let r : EfuseReader := ⟨fun _ _ => blankWord, 0, 0⟩
  let header := fuse 0
  EfuseReader.readFrom fuse (efuseMaxSize + 1) header (if header ≠ 0xFF then r.advance else r)

/-- `efuseTbl`. -/
def efuseTbl (word : UInt8 → PgData) (i : ℕ) : UInt8 :=
  let v := word (UInt8.ofNat (i / 8)) (Fin.ofNat 4 (i % 8 / 2))
  if i % 2 = 0 then v.1 else v.2

/-- `ReadEFuse`, which is `none` if it writes nothing to its buffer. -/
def readEFuse (fuse : ℕ → UInt8) (offset size : ℕ) : Option (List UInt8) :=
  if 128 < offset + size then none
  else some ((List.range size).map fun i => efuseTbl (readEFuseWords fuse).word (offset + i))

/-! ## Programming -/

/-- What the hardware does, and what is on the stack. -/
structure EfuseHw where
  /-- The bits that programming fails to clear, the `n`-th time. -/
  stuck : ℕ → UInt8
  /-- `originaldata` of the `n`-th call of `efuse_PgPacketWrite`, before it is set. -/
  stack : ℕ → PgData

/-- The efuse, and the static variable of `efuse_PgPacketWrite`. -/
structure Efuse where
  fuse : ℕ → UInt8
  /-- Bits 8 and 9 of the address, in `EFUSE_CTRL+2`. -/
  page : ℕ
  /-- The addresses that were programmed, the last one first. -/
  programmed : List ℕ
  repeatTimes : ℕ
  /-- The number of calls of `efuse_PgPacketWrite`. -/
  calls : ℕ

namespace Efuse

/-- The address register after a byte is read. -/
def select (e : Efuse) (addr : ℕ) : Efuse :=
  { e with page := addr / 256 % 4 }

/-- `efuse_OneByteWrite`. The bits 8 and 9 of the address are added to those in the register. -/
def oneByteWrite (hw : EfuseHw) (e : Efuse) (addr : ℕ) (data : UInt8) : Efuse :=
  let page := e.page ||| addr / 256 % 4
  let place := page * 256 + addr % 256
  { e with
    fuse := fun i =>
      if i = place then e.fuse i &&& (data ||| hw.stuck e.programmed.length) else e.fuse i
    page := page
    programmed := place :: e.programmed }

/-- One word of `efuse_WordEnableDataWrite`, with the next address and `badworden`. -/
def wordWrite (hw : EfuseHw) (data : PgData) (r : Efuse × ℕ × UInt8) (w : Fin 4) :
    Efuse × ℕ × UInt8 :=
  let e := (r.1.oneByteWrite hw r.2.1 (data w).1).oneByteWrite hw (r.2.1 + 1) (data w).2
  let bad := if (e.fuse r.2.1, e.fuse (r.2.1 + 1)) ≠ data w then r.2.2 &&& ~~~wordBit w else r.2.2
  (e.select (r.2.1 + 1), r.2.1 + 2, bad)

/-- `efuse_WordEnableDataWrite`, with `badworden`. -/
def wordEnableDataWrite (hw : EfuseHw) (e : Efuse) (addr : ℕ) (wordEn : UInt8) (data : PgData) :
    Efuse × UInt8 :=
  let r := (enabledWords wordEn).foldl (wordWrite hw data) (e, addr, 0x0F)
  (r.1, r.2.2)

/-- `repeat_times++`. -/
def count (e : Efuse) : Efuse :=
  { e with repeatTimes := (e.repeatTimes + 1) % 2 ^ 32 }

end Efuse

/-- The variables of `efuse_PgPacketWrite`. -/
structure PgWrite where
  /-- `efuse_addr`. -/
  addr : ℕ
  /-- `WriteState` is `PG_STATE_DATA`. -/
  dataState : Bool
  /-- `target_pkt.word_en`. -/
  wordEn : UInt8
  /-- `target_word_cnts`. -/
  wordCnts : ℕ
  /-- `originaldata`. -/
  original : PgData

/-- `target_pkt.data`. -/
def targetData (wordEn : UInt8) (data : PgData) : PgData :=
  wordEnableDataRead wordEn data fun _ => blankWord

namespace PgWrite

/-- The variables before the loop. -/
def start (hw : EfuseHw) (wordEn : UInt8) (e : Efuse) : PgWrite :=
  ⟨0, false, wordEn, calculateWordCnts wordEn, hw.stack e.calls⟩

end PgWrite

/-- The rounds of the loop of `efuse_PgPacketWrite`, which is `none` if there are more of them,
those of the calls of itself included. -/
def pgLoop (hw : EfuseHw) : ℕ → UInt8 → PgData → PgWrite → Efuse → Option Efuse
  | 0, _, _, _, _ => none
  | n + 1, offset, target, st, e =>
    -- `efuse_PgPacketWrite` within itself
    let again (offset wordEn : UInt8) (data : PgData) (e : Efuse) : Option Efuse :=
      if efuseLimit ≤ getCurrentSize e.fuse then some e
      else pgLoop hw n offset (targetData wordEn data) (.start hw wordEn e)
        { e with calls := e.calls + 1 }
    -- `repeat_times++`, and the next round if there are not too many
    let retry (st : PgWrite) (e : Efuse) : Option Efuse :=
      if efuseRepeatThreshold < e.count.repeatTimes then some e.count
      else pgLoop hw n offset target st e.count
    if efuseLimit ≤ st.addr then some e
    else if st.dataState then
      let (e, bad) := e.wordEnableDataWrite hw (st.addr + 1) st.wordEn target
      if bad &&& 0x0F = 0x0F then some e
      else
        retry { st with
          addr := st.addr + 2 * st.wordCnts + 1
          dataState := false
          wordEn := bad
          wordCnts := calculateWordCnts bad } e
    else
      let e := e.select st.addr
      let header := e.fuse st.addr
      if header ≠ 0xFF then
        let tmpWordEn := headerWordEn header
        let cnts := calculateWordCnts tmpWordEn
        let next := { st with addr := st.addr + cnts * 2 + 1 }
        if headerOffset header ≠ offset then pgLoop hw n offset target next e
        else if ¬ DataEmpty e.fuse st.addr cnts then
          pgLoop hw n offset target next (e.select (st.addr + cnts * 2))
        else
          let matchEn := matchWordEn st.wordEn tmpWordEn
          if matchEn &&& 0x0F ≠ 0x0F then
            let e := e.select (st.addr + cnts * 2)
            let (e, bad) := e.wordEnableDataWrite hw (st.addr + 1) tmpWordEn target
            -- `originaldata` may not be set here
            let written := if bad &&& 0x0F ≠ 0x0F then again offset bad st.original e else some e
            written.bind fun e =>
              let rest := restWordEn st.wordEn matchEn
              if rest &&& 0x0F ≠ 0x0F then
                retry { st with addr := getCurrentSize e.fuse, wordEn := rest } e
              else some e.count
          else pgLoop hw n offset target next e
      else
        let header := pgHeader offset st.wordEn
        let e := e.oneByteWrite hw st.addr header
        let tmpHeader := e.fuse st.addr
        if tmpHeader = header then pgLoop hw n offset target { st with dataState := true } e
        else if tmpHeader = 0xFF then retry st e
        else
          -- the header that is there instead
          let tmpOffset := headerOffset tmpHeader
          let tmpWordEn := headerWordEn tmpHeader
          let next := st.addr + calculateWordCnts tmpWordEn * 2 + 1
          let (original, last) := pgPacketRead e.fuse tmpOffset
          if original ≠ fun _ => blankWord then
            let (e, bad) := (e.select last).wordEnableDataWrite hw (st.addr + 1) tmpWordEn original
            if bad &&& 0x0F ≠ 0x0F then
              (again tmpOffset bad original e).bind fun e =>
                retry { st with addr := getCurrentSize e.fuse, original := original } e
            else retry { st with addr := next, original := original } e
          else retry { st with addr := next, original := original } e

/-- `efuse_PgPacketWrite`, which is `none` if it takes more than `n` rounds. -/
def pgPacketWrite (hw : EfuseHw) (n : ℕ) (offset wordEn : UInt8) (data : PgData) (e : Efuse) :
    Option (Bool × Efuse) :=
  if efuseLimit ≤ getCurrentSize e.fuse then some (false, e)
  else
    (pgLoop hw n offset (targetData wordEn data) (.start hw wordEn e)
      { e with calls := e.calls + 1 }).map (true, ·)

end OpenHMR
