import Mathlib.Tactic.IntervalCases
import OpenHMR.Memory
import OpenHMR.VenusSfcErase

/-!
# Page writes to the serial flash

`venus_sfc_write_pages` of `venus_sfc.c` writes in five passes : single bytes up to a multiple of 4,
words up to a page, pages, words, and single bytes. The words and pages are moved by the move-data
engine, which reverses the bytes of each word, so the driver reverses them before.

`SfcWrites` says what the operations of a part have to be : programs one behind the other, each
within a page, that write the data into erased flash. A part that follows another continues it
(`SfcWrites.append`), and each pass leaves what the next one needs.
-/

open SerialFlash Circular List Memory Nat

namespace OpenHMR

/-- `MD_PP_DATA_SIZE`. -/
def mdPpDataSize : ℕ :=
  256

/-- `VENUS_SFC_SMALL_PAGE_WRITE_MASK`. -/
def smallPageWriteMask : ℕ :=
  0x3

/-- `x & ~mask`. -/
def clearBits (x mask : ℕ) : ℕ :=
  x - (x &&& mask)

/-! ## Operations -/

/-- What the driver does with the flash controller and the engine. -/
inductive SfcOp where
  | writeEnable
  | writeDisable
  /-- A byte is stored at `dest` with the program opcode. -/
  | store (dest : ℕ) (byte : UInt8)
  /-- The engine moves `data`, which is at `ddr`, to `dest` with the program opcode. -/
  | transfer (ddr dest : ℕ) (data : List UInt8)
  deriving DecidableEq

/-- The engine reverses the bytes of each word. -/
def engineData : List UInt8 → List UInt8
  | b0 :: b1 :: b2 :: b3 :: data => b3 :: b2 :: b1 :: b0 :: engineData data
  | data => data

/-- The command that the flash gets. -/
def SfcOp.command (flashBase : ℕ) : SfcOp → Command
  | .writeEnable => .writeEnable
  | .writeDisable => .writeDisable
  | .store dest byte => .program (flashAddr flashBase dest) [byte]
  | .transfer _ dest data => .program (flashAddr flashBase dest) (engineData data)

/-- The word that the processor loads from four bytes. -/
def loadWord (b0 b1 b2 b3 : UInt8) : UInt32 :=
  b0.toUInt32 ||| b1.toUInt32 <<< 8 ||| b2.toUInt32 <<< 16 ||| b3.toUInt32 <<< 24

/-- The bytes of a word that the processor stores. -/
def storeWord (val : UInt32) : List UInt8 :=
  [val.toUInt8, (val >>> 8).toUInt8, (val >>> 16).toUInt8, (val >>> 24).toUInt8]

/-- The conversion of a word before it is moved. -/
def endianConvert (val : UInt32) : UInt32 :=
  (val >>> 24) ||| ((val >>> 8) &&& (0x0000ff00 : UInt32)) |||
    ((val <<< 8) &&& (0x00ff0000 : UInt32)) ||| (val <<< 24)

/-- The loop that fills `data_buf`. -/
def dataBuf : List UInt8 → List UInt8
  | b0 :: b1 :: b2 :: b3 :: data =>
    storeWord (endianConvert (loadWord b0 b1 b2 b3)) ++ dataBuf data
  | _ => []

theorem storeWord_endianConvert (b0 b1 b2 b3 : UInt8) :
    storeWord (endianConvert (loadWord b0 b1 b2 b3)) = [b3, b2, b1, b0] := by
  unfold storeWord endianConvert loadWord
  simp only [cons.injEq, and_true]
  refine ⟨?_, ?_, ?_, ?_⟩
  -- Bit by bit.
  all_goals
    apply UInt8.eq_of_toBitVec_eq
    apply BitVec.eq_of_getLsbD_eq
    intro i hi
    interval_cases i <;> simp [UInt32.toBitVec_or]

/-- The engine undoes the conversion. -/
theorem engineData_dataBuf : ∀ {data : List UInt8}, 4 ∣ data.length →
    engineData (dataBuf data) = data
  | [], _ => rfl
  | b0 :: b1 :: b2 :: b3 :: data, h => by
    have hrest : 4 ∣ data.length := by
      simp only [length_cons] at h
      omega
    rw [dataBuf, storeWord_endianConvert]
    exact congrArg (fun l => b0 :: b1 :: b2 :: b3 :: l) (engineData_dataBuf hrest)
  | [_], h => absurd h (by simp)
  | [_, _], h => absurd h (by simp)
  | [_, _, _], h => absurd h (by simp)

theorem length_dataBuf : ∀ {data : List UInt8}, 4 ∣ data.length →
    (dataBuf data).length = data.length
  | [], _ => rfl
  | b0 :: b1 :: b2 :: b3 :: data, h => by
    have hrest : 4 ∣ data.length := by
      simp only [length_cons] at h
      omega
    rw [dataBuf, storeWord_endianConvert, length_append, length_dataBuf hrest]
    simp only [length_cons, length_nil]
    omega
  | [_], h => absurd h (by simp)
  | [_, _], h => absurd h (by simp)
  | [_, _, _], h => absurd h (by simp)

/-! ## The parts -/

/-- What a part does, its `*retlen` and its result. -/
structure SfcPart where
  ops : List SfcOp
  retlen : ℕ
  ret : ℤ

/-- The loop of `_sfc_write_bytes`, with `written_count`. -/
def writeBytesLoop (buf : ℕ → UInt8) : ℕ → ℕ → ℕ → ℕ → List SfcOp × ℕ
  | 0, _, _, writtenCount => ([], writtenCount)
  | len + 1, dest, src, writtenCount =>
    let rest := writeBytesLoop buf len ((dest + 1) % 0x100000000) (src + 1) (writtenCount + 1)
    (.writeEnable :: .store dest (buf src) :: rest.1, rest.2)

/-- `_sfc_write_bytes`. -/
def sfcWriteBytes (flashBase : ℕ) (buf : ℕ → UInt8) (toAddr len src : ℕ) : SfcPart :=
  let loop := writeBytesLoop buf len ((flashBase + toAddr) % 0x100000000) src 0
  ⟨loop.1 ++ [.writeDisable], loop.2, 0⟩

/-- The address of `data_buf` in `_sfc_write_small_pages`, whose array is at `trueDataBuf`. -/
def smallDataBuf (trueDataBuf len : ℕ) : ℕ :=
  if len < 128 ∧ trueDataBuf &&& 0x07ffffff ≤ 0x7f then trueDataBuf + mdPpDataSize else trueDataBuf

/-- `_sfc_write_small_pages`. The result is `none` at a `BUG()`. The loop has one round, which
leaves no length. -/
def sfcWriteSmallPages (flashBase trueDataBuf : ℕ) (buf : ℕ → UInt8) (toAddr len src : ℕ) :
    Option SfcPart :=
  if mdPpDataSize ≤ len ∨ len &&& smallPageWriteMask ≠ 0 then none
  else if toAddr &&& smallPageWriteMask ≠ 0 then none
  else if 0 < len then
    some ⟨[.writeEnable, .transfer (smallDataBuf trueDataBuf len)
      ((flashBase + toAddr) % 0x100000000) (dataBuf (read buf src len)), .writeDisable],
      len, 0⟩
  else some ⟨[.writeDisable], 0, 0⟩

/-- The loop of `_sfc_write_pages`, whose array is at `ddr`. It has a round for each whole page. -/
def writePagesLoop (ddr : ℕ) (buf : ℕ → UInt8) : ℕ → ℕ → ℕ → ℕ → List SfcOp × ℕ
  | 0, _, _, writtenCount => ([], writtenCount)
  | pages + 1, dest, src, writtenCount =>
    let rest := writePagesLoop ddr buf pages ((dest + mdPpDataSize) % 0x100000000)
      (src + mdPpDataSize) (writtenCount + mdPpDataSize)
    (.writeEnable :: .transfer ddr dest (dataBuf (read buf src mdPpDataSize)) :: rest.1, rest.2)

/-- `_sfc_write_pages`. -/
def sfcWritePages (flashBase ddr : ℕ) (buf : ℕ → UInt8) (toAddr len src : ℕ) : Option SfcPart :=
  let dest := (flashBase + toAddr) % 0x100000000
  if len < mdPpDataSize then some ⟨[], 0, 0⟩
  else if dest &&& (mdPpDataSize - 1) ≠ 0 then none
  else
    let loop := writePagesLoop ddr buf (len / mdPpDataSize) dest src 0
    some ⟨loop.1 ++ [.writeDisable], loop.2, 0⟩

/-! ## The passes -/

/-- Where a call of `venus_sfc_write_pages` is, and what it has done. -/
structure SfcWrite where
  toAddr : ℕ
  len : ℕ
  src : ℕ
  writtenLen : ℕ
  ops : List SfcOp

/-- How a call ends. -/
inductive SfcExit where
  | bug
  /-- It returns `rc`, with `*retlen`, if that was set. -/
  | ret (rc : ℤ) (retlen : Option ℕ) (ops : List SfcOp)

/-- After a part. -/
def SfcWrite.next (s : SfcWrite) (lengthToWrite : ℕ) : Option SfcPart → Except SfcExit SfcWrite
  | none => .error .bug
  | some part =>
    if part.ret ≠ 0 ∨ part.retlen ≠ lengthToWrite then
      .error (.ret part.ret (some part.retlen) (s.ops ++ part.ops))
    else
      .ok ⟨s.toAddr + part.retlen, s.len - part.retlen, s.src + part.retlen,
        s.writtenLen + part.retlen, s.ops ++ part.ops⟩

section Passes

variable (flashBase trueDataBuf ddr : ℕ) (buf : ℕ → UInt8)

/-- 1st pass. -/
def sfcPass1 (s : SfcWrite) : Except SfcExit SfcWrite :=
  if 0 < s.len ∧ s.toAddr &&& smallPageWriteMask ≠ 0 then
    let lengthToWrite := if smallPageWriteMask < s.len then
      smallPageWriteMask + 1 - (s.toAddr &&& smallPageWriteMask) else s.len
    s.next lengthToWrite (some (sfcWriteBytes flashBase buf s.toAddr lengthToWrite s.src))
  else .ok s

/-- The distance to the next page. -/
def toNextPage (toAddr : ℕ) : ℕ :=
  clearBits (toAddr + mdPpDataSize - 1) (mdPpDataSize - 1) - toAddr

/-- 2nd pass. -/
def sfcPass2 (s : SfcWrite) : Except SfcExit SfcWrite :=
  if smallPageWriteMask < s.len ∧ smallPageWriteMask < toNextPage s.toAddr then
    let lengthToWrite := if s.len < toNextPage s.toAddr then s.len else toNextPage s.toAddr
    let lengthToWrite := if lengthToWrite &&& smallPageWriteMask ≠ 0 then
      clearBits lengthToWrite smallPageWriteMask else lengthToWrite
    s.next lengthToWrite
      (sfcWriteSmallPages flashBase trueDataBuf buf s.toAddr lengthToWrite s.src)
  else .ok s

/-- 3rd pass. -/
def sfcPass3 (s : SfcWrite) : Except SfcExit SfcWrite :=
  if mdPpDataSize ≤ s.len then
    let lengthToWrite := s.len / mdPpDataSize * mdPpDataSize
    s.next lengthToWrite (sfcWritePages flashBase ddr buf s.toAddr lengthToWrite s.src)
  else .ok s

/-- 4th pass. -/
def sfcPass4 (s : SfcWrite) : Except SfcExit SfcWrite :=
  if 0 < s.len ∧ clearBits s.len smallPageWriteMask ≠ 0 then
    let lengthToWrite := clearBits s.len smallPageWriteMask
    s.next lengthToWrite
      (sfcWriteSmallPages flashBase trueDataBuf buf s.toAddr lengthToWrite s.src)
  else .ok s

/-- 5th pass. -/
def sfcPass5 (s : SfcWrite) : Except SfcExit SfcWrite :=
  if 0 < s.len then
    s.next s.len (some (sfcWriteBytes flashBase buf s.toAddr s.len s.src))
  else .ok s

/-- `venus_sfc_write_pages`. `interrupted` says that `down_interruptible` fails. -/
def venusSfcWritePages (interrupted : Bool) (toAddr len src : ℕ) : SfcExit :=
  if interrupted then .ret (-22) none []
  else
    let passes := do
      let s ← sfcPass1 flashBase buf ⟨toAddr, len, src, 0, []⟩
      let s ← sfcPass2 flashBase trueDataBuf buf s
      let s ← sfcPass3 flashBase ddr buf s
      let s ← sfcPass4 flashBase trueDataBuf buf s
      sfcPass5 flashBase buf s
    match passes with
    | .error e => e
    | .ok s => .ret 0 (some s.writtenLen) s.ops

end Passes

/-! ## What the operations of a part have to be -/

/-- The programs, with their addresses in the flash. -/
def programs (flashBase : ℕ) (ops : List SfcOp) : List (ℕ × List UInt8) :=
  ops.filterMap fun op =>
    match op.command flashBase with
    | .program addr data => some (addr, data)
    | _ => none

/-- The programs are one behind the other, from `addr` on, and none leaves its page. -/
def Tiles : ℕ → List (ℕ × List UInt8) → Prop
  | _, [] => True
  | addr, (a, data) :: rest =>
    a = addr % 0x100000000 ∧ data ≠ [] ∧ a % mdPpDataSize + data.length ≤ mdPpDataSize ∧
      Tiles (addr + data.length) rest

/-- The operations write `data` from `addr` on. -/
structure SfcWrites (flashBase addr : ℕ) (ops : List SfcOp) (data : List UInt8) : Prop where
  tiles : Tiles addr (programs flashBase ops)
  data_eq : ((programs flashBase ops).map Prod.snd).flatten = data
  aligned : ∀ ddr dest d, .transfer ddr dest d ∈ ops →
    4 ∣ flashAddr flashBase dest ∧ 4 ∣ d.length
  written : ∀ (sector : ℕ) (f : Flash),
    (∀ k < data.length, f.mem (place 0x100000000 addr k) = 0xff) →
      Written 0x100000000 addr data f.mem
        (run sector mdPpDataSize f (ops.map (SfcOp.command flashBase))).mem

theorem Tiles.append : ∀ {addr : ℕ} {ps ps' : List (ℕ × List UInt8)}, Tiles addr ps →
    Tiles (addr + (ps.map Prod.snd).flatten.length) ps' → Tiles addr (ps ++ ps')
  | _, [], _, _, h' => h'
  | addr, (a, data) :: ps, ps', ⟨haddr, hne, hfit, h⟩, h' => by
    refine ⟨haddr, hne, hfit, Tiles.append h ?_⟩
    rw [map_cons, flatten_cons, length_append, ← add_assoc] at h'
    exact h'

namespace SfcWrites

variable {flashBase addr : ℕ} {ops ops' : List SfcOp} {data data' : List UInt8}

theorem nil (flashBase addr : ℕ) : SfcWrites flashBase addr [] [] :=
  ⟨trivial, rfl, fun _ _ _ h => absurd h not_mem_nil, fun _ _ _ => .nil _ _ _⟩

/-- One part behind another. -/
theorem append (h : SfcWrites flashBase addr ops data)
    (h' : SfcWrites flashBase (addr + data.length) ops' data')
    (hlen : data.length + data'.length ≤ 0x100000000) :
    SfcWrites flashBase addr (ops ++ ops') (data ++ data') := by
  have hprograms : programs flashBase (ops ++ ops') =
      programs flashBase ops ++ programs flashBase ops' := filterMap_append
  refine ⟨?_, ?_, fun ddr dest d hm => ?_, fun sector f hones => ?_⟩
  · rw [hprograms]
    refine h.tiles.append ?_
    rw [h.data_eq]
    exact h'.tiles
  · rw [hprograms, map_append, flatten_append, h.data_eq, h'.data_eq]
  · rcases mem_append.1 hm with hm | hm
    · exact h.aligned ddr dest d hm
    · exact h'.aligned ddr dest d hm
  · rw [map_append, run_append]
    rw [length_append] at hones
    have hfirst := h.written sector f fun k hk => hones k (by omega)
    refine hfirst.append (h'.written sector _ fun k hk => ?_) hlen
    rw [hfirst.behind (by omega)]
    have hplace : place 0x100000000 (addr + data.length) k =
        place 0x100000000 addr (data.length + k) := by
      rw [place, place, add_assoc]
    rw [hplace]
    exact hones _ (by omega)

theorem writeDisable (h : SfcWrites flashBase addr ops data) (hlen : data.length ≤ 0x100000000) :
    SfcWrites flashBase addr (ops ++ [.writeDisable]) data := by
  have hlast : SfcWrites flashBase (addr + data.length) [.writeDisable] [] :=
    ⟨trivial, rfl, fun ddr dest d hm => absurd hm (by simp), fun _ _ _ => .nil _ _ _⟩
  have := h.append hlast (by simpa using hlen)
  rwa [append_nil] at this

/-- A program within a page. -/
theorem program {op : SfcOp}
    (hop : op.command flashBase = .program (addr % 0x100000000) data) (hne : data ≠ [])
    (hfit : addr % mdPpDataSize + data.length ≤ mdPpDataSize)
    (haligned : ∀ ddr dest d, op = .transfer ddr dest d →
      4 ∣ flashAddr flashBase dest ∧ 4 ∣ d.length) :
    SfcWrites flashBase addr [.writeEnable, op] data := by
  have hprograms : programs flashBase [.writeEnable, op] = [(addr % 0x100000000, data)] := by
    simp only [programs, filterMap_cons, hop]
    rfl
  refine ⟨?_, ?_, fun ddr dest d hm => ?_, fun sector f hones => ?_⟩
  · rw [hprograms]
    refine ⟨rfl, hne, ?_, trivial⟩
    rw [mod_mod_of_dvd addr (by decide : mdPpDataSize ∣ 0x100000000)]
    exact hfit
  · rw [hprograms]
    simp
  · refine haligned ddr dest d ?_
    have hop : .transfer ddr dest d = op := by simpa using hm
    exact hop.symm
  · rw [map_cons, map_cons, hop]
    exact written_program (by decide) (by decide) hfit hones sector

end SfcWrites

/-! ## The parts write -/

section Parts

variable {flashBase : ℕ} (hbase : flashBase < 0x100000000) (buf : ℕ → UInt8)

theorem dest_add (flashBase toAddr n : ℕ) :
    ((flashBase + toAddr) % 0x100000000 + n) % 0x100000000 =
      (flashBase + (toAddr + n)) % 0x100000000 := by
  omega

include hbase

/-- The loop over single bytes. -/
theorem writeBytesLoop_writes : ∀ (len toAddr src count : ℕ), len ≤ 0x100000000 →
    SfcWrites flashBase toAddr
        (writeBytesLoop buf len ((flashBase + toAddr) % 0x100000000) src count).1
        (read buf src len) ∧
      (writeBytesLoop buf len ((flashBase + toAddr) % 0x100000000) src count).2 = count + len
  | 0, toAddr, _, _, _ => ⟨.nil flashBase toAddr, rfl⟩
  | len + 1, toAddr, src, n, hlen => by
    obtain ⟨hrest, hcount⟩ := writeBytesLoop_writes len (toAddr + 1) (src + 1) (n + 1) (by omega)
    have hfirst : SfcWrites flashBase toAddr
        [.writeEnable, .store ((flashBase + toAddr) % 0x100000000) (buf src)] [buf src] := by
      refine .program ?_ (by simp) ?_ fun ddr dest d h => absurd h (by simp)
      · rw [SfcOp.command, flashAddr_base hbase]
      · exact succ_le_of_lt (mod_lt _ (by decide))
    have hread : read buf src (len + 1) = [buf src] ++ read buf (src + 1) len := by
      rw [add_comm, read_add]
      rfl
    simp only [writeBytesLoop]
    rw [dest_add, hread]
    refine ⟨hfirst.append hrest ?_, hcount.trans (by omega)⟩
    rw [length_read, length_singleton]
    omega

/-- `_sfc_write_bytes` writes. -/
theorem sfcWriteBytes_writes {len : ℕ} (hlen : len ≤ 0x100000000) (toAddr src : ℕ) :
    ∃ ops, sfcWriteBytes flashBase buf toAddr len src = ⟨ops, len, 0⟩ ∧
      SfcWrites flashBase toAddr ops (read buf src len) := by
  obtain ⟨hwrites, hcount⟩ := writeBytesLoop_writes hbase buf len toAddr src 0 hlen
  refine ⟨_, ?_, hwrites.writeDisable (by rw [length_read]; exact hlen)⟩
  rw [sfcWriteBytes, hcount, zero_add]

/-- A transfer of words within a page. -/
theorem transfer_writes {len toAddr : ℕ} (hpos : 0 < len) (hlen : 4 ∣ len) (hto : 4 ∣ toAddr)
    (hfit : toAddr % mdPpDataSize + len ≤ mdPpDataSize) (ddr src : ℕ) :
    SfcWrites flashBase toAddr [.writeEnable, .transfer ddr ((flashBase + toAddr) % 0x100000000)
      (dataBuf (read buf src len))] (read buf src len) := by
  have hwords : 4 ∣ (read buf src len).length := by
    rw [length_read]
    exact hlen
  refine .program ?_ ?_ ?_ ?_
  · rw [SfcOp.command, flashAddr_base hbase, engineData_dataBuf hwords]
  · intro h
    have := congrArg length h
    rw [length_read, length_nil] at this
    omega
  · rw [length_read]
    exact hfit
  · rintro ddr' dest d heq
    obtain ⟨-, rfl, rfl⟩ := SfcOp.transfer.inj heq
    rw [flashAddr_base hbase, length_dataBuf hwords]
    exact ⟨(dvd_mod_iff (by decide)).2 hto, hwords⟩

/-- `_sfc_write_small_pages` writes words within a page. -/
theorem sfcWriteSmallPages_writes {len toAddr : ℕ} (hpos : 0 < len) (hlt : len < mdPpDataSize)
    (hlen : 4 ∣ len) (hto : 4 ∣ toAddr) (hfit : toAddr % mdPpDataSize + len ≤ mdPpDataSize)
    (trueDataBuf src : ℕ) :
    ∃ ops, sfcWriteSmallPages flashBase trueDataBuf buf toAddr len src = some ⟨ops, len, 0⟩ ∧
      SfcWrites flashBase toAddr ops (read buf src len) := by
  have hand {n : ℕ} (hn : 4 ∣ n) : n &&& smallPageWriteMask = 0 := by
    rw [smallPageWriteMask, and_two_pow_sub_one_eq_mod n 2]
    omega
  have hwrites := transfer_writes hbase buf hpos hlen hto hfit (smallDataBuf trueDataBuf len) src
  have hdone := hwrites.writeDisable (by
    rw [length_read]
    unfold mdPpDataSize at hlt
    omega)
  refine ⟨_, ?_, hdone⟩
  rw [sfcWriteSmallPages, if_neg (by rw [hand hlen]; omega), if_neg (by rw [hand hto]; omega),
    if_pos hpos]
  rfl

/-- The loop over whole pages. -/
theorem writePagesLoop_writes (ddr pages toAddr src count : ℕ)
    (hlen : pages * mdPpDataSize ≤ 0x100000000) (hto : mdPpDataSize ∣ toAddr) :
    SfcWrites flashBase toAddr
        (writePagesLoop ddr buf pages ((flashBase + toAddr) % 0x100000000) src count).1
        (read buf src (pages * mdPpDataSize)) ∧
      (writePagesLoop ddr buf pages ((flashBase + toAddr) % 0x100000000) src count).2 =
        count + pages * mdPpDataSize := by
  induction pages generalizing toAddr src count with
  | zero =>
    rw [zero_mul]
    exact ⟨.nil flashBase toAddr, rfl⟩
  | succ pages ih =>
    rw [add_one_mul] at hlen
    obtain ⟨hrest, hcount⟩ := ih (toAddr + mdPpDataSize) (src + mdPpDataSize)
      (count + mdPpDataSize) (by omega) (Nat.dvd_add hto (Nat.dvd_refl _))
    have hfirst := transfer_writes hbase buf (by decide : 0 < mdPpDataSize) (by decide)
      (dvd_trans (by decide) hto) (by rw [mod_eq_zero_of_dvd hto]; omega) ddr src
    have hread : read buf src ((pages + 1) * mdPpDataSize) =
        read buf src mdPpDataSize ++
          read buf (src + mdPpDataSize) (pages * mdPpDataSize) := by
      rw [Nat.add_one_mul, add_comm, read_add]
    simp only [writePagesLoop]
    rw [dest_add, hread]
    refine ⟨hfirst.append ?_ ?_, hcount.trans ?_⟩
    · rw [length_read]
      exact hrest
    · rw [length_read, length_read]
      omega
    · rw [Nat.add_one_mul]
      omega

/-- `_sfc_write_pages` writes whole pages. -/
theorem sfcWritePages_writes (hpage : mdPpDataSize ∣ flashBase) {pages toAddr : ℕ}
    (hpos : 0 < pages) (hlen : pages * mdPpDataSize ≤ 0x100000000) (hto : mdPpDataSize ∣ toAddr)
    (ddr src : ℕ) :
    ∃ ops, sfcWritePages flashBase ddr buf toAddr (pages * mdPpDataSize) src =
        some ⟨ops, pages * mdPpDataSize, 0⟩ ∧
      SfcWrites flashBase toAddr ops (read buf src (pages * mdPpDataSize)) := by
  obtain ⟨hwrites, hcount⟩ := writePagesLoop_writes hbase buf ddr pages toAddr src 0 hlen hto
  have hdest : (flashBase + toAddr) % 0x100000000 &&& (mdPpDataSize - 1) = 0 := by
    have hdvd : mdPpDataSize ∣ (flashBase + toAddr) % 0x100000000 :=
      (dvd_mod_iff (by decide)).2 (Nat.dvd_add hpage hto)
    rw [show mdPpDataSize - 1 = 2 ^ 8 - 1 from rfl, and_two_pow_sub_one_eq_mod]
    exact mod_eq_zero_of_dvd hdvd
  have hle : mdPpDataSize ≤ pages * mdPpDataSize := Nat.le_mul_of_pos_left _ hpos
  refine ⟨_, ?_, hwrites.writeDisable (by rw [length_read]; exact hlen)⟩
  simp only [sfcWritePages]
  rw [if_neg (not_lt.2 hle), if_neg (not_not.2 hdest),
    Nat.mul_div_cancel pages (by decide : 0 < mdPpDataSize), hcount, zero_add]

end Parts

/-! ## The passes write -/

/-- The invariant of a call with the arguments `toAddr`, `len` and `src`. -/
structure SfcWrite.Inv (flashBase : ℕ) (buf : ℕ → UInt8) (toAddr len src : ℕ) (s : SfcWrite) :
    Prop where
  toAddr_eq : s.toAddr = toAddr + s.writtenLen
  src_eq : s.src = src + s.writtenLen
  len_eq : s.writtenLen + s.len = len
  writes : SfcWrites flashBase toAddr s.ops (read buf src s.writtenLen)

section Passes

variable {flashBase : ℕ} {buf : ℕ → UInt8} {toAddr len src : ℕ} {s : SfcWrite}

theorem and_smallPageWriteMask (n : ℕ) : n &&& smallPageWriteMask = n % 4 :=
  and_two_pow_sub_one_eq_mod n 2

theorem clearBits_smallPageWriteMask (n : ℕ) : clearBits n smallPageWriteMask = n - n % 4 := by
  rw [clearBits, and_smallPageWriteMask]

theorem toNextPage_eq (n : ℕ) : toNextPage n = (256 - n % 256) % 256 := by
  have hand (a : ℕ) : a &&& 255 = a % 256 := and_two_pow_sub_one_eq_mod a 8
  simp only [toNextPage, clearBits, mdPpDataSize, reduceSub, hand]
  omega

/-- A part that writes is followed by the rest of the call. -/
theorem SfcWrite.Inv.next (h : s.Inv flashBase buf toAddr len src) (hlen : len < 0x100000000)
    {n : ℕ} (hn : n ≤ s.len) {ops : List SfcOp}
    (hops : SfcWrites flashBase s.toAddr ops (read buf s.src n)) :
    ∃ s', s.next n (some ⟨ops, n, 0⟩) = .ok s' ∧ s'.Inv flashBase buf toAddr len src ∧
      s'.toAddr = s.toAddr + n ∧ s'.len = s.len - n := by
  have hto := h.toAddr_eq
  have hsrc := h.src_eq
  have hsum := h.len_eq
  refine ⟨_, if_neg (by simp), ⟨?_, ?_, ?_, ?_⟩, rfl, rfl⟩
  · simp only []
    omega
  · simp only []
    omega
  · simp only []
    omega
  · simp only []
    rw [read_add]
    rw [hto, hsrc] at hops
    refine h.writes.append ?_ ?_
    · rw [length_read]
      exact hops
    · rw [length_read, length_read]
      omega

variable (hbase : flashBase < 0x100000000) (hlen : len < 0x100000000)
  (h : s.Inv flashBase buf toAddr len src)

include hbase hlen h

/-- The 1st pass leaves nothing, or a multiple of 4. -/
theorem sfcPass1_writes :
    ∃ s', sfcPass1 flashBase buf s = .ok s' ∧ s'.Inv flashBase buf toAddr len src ∧
      (s'.len = 0 ∨ 4 ∣ s'.toAddr) := by
  have hsum := h.len_eq
  unfold sfcPass1
  rw [and_smallPageWriteMask]
  split_ifs with hc hlong
  · obtain ⟨ops, hpart, hops⟩ := sfcWriteBytes_writes hbase buf
      (by unfold smallPageWriteMask; omega : smallPageWriteMask + 1 - s.toAddr % 4 ≤ 0x100000000)
      s.toAddr s.src
    obtain ⟨s', hnext, hinv, hto, -⟩ := h.next hlen (by omega) hops
    refine ⟨s', ?_, hinv, .inr ?_⟩
    · simp only []
      rw [hpart, hnext]
    · unfold smallPageWriteMask at hto
      omega
  · obtain ⟨ops, hpart, hops⟩ := sfcWriteBytes_writes hbase buf (by omega : s.len ≤ 0x100000000)
      s.toAddr s.src
    obtain ⟨s', hnext, hinv, -, hrest⟩ := h.next hlen (le_refl _) hops
    refine ⟨s', ?_, hinv, .inl (by omega)⟩
    simp only []
    rw [hpart, hnext]
  · exact ⟨s, rfl, h, by omega⟩

/-- The 2nd pass leaves less than a word, or a page. -/
theorem sfcPass2_writes (trueDataBuf : ℕ) (hto : s.len = 0 ∨ 4 ∣ s.toAddr) :
    ∃ s', sfcPass2 flashBase trueDataBuf buf s = .ok s' ∧ s'.Inv flashBase buf toAddr len src ∧
      (s'.len < 4 ∨ mdPpDataSize ∣ s'.toAddr) := by
  have hsum := h.len_eq
  have hpage := toNextPage_eq s.toAddr
  unfold sfcPass2
  by_cases hc : smallPageWriteMask < s.len ∧ smallPageWriteMask < toNextPage s.toAddr
  · rw [if_pos hc]
    simp only [and_smallPageWriteMask, clearBits_smallPageWriteMask]
    unfold smallPageWriteMask at hc
    generalize hn : (if (if s.len < toNextPage s.toAddr then s.len else toNextPage s.toAddr) % 4 ≠ 0
      then (if s.len < toNextPage s.toAddr then s.len else toNextPage s.toAddr) -
        (if s.len < toNextPage s.toAddr then s.len else toNextPage s.toAddr) % 4
      else if s.len < toNextPage s.toAddr then s.len else toNextPage s.toAddr) = n
    have hfacts : 0 < n ∧ n ≤ s.len ∧ 4 ∣ n ∧ n ≤ toNextPage s.toAddr ∧
        (s.len - n < 4 ∨ n = toNextPage s.toAddr) := by
      split_ifs at hn
      all_goals omega
    obtain ⟨hpos, hle, hfour, hnext, hrest⟩ := hfacts
    obtain ⟨ops, hpart, hops⟩ := sfcWriteSmallPages_writes hbase buf hpos
      (by unfold mdPpDataSize; omega) hfour (by omega : 4 ∣ s.toAddr)
      (by unfold mdPpDataSize; omega) trueDataBuf s.src
    obtain ⟨s', hok, hinv, hto', hlen'⟩ := h.next hlen hle hops
    refine ⟨s', ?_, hinv, ?_⟩
    · rw [hpart, hok]
    · unfold mdPpDataSize
      omega
  · rw [if_neg hc]
    refine ⟨s, rfl, h, ?_⟩
    unfold smallPageWriteMask at hc
    unfold mdPpDataSize
    omega

/-- The 3rd pass leaves less than a page. -/
theorem sfcPass3_writes (hpage : mdPpDataSize ∣ flashBase) (ddr : ℕ)
    (hto : s.len < 4 ∨ mdPpDataSize ∣ s.toAddr) :
    ∃ s', sfcPass3 flashBase ddr buf s = .ok s' ∧ s'.Inv flashBase buf toAddr len src ∧
      s'.len < mdPpDataSize ∧ (s'.len < 4 ∨ mdPpDataSize ∣ s'.toAddr) := by
  have hsum := h.len_eq
  unfold sfcPass3
  split_ifs with hc
  · have hdiv : s.len / mdPpDataSize * mdPpDataSize ≤ s.len := div_mul_le_self _ _
    have hto' : mdPpDataSize ∣ s.toAddr := hto.resolve_left (by unfold mdPpDataSize at hc; omega)
    obtain ⟨ops, hpart, hops⟩ := sfcWritePages_writes hbase buf hpage
      (div_pos hc (by decide)) (by omega) hto' ddr s.src
    obtain ⟨s', hnext, hinv, hto'', hrest⟩ := h.next hlen hdiv hops
    refine ⟨s', ?_, hinv, ?_, .inr ?_⟩
    · simp only []
      rw [hpart, hnext]
    · rw [hrest]
      unfold mdPpDataSize
      omega
    · rw [hto'']
      exact Nat.dvd_add hto' (Nat.dvd_mul_left _ _)
  · exact ⟨s, rfl, h, lt_of_not_ge hc, hto⟩

/-- The 4th pass leaves less than a word. -/
theorem sfcPass4_writes (trueDataBuf : ℕ) (hsmall : s.len < mdPpDataSize)
    (hto : s.len < 4 ∨ mdPpDataSize ∣ s.toAddr) :
    ∃ s', sfcPass4 flashBase trueDataBuf buf s = .ok s' ∧ s'.Inv flashBase buf toAddr len src ∧
      s'.len < 4 := by
  unfold sfcPass4
  rw [clearBits_smallPageWriteMask]
  unfold mdPpDataSize at hsmall hto
  split_ifs with hc
  · obtain ⟨ops, hpart, hops⟩ := sfcWriteSmallPages_writes hbase buf
      (by omega : 0 < s.len - s.len % 4) (by unfold mdPpDataSize; omega) (by omega)
      (by omega : 4 ∣ s.toAddr) (by unfold mdPpDataSize; omega) trueDataBuf s.src
    obtain ⟨s', hnext, hinv, -, hrest⟩ := h.next hlen (by omega) hops
    refine ⟨s', ?_, hinv, by omega⟩
    simp only []
    rw [hpart, hnext]
  · exact ⟨s, rfl, h, by omega⟩

/-- The 5th pass leaves nothing. -/
theorem sfcPass5_writes :
    ∃ s', sfcPass5 flashBase buf s = .ok s' ∧ s'.Inv flashBase buf toAddr len src ∧
      s'.len = 0 := by
  have hsum := h.len_eq
  unfold sfcPass5
  split_ifs with hc
  · obtain ⟨ops, hpart, hops⟩ := sfcWriteBytes_writes hbase buf (by omega : s.len ≤ 0x100000000)
      s.toAddr s.src
    obtain ⟨s', hnext, hinv, -, hrest⟩ := h.next hlen (le_refl _) hops
    refine ⟨s', ?_, hinv, by omega⟩
    rw [hpart, hnext]
  · exact ⟨s, rfl, h, by omega⟩

end Passes

/-- `venus_sfc_write_pages` returns 0 and sets `*retlen` to `len`, without a `BUG()`, and its
operations write the `len` bytes at `src` from `toAddr` on. -/
theorem venusSfcWritePages_writes {flashBase : ℕ} (hbase : flashBase < 0x100000000)
    (hpage : mdPpDataSize ∣ flashBase) (trueDataBuf ddr : ℕ) (buf : ℕ → UInt8) (toAddr src : ℕ)
    {len : ℕ} (hlen : len < 0x100000000) :
    ∃ ops, venusSfcWritePages flashBase trueDataBuf ddr buf false toAddr len src =
        .ret 0 (some len) ops ∧
      SfcWrites flashBase toAddr ops (read buf src len) := by
  have hstart : SfcWrite.Inv flashBase buf toAddr len src ⟨toAddr, len, src, 0, []⟩ :=
    ⟨rfl, rfl, zero_add _, .nil flashBase toAddr⟩
  obtain ⟨s1, h1, hinv1, hto1⟩ := sfcPass1_writes hbase hlen hstart
  obtain ⟨s2, h2, hinv2, hto2⟩ := sfcPass2_writes hbase hlen hinv1 trueDataBuf hto1
  obtain ⟨s3, h3, hinv3, hlen3, hto3⟩ := sfcPass3_writes hbase hlen hinv2 hpage ddr hto2
  obtain ⟨s4, h4, hinv4, hlen4⟩ := sfcPass4_writes hbase hlen hinv3 trueDataBuf hlen3 hto3
  obtain ⟨s5, h5, hinv5, hlen5⟩ := sfcPass5_writes hbase hlen hinv4
  have hwritten : s5.writtenLen = len := by
    have := hinv5.len_eq
    omega
  refine ⟨s5.ops, ?_, hwritten ▸ hinv5.writes⟩
  rw [venusSfcWritePages, if_neg Bool.false_ne_true]
  simp only [h1, h2, h3, h4, h5, bind, Except.bind, hwritten]

/-- 519 bytes from the address `0x3fd` on : three bytes, two pages and four bytes. -/
theorem venusSfcWritePages_writes_unaligned :
    0xbfb00000 < 0x100000000 ∧ mdPpDataSize ∣ 0xbfb00000 ∧ 0x207 < 0x100000000 ∧
      ∃ ops, venusSfcWritePages 0xbfb00000 0x81000000 0x81000000 (fun i => .ofNat i) false 0x3fd
          0x207 0 = .ret 0 (some 0x207) ops ∧
        SfcWrites 0xbfb00000 0x3fd ops (read (fun i => .ofNat i) 0 0x207) :=
  ⟨by decide, by decide, by decide,
    venusSfcWritePages_writes (by decide) (by decide) _ _ _ _ _ (by decide)⟩

end OpenHMR
