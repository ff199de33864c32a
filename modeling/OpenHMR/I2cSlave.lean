import OpenHMR.Memory
import OpenHMR.Runs

/-!
# The register file of the I2C slave

The slave has 32 registers of up to 8 bytes. A master writes a register by a sub-address and the
bytes of the register. The RX interrupt reads the bytes into `RecvDataBuf`, the sub-address
included, and copies those behind it to the register. The number of bytes that are copied is
counted with the sub-address. So a write that is shorter than its register also copies the next
byte of the buffer, which was received in an earlier write.

`i2cSlave_iff` : along a sequence of writes, each changes exactly the bytes that were received, if
and only if the byte that is copied too is one that the register holds anyway (`Harmless`).
-/

open Runs List Memory

namespace OpenHMR

open Nat

/-- `MAX_REGISTER`. -/
def i2cMaxRegister : ℕ :=
  32

/-- `RegProperty`. -/
structure RegProperty where
  /-- 0 for reading and writing, 1 for reading only, 2 for writing only. -/
  rdFlag : UInt8
  width : UInt8
  /-- The place of the register, from `pRegister` on. -/
  pAddr : ℕ

/-- `RegSize`, an unsigned character. -/
def RegProperty.regSize (p : RegProperty) : ℕ :=
  1 <<< p.width.toNat % 256

/-- A master may write the register. -/
def RegProperty.Writable (p : RegProperty) : Prop :=
  p.rdFlag = 0 ∨ p.rdFlag = 2

instance (p : RegProperty) : Decidable p.Writable :=
  inferInstanceAs (Decidable (_ ∨ _))

/-- The state of the driver. -/
structure I2cSlave where
  regPro : ℕ → RegProperty
  /-- The memory at `pRegister`. -/
  reg : ℕ → UInt8
  recvDataBuf : ℕ → UInt8

/-! ## The RX interrupt -/

/-- The loop that reads the FIFO until it is empty. The lists are what it holds each time that
`IC_RXFLR` is read. -/
def readFifo : List (List UInt8) → ℕ → (ℕ → UInt8) → ℕ × (ℕ → UInt8)
  | [], index, buf => (index, buf)
  | [] :: _, index, buf => (index, buf)
  | (x :: l) :: fifo, index, buf =>
    readFifo fifo (index + (x :: l).length) (write buf index (x :: l))

/-- The loop that copies to the register, with `k` rounds at most left. -/
def copyReg (buf : ℕ → UInt8) (pAddr index : ℕ) : ℕ → ℕ → (ℕ → UInt8) → ℕ → UInt8
  | 0, _, reg => reg
  | k + 1, i, reg =>
    if i < index then copyReg buf pAddr index k (i + 1)
      (Function.update reg (pAddr + i) (buf (i + 1)))
    else reg

/-- The branch `RX_FULL_BIT` of `i2cslave_venus_handler`. -/
def I2cSlave.rxFull (s : I2cSlave) (fifo : List (List UInt8)) : I2cSlave :=
  let (index, buf) := readFifo fifo 0 s.recvDataBuf
  let s := { s with recvDataBuf := buf }
  let p := s.regPro (buf 0).toNat
  if p.rdFlag ≠ 0 ∧ p.rdFlag ≠ 2 then s
  else if 8 < p.regSize then s
  else { s with reg := copyReg buf p.pAddr index p.regSize 0 s.reg }

/-! ## What a write should do -/

/-- A write by a master, which one interrupt receives whole. -/
structure MasterWrite where
  fifo : List (List UInt8)
  subaddr : UInt8
  data : List UInt8
  received : fifo.flatten = subaddr :: data
  fifo_ne : ∀ l ∈ fifo, l ≠ []
  subaddr_lt : subaddr.toNat < i2cMaxRegister
  length_le : data.length + 1 ≤ 16

/-- The registers have 1, 2, 4 or 8 bytes, and 8 bytes are reserved for each. -/
structure I2cSlave.Configured (s : I2cSlave) : Prop where
  pAddr : ∀ i < i2cMaxRegister, (s.regPro i).pAddr = 8 * i
  width : ∀ i < i2cMaxRegister, (s.regPro i).width.toNat ≤ 3

/-- The registers after a write : the first bytes of the register are those that were received, and
no other byte is changed. -/
def MasterWrite.write (m : MasterWrite) (regPro : ℕ → RegProperty) (reg : ℕ → UInt8) : ℕ → UInt8 :=
  let p := regPro m.subaddr.toNat
  if p.Writable then Memory.write reg (8 * m.subaddr.toNat) (m.data.take p.regSize) else reg

/-- The interrupt does what the write should do. -/
def I2cSlave.Exact (s : I2cSlave) (m : MasterWrite) : Prop :=
  (s.rxFull m.fifo).reg = m.write s.regPro s.reg

/-- Each write that is shorter than its register finds there the byte that was sent in this position
last. `sent` are these bytes, and `reg` the registers, which change as they should. -/
def Harmless (regPro : ℕ → RegProperty) : (ℕ → UInt8) → (ℕ → UInt8) → List MasterWrite → Prop
  | _, _, [] => True
  | sent, reg, m :: ms =>
    ((regPro m.subaddr.toNat).Writable →
      m.data.length < (regPro m.subaddr.toNat).regSize →
      sent (m.data.length + 1) = reg (8 * m.subaddr.toNat + m.data.length)) ∧
    Harmless regPro (write sent 0 (m.subaddr :: m.data)) (m.write regPro reg) ms

/-! ## What the interrupt does -/

theorem readFifo_eq : ∀ (fifo : List (List UInt8)) (index : ℕ) (buf : ℕ → UInt8),
    (∀ l ∈ fifo, l ≠ []) → readFifo fifo index buf =
      (index + fifo.flatten.length, write buf index fifo.flatten)
  | [], index, buf, _ => by
    rw [readFifo, flatten_nil, write_nil, length_nil, Nat.add_zero]
  | [] :: _, _, _, h => absurd rfl (h [] mem_cons_self)
  | (x :: l) :: fifo, index, buf, h => by
    rw [readFifo, readFifo_eq fifo _ _ fun l' hl' => h l' (mem_cons_of_mem _ hl'),
      flatten_cons, length_append, write_append, Nat.add_assoc]

theorem copyReg_eq (buf : ℕ → UInt8) (pAddr index : ℕ) : ∀ (k i : ℕ) (reg : ℕ → UInt8),
    copyReg buf pAddr index k i reg =
      write reg (pAddr + i) (read buf (i + 1) (min k (index - i)))
  | 0, i, reg => by
    rw [copyReg, Nat.zero_min, read_zero, write_nil]
  | k + 1, i, reg => by
    rw [copyReg]
    split_ifs with hi
    · have hmin : min (k + 1) (index - i) = 1 + min k (index - (i + 1)) := by omega
      rw [copyReg_eq buf pAddr index k (i + 1), hmin, read_add]
      exact (write_cons ..).symm
    · rw [Nat.sub_eq_zero_of_le (Nat.le_of_not_lt hi), Nat.min_zero, read_zero, write_nil]

section Step

variable {s : I2cSlave} {m : MasterWrite}

theorem regSize_le {p : RegProperty} (h : p.width.toNat ≤ 3) : p.regSize ≤ 8 := by
  have hall : ∀ w ≤ 3, 1 <<< w % 256 ≤ 8 := by decide
  exact hall _ h

/-- The effect of the interrupt. -/
theorem rxFull_eq (hs : s.Configured) (m : MasterWrite) : s.rxFull m.fifo = { s with
      recvDataBuf := write s.recvDataBuf 0 (m.subaddr :: m.data)
      reg := if (s.regPro m.subaddr.toNat).Writable then
          write s.reg (8 * m.subaddr.toNat) (read
            (write s.recvDataBuf 0 (m.subaddr :: m.data)) 1
            (min (s.regPro m.subaddr.toNat).regSize (m.data.length + 1)))
        else s.reg } := by
  have hbuf : write s.recvDataBuf 0 (m.subaddr :: m.data) 0 = m.subaddr :=
    write_zero ..
  rw [I2cSlave.rxFull, readFifo_eq _ _ _ m.fifo_ne, m.received, length_cons, Nat.zero_add]
  simp only [hbuf]
  by_cases hw : (s.regPro m.subaddr.toNat).Writable
  · have hflag : ¬((s.regPro m.subaddr.toNat).rdFlag ≠ 0 ∧
        (s.regPro m.subaddr.toNat).rdFlag ≠ 2) := fun h => hw.elim h.1 h.2
    have hsize := regSize_le (hs.width _ m.subaddr_lt)
    rw [if_neg hflag, if_neg (not_lt.2 hsize), if_pos hw, copyReg_eq, hs.pAddr _ m.subaddr_lt]
    rfl
  · have hflag : (s.regPro m.subaddr.toNat).rdFlag ≠ 0 ∧
        (s.regPro m.subaddr.toNat).rdFlag ≠ 2 := not_or.1 hw
    rw [if_pos hflag, if_neg hw]

/-- The bytes behind the sub-address. -/
theorem read_received (buf : ℕ → UInt8) (x : UInt8) (l : List UInt8) :
    read (write buf 0 (x :: l)) 1 l.length = l := by
  rw [write_cons]
  exact read_write ..

/-- One byte more was there before. -/
theorem read_received_succ (buf : ℕ → UInt8) (x : UInt8) (l : List UInt8) :
    read (write buf 0 (x :: l)) 1 (l.length + 1) = l ++ [buf (l.length + 1)] := by
  have hlast : write buf 0 (x :: l) (1 + l.length) = buf (l.length + 1) := by
    rw [Nat.add_comm 1]
    exact write_of_ge buf (Nat.zero_add _).le
  rw [read_add, read_received]
  exact congrArg (fun y => l ++ [y]) hlast

/-- A write is exact if it is not shorter than the register, or the next byte of the buffer is there
anyway. -/
theorem exact_iff (hs : s.Configured) (m : MasterWrite) :
    s.Exact m ↔ ((s.regPro m.subaddr.toNat).Writable →
      m.data.length < (s.regPro m.subaddr.toNat).regSize →
      s.recvDataBuf (m.data.length + 1) = s.reg (8 * m.subaddr.toNat + m.data.length)) := by
  rw [I2cSlave.Exact, rxFull_eq hs, MasterWrite.write]
  by_cases hw : (s.regPro m.subaddr.toNat).Writable
  · simp only [if_pos hw]
    rw [imp_iff_right hw]
    rcases lt_or_ge m.data.length (s.regPro m.subaddr.toNat).regSize with hlt | hge
    · rw [imp_iff_right hlt, min_eq_right hlt, read_received_succ,
        take_of_length_le hlt.le, write_append_singleton_eq_iff]
    · have hread := congrArg (take (s.regPro m.subaddr.toNat).regSize)
        (read_received s.recvDataBuf m.subaddr m.data)
      rw [take_read _ _ hge] at hread
      rw [min_eq_left (by omega), hread]
      exact iff_of_true rfl fun hlt => absurd hlt (not_lt.2 hge)
  · simp only [if_neg hw]
    exact iff_of_true trivial fun h => absurd h hw

end Step

/-! ## Sequences of writes -/

theorem I2cSlave.Configured.rxFull {s : I2cSlave} (hs : s.Configured) (m : MasterWrite) :
    (s.rxFull m.fifo).Configured := by
  rw [rxFull_eq hs]
  exact ⟨hs.pAddr, hs.width⟩

/-- Each write of a sequence changes exactly the bytes that were received, if and only if each write
that is shorter than its register is harmless. -/
theorem i2cSlave_iff : ∀ (ms : List MasterWrite) {s : I2cSlave}, s.Configured →
    (Each (fun s m => s.rxFull m.fifo) I2cSlave.Exact s ms ↔
      Harmless s.regPro s.recvDataBuf s.reg ms)
  | [], _, _ => Iff.rfl
  | m :: ms, s, hs => by
    have hnext := i2cSlave_iff ms (hs.rxFull m)
    rw [Each, Harmless, hnext, exact_iff hs]
    refine and_congr_right fun hexact => ?_
    have hreg : (s.rxFull m.fifo).reg = m.write s.regPro s.reg := (exact_iff hs m).2 hexact
    rw [hreg, rxFull_eq hs]

/-! ## A byte of an earlier write -/

/-- The driver with 32 registers of two bytes, which are 0. -/
def twoByteSlave : I2cSlave :=
  ⟨fun i => ⟨0, 1, 8 * i⟩, fun _ => 0, fun _ => 0⟩

theorem twoByteSlave_configured : twoByteSlave.Configured :=
  ⟨fun _ _ => rfl, fun _ _ => (by decide : (1 : UInt8).toNat ≤ 3)⟩

/-- Two bytes for the register 0. -/
def longWrite : MasterWrite :=
  ⟨[[0, 0x11], [0x22]], 0, [0x11, 0x22], rfl, by decide, by decide, by decide⟩

/-- One byte for the register 1. -/
def shortWrite : MasterWrite :=
  ⟨[[1, 0x33]], 1, [0x33], rfl, by decide, by decide, by decide⟩

/-- One byte more for the register 0, which finds there the byte that was sent before. -/
theorem i2cSlave_iff_sameByte :
    Each (fun s m => s.rxFull m.fifo) I2cSlave.Exact twoByteSlave
      [longWrite, ⟨[[0, 0x33]], 0, [0x33], rfl, by decide, by decide, by decide⟩] := by
  refine (i2cSlave_iff _ twoByteSlave_configured).2 ⟨fun _ hlt => ?_, fun _ _ => rfl, trivial⟩
  exact absurd hlt (by decide)

/-- The second byte of the register 1 becomes `0x22`, which was sent for the register 0. -/
theorem i2cSlave_stale :
    ¬(twoByteSlave.rxFull longWrite.fifo).Exact shortWrite ∧
      (twoByteSlave.rxFull longWrite.fifo).reg 9 = 0 ∧
      ((twoByteSlave.rxFull longWrite.fifo).rxFull shortWrite.fifo).reg 9 = 0x22 := by
  refine ⟨fun hexact => ?_, rfl, rfl⟩
  have hbyte : (0x22 : UInt8) = 0 := congrFun hexact 9
  exact absurd hbyte (by decide)

end OpenHMR
