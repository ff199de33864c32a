import Mathlib.Data.List.Basic
import Mathlib.Data.Int.Notation

/-!
# The answer to reset of a smart card (`drivers/smartcard/core/scd_atr.c`)

A card answers a reset with a string of bytes that says itself how long it is : the high nibble of
`T0` announces the interface bytes of the first group, the last of which (`TD1`) announces those of
the second in the same way, and so on. `is_atr_complete` is called on the bytes received so far,
`decompress_atr` on the whole answer.
-/

namespace OpenHMR

/-- `MAX_ATR_SIZE`. -/
def maxAtrSize : ℕ :=
  32

/-- `scd_atr`. The bytes of `data` after the first `length` are left from earlier answers. -/
structure ScdAtr where
  data : List UInt8
  length : ℕ
  data_length : data.length = maxAtrSize
  length_le : length ≤ maxAtrSize

namespace ScdAtr

/-- `p_atr->data[i]`. -/
def byte (a : ScdAtr) (i : ℕ) : UInt8 :=
  a.data.getD i 0

/-- The string of bytes that was received. -/
def bytes (a : ScdAtr) : List UInt8 :=
  a.data.take a.length

/-- `init_atr` and the reception of the bytes `s`. -/
def ofBytes (s : List UInt8) (h : s.length ≤ maxAtrSize) : ScdAtr where
  data := s ++ List.replicate (maxAtrSize - s.length) 0
  length := s.length
  data_length := by simp [h]
  length_le := h

end ScdAtr

/-- `is_atr_crc_ok`. -/
def isAtrCrcOk (a : ScdAtr) : Bool :=
  ((a.bytes.drop 1).foldl (· ^^^ ·) 0) == 0

/-- The number of bytes that the high nibble of `T0`, `TD1` or `TD2` announces. -/
def announcedBytes (t : UInt8) : ℕ :=
  ((t >>> 4) &&& 0x01).toNat + ((t >>> 5) &&& 0x01).toNat + ((t >>> 6) &&& 0x01).toNat +
    ((t >>> 7) &&& 0x01).toNat

/-- `is_atr_complete`. Without `TD1` or `TD2` their values are 0. -/
def isAtrComplete (a : ScdAtr) : ℤ :=
  if a.length < 3 then 0
  else if a.byte 0 ≠ 0x3B ∧ a.byte 0 ≠ 0x3F then 1
  else
    let t0 := a.byte 1
    let nHistoryByte := (t0 &&& 0xF).toNat
    let t1Len := announcedBytes t0
    if a.length < 2 + t1Len then 0
    else
      let td1 := if t0 &&& 0x80 ≠ 0 then a.byte (1 + t1Len) else 0
      let t2Len := announcedBytes td1
      let t := td1 &&& 0xF
      if a.length < 2 + t1Len + t2Len then 0
      else
        let td2 := if td1 &&& 0x80 ≠ 0 then a.byte (1 + t1Len + t2Len) else 0
        let t3Len := announcedBytes td2
        if t = 0 ∨ t = 15 then
          if a.length < 2 + t1Len + t2Len + t3Len + nHistoryByte then 0 else 1
        else
          if a.length < 3 + t1Len + t2Len + t3Len + nHistoryByte then 0
          else if isAtrCrcOk a then 1 else -1

/-- `scd_atr_info`. -/
structure ScdAtrInfo where
  status : UInt8
  progress : UInt8
  t1Len : UInt8
  t2Len : UInt8
  t3Len : UInt8
  nHistoryBytes : UInt8
  ts : UInt8
  t0 : UInt8
  t1 : Fin 4 → UInt8
  t2 : Fin 4 → UInt8
  t3 : Fin 4 → UInt8
  history : Fin 16 → UInt8
  tck : UInt8

namespace ScdAtrInfo

/-- All bytes are 0. -/
def zero : ScdAtrInfo :=
  ⟨0, 0, 0, 0, 0, 0, 0, 0, fun _ => 0, fun _ => 0, fun _ => 0, fun _ => 0, 0⟩

end ScdAtrInfo

/-- `t & (0x10 << i)`. -/
def Announces (t : UInt8) (i : ℕ) : Prop :=
  t &&& (0x10 <<< UInt8.ofNat i) ≠ 0

instance (t : UInt8) (i : ℕ) : Decidable (Announces t i) :=
  inferInstanceAs (Decidable (_ ≠ _))

/-- The first `n` rounds of the loop of `decompress_atr` that reads the bytes of a group from the
place `id` on. -/
def readGroup (a : ScdAtr) (t : UInt8) (id : ℕ) (group : Fin 4 → UInt8) :
    ℕ → ℕ × (Fin 4 → UInt8)
  | 0 => (id, group)
  | i + 1 =>
    let (id, group) := readGroup a t id group i
    if Announces t i then (id + 1, fun j => if j.val = i then a.byte id else group j)
    else (id, group)

/-- `decompress_atr`, which is `none` if it fails. The `memset` clears as many bytes as a pointer
has, and a wrong check byte is only reported. -/
def decompressAtr (a : ScdAtr) (info : ScdAtrInfo) : Option ScdAtrInfo :=
  if isAtrComplete a = 0 then none
  else
    let info := { info with
      status := 0, progress := 0, t1Len := 0, t2Len := 0, ts := a.byte 0, t0 := a.byte 1 }
    let (id, t1) := readGroup a info.t0 2 info.t1 4
    let (id, t2) := readGroup a (t1 3) id info.t2 4
    let (id, t3) := readGroup a (t2 3) id info.t3 4
    let t := t1 3 &&& 0xF
    let nHistoryByte := (info.t0 &&& 0xF).toNat
    let rest : ℤ := if t = 0 ∨ t = 15 then (a.length : ℤ) - id else (a.length : ℤ) - id - 1
    if rest ≠ nHistoryByte then none
    else
      some { info with
        t1 := t1, t2 := t2, t3 := t3
        history := fun k => if k.val < nHistoryByte then a.byte (id + k) else info.history k
        tck := a.byte (a.length - 1) }

end OpenHMR
