import OpenHMR.AuthOrder
import OpenHMR.Memory

/-!
# Buffers of the crypto engine (`drivers/mcp/mcp_buff.c`)

A `mcp_buff` is a block of memory with room in front of and behind its data : the data is from
`data` to `tail`, and may grow down to `head` and up to `end`. These are addresses of 32 bits. A
block of a page or more is from `dvr_malloc`, whose `cal_order` takes the size for a number with a
sign : it does not return for sizes above `2 ^ 30`, and from `2 ^ 31` on the block is one page
(`mcpBlockSize`).

The code only prints a warning when a position leaves the range from `head` to `end`
(`CHECK_BOUNDRARY`). Here a step that leaves the range, or writes outside of it, is `none`.
-/

namespace OpenHMR

open List Option Nat

open Memory (read write)

/-- `sizeof(mcp_buff)`. -/
def sizeofMcpBuff : ℕ := 20

/-- `MCP_BUFF_HEAD_RESERVE`. -/
def mcpBuffHeadReserve : ℕ := 128

/-- `MCP_BUFF_TAIL_RESERVE`. -/
def mcpBuffTailReserve : ℕ := 128

/-- `MCP_BUFF_RESERVE_AREA`. -/
def mcpBuffReserveArea : ℕ := mcpBuffHeadReserve + mcpBuffTailReserve

/-- `MAX_MCPB_LEN`. -/
def maxMcpbLen : ℕ := 4 * 1024

/-- The size of the block that `kmalloc` or `dvr_malloc` gives for `len` bytes, `none` if
`cal_order` does not return. -/
def mcpBlockSize (len : ℕ) : Option ℕ :=
  if maxMcpbLen ≤ len then (calOrder (toInt32 len)).map fun order => 2 ^ (12 + order)
  else some len

/-- `mcp_buff`, with the memory. -/
structure McpBuff where
  mem : ℕ → UInt8
  head : ℕ
  data : ℕ
  tail : ℕ
  endAddr : ℕ
  len : ℕ

namespace McpBuff

/-- `CHECK_BOUNDRARY`. -/
def check (mcpb : McpBuff) : Option McpBuff :=
  if mcpb.data < mcpb.head ∨ mcpb.tail > mcpb.endAddr ∨ mcpb.tail < mcpb.data then none
  else some mcpb

/-- `mcpb_reserve`. -/
def reserve (mcpb : McpBuff) (len : ℕ) : Option McpBuff :=
  check { mcpb with data := (mcpb.data + len) % 2 ^ 32, tail := (mcpb.tail + len) % 2 ^ 32 }

/-- `mcpb_put`. -/
def put (mcpb : McpBuff) (len : ℕ) : Option McpBuff :=
  check { mcpb with tail := (mcpb.tail + len) % 2 ^ 32, len := (mcpb.len + len) % 2 ^ 32 }

/-- `mcpb_push`. -/
def push (mcpb : McpBuff) (len : ℕ) : Option McpBuff :=
  check { mcpb with
    data := (mcpb.data + 2 ^ 32 - len) % 2 ^ 32, len := (mcpb.len + len) % 2 ^ 32 }

/-- `mcpb_pull`. Nothing is done if there is not enough data. -/
def pull (mcpb : McpBuff) (len : ℕ) : McpBuff :=
  if len ≤ mcpb.len then
    { mcpb with data := (mcpb.data + len) % 2 ^ 32, len := mcpb.len - len }
  else mcpb

/-- `mcpb_purge`. -/
def purge (mcpb : McpBuff) : Option McpBuff :=
  reserve { mcpb with data := mcpb.head, tail := mcpb.head, len := 0 } mcpBuffHeadReserve

/-- `mcpb_tailroom`, as the number without a sign that it is used as. -/
def tailroom (mcpb : McpBuff) : ℕ :=
  (mcpb.endAddr + 2 ^ 32 - mcpb.tail) % 2 ^ 32

/-- `__alloc_mcpb`, where the block is at `addr` in the memory `mem`. -/
def alloc' (addr : ℕ) (mem : ℕ → UInt8) (len : ℕ) : Option McpBuff :=
  let size := (len + sizeofMcpBuff) % 2 ^ 32
  let head := (addr + sizeofMcpBuff) % 2 ^ 32
  (mcpBlockSize size).map fun _ =>
    ⟨mem, head, head, head, (head + size + 2 ^ 32 - sizeofMcpBuff) % 2 ^ 32, 0⟩

/-- `alloc_mcpb`. -/
def alloc (addr : ℕ) (mem : ℕ → UInt8) (len : ℕ) : Option McpBuff := do
  let mcpb ← alloc' addr mem ((len + mcpBuffReserveArea) % 2 ^ 32)
  mcpb.reserve mcpBuffHeadReserve

/-- The block for a buffer of `len` bytes is in `KSEG0`. -/
def Kseg0 (addr len : ℕ) : Prop :=
  0x80000000 ≤ addr ∧ ∀ size ∈ mcpBlockSize ((len + mcpBuffReserveArea + sizeofMcpBuff) % 2 ^ 32),
    addr + size ≤ 0xA0000000

/-- A copy of `bytes` to the position `pos` of the block. -/
def store (mcpb : McpBuff) (pos : ℕ) (bytes : List UInt8) : Option McpBuff :=
  if mcpb.head ≤ pos ∧ pos + bytes.length ≤ mcpb.endAddr then
    some { mcpb with mem := write mcpb.mem pos bytes }
  else none

/-- The first `n` bytes of the data. -/
def bytes (mcpb : McpBuff) (n : ℕ) : List UInt8 :=
  read mcpb.mem mcpb.data n

/-- A new buffer that is filled with `bytes`. -/
def filled (addr : ℕ) (mem : ℕ → UInt8) (bytes : List UInt8) : Option McpBuff := do
  let mcpb ← alloc addr mem bytes.length
  let mcpb' ← mcpb.put bytes.length
  mcpb'.store mcpb.tail bytes

/-! ## What a buffer contains -/

/-- The data is `l`, and it is in the range of the buffer. -/
structure Contains (mcpb : McpBuff) (l : List UInt8) : Prop where
  head_le : mcpb.head ≤ mcpb.data
  tail_eq : mcpb.tail = mcpb.data + l.length
  tail_le : mcpb.tail ≤ mcpb.endAddr
  end_lt : mcpb.endAddr < 2 ^ 32
  len_eq : mcpb.len = l.length
  bytes_eq : mcpb.bytes l.length = l

variable {mcpb : McpBuff} {l l' : List UInt8} {n : ℕ}

theorem check_eq_some (h1 : mcpb.head ≤ mcpb.data) (h2 : mcpb.tail ≤ mcpb.endAddr)
    (h3 : mcpb.data ≤ mcpb.tail) : check mcpb = some mcpb :=
  if_neg (by omega)

/-- Data is put behind the data there is. -/
theorem Contains.put (h : mcpb.Contains l) (hroom : mcpb.tail + l'.length ≤ mcpb.endAddr) :
    ∃ b, mcpb.store mcpb.tail l' = some b ∧
      ∃ b', b.put l'.length = some b' ∧ b'.Contains (l ++ l') ∧ b'.head = mcpb.head ∧
        b'.data = mcpb.data ∧ b'.endAddr = mcpb.endAddr := by
  obtain ⟨hhead, htail, hle, hend, hlen, hbytes⟩ := h
  have hstore : mcpb.store mcpb.tail l' = some { mcpb with mem := write mcpb.mem mcpb.tail l' } :=
    if_pos ⟨by omega, hroom⟩
  have htail' : (mcpb.tail + l'.length) % 2 ^ 32 = mcpb.tail + l'.length :=
    mod_eq_of_lt (by omega)
  have hlen' : (mcpb.len + l'.length) % 2 ^ 32 = l.length + l'.length := by
    rw [hlen]
    exact mod_eq_of_lt (by omega)
  refine ⟨_, hstore, { mcpb with
    mem := write mcpb.mem mcpb.tail l', tail := mcpb.tail + l'.length,
    len := l.length + l'.length }, ?_, ⟨hhead, ?_, hroom, hend, ?_, ?_⟩, rfl, rfl, rfl⟩
  · rw [McpBuff.put, htail', hlen']
    exact check_eq_some hhead hroom (by simp only; omega)
  · rw [length_append]
    simp only
    omega
  · exact length_append.symm
  · rw [length_append, bytes, Memory.read_add, Memory.read_write_of_apart _
      (.inr (.inr (.inr (by simp only; omega)))),
      show mcpb.data + l.length = mcpb.tail from htail.symm, Memory.read_write]
    exact congrArg (· ++ l') hbytes

/-- Data is pushed in front of the data there is. -/
theorem Contains.push (h : mcpb.Contains l) (hroom : mcpb.head + l'.length ≤ mcpb.data) :
    ∃ b, mcpb.push l'.length = some b ∧
      ∃ b', b.store b.data l' = some b' ∧ b'.Contains (l' ++ l) := by
  obtain ⟨hhead, htail, hle, hend, hlen, hbytes⟩ := h
  have hdata : (mcpb.data + 2 ^ 32 - l'.length) % 2 ^ 32 = mcpb.data - l'.length := by omega
  have hlen' : (mcpb.len + l'.length) % 2 ^ 32 = l'.length + l.length := by
    rw [hlen, add_comm]
    exact mod_eq_of_lt (by omega)
  have hpush : mcpb.push l'.length =
      some { mcpb with data := mcpb.data - l'.length, len := l'.length + l.length } := by
    rw [McpBuff.push, hdata, hlen']
    exact check_eq_some (by simp only; omega) hle (by simp only; omega)
  refine ⟨_, hpush, _, if_pos ⟨by simp only; omega, by simp only; omega⟩,
    ⟨by simp only; omega, ?_, hle, hend, ?_, ?_⟩⟩
  · rw [length_append]
    simp only
    omega
  · exact length_append.symm
  · rw [length_append, bytes, Memory.read_add, Memory.read_write,
      Memory.read_write_of_apart _ (.inr (.inr (.inl le_rfl)))]
    simp only [show mcpb.data - l'.length + l'.length = mcpb.data by omega]
    exact congrArg (l' ++ ·) hbytes

/-- Data is pulled from the front. -/
theorem Contains.pull (h : mcpb.Contains (l' ++ l)) :
    mcpb.bytes l'.length = l' ∧ (mcpb.pull l'.length).Contains l := by
  obtain ⟨hhead, htail, hle, hend, hlen, hbytes⟩ := h
  rw [length_append] at htail hlen hbytes
  rw [bytes, Memory.read_add] at hbytes
  obtain ⟨hfront, hrest⟩ := append_inj hbytes (Memory.length_read _ _ _)
  have hdata : (mcpb.data + l'.length) % 2 ^ 32 = mcpb.data + l'.length :=
    mod_eq_of_lt (by omega)
  refine ⟨hfront, ?_⟩
  rw [McpBuff.pull, if_pos (by omega), hdata]
  exact ⟨by simp only; omega, by simp only; omega, hle, hend, by simp only; omega, hrest⟩

/-- All data is removed. -/
theorem purge_spec (hroom : mcpb.head + mcpBuffHeadReserve ≤ mcpb.endAddr)
    (hend : mcpb.endAddr < 2 ^ 32) :
    mcpb.purge = some { mcpb with
      data := mcpb.head + mcpBuffHeadReserve
      tail := mcpb.head + mcpBuffHeadReserve
      len := 0 } := by
  have hpos : (mcpb.head + mcpBuffHeadReserve) % 2 ^ 32 = mcpb.head + mcpBuffHeadReserve :=
    mod_eq_of_lt (by omega)
  rw [purge, reserve]
  simp only [hpos]
  exact check_eq_some (le_add_right _ _) hroom le_rfl

section Alloc

variable {addr : ℕ} (mem : ℕ → UInt8)

/-- The block is as large as it should be up to `2 ^ 30` bytes. -/
theorem le_mcpBlockSize (h : n ≤ 2 ^ 30) : ∃ size, mcpBlockSize n = some size ∧ n ≤ size := by
  rw [mcpBlockSize]
  split_ifs
  · obtain ⟨order, hcal, hle, -⟩ := exists_calOrder h
    exact ⟨_, by rw [hcal, map_some], hle⟩
  · exact ⟨n, rfl, le_rfl⟩

/-- Beyond `2 ^ 30` bytes it is not obtained, or is a page. -/
theorem mcpBlockSize_of_gt (h : 2 ^ 30 < n) (hlt : n < 2 ^ 32) :
    mcpBlockSize n = if n < 2 ^ 31 then none else some (2 ^ 12) := by
  have hpage : maxMcpbLen = 4096 := rfl
  rw [mcpBlockSize, if_pos (by omega), toInt32]
  split_ifs with hneg
  · rw [calOrder, calOrderLoop_of_gt (by exact_mod_cast h) 18 0 rfl, map_none]
  · rw [calOrder, calOrderLoop_eq (k := 0) (by omega) (fun j hj => absurd hj (not_lt_zero j)) 18 0
      le_rfl (zero_le _), map_some]

/-- A new buffer. -/
theorem alloc_spec (haddr : Kseg0 addr n) (h : n + mcpBuffReserveArea + sizeofMcpBuff ≤ 2 ^ 30) :
    ∃ head, head = addr + sizeofMcpBuff ∧ head + n + mcpBuffReserveArea ≤ 0xA0000000 ∧
      alloc addr mem n = some ⟨mem, head, head + mcpBuffHeadReserve, head + mcpBuffHeadReserve,
        head + n + mcpBuffReserveArea, 0⟩ := by
  have hhead : mcpBuffHeadReserve = 128 := rfl
  have harea : mcpBuffReserveArea = 256 := rfl
  have hsizeof : sizeofMcpBuff = 20 := rfl
  obtain ⟨size, hsize, hle⟩ := le_mcpBlockSize h
  have hfits := haddr.2 size
  rw [mod_eq_of_lt (by omega), hsize] at hfits
  have hfits := hfits rfl
  have hlen : ((n + mcpBuffReserveArea) % 2 ^ 32 + sizeofMcpBuff) % 2 ^ 32 =
      n + mcpBuffReserveArea + sizeofMcpBuff := by omega
  refine ⟨_, rfl, by omega, ?_⟩
  simp only [alloc, alloc', hlen, hsize, map_some, bind_eq_bind, bind_some, reserve]
  rw [show (addr + sizeofMcpBuff) % 2 ^ 32 = addr + sizeofMcpBuff by omega,
    show (addr + sizeofMcpBuff + (n + mcpBuffReserveArea + sizeofMcpBuff) + 2 ^ 32 -
      sizeofMcpBuff) % 2 ^ 32 = addr + sizeofMcpBuff + n + mcpBuffReserveArea by omega,
    show (addr + sizeofMcpBuff + mcpBuffHeadReserve) % 2 ^ 32 =
      addr + sizeofMcpBuff + mcpBuffHeadReserve by omega]
  exact check_eq_some (by simp only; omega) (by simp only; omega) le_rfl

/-- A new buffer contains what it is filled with. -/
theorem filled_spec (haddr : Kseg0 addr l.length)
    (h : l.length + mcpBuffReserveArea + sizeofMcpBuff ≤ 2 ^ 30) :
    ∃ b, filled addr mem l = some b ∧ b.Contains l ∧ b.head + mcpBuffHeadReserve = b.data := by
  have hreserve : mcpBuffHeadReserve = 128 := rfl
  have harea : mcpBuffReserveArea = 256 := rfl
  obtain ⟨head, -, hend, halloc⟩ := alloc_spec mem haddr h
  have htail : (head + mcpBuffHeadReserve + l.length) % 2 ^ 32 =
      head + mcpBuffHeadReserve + l.length := mod_eq_of_lt (by omega)
  have hlen : (0 + l.length) % 2 ^ 32 = l.length := by
    rw [zero_add]
    exact mod_eq_of_lt (by omega)
  obtain ⟨b, hb⟩ : ∃ b : McpBuff, b = ⟨write mem (head + mcpBuffHeadReserve) l, head,
    head + mcpBuffHeadReserve, head + mcpBuffHeadReserve + l.length,
    head + l.length + mcpBuffReserveArea, l.length⟩ := ⟨_, rfl⟩
  refine ⟨b, ?_, ?_, by rw [hb]⟩
  · rw [filled, halloc, bind_eq_bind, bind_some, put]
    simp only [htail, hlen]
    rw [check_eq_some (by simp only; omega) (by simp only; omega) (by simp only; omega), bind_some,
      store, if_pos ⟨by simp only; omega, by simp only; omega⟩, hb]
  · rw [hb]
    exact ⟨by simp only; omega, rfl, by simp only; omega, by simp only; omega, rfl,
      Memory.read_write mem _ l⟩

/-- A buffer of more than `2 ^ 30` bytes is not obtained, or `end` is below `head`, or `tail` is
beyond the address space. -/
theorem filled_eq_none (haddr : Kseg0 addr l.length) (hl : l.length < 2 ^ 32)
    (h : 2 ^ 30 < l.length + mcpBuffReserveArea + sizeofMcpBuff) : filled addr mem l = none := by
  have hhead : mcpBuffHeadReserve = 128 := rfl
  have harea : mcpBuffReserveArea = 256 := rfl
  have hsizeof : sizeofMcpBuff = 20 := rfl
  obtain ⟨hlow, hfits⟩ := haddr
  have hlen : ((l.length + mcpBuffReserveArea) % 2 ^ 32 + sizeofMcpBuff) % 2 ^ 32 =
      (l.length + mcpBuffReserveArea + sizeofMcpBuff) % 2 ^ 32 := by omega
  generalize hn : (l.length + mcpBuffReserveArea + sizeofMcpBuff) % 2 ^ 32 = n at hfits hlen
  simp only [filled, alloc, alloc', hlen, bind_eq_bind]
  cases hsize : mcpBlockSize n with
  | none => rfl
  | some size =>
    rw [hsize] at hfits
    have hfits := hfits size rfl
    have hpos : (addr + sizeofMcpBuff) % 2 ^ 32 = addr + sizeofMcpBuff := by omega
    simp only [map_some, bind_some, reserve, hpos]
    rcases lt_or_ge (l.length + mcpBuffReserveArea + sizeofMcpBuff) (2 ^ 32) with hlt | hge
    · -- the size has its highest bit, and `end` is below the block
      have hneg : 2 ^ 31 ≤ n := by
        by_contra hneg
        rw [mcpBlockSize_of_gt (by omega) (by omega), if_pos (by omega)] at hsize
        cases hsize
      rw [check, if_pos (.inr (.inl (by simp only; omega)))]
      rfl
    · rw [show (addr + sizeofMcpBuff + mcpBuffHeadReserve) % 2 ^ 32 =
        addr + sizeofMcpBuff + mcpBuffHeadReserve by omega]
      -- the block is too short for the room in front, or for the data
      rcases lt_or_ge n 148 with hshort | hshort
      · rw [check, if_pos (.inr (.inl (by simp only; omega)))]
        rfl
      · rw [check_eq_some (by simp only; omega) (by simp only; omega) le_rfl, bind_some, put, check,
          if_pos (.inr (.inr (by simp only; omega))), bind_none]

end Alloc

end McpBuff

end OpenHMR
