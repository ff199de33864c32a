import Mathlib.Data.UInt
import OpenHMR.McpBuff
import OpenHMR.McpEngine

/-!
# Digests (`drivers/mcp/sha1.c`, `drivers/mcp/aes_h.c`)

The crypto engine hashes whole blocks, from a hash value that stands in the descriptor. A context
(`SHA1_CTX`, `AES_H_CTX`) keeps the hash value of the blocks so far, and the bytes after them in a
buffer `tmp`; an update pushes these bytes in front of the new data. A full block is kept back in
`tmp` too. `DigestFinal` pads `tmp`, to one or two blocks.

`MdCtx.Absorbed` says what a context has taken in, whatever the updates were; it is kept by an
update (`MdCtx.Absorbed.digestUpdate`), and the final call gives the digest from it
(`MdCtx.Absorbed.digestFinal`).

`SHA1` and `AES_H` are the same code with other constants. The two differ in what the padding
returns if there is no room for it, and in the check of the length before hashing.
-/

namespace OpenHMR

open Memory Option Nat List McpBuff

open Blocks (blocks)

/-! ## Contexts -/

/-- `SHA1_CTX` and `AES_H_CTX`. -/
structure MdCtx where
  tmp : McpBuff
  byteCount : ℕ
  hash : List UInt8

variable (md : Md)

/-- `SHA1_CTX_Init` and `AES_H_CTX_Init`. -/
def mdCtxInit (ctx : MdCtx) : Option MdCtx := do
  let tmp ← ctx.tmp.purge
  return { tmp, byteCount := 0, hash := md.initHash }

/-- `SHA1_DigestInit` and `AES_H_DigestInit`. The context and the memory `mem` of the buffer are not
initialised. -/
def digestInit (ctx : MdCtx) (addr : ℕ) (mem : ℕ → UInt8) : Option MdCtx := do
  let tmp ← alloc addr mem md.blockSize
  mdCtxInit md { ctx with tmp }

/-- The bytes of the context are put in front of the data. -/
def pushShort (ctx : MdCtx) (mcpb : McpBuff) : Option (MdCtx × McpBuff) :=
  if ctx.tmp.len ≠ 0 then do
    let mcpb ← mcpb.push ctx.tmp.len
    let mcpb ← mcpb.store mcpb.data (ctx.tmp.bytes ctx.tmp.len)
    let tmp ← ctx.tmp.purge
    return ({ ctx with tmp }, mcpb)
  else return (ctx, mcpb)

variable {md}

/-- The blocks are hashed, if there is more than one block. -/
def hashBlocks (engine : HashEngine md) (iv : List ℕ) (ctx : MdCtx) (mcpb : McpBuff) :
    MdCtx × McpBuff :=
  if mcpb.len > md.blockSize then
    let n := mcpb.len - mcpb.len % md.blockSize
    ({ ctx with
      hash := hashing engine iv (mcpb.bytes n) ctx.hash
      byteCount := (ctx.byteCount + n) % 2 ^ 64 }, mcpb.pull n)
  else (ctx, mcpb)

/-- The rest of the data is kept in the context. -/
def keepShort (ctx : MdCtx) (mcpb : McpBuff) : Option MdCtx :=
  if mcpb.len ≠ 0 then do
    let tmp ← ctx.tmp.store ctx.tmp.data (mcpb.bytes mcpb.len)
    let tmp ← tmp.put mcpb.len
    return { ctx with tmp }
  else return ctx

/-- `SHA1_DigestUpdate` and `AES_H_DigestUpdate`. -/
def digestUpdate (engine : HashEngine md) (ctx : MdCtx) (mcpb : McpBuff) : Option MdCtx := do
  let iv := ivUpdate ctx.hash
  let (ctx, mcpb) ← pushShort ctx mcpb
  let (ctx, mcpb) := hashBlocks engine iv ctx mcpb
  keepShort ctx mcpb

/-- A number of 64 bits, the highest byte first. -/
def bigEndian64 (x : ℕ) : List UInt8 :=
  [56, 48, 40, 32, 24, 16, 8, 0].map fun s => UInt8.ofNat (x >>> s)

variable (md)

/-- The size of the padding of `dataLen` bytes. -/
def padSize (dataLen : ℕ) : ℕ :=
  let padSz := md.blockSize - dataLen % md.blockSize
  if padSz ≤ 8 then padSz + md.blockSize else padSz

/-- `MCP_SHA1_PADDING` and `MCP_AES_H_PADDING`, at the tail of the buffer : the number of bytes, and
the buffer. -/
def padding (tmp : McpBuff) (buffLen dataLen : ℕ) : Option (ℕ × McpBuff) :=
  let padSz := padSize md dataLen
  if buffLen < padSz then some (md.paddingFailed, tmp)
  else do
    let tmp ← tmp.store tmp.tail (replicate padSz 0)
    let tmp ← tmp.store tmp.tail [tmp.mem tmp.tail ||| 0x80]
    let tmp ← tmp.store (tmp.tail + padSz - 8) (bigEndian64 (dataLen <<< 3))
    return (padSz, tmp)

variable {md}

/-- `SHA1_DigestFinal` and `AES_H_DigestFinal` : the digest, and the context. -/
def digestFinal (engine : HashEngine md) (ctx : MdCtx) : Option (List UInt8 × MdCtx) := do
  let iv := ivUpdate ctx.hash
  let dataLen := (ctx.byteCount + ctx.tmp.len) % 2 ^ 32
  let (padSz, tmp) ← padding md ctx.tmp ctx.tmp.tailroom dataLen
  let tmp ← tmp.put padSz
  let hash := hashing engine iv (tmp.bytes tmp.len) ctx.hash
  let ctx ← mdCtxInit md { ctx with tmp, hash }
  return (hash, ctx)

/-- The bytes of an update, and the block of memory that is obtained for them. -/
structure DigestBuff where
  bytes : List UInt8
  addr : ℕ
  mem : ℕ → UInt8
  kseg0 : McpBuff.Kseg0 addr bytes.length

/-- An update for each of some new buffers. -/
def digestUpdates (engine : HashEngine md) : MdCtx → List DigestBuff → Option MdCtx
  | ctx, [] => some ctx
  | ctx, b :: buffs => do
    let mcpb ← filled b.addr b.mem b.bytes
    let ctx ← digestUpdate engine ctx mcpb
    digestUpdates engine ctx buffs

/-- The updates, and `DigestFinal`. -/
def digestBuffs (engine : HashEngine md) (ctx : MdCtx) (buffs : List DigestBuff) :
    Option (List UInt8 × MdCtx) := do
  let ctx ← digestUpdates engine ctx buffs
  digestFinal engine ctx

/-! ## What a context has taken in -/

/-- The blocks of `done` are hashed, and the bytes `rest` after them are in `tmp`. -/
structure MdCtx.Absorbed (engine : HashEngine md) (done rest : List UInt8) (ctx : MdCtx) :
    Prop where
  dvd : md.blockSize ∣ done.length
  rest_le : rest.length ≤ md.blockSize
  hash_eq : ctx.hash = (blocks md.blockSize done).foldl engine.compress md.initHash
  byteCount_eq : ctx.byteCount = done.length
  contains : ctx.tmp.Contains rest
  head_eq : ∃ addr, McpBuff.Kseg0 addr md.blockSize ∧ ctx.tmp.head = addr + sizeofMcpBuff
  data_eq : ctx.tmp.data = ctx.tmp.head + mcpBuffHeadReserve
  end_eq : ctx.tmp.endAddr = ctx.tmp.head + md.blockSize + mcpBuffReserveArea

theorem blockSize_pos (md : Md) : 0 < md.blockSize := by
  cases md <;> decide

theorem blockSize_le (md : Md) : md.blockSize ≤ 64 := by
  cases md <;> decide

theorem length_foldl_compress (engine : HashEngine md) : ∀ (bs : List (List UInt8))
    {hash : List UInt8}, hash.length = md.digestSize →
      (bs.foldl engine.compress hash).length = md.digestSize
  | [], _, h => h
  | b :: bs, _, _ => length_foldl_compress engine bs (engine.length_compress _ b)

namespace MdCtx.Absorbed

variable {engine : HashEngine md} {done rest l : List UInt8} {ctx : MdCtx} {mcpb : McpBuff}

variable (h : ctx.Absorbed engine done rest)

include h

theorem length_hash : ctx.hash.length = md.digestSize := by
  rw [h.hash_eq]
  exact length_foldl_compress engine _ (by cases md <;> rfl)

/-- The next blocks. -/
theorem foldl_append (l : List UInt8) :
    (blocks md.blockSize l).foldl engine.compress ctx.hash =
      (blocks md.blockSize (done ++ l)).foldl engine.compress md.initHash := by
  rw [Blocks.blocks_append (blockSize_pos md) h.dvd, List.foldl_append, h.hash_eq]

/-- The room for data in `tmp`. -/
theorem end_eq_data :
    ctx.tmp.endAddr = ctx.tmp.data + md.blockSize + mcpBuffTailReserve := by
  rw [h.end_eq, h.data_eq, mcpBuffReserveArea]
  omega

theorem purge : ctx.tmp.purge =
    some { ctx.tmp with tail := ctx.tmp.data, len := 0 } := by
  have hdata := h.data_eq.symm
  rw [purge_spec (by rw [hdata, h.end_eq_data]; omega) h.contains.end_lt, hdata]

/-- The kept bytes are put before the data. -/
theorem pushShort (hl : mcpb.Contains l) (hroom : mcpb.head + mcpBuffHeadReserve = mcpb.data) :
    ∃ ctx' mcpb', OpenHMR.pushShort ctx mcpb = some (ctx', mcpb') ∧
      ctx'.Absorbed engine done [] ∧ mcpb'.Contains (rest ++ l) := by
  have hreserve : mcpBuffHeadReserve = 128 := rfl
  have hlen := h.contains.len_eq
  have hle := h.rest_le.trans (blockSize_le md)
  rw [OpenHMR.pushShort]
  split_ifs with hne
  · obtain ⟨b, hpush, b', hstore, hb'⟩ :=
      hl.push (show mcpb.head + rest.length ≤ mcpb.data by omega)
    have hbytes : ctx.tmp.bytes rest.length = rest := h.contains.bytes_eq
    refine ⟨{ ctx with tmp := { ctx.tmp with tail := ctx.tmp.data, len := 0 } }, b', ?_,
      ⟨h.dvd, zero_le _, h.hash_eq, h.byteCount_eq,
        ⟨h.contains.head_le, rfl, ?_, h.contains.end_lt, rfl, rfl⟩, h.head_eq, h.data_eq, h.end_eq⟩,
      hb'⟩
    · rw [hlen, hpush, bind_eq_bind, bind_some, hbytes, hstore, bind_some, h.purge]
      rfl
    · exact (le_add_right _ _).trans (h.contains.tail_eq ▸ h.contains.tail_le)
  · obtain rfl : rest = [] := eq_nil_of_length_eq_zero (by omega)
    exact ⟨ctx, mcpb, rfl, h, hl⟩

omit h in
/-- Whole blocks are hashed. -/
theorem hashBlocks (h : ctx.Absorbed engine done []) (hl : mcpb.Contains l)
    (hlt : done.length + l.length < 2 ^ 64) :
    ∃ d r, d ++ r = l ∧ r.length ≤ md.blockSize ∧
      (OpenHMR.hashBlocks engine (ivUpdate ctx.hash) ctx mcpb).1.Absorbed engine (done ++ d) [] ∧
      (OpenHMR.hashBlocks engine (ivUpdate ctx.hash) ctx mcpb).2.Contains r := by
  have hlen := hl.len_eq
  rw [OpenHMR.hashBlocks]
  split_ifs with hgt
  · obtain ⟨n, hn⟩ : ∃ n, n = mcpb.len - mcpb.len % md.blockSize := ⟨_, rfl⟩
    have hmod := mod_lt mcpb.len (blockSize_pos md)
    have hdvd : md.blockSize ∣ n := hn ▸ dvd_sub_mod _
    have hd : (l.take n).length = n := length_take_of_le (by omega)
    have hr : (l.drop n).length ≤ md.blockSize := by
      rw [length_drop]
      omega
    have hl' := hl
    rw [← take_append_drop n l] at hl'
    obtain ⟨hbytes, hpull⟩ := hl'.pull
    rw [hd] at hbytes hpull
    refine ⟨l.take n, l.drop n, take_append_drop n l, hr,
      ⟨?_, zero_le _, ?_, ?_, h.contains, h.head_eq, h.data_eq, h.end_eq⟩, ?_⟩
    · rw [length_append, hd]
      exact Nat.dvd_add h.dvd hdvd
    · simp only [← hn, hbytes]
      rw [hashing_eq engine h.length_hash (by rwa [hd]), h.foldl_append]
    · rw [← hn, length_append, hd, h.byteCount_eq]
      exact mod_eq_of_lt (by omega)
    · rw [← hn]
      exact hpull
  · refine ⟨[], l, rfl, by omega, ?_, hl⟩
    rwa [append_nil]

omit h in
theorem keepShort (h : ctx.Absorbed engine done []) (hl : mcpb.Contains l)
    (hle : l.length ≤ md.blockSize) :
    ∃ ctx', OpenHMR.keepShort ctx mcpb = some ctx' ∧ ctx'.Absorbed engine done l := by
  have hlen := hl.len_eq
  have htail : ctx.tmp.tail = ctx.tmp.data := h.contains.tail_eq
  rw [OpenHMR.keepShort]
  split_ifs with hne
  · obtain ⟨b, hstore, b', hput, hb', hhead, hdata, hend⟩ := h.contains.put
      (show ctx.tmp.tail + l.length ≤ ctx.tmp.endAddr by rw [htail, h.end_eq_data]; omega)
    refine ⟨{ ctx with tmp := b' }, ?_, ⟨h.dvd, hle, h.hash_eq, h.byteCount_eq, hb', ?_, ?_, ?_⟩⟩
    · rw [hlen, hl.bytes_eq, ← htail, hstore, bind_eq_bind, bind_some, hput]
      rfl
    · simp only [hhead]
      exact h.head_eq
    · exact hdata.trans (hhead ▸ h.data_eq)
    · exact hend.trans (hhead ▸ h.end_eq)
  · obtain rfl : l = [] := eq_nil_of_length_eq_zero (by omega)
    exact ⟨ctx, rfl, h⟩

/-- An update takes in the data of its buffer. -/
theorem digestUpdate (hl : mcpb.Contains l) (hroom : mcpb.head + mcpBuffHeadReserve = mcpb.data)
    (hlt : (done ++ rest ++ l).length < 2 ^ 64) :
    ∃ ctx' done' rest', OpenHMR.digestUpdate engine ctx mcpb = some ctx' ∧
      done' ++ rest' = done ++ rest ++ l ∧ ctx'.Absorbed engine done' rest' := by
  obtain ⟨ctx1, mcpb1, hpush, h1, hl1⟩ := h.pushShort hl hroom
  obtain ⟨d, r, hdr, hr, h2, hl2⟩ := h1.hashBlocks hl1 (by
    rw [append_assoc, length_append] at hlt
    exact hlt)
  obtain ⟨ctx', hkeep, h'⟩ := h2.keepShort hl2 hr
  refine ⟨ctx', done ++ d, r, ?_, ?_, h'⟩
  · have hhash : ctx.hash = ctx1.hash := by rw [h.hash_eq, h1.hash_eq]
    rw [OpenHMR.digestUpdate, hpush, hhash]
    exact hkeep
  · rw [append_assoc, hdr, append_assoc]

end MdCtx.Absorbed

/-! ## The padding -/

variable (md)

/-- The padding of a message of `n` bytes : `0x80`, zeros up to the next block that has room for the
length, and the length in bits. -/
def mdPad (n : ℕ) : List UInt8 :=
  0x80 :: replicate ((md.blockSize - (n + 9) % md.blockSize) % md.blockSize) 0 ++
    bigEndian64 (8 * n)

/-- The padding is up to the end of the block, or of the next one if there are 8 bytes or less. -/
theorem padSize_cases (n : ℕ) :
    (md.blockSize - n % md.blockSize ≤ 8 ∧
      padSize md n = md.blockSize - n % md.blockSize + md.blockSize) ∨
    (8 < md.blockSize - n % md.blockSize ∧ padSize md n = md.blockSize - n % md.blockSize) := by
  rcases lt_or_ge 8 (md.blockSize - n % md.blockSize) with h | h
  · exact .inr ⟨h, if_neg (by omega)⟩
  · exact .inl ⟨h, if_pos h⟩

theorem padSize_le (n : ℕ) : 9 ≤ padSize md n ∧ padSize md n ≤ md.blockSize + 8 := by
  have hpos := blockSize_pos md
  have hmod := mod_lt n hpos
  have h16 : 16 ≤ md.blockSize := by cases md <;> decide
  rcases padSize_cases md n with ⟨h, hpad⟩ | ⟨h, hpad⟩ <;> rw [hpad] <;> omega

/-- The zeros are between the byte `0x80` and the length. -/
theorem padSize_eq (n : ℕ) :
    padSize md n = (md.blockSize - (n + 9) % md.blockSize) % md.blockSize + 9 := by
  rcases padSize_cases md n with ⟨h, hpad⟩ | ⟨h, hpad⟩ <;> rw [hpad] <;> cases md <;>
    simp only [Md.blockSize] at h ⊢ <;> omega

theorem length_mdPad (n : ℕ) : (mdPad md n).length = padSize md n := by
  rw [padSize_eq, mdPad, length_append, length_cons, length_replicate]
  rfl

/-- The padded message is made of whole blocks. -/
theorem blockSize_dvd_padded (m : List UInt8) :
    md.blockSize ∣ (m ++ mdPad md m.length).length := by
  rw [length_append, length_mdPad]
  refine dvd_of_mod_eq_zero ?_
  rcases padSize_cases md m.length with ⟨h, hpad⟩ | ⟨h, hpad⟩ <;> rw [hpad] <;> cases md <;>
    simp only [Md.blockSize] at h ⊢ <;> omega

/-- The writes of the padding, one over the other. -/
theorem padding_spec {tmp : McpBuff} {n buffLen : ℕ} (hbuff : padSize md n ≤ buffLen)
    (hhead : tmp.head ≤ tmp.tail) (hend : tmp.tail + padSize md n ≤ tmp.endAddr) :
    ∃ b, tmp.store tmp.tail (mdPad md n) = some b ∧
      padding md tmp buffLen n = some (padSize md n, b) := by
  obtain ⟨hge, -⟩ := padSize_le md n
  have hzeros : (replicate (padSize md n) (0 : UInt8)).length = padSize md n :=
    length_replicate
  have hlength : (bigEndian64 (n <<< 3)).length = 8 := rfl
  obtain ⟨k, hk⟩ : ∃ k, padSize md n = k + 9 := ⟨padSize md n - 9, by omega⟩
  have hpad : mdPad md n = (0x80 : UInt8) :: replicate k 0 ++ bigEndian64 (n <<< 3) := by
    have hz := padSize_eq md n
    rw [mdPad, show (md.blockSize - (n + 9) % md.blockSize) % md.blockSize = k by omega,
      shiftLeft_eq, mul_comm n]
  have hfirst : write (write tmp.mem tmp.tail (replicate (k + 9) 0)) tmp.tail
      [0x80] = write tmp.mem tmp.tail (0x80 :: replicate (k + 8) 0) :=
    write_write tmp.mem tmp.tail (k := 0) (by rw [length_replicate]; simp)
  have hsecond : write (write tmp.mem tmp.tail (0x80 :: replicate (k + 8) 0))
      (tmp.tail + (k + 1)) (bigEndian64 (n <<< 3)) =
        write tmp.mem tmp.tail (mdPad md n) := by
    rw [write_write _ _ (by rw [length_cons, length_replicate, hlength]), hpad,
      hlength, take_succ_cons, take_replicate, min_eq_left (by omega),
      drop_of_length_le (by rw [length_cons, length_replicate]), append_nil]
  have hzero : write tmp.mem tmp.tail (replicate (k + 9) 0) tmp.tail = 0 := by
    have h0 := write_add (l := replicate (k + 9) (0 : UInt8)) tmp.mem tmp.tail (i := 0)
      (by rw [length_replicate]; omega)
    rwa [getElem_replicate] at h0
  refine ⟨_, if_pos ⟨hhead, by rwa [length_mdPad]⟩, ?_⟩
  rw [hk] at hend
  simp only [padding, hk, if_neg (show ¬buffLen < k + 9 by omega), store,
    length_replicate, if_pos (And.intro hhead hend), bind_eq_bind, bind_some,
    length_singleton, hzero]
  rw [if_pos ⟨hhead, by omega⟩, bind_some, show (0 : UInt8) ||| 0x80 = 0x80 from rfl, hfirst]
  simp only [show tmp.tail + (k + 9) - 8 = tmp.tail + (k + 1) by omega, hlength, hsecond]
  rw [if_pos ⟨by omega, by omega⟩]
  rfl

variable {md}

/-! ## The digest -/

/-- The digest of a message : the compression function on the blocks of the padded message. -/
def mdDigest (engine : HashEngine md) (m : List UInt8) : List UInt8 :=
  (blocks md.blockSize (m ++ mdPad md m.length)).foldl engine.compress md.initHash

/-- A context as `DigestInit` leaves it. -/
def MdCtx.Fresh (md : Md) (ctx : MdCtx) : Prop :=
  ∃ ctx0 addr mem, McpBuff.Kseg0 addr md.blockSize ∧ digestInit md ctx0 addr mem = some ctx

theorem digestInit_eq (md : Md) (ctx : MdCtx) {addr : ℕ} (haddr : McpBuff.Kseg0 addr md.blockSize)
    (mem : ℕ → UInt8) : ∃ head, head = addr + sizeofMcpBuff ∧
      head + md.blockSize + mcpBuffReserveArea < 2 ^ 32 ∧
      digestInit md ctx addr mem = some ⟨⟨mem, head, head + mcpBuffHeadReserve,
        head + mcpBuffHeadReserve, head + md.blockSize + mcpBuffReserveArea, 0⟩, 0,
        md.initHash⟩ := by
  have hreserve : mcpBuffReserveArea = mcpBuffHeadReserve + mcpBuffTailReserve := rfl
  obtain ⟨head, hhead, hend, halloc⟩ := alloc_spec mem haddr (by cases md <;> decide)
  refine ⟨head, hhead, by omega, ?_⟩
  rw [digestInit, halloc, bind_eq_bind, bind_some, mdCtxInit,
    purge_spec (by simp only; omega) (by simp only; omega)]
  rfl

theorem MdCtx.Fresh.absorbed (engine : HashEngine md) {ctx : MdCtx} (h : ctx.Fresh md) :
    ctx.Absorbed engine [] [] := by
  have hreserve : mcpBuffReserveArea = mcpBuffHeadReserve + mcpBuffTailReserve := rfl
  obtain ⟨ctx0, addr, mem, haddr, h⟩ := h
  obtain ⟨head, hhead, hend, hinit⟩ := digestInit_eq md ctx0 haddr mem
  rw [hinit] at h
  obtain rfl := some.inj h
  refine ⟨dvd_zero _, zero_le _, ?_, rfl,
    ⟨le_add_right _ _, rfl, by simp only; omega, hend, rfl, rfl⟩, ⟨addr, haddr, hhead⟩, rfl, rfl⟩
  rw [Blocks.blocks_eq_nil (blockSize_pos md)]
  rfl

/-- `DigestFinal` gives the digest, and the context is as a new one. -/
theorem MdCtx.Absorbed.digestFinal {engine : HashEngine md} {done rest : List UInt8} {ctx : MdCtx}
    (h : ctx.Absorbed engine done rest) (hlt : (done ++ rest).length < 2 ^ 32) :
    ∃ ctx', OpenHMR.digestFinal engine ctx = some (mdDigest engine (done ++ rest), ctx') ∧
      ctx'.Fresh md := by
  have hdone := h.contains
  obtain ⟨n, hn⟩ : ∃ n, n = (done ++ rest).length := ⟨_, rfl⟩
  have hdata : (ctx.byteCount + ctx.tmp.len) % 2 ^ 32 = n := by
    rw [h.byteCount_eq, hdone.len_eq, ← length_append, ← hn]
    exact mod_eq_of_lt (hn ▸ hlt)
  have hrest := h.rest_le
  have hend := h.end_eq_data
  have htail := hdone.tail_eq
  have hendlt := hdone.end_lt
  have hreserve : mcpBuffTailReserve = 128 := rfl
  obtain ⟨-, hpad⟩ := padSize_le md n
  have hsize := blockSize_le md
  have hroom : ctx.tmp.tail + (mdPad md n).length ≤ ctx.tmp.endAddr := by
    rw [length_mdPad]
    omega
  obtain ⟨b, hstore, b', hput, hb', hhead, -, hendAddr⟩ := hdone.put hroom
  rw [length_mdPad] at hroom hput
  have htailroom : padSize md n ≤ ctx.tmp.tailroom := by
    rw [tailroom]
    omega
  obtain ⟨b1, hstore1, hpadding⟩ :=
    padding_spec md htailroom (by have := hdone.head_le; omega) hroom
  obtain rfl : b = b1 := some.inj (hstore.symm.trans hstore1)
  have hblocks : md.blockSize ∣ (rest ++ mdPad md n).length := by
    have hall := blockSize_dvd_padded md (done ++ rest)
    rw [← hn, append_assoc, length_append] at hall
    exact (Nat.dvd_add_right h.dvd).1 hall
  have hhash : hashing engine (ivUpdate ctx.hash) (b'.bytes b'.len) ctx.hash =
      mdDigest engine (done ++ rest) := by
    rw [hb'.len_eq, hb'.bytes_eq, hashing_eq engine h.length_hash hblocks, h.foldl_append, mdDigest,
      ← hn, append_assoc]
  have hpurge : b'.purge = some ⟨b'.mem, ctx.tmp.head, ctx.tmp.head + mcpBuffHeadReserve,
      ctx.tmp.head + mcpBuffHeadReserve, ctx.tmp.head + md.blockSize + mcpBuffReserveArea, 0⟩ := by
    have hdata := h.data_eq
    rw [purge_spec (by omega) hb'.end_lt, hhead, hendAddr, h.end_eq]
  obtain ⟨addr, haddr, hhead⟩ := h.head_eq
  obtain ⟨head, rfl, -, hinit⟩ := digestInit_eq md ctx haddr b'.mem
  refine ⟨_, ?_, ctx, addr, b'.mem, haddr, hinit⟩
  rw [OpenHMR.digestFinal]
  simp only [hdata, hpadding, bind_eq_bind, bind_some, hput, hhash, mdCtxInit, hpurge, hhead]
  rfl

/-- The message that is in the buffers. -/
def message (buffs : List DigestBuff) : List UInt8 :=
  (buffs.map DigestBuff.bytes).flatten

/-- All calls, on any split of the message. -/
theorem digestUpdates_spec (engine : HashEngine md) :
    ∀ {buffs : List DigestBuff} {ctx : MdCtx} {done rest : List UInt8},
      ctx.Absorbed engine done rest →
      (∀ b ∈ buffs, b.bytes.length + mcpBuffReserveArea + sizeofMcpBuff ≤ 2 ^ 30) →
      (done ++ rest ++ message buffs).length < 2 ^ 64 →
      ∃ ctx' done' rest', digestUpdates engine ctx buffs = some ctx' ∧
        done' ++ rest' = done ++ rest ++ message buffs ∧ ctx'.Absorbed engine done' rest'
  | [], ctx, done, rest, h, _, _ =>
    ⟨ctx, done, rest, rfl, (append_nil _).symm, h⟩
  | b :: buffs, ctx, done, rest, h, hbuffs, hlt => by
    have hmsg : message (b :: buffs) = b.bytes ++ message buffs := rfl
    rw [hmsg, ← append_assoc] at hlt ⊢
    obtain ⟨mcpb, hfilled, hmcpb, hroom⟩ := filled_spec b.mem b.kseg0
      (hbuffs b mem_cons_self)
    obtain ⟨ctx1, done1, rest1, hupdate, heq, h1⟩ := h.digestUpdate hmcpb hroom (by
      rw [length_append] at hlt
      omega)
    rw [← heq] at hlt ⊢
    obtain ⟨ctx', done', rest', hrun, heq', h'⟩ := digestUpdates_spec engine h1
      (fun b hb => hbuffs b (mem_cons_of_mem _ hb)) hlt
    refine ⟨ctx', done', rest', ?_, heq', h'⟩
    simp only [digestUpdates, hfilled, bind_eq_bind, bind_some, hupdate, hrun]

/-- If the updates can be made, there was room for each buffer. -/
theorem digestUpdates_room (engine : HashEngine md) :
    ∀ {buffs : List DigestBuff} {ctx ctx' : MdCtx},
      (message buffs).length < 2 ^ 32 → digestUpdates engine ctx buffs = some ctx' →
      ∀ b ∈ buffs, b.bytes.length + mcpBuffReserveArea + sizeofMcpBuff ≤ 2 ^ 30
  | [], _, _, _, _ => fun _ hb => absurd hb not_mem_nil
  | b0 :: buffs, ctx, ctx', hlt, hrun => by
    have hmsg : (message (b0 :: buffs)).length = b0.bytes.length + (message buffs).length :=
      length_append
    obtain ⟨mcpb, hfilled, hrun⟩ := bind_eq_some_iff.1 hrun
    obtain ⟨ctx1, -, hrun⟩ := bind_eq_some_iff.1 hrun
    intro b hb
    rcases mem_cons.1 hb with rfl | hb
    · by_contra hgt
      rw [filled_eq_none b.mem b.kseg0 (by omega) (not_le.1 hgt)] at hfilled
      cases hfilled
    · exact digestUpdates_room engine (by omega) hrun b hb

/-- The digest is that of the message, and the context is as a new one after it. -/
def Digests (engine : HashEngine md) (ctx : MdCtx) (buffs : List DigestBuff) : Prop :=
  ∃ ctx', digestBuffs engine ctx buffs = some (mdDigest engine (message buffs), ctx') ∧
    ctx'.Fresh md

/-- However a message is split into buffers, the digest is right, if and only if the size of each
buffer, with the room that is reserved, is at most `2 ^ 30`. -/
theorem digests_iff (engine : HashEngine md) {ctx : MdCtx} (hctx : ctx.Fresh md)
    (buffs : List DigestBuff) (hlt : (message buffs).length < 2 ^ 32) :
    Digests engine ctx buffs ↔
      ∀ b ∈ buffs, b.bytes.length + mcpBuffReserveArea + sizeofMcpBuff ≤ 2 ^ 30 := by
  constructor
  · rintro ⟨ctx', hrun, -⟩
    obtain ⟨ctx1, hupdates, -⟩ := bind_eq_some_iff.1 hrun
    exact digestUpdates_room engine hlt hupdates
  · intro hbuffs
    obtain ⟨ctx1, done, rest, hupdates, heq, h1⟩ :=
      digestUpdates_spec engine (hctx.absorbed engine) hbuffs (hlt.trans (by decide))
    rw [nil_append, nil_append] at heq
    obtain ⟨ctx', hfinal, hfresh⟩ := h1.digestFinal (heq ▸ hlt)
    refine ⟨ctx', ?_, hfresh⟩
    rw [digestBuffs, hupdates, bind_eq_bind, bind_some, hfinal, heq]

/-- An engine whose compression function adds up the bytes of a block. -/
def addEngine (md : Md) : HashEngine md where
  run := fun iv data => (blocks md.blockSize data).foldl
    (fun hash b => replicate md.digestSize (hash.sum + b.sum)) (ivBytes iv)
  compress := fun hash b => replicate md.digestSize (hash.sum + b.sum)
  length_compress := fun _ _ => length_replicate
  run_eq := fun _ _ _ => rfl

/-- The block of a buffer is small, or is not obtained, or is a page. -/
theorem kseg0_of_size {n : ℕ} (h : n + 276 < 2 ^ 12 ∨ 2 ^ 30 < n + 276 ∧ n + 276 < 2 ^ 32) :
    McpBuff.Kseg0 0x81000000 n := by
  refine ⟨by decide, fun size hsize => ?_⟩
  have hpage : maxMcpbLen = 4096 := rfl
  rw [show n + mcpBuffReserveArea + sizeofMcpBuff = n + 276 from rfl,
    Nat.mod_eq_of_lt (by omega), mem_def] at hsize
  rcases h with h | ⟨h, hlt⟩
  · rw [mcpBlockSize, if_neg (by omega), some.injEq] at hsize
    omega
  · rw [mcpBlockSize_of_gt h hlt] at hsize
    split_ifs at hsize
    rw [some.injEq] at hsize
    omega

/-- A buffer of such a size. -/
def buffOf (bytes : List UInt8)
    (h : bytes.length + 276 < 2 ^ 12 ∨ 2 ^ 30 < bytes.length + 276 ∧ bytes.length + 276 < 2 ^ 32) :
    DigestBuff :=
  ⟨bytes, 0x81000000, fun _ => 0xFF, kseg0_of_size h⟩

/-- A new context. -/
def newCtx (md : Md) : MdCtx :=
  ⟨⟨fun _ => 0, 0x81000014, 0x81000094, 0x81000094, 0x81000014 + md.blockSize + 256, 0⟩, 0,
    md.initHash⟩

theorem fresh_newCtx (md : Md) : (newCtx md).Fresh md := by
  have haddr : McpBuff.Kseg0 0x81000000 md.blockSize := kseg0_of_size (by cases md <;> decide)
  obtain ⟨head, rfl, -, hinit⟩ := digestInit_eq md (newCtx md) haddr fun _ => 0
  exact ⟨newCtx md, _, _, haddr, hinit⟩

/-- A message of 65 bytes, of which the first block is kept back for the second buffer. -/
theorem digests_of_two : Digests (addEngine .sha1) (newCtx .sha1)
    [buffOf (replicate 64 1) (by decide), buffOf [2] (by decide)] :=
  (digests_iff (addEngine .sha1) (fresh_newCtx .sha1) _ (by decide)).2 (by
    rintro b (_ | ⟨_, _ | ⟨_, ⟨⟩⟩⟩) <;> decide)

/-- For a buffer of `2 ^ 30` bytes `cal_order` does not return, and one of `2 ^ 31` bytes gets a
page. -/
theorem not_digests :
    (¬Digests (addEngine .sha1) (newCtx .sha1)
      [buffOf (replicate (2 ^ 30) 0) (by rw [length_replicate]; decide)]) ∧
    ¬Digests (addEngine .sha1) (newCtx .sha1)
      [buffOf (replicate (2 ^ 31) 0) (by rw [length_replicate]; decide)] := by
  have hnot {bytes} (h) (hgt : 2 ^ 30 < bytes.length + 276) :
      ¬Digests (addEngine .sha1) (newCtx .sha1) [buffOf bytes h] := by
    rintro ⟨ctx', hrun, -⟩
    obtain ⟨ctx1, hupdates, -⟩ := bind_eq_some_iff.1 hrun
    have hmsg : message [buffOf bytes h] = bytes := flatten_singleton
    have hroom := digestUpdates_room (addEngine .sha1) (by rw [hmsg]; omega) hupdates _
      mem_cons_self
    exact absurd hgt (not_lt.2 hroom)
  constructor <;> refine hnot _ ?_ <;> rw [length_replicate] <;> decide

end OpenHMR
