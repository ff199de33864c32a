import OpenHMR.Buffer
import OpenHMR.McpEngine

/-!
# Ciphers (`drivers/mcp/mcp_cipher.c`, `aes.c`, `des.c`, `tdes.c`)

`MCP_CipherUpdate` takes data of any length, from one place in memory to another. The engine works
on whole blocks : what is left over is kept in the array `buff` of the context, and is completed to
a block by the next update. `MCP_CipherFinal` puts out what is left over as it is. In `CBC` mode the
initial vector for the next blocks is saved, from the output in encryption and from the input in
decryption.

The three ciphers are one code with other block sizes. Numbers are 32 bits wide, and the length of
the output is an `int`. This is enough if the places of the input, of the output and of `buff` are
apart in an address space of 32 bits (`CipherCall.Fits`).
-/

namespace OpenHMR

open List Nat

open Blocks (blocks rest)
open Memory (read write Apart)

/-- `MAX_CIPHER_BLOCK_SIZE`. -/
def maxCipherBlockSize : ℕ := 32

/-- `MCP_CIPHER_CTX` with its `AES_CTX`, `DES_CTX` or `TDES_CTX`. The array `buff` is in the memory,
at the address `buff`. -/
structure CipherCtx where
  mode : Bcm
  enc : Bool
  key : List UInt8
  iv : List UInt8
  buffLen : ℕ
  buff : ℕ

/-- An `unsigned long` as an `int`. -/
def ulongToInt (n : ℕ) : ℤ :=
  if n % 2 ^ 32 < 2 ^ 31 then (n % 2 ^ 32 : ℕ) else (n % 2 ^ 32 : ℕ) - 2 ^ 32

variable {algo : Algo}

/-- `AES_128_ECB_Init`, `AES_128_CBC_Init` and so on, by `MCP_CipherInit`. An initial vector that is
not given, or not used, is 0. -/
def cipherInit (algo : Algo) (mode : Bcm) (key : List UInt8) (iv : Option (List UInt8)) (enc : Bool)
    (buff : ℕ) : CipherCtx where
  mode := mode
  enc := enc
  key := key
  iv := match mode, iv with
    | .cbc, some iv => iv.take algo.blockSize
    | _, _ => replicate algo.blockSize 0
  buffLen := 0
  buff := buff

variable (engine : CipherEngine algo)

/-- `AES_DoCipher`, `DES_DoCipher` and `TDES_DoCipher` : the result, the context and the memory. -/
def doCipher (ctx : CipherCtx) (mem : ℕ → UInt8) (inp len out : ℕ) :
    ℤ × CipherCtx × (ℕ → UInt8) :=
  let len := len - len % algo.blockSize
  if len ≠ 0 then
    if ctx.enc then
      let mem := engine.run true ctx.mode ctx.key (ivUpdate ctx.iv) mem inp out len
      -- the initial vector is saved from the output
      (ulongToInt len, if ctx.mode = .cbc then
        { ctx with iv := read mem (out + len - algo.blockSize) algo.blockSize } else ctx, mem)
    else
      -- the initial vector is saved from the input, before the output is written
      (ulongToInt len, if ctx.mode = .cbc then
        { ctx with iv := read mem (inp + len - algo.blockSize) algo.blockSize } else ctx,
        engine.run false ctx.mode ctx.key (ivUpdate ctx.iv) mem inp out len)
  else (ulongToInt len, ctx, mem)

/-- `MCP_CipherUpdate` after a block that was kept is done; `outl` bytes were put out. -/
def cipherRest (ctx : CipherCtx) (mem : ℕ → UInt8) (inp len out : ℕ) (outl : ℤ) :
    ℤ × CipherCtx × (ℕ → UInt8) :=
  if len ≠ 0 then
    let (ret, ctx, mem) := doCipher engine ctx mem inp len out
    if ret < 0 then (ret, ctx, mem)
    else
      let inp := inp + ret.toNat
      let len := len - ret.toNat
      if len ≠ 0 then
        (outl + ret, { ctx with buffLen := len % 256 }, write mem ctx.buff (read mem inp len))
      else (outl + ret, ctx, mem)
  else (outl, ctx, mem)

/-- `MCP_CipherUpdate` : the result, the context and the memory. -/
def cipherUpdate (ctx : CipherCtx) (mem : ℕ → UInt8) (inp len out : ℕ) :
    ℤ × CipherCtx × (ℕ → UInt8) :=
  if ctx.buffLen ≠ 0 then
    if (ctx.buffLen + len) % 2 ^ 32 < algo.blockSize then
      (0, { ctx with buffLen := (ctx.buffLen + len) % 256 },
        write mem (ctx.buff + ctx.buffLen) (read mem inp len))
    else
      let n := algo.blockSize - ctx.buffLen
      let mem := write mem (ctx.buff + ctx.buffLen) (read mem inp n)
      let (ret, ctx, mem) := doCipher engine ctx mem ctx.buff algo.blockSize out
      if ret < 0 then (ret, ctx, mem)
      else cipherRest engine { ctx with buffLen := 0 } mem (inp + n) (len - n) (out + ret.toNat) ret
  else cipherRest engine ctx mem inp len out 0

/-- `MCP_CipherFinal` : the result, the context and the memory. -/
def cipherFinal (ctx : CipherCtx) (mem : ℕ → UInt8) (out : ℕ) : ℕ × CipherCtx × (ℕ → UInt8) :=
  if ctx.buffLen ≠ 0 then
    (ctx.buffLen, { ctx with buffLen := 0 }, write mem out (read mem ctx.buff ctx.buffLen))
  else (ctx.buffLen, ctx, mem)

/-! ## What is put out -/

namespace CipherEngine

/-- What is put out for the blocks of `l`. -/
def output (ctx : CipherCtx) (l : List UInt8) : List UInt8 :=
  (cipherBlocks (engine.E ctx.key) (engine.D ctx.key) ctx.enc ctx.mode ctx.iv
    (blocks algo.blockSize l)).flatten

/-- The initial vector after the blocks of `l`. -/
def ivAfter (ctx : CipherCtx) (l : List UInt8) : List UInt8 :=
  nextIv (engine.E ctx.key) (engine.D ctx.key) ctx.enc ctx.mode ctx.iv (blocks algo.blockSize l)

/-- The context after the data `l` : the initial vector is that after its blocks, and the rest is
kept. -/
def ctxAfter (ctx : CipherCtx) (l : List UInt8) : CipherCtx :=
  { ctx with iv := engine.ivAfter ctx l, buffLen := l.length % algo.blockSize }

variable {engine} {ctx : CipherCtx}

theorem blockSize_pos (algo : Algo) : 0 < algo.blockSize := by
  cases algo <;> decide

theorem length_of_mem_output (engine : CipherEngine algo) (hiv : ctx.iv.length = algo.blockSize)
    (l : List UInt8) :
    ∀ b ∈ cipherBlocks (engine.E ctx.key) (engine.D ctx.key) ctx.enc ctx.mode ctx.iv
      (blocks algo.blockSize l), b.length = algo.blockSize :=
  length_of_mem_cipherBlocks (engine.length_E ctx.key) (engine.length_D ctx.key) hiv
    fun _ hb => Blocks.length_of_mem_blocks hb

theorem length_output (hiv : ctx.iv.length = algo.blockSize) (l : List UInt8) :
    (engine.output ctx l).length = algo.blockSize * (l.length / algo.blockSize) := by
  rw [output, Buffer.length_flatten_pages (length_of_mem_output engine hiv l), length_cipherBlocks,
    Blocks.length_blocks, mul_comm]

theorem length_ivAfter (hiv : ctx.iv.length = algo.blockSize) (l : List UInt8) :
    (engine.ivAfter ctx l).length = algo.blockSize :=
  length_nextIv (engine.length_E ctx.key) (engine.length_D ctx.key) hiv
    fun _ hb => Blocks.length_of_mem_blocks hb

theorem output_of_lt (ctx : CipherCtx) {l : List UInt8} (h : l.length < algo.blockSize) :
    engine.output ctx l = [] := by
  rw [output, Blocks.blocks_eq_nil h]
  obtain ⟨mode, enc, -, -, -, -⟩ := ctx
  cases mode <;> cases enc <;> rfl

theorem ivAfter_of_lt (ctx : CipherCtx) {l : List UInt8} (h : l.length < algo.blockSize) :
    engine.ivAfter ctx l = ctx.iv := by
  rw [ivAfter, Blocks.blocks_eq_nil h]
  obtain ⟨mode, enc, -, -, -, -⟩ := ctx
  cases mode <;> cases enc <;> rfl

/-- What is left over of `l` is put in front of the next data. -/
theorem output_append (ctx : CipherCtx) (l l' : List UInt8) :
    engine.output ctx (l ++ l') =
      engine.output ctx l ++ engine.output (engine.ctxAfter ctx l)
        (rest algo.blockSize l ++ l') := by
  rw [output, Blocks.blocks_append_rest (blockSize_pos algo), cipherBlocks_append, flatten_append]
  rfl

theorem ivAfter_append (ctx : CipherCtx) (l l' : List UInt8) :
    engine.ivAfter ctx (l ++ l') =
      engine.ivAfter (engine.ctxAfter ctx l) (rest algo.blockSize l ++ l') := by
  rw [ivAfter, Blocks.blocks_append_rest (blockSize_pos algo), nextIv_append]
  rfl

theorem ctxAfter_append (ctx : CipherCtx) (l l' : List UInt8) :
    engine.ctxAfter ctx (l ++ l') =
      engine.ctxAfter (engine.ctxAfter ctx l) (rest algo.blockSize l ++ l') := by
  have hlen : (l ++ l').length % algo.blockSize =
      (rest algo.blockSize l ++ l').length % algo.blockSize := by
    rw [length_append, length_append, Blocks.length_rest, mod_add_mod]
  rw [ctxAfter, ivAfter_append, hlen]
  rfl

end CipherEngine

/-! ## The calls -/

section Calls

variable {engine} {ctx : CipherCtx} {mem : ℕ → UInt8} {inp len out n : ℕ} {l r : List UInt8}

open CipherEngine

theorem ulongToInt_of_lt (h : n < 2 ^ 31) : ulongToInt n = n := by
  have hmod : n % 2 ^ 32 = n := mod_eq_of_lt (by omega)
  rw [ulongToInt, hmod, if_pos h]

theorem ivBytes_iv (hiv : ctx.iv.length = algo.blockSize) : ivBytes (ivUpdate ctx.iv) = ctx.iv := by
  cases algo
  · exact ivBytes_ivUpdate (n := 4) hiv
  · exact ivBytes_ivUpdate (n := 2) hiv
  · exact ivBytes_ivUpdate (n := 2) hiv

/-- The last block of some blocks in memory. -/
theorem read_last {bs : List (List UInt8)} {a k : ℕ} (hk : 0 < k) (hn : n = k * bs.length)
    (hpos : 0 < n) (hbs : ∀ b ∈ bs, b.length = k) (hread : read mem a n = bs.flatten)
    (d : List UInt8) : read mem (a + n - k) k = bs.getLastD d := by
  have hne : bs ≠ [] := by
    rintro rfl
    rw [hn] at hpos
    exact absurd hpos (by simp)
  have hlen : 1 ≤ bs.length := length_pos_of_ne_nil hne
  obtain ⟨j, hj⟩ : ∃ j, bs.length = j + 1 := ⟨bs.length - 1, by omega⟩
  rw [hj, mul_succ] at hn
  rw [← Blocks.drop_flatten d hne hbs, ← hread, hj, Nat.add_sub_cancel,
    Memory.drop_read _ _ (by omega), hn, Nat.add_sub_cancel_left,
    ← Nat.add_assoc, Nat.add_sub_cancel]

/-- The blocks of the input are put out. -/
theorem doCipher_eq (hiv : ctx.iv.length = algo.blockSize) (hl : read mem inp len = l)
    (hn : n = algo.blockSize * (len / algo.blockSize))
    (hplace : inp = out ∨ inp + n ≤ out ∨ out + n ≤ inp) :
    doCipher engine ctx mem inp len out =
      (ulongToInt n, { ctx with iv := engine.ivAfter ctx l },
        write mem out (engine.output ctx l)) := by
  have hpos := blockSize_pos algo
  have hlen : l.length = len := by rw [← hl, Memory.length_read]
  have hmod : len - len % algo.blockSize = n := by
    have := div_add_mod len algo.blockSize
    omega
  have hdvd : algo.blockSize ∣ n := hn ▸ dvd_mul_right _ _
  have hblocks : blocks algo.blockSize (read mem inp n) = blocks algo.blockSize l := by
    rw [← Memory.take_read mem inp (show n ≤ len by omega), hl, ← Blocks.blocks_take hpos l, hlen,
      hn]
  have hrun : ∀ enc, engine.run enc ctx.mode ctx.key (ivUpdate ctx.iv) mem inp out n =
      write mem out (cipherBlocks (engine.E ctx.key) (engine.D ctx.key) enc ctx.mode ctx.iv
        (blocks algo.blockSize l)).flatten := fun enc => by
    rw [engine.run_eq enc ctx.mode ctx.key _ mem inp out n hdvd hplace, hblocks, ivBytes_iv hiv]
  have hnum : (blocks algo.blockSize l).length = len / algo.blockSize := by
    rw [Blocks.length_blocks, hlen]
  have hflat : read mem inp n = (blocks algo.blockSize l).flatten := by
    rw [Blocks.flatten_blocks, hlen, ← hl, Memory.take_read mem inp (by omega), hn]
  have hout : read (write mem out (engine.output ctx l)) out n = engine.output ctx l := by
    have hread := Memory.read_write mem out (engine.output ctx l)
    rwa [length_output hiv, hlen, ← hn] at hread
  have hmem := length_of_mem_output engine hiv l
  obtain ⟨mode, enc, key, iv, buffLen, buff⟩ := ctx
  rw [doCipher]
  simp only [hmod]
  by_cases h0 : n = 0
  · have hnil : blocks algo.blockSize l = [] := by
      refine eq_nil_of_length_eq_zero ?_
      rw [hnum]
      exact (Nat.mul_eq_zero.1 (hn.symm.trans h0)).resolve_left hpos.ne'
    rw [if_neg (not_not.2 h0), output, ivAfter, hnil]
    cases mode <;> cases enc <;> simp [cipherBlocks, nextIv, Blocks.cbcEnc, Blocks.cbcDec]
  · have hpos' : 0 < n := Nat.pos_of_ne_zero h0
    rw [if_pos h0]
    cases mode <;> cases enc
    · simp only [hrun]
      rfl
    · simp only [hrun]
      rfl
    · have hlast := read_last hpos (by rw [hnum, hn]) hpos'
        (fun _ hb => Blocks.length_of_mem_blocks hb) hflat iv
      simp only [hrun, Bool.false_eq_true, if_false, if_true, hlast]
      rfl
    · have hlast := read_last hpos (by rw [length_cipherBlocks, hnum, hn]) hpos' hmem hout iv
      simp only [output] at hlast
      simp only [hrun, if_true, hlast]
      rfl

/-- The rest of the input is kept, after the blocks of it. -/
theorem cipherRest_eq (engine : CipherEngine algo) (hiv : ctx.iv.length = algo.blockSize)
    (hl : read mem inp len = l)
    (hn : n = algo.blockSize * (len / algo.blockSize)) (hlt : n < 2 ^ 31)
    (hplace : inp = out ∨ Apart inp len out n) (hb : ctx.buffLen = 0) (outl : ℤ) :
    cipherRest engine ctx mem inp len out outl = (outl + n, engine.ctxAfter ctx l,
      write (write mem out (engine.output ctx l)) ctx.buff (rest algo.blockSize l)) := by
  have hpos := blockSize_pos algo
  have hsize : algo.blockSize ≤ 16 := by cases algo <;> decide
  have hlen : l.length = len := by rw [← hl, Memory.length_read]
  have hmod : len - n = len % algo.blockSize := by
    have := div_add_mod len algo.blockSize
    omega
  have hle : n ≤ len := hn ▸ mul_div_le _ _
  have hmodlt := mod_lt len hpos
  rw [cipherRest]
  split_ifs with h0
  · have hplace' : inp = out ∨ inp + n ≤ out ∨ out + n ≤ inp := by
      rcases hplace with h | h | h | h | h <;> omega
    have hrest : read (write mem out (engine.output ctx l)) (inp + n) (len - n) =
        rest algo.blockSize l := by
      rw [Memory.read_write_of_apart, rest, ← hl, Memory.length_read, ← hn, Memory.drop_read _ _
        hle]
      rw [length_output hiv, hlen, ← hn]
      rcases hplace with rfl | h | h | h | h
      · exact .inr (.inr (.inl le_rfl))
      · omega
      · exact .inl h
      · exact .inr (.inr (.inr (by omega)))
      · exact .inr (.inr (.inl (by omega)))
    simp only [doCipher_eq hiv hl hn hplace', ulongToInt_of_lt hlt, Int.toNat_natCast,
      if_neg (show ¬(n : ℤ) < 0 by omega), hrest]
    rw [hmod]
    split_ifs with hm
    · rw [ctxAfter, hlen, mod_eq_of_lt (show len % algo.blockSize < 256 by omega)]
    · have hnil : rest algo.blockSize l = [] :=
        eq_nil_of_length_eq_zero (by rw [Blocks.length_rest, hlen]; omega)
      rw [ctxAfter, hlen, not_not.1 hm, hnil, Memory.write_nil, hb]
  · obtain rfl : len = 0 := not_not.1 h0
    obtain rfl : l = [] := eq_nil_of_length_eq_zero hlen
    have hlt0 : ([] : List UInt8).length < algo.blockSize := hpos
    obtain rfl : n = 0 := by omega
    rw [output_of_lt ctx hlt0, Blocks.rest_of_lt hlt0, ctxAfter, ivAfter_of_lt ctx hlt0,
      Memory.write_nil, Memory.write_nil, length_nil, zero_mod, Int.natCast_zero,
      Int.add_zero, ← hb]

/-- The places of the input, of the output and of `buff` are apart, in 32 bits. -/
structure Fits (buff inp len out n : ℕ) : Prop where
  inp_le : inp + len ≤ 2 ^ 32
  out_le : out + n ≤ 2 ^ 32
  buff_le : buff + maxCipherBlockSize ≤ 2 ^ 32
  inp_out : Apart inp len out n
  buff_inp : Apart buff maxCipherBlockSize inp len
  buff_out : Apart buff maxCipherBlockSize out n

/-- There is no room for an overflow. -/
theorem Fits.lt {buff : ℕ} (h : Fits buff inp len out n) (hn : n ≤ len + 15) :
    len + 15 < 2 ^ 32 ∧ n < 2 ^ 31 := by
  obtain ⟨h1, h2, h3, h4, h5, h6⟩ := h
  simp only [Apart, maxCipherBlockSize] at h3 h4 h5 h6
  omega

/-- What is kept and the input make less than a block. -/
theorem cipherUpdate_short (engine : CipherEngine algo) (out : ℕ) (hr : r ≠ [])
    (hsum : r.length + len < algo.blockSize)
    (hlen : ctx.buffLen = r.length) (hbuff : read mem ctx.buff r.length = r)
    (hl : read mem inp len = l) :
    ∃ mem', cipherUpdate engine ctx mem inp len out = (0, engine.ctxAfter ctx (r ++ l), mem') ∧
      mem' = write mem (ctx.buff + r.length) l ∧
      read mem' ctx.buff (r ++ l).length = r ++ l := by
  have hsize : algo.blockSize ≤ 16 := by cases algo <;> decide
  have hne : r.length ≠ 0 := fun h => hr (eq_nil_of_length_eq_zero h)
  have hll : l.length = len := by rw [← hl, Memory.length_read]
  have happ : (r ++ l).length < algo.blockSize := by rwa [length_append, hll]
  refine ⟨write mem (ctx.buff + r.length) l, ?_, rfl, ?_⟩
  · rw [cipherUpdate, if_pos (by rwa [hlen]), hlen, mod_eq_of_lt (by omega), if_pos hsum, hl,
      ctxAfter, ivAfter_of_lt ctx happ, mod_eq_of_lt happ, length_append, hll,
      mod_eq_of_lt (by omega)]
  · rw [length_append, Memory.read_add, Memory.read_write,
      Memory.read_write_of_apart _ (.inr (.inr (.inr le_rfl))), hbuff]

/-- What is kept is completed to a block, and the rest of the input follows. -/
theorem cipherUpdate_long (hiv : ctx.iv.length = algo.blockSize) (hr : r ≠ [])
    (hrlt : r.length < algo.blockSize) (hsum : algo.blockSize ≤ r.length + len)
    (hlen : ctx.buffLen = r.length) (hbuff : read mem ctx.buff r.length = r)
    (hl : read mem inp len = l) (hn : n = algo.blockSize * ((r.length + len) / algo.blockSize))
    (hfits : Fits ctx.buff inp len out n) :
    cipherUpdate engine ctx mem inp len out = ((n : ℤ), engine.ctxAfter ctx (r ++ l),
      write (write (write mem (ctx.buff + r.length) (l.take (algo.blockSize - r.length))) out
        (engine.output ctx (r ++ l))) ctx.buff (rest algo.blockSize (r ++ l))) := by
  have hpos := blockSize_pos algo
  have hsize : algo.blockSize ≤ 16 := by cases algo <;> decide
  have hne : r.length ≠ 0 := fun h => hr (eq_nil_of_length_eq_zero h)
  have hll : l.length = len := by rw [← hl, Memory.length_read]
  have hnle : n ≤ r.length + len := hn ▸ mul_div_le _ _
  obtain ⟨hlt, hnlt⟩ := hfits.lt (by omega)
  obtain ⟨k, hk⟩ : ∃ k, k = algo.blockSize - r.length := ⟨_, rfl⟩
  -- the block that is completed
  obtain ⟨b, hb⟩ : ∃ b, b = r ++ l.take k := ⟨_, rfl⟩
  have hblen : b.length = algo.blockSize := by
    rw [hb, length_append, length_take_of_le (by omega)]
    omega
  have hsplit : r ++ l = b ++ l.drop k := by
    rw [hb, append_assoc, take_append_drop]
  have hbdvd : algo.blockSize ∣ b.length := hblen ▸ dvd_refl _
  have hbrest : rest algo.blockSize b = [] :=
    eq_nil_of_length_eq_zero (by rw [Blocks.length_rest, hblen, mod_self])
  have htake : read mem inp k = l.take k := by rw [← hl, Memory.take_read _ _ (by omega)]
  obtain ⟨mem1, hmem1⟩ : ∃ m, m = write mem (ctx.buff + r.length) (l.take k) := ⟨_, rfl⟩
  have hread1 : read mem1 ctx.buff algo.blockSize = b := by
    have hwrite := Memory.read_write mem (ctx.buff + r.length) (l.take k)
    rw [length_take_of_le (by omega)] at hwrite
    rw [show algo.blockSize = r.length + k by omega, Memory.read_add, hmem1, hwrite,
      Memory.read_write_of_apart _ (.inr (.inr (.inr le_rfl))), hbuff, hb]
  have hone : algo.blockSize = algo.blockSize * (algo.blockSize / algo.blockSize) := by
    rw [Nat.div_self hpos, mul_one]
  obtain ⟨n2, hn2⟩ : ∃ m, m = algo.blockSize * ((len - k) / algo.blockSize) := ⟨_, rfl⟩
  have hadd : n = algo.blockSize + n2 := by
    rw [hn, hn2, show r.length + len = len - k + algo.blockSize by omega, add_div_right _ hpos,
      mul_succ, add_comm]
  obtain ⟨-, -, -, hio, hbi, hbo⟩ := hfits
  have hmax : maxCipherBlockSize = 32 := rfl
  rw [hmax] at hbi hbo
  simp only [Apart] at hio hbi hbo
  have hplace : ctx.buff = out ∨ ctx.buff + algo.blockSize ≤ out ∨
      out + algo.blockSize ≤ ctx.buff := by omega
  have hout : (engine.output ctx b).length = algo.blockSize := by
    rw [length_output hiv, hblen, ← hone]
  obtain ⟨mem2, hmem2⟩ : ∃ m, m = write mem1 out (engine.output ctx b) := ⟨_, rfl⟩
  have hdrop : read mem2 (inp + k) (len - k) = l.drop k := by
    rw [hmem2, Memory.read_write_of_apart _ (by rw [hout]; simp only [Apart]; omega), hmem1,
      Memory.read_write_of_apart _ (by
        rw [length_take_of_le (by omega)]
        simp only [Apart]
        omega), ← Memory.drop_read _ _ (by omega), hl]
  have hapart : Apart (inp + k) (len - k) (out + algo.blockSize) n2 := by
    simp only [Apart]
    omega
  have hempty : (engine.ctxAfter ctx b).buffLen = 0 := by
    simp only [ctxAfter]
    rw [hblen, mod_self]
  have hnext := cipherRest_eq engine (length_ivAfter hiv b) hdrop hn2 (by omega) (.inr hapart)
    hempty
    algo.blockSize
  have hctx :
      engine.ctxAfter (engine.ctxAfter ctx b) (l.drop k) = engine.ctxAfter ctx (r ++ l) := by
    rw [hsplit, ctxAfter_append ctx b, hbrest, nil_append]
  have houtput : engine.output ctx (r ++ l) =
      engine.output ctx b ++ engine.output (engine.ctxAfter ctx b) (l.drop k) := by
    rw [hsplit, output_append ctx b, hbrest, nil_append]
  have hctxb : { ctx with iv := engine.ivAfter ctx b, buffLen := 0 } = engine.ctxAfter ctx b := by
    rw [ctxAfter, hblen, mod_self]
  have hmod : (r.length + len) % 2 ^ 32 = r.length + len := mod_eq_of_lt (by omega)
  rw [cipherUpdate, if_pos (by rwa [hlen]), hlen, hmod, if_neg (by omega)]
  simp only [← hk, htake, ← hmem1, doCipher_eq hiv hread1 hone hplace, ← hmem2,
    ulongToInt_of_lt (show algo.blockSize < 2 ^ 31 by omega), Int.toNat_natCast,
    if_neg (show ¬(algo.blockSize : ℤ) < 0 by omega), hctxb, hnext, hctx]
  rw [hmem2, hadd, houtput, hsplit, Blocks.rest_append hpos hbdvd, Memory.write_append, hout,
    Int.natCast_add]
  rfl

/-- An update puts out the blocks of what was kept and of the input, and keeps the rest. -/
theorem cipherUpdate_spec (engine : CipherEngine algo) (hiv : ctx.iv.length = algo.blockSize)
    (hr : r.length < algo.blockSize) (hlen : ctx.buffLen = r.length)
    (hbuff : read mem ctx.buff r.length = r)
    (hl : read mem inp len = l) (hn : n = algo.blockSize * ((r.length + len) / algo.blockSize))
    (hfits : Fits ctx.buff inp len out n) :
    ∃ mem', cipherUpdate engine ctx mem inp len out =
        ((n : ℤ), engine.ctxAfter ctx (r ++ l), mem') ∧
      read mem' out n = engine.output ctx (r ++ l) ∧
      read mem' ctx.buff (rest algo.blockSize (r ++ l)).length = rest algo.blockSize (r ++ l) := by
  have hpos := blockSize_pos algo
  have hsize : algo.blockSize ≤ 16 := by cases algo <;> decide
  have hll : l.length = len := by rw [← hl, Memory.length_read]
  have hnle : n ≤ r.length + len := hn ▸ mul_div_le _ _
  have hrest : (rest algo.blockSize (r ++ l)).length < algo.blockSize := by
    rw [Blocks.length_rest]
    exact mod_lt _ hpos
  have hout : (engine.output ctx (r ++ l)).length = n := by
    rw [length_output hiv, length_append, hll, hn]
  -- what is read from the output and from `buff`, after both are written
  have hboth : ∀ m, read (write (write m out (engine.output ctx (r ++ l))) ctx.buff
      (rest algo.blockSize (r ++ l))) out n = engine.output ctx (r ++ l) := by
    intro m
    have hwrite := Memory.read_write m out (engine.output ctx (r ++ l))
    rw [hout] at hwrite
    have hbo := hfits.buff_out
    rw [Memory.read_write_of_apart, hwrite]
    simp only [Apart, maxCipherBlockSize] at hbo ⊢
    omega
  by_cases hnil : r = []
  · subst hnil
    rw [nil_append] at *
    rw [length_nil, zero_add] at hn
    have hrun := cipherRest_eq engine hiv hl hn
      (hfits.lt (by simp only [length_nil] at hnle; omega)).2 (.inr hfits.inp_out) hlen 0
    have hzero : ctx.buffLen = 0 := hlen
    refine ⟨_, ?_, hboth mem, Memory.read_write _ _ _⟩
    rw [cipherUpdate, if_neg (not_not.2 hzero), hrun, Int.zero_add]
  · rcases lt_or_ge (r.length + len) algo.blockSize with hsum | hsum
    · obtain ⟨mem', hrun, -, hkept⟩ :=
        cipherUpdate_short engine out hnil hsum hlen hbuff hl
      have happ : (r ++ l).length < algo.blockSize := by rwa [length_append, hll]
      obtain rfl : n = 0 := by rw [hn, div_eq_of_lt hsum, Nat.mul_zero]
      rw [Blocks.rest_of_lt happ]
      exact ⟨mem', hrun, (output_of_lt ctx happ).symm, hkept⟩
    · exact ⟨_, cipherUpdate_long hiv hnil hr hsum hlen hbuff hl hn hfits, hboth _,
        Memory.read_write _ _ _⟩

end Calls

/-! ## Streams -/

/-- A call of `MCP_CipherUpdate` : the memory that it finds, apart from `buff`, and its arguments.
-/
structure CipherCall where
  mem : ℕ → UInt8
  inp : ℕ
  len : ℕ
  out : ℕ

/-- The input of a call. -/
def CipherCall.data (c : CipherCall) : List UInt8 :=
  read c.mem c.inp c.len

/-- Calls of `MCP_CipherUpdate` : the outputs in one list, the context and the array `kept` that is
in `buff`. It is `none` if a call fails. -/
def cipherUpdates : CipherCtx → List UInt8 → List CipherCall →
    Option (List UInt8 × CipherCtx × List UInt8)
  | ctx, kept, [] => some ([], ctx, kept)
  | ctx, kept, c :: calls =>
    let (ret, ctx, mem) := cipherUpdate engine ctx (write c.mem ctx.buff kept) c.inp c.len c.out
    if ret < 0 then none
    else do
      let (l, ctx', kept') ← cipherUpdates ctx (read mem ctx.buff maxCipherBlockSize) calls
      return (read mem c.out ret.toNat ++ l, ctx', kept')

/-- Calls of `MCP_CipherUpdate` with a new context, and `MCP_CipherFinal` to the address `out` in
the memory `mem`. -/
def cipherStream (ctx : CipherCtx) (calls : List CipherCall) (mem : ℕ → UInt8) (out : ℕ) :
    Option (List UInt8) := do
  let (l, ctx, kept) ← cipherUpdates engine ctx (replicate maxCipherBlockSize 0) calls
  let (len, _, mem) := cipherFinal ctx (write mem ctx.buff kept) out
  return l ++ read mem out len

/-- The places of each call fit, if `p` bytes are kept before the first one. -/
def Placed (algo : Algo) (buff : ℕ) : ℕ → List CipherCall → Prop
  | _, [] => True
  | p, c :: calls =>
    Fits buff c.inp c.len c.out (algo.blockSize * ((p + c.len) / algo.blockSize)) ∧
      Placed algo buff ((p + c.len) % algo.blockSize) calls

/-- The mode on the blocks of `l`, and the remaining bytes as they are. -/
def cipherText (ctx : CipherCtx) (l : List UInt8) : List UInt8 :=
  engine.output ctx l ++ rest algo.blockSize l

variable {engine} {ctx : CipherCtx}

open CipherEngine

/-- Before a call the array `kept` of the context begins with the bytes `r` that are left over. -/
structure Keeps (algo : Algo) (ctx : CipherCtx) (kept r : List UInt8) : Prop where
  iv : ctx.iv.length = algo.blockSize
  lt : r.length < algo.blockSize
  buffLen : ctx.buffLen = r.length
  size : kept.length = maxCipherBlockSize
  take : kept.take r.length = r

namespace Keeps

variable {kept r : List UInt8}

theorem init (hiv : ctx.iv.length = algo.blockSize) (hlen : ctx.buffLen = 0) :
    Keeps algo ctx (replicate maxCipherBlockSize 0) [] :=
  ⟨hiv, blockSize_pos algo, hlen, length_replicate, rfl⟩

variable (h : Keeps algo ctx kept r)

include h

theorem ctxAfter_eq : engine.ctxAfter ctx r = ctx := by
  rw [ctxAfter, ivAfter_of_lt ctx h.lt, mod_eq_of_lt h.lt, ← h.buffLen]

theorem read_buff (mem : ℕ → UInt8) :
    read (write mem ctx.buff kept) ctx.buff r.length = r := by
  have hle : r.length ≤ kept.length := h.take ▸ length_take_le' _ _
  rw [← Memory.take_read _ _ hle, Memory.read_write, h.take]

variable (engine)

/-- After a call that has put the remaining bytes of `l` into the array. -/
theorem next {mem : ℕ → UInt8} {l : List UInt8}
    (hrest : read mem ctx.buff (rest algo.blockSize l).length = rest algo.blockSize l) :
    Keeps algo (engine.ctxAfter ctx l) (read mem ctx.buff maxCipherBlockSize)
      (rest algo.blockSize l) := by
  have hle : algo.blockSize ≤ maxCipherBlockSize := by cases algo <;> decide
  have hlt : (rest algo.blockSize l).length < algo.blockSize :=
    (Blocks.length_rest _ _).trans_lt (mod_lt _ (blockSize_pos algo))
  exact ⟨length_ivAfter h.iv l, hlt, (Blocks.length_rest _ _).symm, Memory.length_read _ _ _,
    (Memory.take_read _ _ (hlt.le.trans hle)).trans hrest⟩

theorem update {c : CipherCall} (hfits : Fits ctx.buff c.inp c.len c.out
      (algo.blockSize * ((r.length + c.len) / algo.blockSize))) :
    ∃ mem', cipherUpdate engine ctx (write c.mem ctx.buff kept) c.inp c.len c.out =
        (((engine.output ctx (r ++ c.data)).length : ℤ), engine.ctxAfter ctx (r ++ c.data), mem') ∧
      read mem' c.out (engine.output ctx (r ++ c.data)).length = engine.output ctx (r ++ c.data) ∧
      Keeps algo (engine.ctxAfter ctx (r ++ c.data)) (read mem' ctx.buff maxCipherBlockSize)
        (rest algo.blockSize (r ++ c.data)) ∧
      (rest algo.blockSize (r ++ c.data)).length = (r.length + c.len) % algo.blockSize := by
  have hlen : (r ++ c.data).length = r.length + c.len := by
    rw [length_append, CipherCall.data, Memory.length_read]
  have hdata : read (write c.mem ctx.buff kept) c.inp c.len = c.data :=
    Memory.read_write_of_apart _ (h.size ▸ hfits.buff_inp)
  obtain ⟨mem', hrun, hout, hrest⟩ :=
    cipherUpdate_spec engine h.iv h.lt h.buffLen (h.read_buff c.mem) hdata rfl hfits
  rw [length_output h.iv, Blocks.length_rest, hlen]
  exact ⟨mem', hrun, hout, h.next engine hrest, rfl⟩

end Keeps

/-- All calls, on any split of the data. -/
theorem cipherUpdates_spec (engine : CipherEngine algo) :
    ∀ {calls : List CipherCall} {ctx : CipherCtx} {kept r : List UInt8}, Keeps algo ctx kept r →
    Placed algo ctx.buff r.length calls →
    ∃ kept', cipherUpdates engine ctx kept calls =
        some (engine.output ctx (r ++ (calls.map CipherCall.data).flatten),
          engine.ctxAfter ctx (r ++ (calls.map CipherCall.data).flatten), kept') ∧
      Keeps algo (engine.ctxAfter ctx (r ++ (calls.map CipherCall.data).flatten)) kept'
        (rest algo.blockSize (r ++ (calls.map CipherCall.data).flatten))
  | [], ctx, kept, r, h, _ => by
    rw [map_nil, flatten_nil, append_nil, output_of_lt ctx h.lt, h.ctxAfter_eq,
      Blocks.rest_of_lt h.lt]
    exact ⟨kept, rfl, h⟩
  | c :: calls, ctx, kept, r, h, ⟨hfits, hplaced⟩ => by
    obtain ⟨mem', hrun, hout, hnext, hmod⟩ := h.update engine hfits
    obtain ⟨kept', hruns, hkept⟩ := cipherUpdates_spec engine hnext (hmod ▸ hplaced)
    rw [map_cons, flatten_cons, ← append_assoc, output_append ctx (r ++ c.data),
      ctxAfter_append ctx (r ++ c.data), Blocks.rest_append_rest (blockSize_pos algo) (r ++ c.data)]
    refine ⟨kept', ?_, hkept⟩
    rw [cipherUpdates]
    simp only [hrun, Int.toNat_natCast, hout]
    rw [if_neg (by omega)]
    simp only [show (engine.ctxAfter ctx (r ++ c.data)).buff = ctx.buff from rfl]
    rw [hruns]
    rfl

theorem length_cipherInit {mode : Bcm} {key : List UInt8} {iv : Option (List UInt8)} {enc : Bool}
    {buff : ℕ} (hiv : ∀ v ∈ iv, algo.blockSize ≤ v.length) :
    (cipherInit algo mode key iv enc buff).iv.length = algo.blockSize := by
  rcases mode with _ | _
  · exact length_replicate
  · rcases iv with _ | v
    · exact length_replicate
    · exact length_take_of_le (hiv v rfl)

/-- The stream is the mode on the blocks of the data, and the remaining bytes. -/
theorem cipherStream_eq {calls : List CipherCall} (hiv : ctx.iv.length = algo.blockSize)
    (hlen : ctx.buffLen = 0) (hplaced : Placed algo ctx.buff 0 calls) (mem : ℕ → UInt8) (out : ℕ) :
    cipherStream engine ctx calls mem out =
      some (cipherText engine ctx (calls.map CipherCall.data).flatten) := by
  obtain ⟨kept, hrun, hkept⟩ := cipherUpdates_spec engine (.init hiv hlen) hplaced
  rw [nil_append] at hrun hkept
  obtain ⟨l, hl⟩ : ∃ l, l = (calls.map CipherCall.data).flatten := ⟨_, rfl⟩
  rw [← hl] at hrun hkept ⊢
  have hbuff : read (write mem ctx.buff kept) ctx.buff (rest algo.blockSize l).length =
      rest algo.blockSize l := hkept.read_buff mem
  simp only [cipherStream, hrun, Option.bind_eq_bind, Option.bind_some, cipherText, cipherFinal,
    show (engine.ctxAfter ctx l).buff = ctx.buff from rfl,
    show (engine.ctxAfter ctx l).buffLen = l.length % algo.blockSize from rfl]
  rw [← Blocks.length_rest]
  split_ifs with h0
  · simp only [hbuff, Memory.read_write]
    rfl
  · have hnil : rest algo.blockSize l = [] := eq_nil_of_length_eq_zero (not_not.1 h0)
    rw [hnil]
    rfl

/-- Decryption of what was encrypted. -/
theorem cipherText_cipherText (engine : CipherEngine algo) (hiv : ctx.iv.length = algo.blockSize)
    (henc : ctx.enc = true)
    (l : List UInt8) :
    cipherText engine { ctx with enc := false } (cipherText engine ctx l) = l := by
  have hpos := blockSize_pos algo
  have hmem := length_of_mem_output engine hiv l
  have hdvd : algo.blockSize ∣ (engine.output ctx l).length := by
    rw [length_output hiv]
    exact dvd_mul_right _ _
  have hrest : (rest algo.blockSize l).length < algo.blockSize := by
    rw [Blocks.length_rest]
    exact mod_lt _ hpos
  have hblocks : blocks algo.blockSize (cipherText engine ctx l) =
      cipherBlocks (engine.E ctx.key) (engine.D ctx.key) ctx.enc ctx.mode ctx.iv
        (blocks algo.blockSize l) := by
    rw [cipherText, Blocks.blocks_append hpos hdvd, Blocks.blocks_eq_nil hrest, append_nil,
      output, Blocks.blocks_flatten hpos hmem]
  rw [cipherText, output, hblocks, henc, cipherBlocks_cipherBlocks (engine.length_E ctx.key)
    (engine.D_E ctx.key) hiv fun _ hb => Blocks.length_of_mem_blocks hb, cipherText,
    Blocks.rest_append hpos hdvd, Blocks.rest_of_lt hrest, Blocks.flatten_blocks_append_rest]

/-- However the data is split, the stream is the mode on its blocks, with the remaining bytes; and
what was encrypted is decrypted, however it is split again. -/
theorem cipher_stream (engine : CipherEngine algo) (mode : Bcm) (key : List UInt8)
    (iv : Option (List UInt8)) (hiv : ∀ v ∈ iv, algo.blockSize ≤ v.length) :
    (∀ enc buff calls mem out, Placed algo buff 0 calls →
      cipherStream engine (cipherInit algo mode key iv enc buff) calls mem out =
        some (cipherText engine (cipherInit algo mode key iv enc buff)
          (calls.map CipherCall.data).flatten)) ∧
    ∀ buff calls mem out buff' calls' mem' out', Placed algo buff 0 calls →
      Placed algo buff' 0 calls' →
      cipherStream engine (cipherInit algo mode key iv true buff) calls mem out =
        some (calls'.map CipherCall.data).flatten →
      cipherStream engine (cipherInit algo mode key iv false buff') calls' mem' out' =
        some (calls.map CipherCall.data).flatten := by
  have hstream : ∀ enc buff calls mem out, Placed algo buff 0 calls →
      cipherStream engine (cipherInit algo mode key iv enc buff) calls mem out =
        some (cipherText engine (cipherInit algo mode key iv enc buff)
          (calls.map CipherCall.data).flatten) := fun enc buff calls mem out hplaced =>
    cipherStream_eq (length_cipherInit hiv) rfl hplaced mem out
  refine ⟨hstream, fun buff calls mem out buff' calls' mem' out' hplaced hplaced' henc => ?_⟩
  rw [hstream true buff calls mem out hplaced] at henc
  rw [hstream false buff' calls' mem' out' hplaced', ← Option.some.inj henc]
  have hlen : (cipherInit algo mode key iv true buff).iv.length = algo.blockSize :=
    length_cipherInit hiv
  exact congrArg some (cipherText_cipherText engine hlen rfl _)

/-- An engine whose block cipher adds a constant to each byte. -/
def addCipher (algo : Algo) : CipherEngine algo where
  E := fun _ b => b.map (· + 1)
  D := fun _ b => b.map (· - 1)
  length_E := fun _ _ h => by rwa [length_map]
  length_D := fun _ _ h => by rwa [length_map]
  D_E := fun _ b _ => by
    rw [map_map]
    exact map_id'' (fun x => UInt8.add_sub_cancel x 1) b
  run := fun enc mode _ iv mem inp out len => write mem out
    (cipherBlocks (·.map (· + 1)) (·.map (· - 1)) enc mode (ivBytes iv)
      (blocks algo.blockSize (read mem inp len))).flatten
  run_eq := fun _ _ _ _ _ _ _ _ _ _ => rfl

/-- Two calls of 10 and 30 bytes. -/
theorem cipher_stream_two :
    cipherStream (addCipher .aes) (cipherInit .aes .cbc [] none true 0)
      [⟨fun a => UInt8.ofNat a, 100, 10, 200⟩, ⟨fun a => UInt8.ofNat a, 300, 30, 400⟩] (fun _ => 0)
      500 = some (cipherText (addCipher .aes) (cipherInit .aes .cbc [] none true 0)
        ([⟨fun a => UInt8.ofNat a, 100, 10, 200⟩, ⟨fun a => UInt8.ofNat a, 300, 30, 400⟩].map
          CipherCall.data).flatten) :=
  (cipher_stream (addCipher .aes) .cbc [] none (fun _ h => by cases h)).1 true 0 _ _ _
    ⟨⟨by decide, by decide, by decide, by decide, by decide, by decide⟩,
      ⟨by decide, by decide, by decide, by decide, by decide, by decide⟩, trivial⟩

end OpenHMR
