import OpenHMR.McpCipher

/-!
# The cipher device (`drivers/mcp/mcp_cipher_dev.c`)

For a user buffer that the engine cannot reach, `mcp_cipher_do_update` copies the data into a kernel
buffer of the same length, and calls `MCP_CipherUpdate` with this buffer as input and as output. If
bytes are kept from the call before, the first block that is put out is longer than the part of the
input that it was made of : it covers input that was not read yet, and all of the output can be
longer than the buffer (`not_inPlace`). The calls are right as long as each one finds no bytes that
are kept, or does not complete a block (`InPlace`, `inPlace_updates`).
-/

namespace OpenHMR

open Blocks (blocks rest)
open Memory (read write Apart)
open CipherEngine List

variable {algo : Algo} (engine : CipherEngine algo)

/-- A call of `mcp_cipher_do_update` for ordinary user buffers : the data of the user, the memory
that it finds, and the kernel buffer `buff` from `mcp_malloc`. -/
structure UserCall where
  data : List UInt8
  mem : ℕ → UInt8
  buff : ℕ

/-- The memory after `copy_from_user`, where `kept` is the array of the context. -/
def UserCall.start (c : UserCall) (ctx : CipherCtx) (kept : List UInt8) : ℕ → UInt8 :=
  write (write c.mem ctx.buff kept) c.buff c.data

/-- `mcp_cipher_do_update` : the result, the bytes that are copied to the user, the context and the
memory. -/
def cipherDoUpdate (ctx : CipherCtx) (kept : List UInt8) (c : UserCall) :
    ℤ × List UInt8 × CipherCtx × (ℕ → UInt8) :=
  let (outlen, ctx, mem) :=
    cipherUpdate engine ctx (c.start ctx kept) c.buff c.data.length c.buff
  if outlen < 0 then (-14, [], ctx, mem)
  else (outlen, read mem c.buff outlen.toNat, ctx, mem)

/-- What the calls copy to the user. -/
def userOutputs : CipherCtx → List UInt8 → List UserCall → List (ℤ × List UInt8)
  | _, _, [] => []
  | ctx, kept, c :: calls =>
    let (outlen, l, ctx, mem) := cipherDoUpdate engine ctx kept c
    (outlen, l) :: userOutputs ctx (read mem ctx.buff maxCipherBlockSize) calls

/-- What calls of `MCP_CipherUpdate` put out. -/
def cipherOutputs : CipherCtx → List UInt8 → List CipherCall → List (ℤ × List UInt8)
  | _, _, [] => []
  | ctx, kept, c :: calls =>
    let (ret, ctx, mem) := cipherUpdate engine ctx (write c.mem ctx.buff kept) c.inp c.len c.out
    (ret, read mem c.out ret.toNat) ::
      cipherOutputs ctx (read mem ctx.buff maxCipherBlockSize) calls

/-- No call copies more bytes than its buffer has, or changes the memory outside of its buffer and
of the array of the context. -/
def WithinBuffers : CipherCtx → List UInt8 → List UserCall → Prop
  | _, _, [] => True
  | ctx, kept, c :: calls =>
    let r := cipherDoUpdate engine ctx kept c
    r.2.1.length ≤ c.data.length ∧
      (∀ a, a < c.buff ∨ c.buff + c.data.length ≤ a →
        a < ctx.buff ∨ ctx.buff + maxCipherBlockSize ≤ a → r.2.2.2 a = c.start ctx kept a) ∧
      WithinBuffers r.2.2.1 (read r.2.2.2 r.2.2.1.buff maxCipherBlockSize) calls

/-- The buffer of a call and the array of the context are apart, in the upper half of the addresses,
where the memory of the kernel is. -/
structure UserCall.Fits (ctxBuff : ℕ) (c : UserCall) : Prop where
  kernel : 2 ^ 31 ≤ c.buff
  buff_le : c.buff + c.data.length ≤ 2 ^ 32
  ctxBuff_kernel : 2 ^ 31 ≤ ctxBuff
  ctxBuff_le : ctxBuff + maxCipherBlockSize ≤ 2 ^ 32
  apart : Apart ctxBuff maxCipherBlockSize c.buff c.data.length

/-- Each call finds no bytes that are kept, or does not complete a block. Before the first call `p`
bytes are kept. -/
def InPlace (algo : Algo) : ℕ → List ℕ → Prop
  | _, [] => True
  | p, len :: lens =>
    (p = 0 ∨ p + len < algo.blockSize) ∧ InPlace algo ((p + len) % algo.blockSize) lens

/-- What is put out for the data of each call, if the bytes `r` are kept. -/
def expectedOutputs : CipherCtx → List UInt8 → List (List UInt8) → List (ℤ × List UInt8)
  | _, _, [] => []
  | ctx, r, l :: ls =>
    (((engine.output ctx (r ++ l)).length : ℤ), engine.output ctx (r ++ l)) ::
      expectedOutputs (engine.ctxAfter ctx (r ++ l)) (rest algo.blockSize (r ++ l)) ls

variable {engine} {ctx : CipherCtx} {kept r : List UInt8} {c : UserCall}

/-- A call that works in place, or keeps its data. -/
theorem cipherDoUpdate_spec (engine : CipherEngine algo) (h : Keeps algo ctx kept r)
    (hfits : c.Fits ctx.buff) (hplace : r.length = 0 ∨ r.length + c.data.length < algo.blockSize) :
    ∃ mem', cipherDoUpdate engine ctx kept c =
        (((engine.output ctx (r ++ c.data)).length : ℤ), engine.output ctx (r ++ c.data),
          engine.ctxAfter ctx (r ++ c.data), mem') ∧
      read mem' ctx.buff (rest algo.blockSize (r ++ c.data)).length =
        rest algo.blockSize (r ++ c.data) ∧
      (engine.output ctx (r ++ c.data)).length ≤ c.data.length ∧
      ∀ a, a < c.buff ∨ c.buff + c.data.length ≤ a →
        a < ctx.buff ∨ ctx.buff + maxCipherBlockSize ≤ a → mem' a = c.start ctx kept a := by
  have hpos := blockSize_pos algo
  have hbs : algo.blockSize ≤ 16 := by cases algo <;> decide
  have hmax : maxCipherBlockSize = 32 := rfl
  obtain ⟨hiv, hr, hlen, hsize, -⟩ := id h
  obtain ⟨hk, hle, hck, hcle, hapart⟩ := hfits
  have hrest : (rest algo.blockSize (r ++ c.data)).length < algo.blockSize := by
    rw [Blocks.length_rest]
    exact Nat.mod_lt _ hpos
  have hdata : read (c.start ctx kept) c.buff c.data.length = c.data := Memory.read_write _ _ _
  have hbuff : read (c.start ctx kept) ctx.buff r.length = r := by
    rw [UserCall.start, Memory.read_write_of_apart, h.read_buff]
    simp only [Apart] at hapart ⊢
    omega
  by_cases hnil : r = []
  · subst hnil
    rw [nil_append] at hrest ⊢
    have hout : (engine.output ctx c.data).length =
        algo.blockSize * (c.data.length / algo.blockSize) := length_output hiv c.data
    have houtle : (engine.output ctx c.data).length ≤ c.data.length := hout ▸ Nat.mul_div_le _ _
    have hrun := cipherRest_eq engine hiv hdata hout (by simp only [Apart] at hapart; omega)
      (.inl rfl) hlen 0
    obtain ⟨out, ho⟩ : ∃ out, out = engine.output ctx c.data := ⟨_, rfl⟩
    rw [← ho] at hout houtle hrun ⊢
    refine ⟨write (write (c.start ctx kept) c.buff out) ctx.buff (rest algo.blockSize c.data), ?_,
      Memory.read_write _ _ _, houtle, fun a ha hca => ?_⟩
    · have hcopied : read (write (write (c.start ctx kept) c.buff out) ctx.buff
          (rest algo.blockSize c.data)) c.buff out.length = out := by
        rw [Memory.read_write_of_apart, Memory.read_write]
        simp only [Apart] at hapart ⊢
        omega
      rw [cipherDoUpdate, cipherUpdate, if_neg (not_not.2 (show ctx.buffLen = 0 from hlen)), hrun]
      simp only [Int.zero_add, Int.toNat_natCast, hcopied]
      rw [if_neg (by omega)]
    · rw [Memory.write_of_outside _ (by omega), Memory.write_of_outside _ (by omega)]
  · have hsum : r.length + c.data.length < algo.blockSize :=
      hplace.resolve_left fun h => hnil (eq_nil_of_length_eq_zero h)
    have happ : (r ++ c.data).length < algo.blockSize := by rwa [length_append]
    obtain ⟨mem', hrun, hmem, hread⟩ :=
      cipherUpdate_short engine c.buff hnil hsum hlen hbuff hdata
    rw [output_of_lt ctx happ, Blocks.rest_of_lt happ]
    refine ⟨mem', ?_, hread, Nat.zero_le _, fun a _ hca => ?_⟩
    · rw [cipherDoUpdate, hrun]
      rfl
    · rw [hmem]
      exact Memory.write_of_outside _ (by omega)

theorem cipherOutputs_eq (engine : CipherEngine algo) :
    ∀ {calls : List CipherCall} {ctx : CipherCtx} {kept r : List UInt8}, Keeps algo ctx kept r →
    Placed algo ctx.buff r.length calls →
    cipherOutputs engine ctx kept calls = expectedOutputs engine ctx r (calls.map CipherCall.data)
  | [], _, _, _, _, _ => rfl
  | c :: calls, ctx, kept, r, h, ⟨hfits, hplaced⟩ => by
    obtain ⟨mem', hrun, hread, hnext, hmod⟩ := h.update engine hfits
    have hnexts := cipherOutputs_eq engine hnext (hmod ▸ hplaced)
    rw [cipherOutputs, hrun, map_cons, expectedOutputs]
    simp only [Int.toNat_natCast, hread]
    exact congrArg _ hnexts

/-- Calls in place put out what is expected, within their buffers. -/
theorem userOutputs_eq (engine : CipherEngine algo) :
    ∀ {calls : List UserCall} {ctx : CipherCtx} {kept r : List UInt8}, Keeps algo ctx kept r →
    (∀ c ∈ calls, c.Fits ctx.buff) → InPlace algo r.length (calls.map (·.data.length)) →
    userOutputs engine ctx kept calls = expectedOutputs engine ctx r (calls.map UserCall.data) ∧
      WithinBuffers engine ctx kept calls
  | [], _, _, _, _, _, _ => ⟨rfl, trivial⟩
  | c :: calls, ctx, kept, r, h, hfits, ⟨hfirst, hplace⟩ => by
    obtain ⟨mem', hrun, hrest, hle, houtside⟩ := cipherDoUpdate_spec engine h
      (hfits c (mem_cons_self ..)) hfirst
    have hmod : (rest algo.blockSize (r ++ c.data)).length =
        (r.length + c.data.length) % algo.blockSize := by
      rw [Blocks.length_rest, length_append]
    obtain ⟨hnexts, hwithin⟩ := userOutputs_eq engine (h.next engine hrest)
      (fun c' hc' => hfits c' (mem_cons_of_mem _ hc')) (hmod ▸ hplace)
    refine ⟨?_, ?_⟩
    · rw [userOutputs, hrun, map_cons, expectedOutputs]
      exact congrArg _ hnexts
    · rw [WithinBuffers, hrun]
      exact ⟨hle, houtside, hwithin⟩

/-- What is expected of the device : the calls copy to the user what calls of `MCP_CipherUpdate`
with input and output apart put out for the same data, and stay within their buffers. -/
def AsApart (engine : CipherEngine algo) (ctx : CipherCtx) (calls : List UserCall) : Prop :=
  (∀ calls' : List CipherCall, Placed algo ctx.buff 0 calls' →
    calls'.map CipherCall.data = calls.map UserCall.data →
    userOutputs engine ctx (replicate maxCipherBlockSize 0) calls =
      cipherOutputs engine ctx (replicate maxCipherBlockSize 0) calls') ∧
    WithinBuffers engine ctx (replicate maxCipherBlockSize 0) calls

/-- The device is right for all calls that work in place, or keep their data. -/
theorem inPlace_updates (engine : CipherEngine algo) (mode : Bcm) (key : List UInt8)
    (iv : Option (List UInt8)) (enc : Bool) (buff : ℕ) (hiv : ∀ v ∈ iv, algo.blockSize ≤ v.length)
    (calls : List UserCall) (hfits : ∀ c ∈ calls, c.Fits buff)
    (hplace : InPlace algo 0 (calls.map (·.data.length))) :
    AsApart engine (cipherInit algo mode key iv enc buff) calls := by
  have hkeeps : Keeps algo (cipherInit algo mode key iv enc buff) _ [] :=
    .init (length_cipherInit hiv) rfl
  obtain ⟨houtputs, hwithin⟩ := userOutputs_eq engine hkeeps hfits hplace
  refine ⟨fun calls' hplaced hdata => ?_, hwithin⟩
  rw [houtputs, ← hdata]
  exact (cipherOutputs_eq engine hkeeps hplaced).symm

/-- A call of one block, and two that keep their data. -/
theorem inPlace_updates_three :
    AsApart (addCipher .aes) (cipherInit .aes .cbc [] none true (2 ^ 31))
      [⟨replicate 16 7, fun _ => 0, 2 ^ 31 + 64⟩, ⟨[1, 2], fun _ => 0, 2 ^ 31 + 64⟩,
        ⟨[3], fun _ => 0, 2 ^ 31 + 64⟩] :=
  inPlace_updates (addCipher .aes) .cbc [] none true (2 ^ 31) (fun _ h => by cases h) _
    (by
      intro c hc
      simp only [mem_cons, not_mem_nil, or_false] at hc
      rcases hc with rfl | rfl | rfl
      all_goals exact ⟨by decide, by decide, by decide, by decide, by decide⟩)
    ⟨.inl rfl, .inl rfl, .inr (by decide), trivial⟩

/-- One byte after 15 : the block of 16 bytes is copied from a buffer of one byte. And 8 bytes after
8 and 16 : the last block is made of bytes of the one before. -/
theorem not_inPlace :
    ¬ AsApart (addCipher .aes) (cipherInit .aes .ecb [] none true (2 ^ 31))
      [⟨replicate 15 7, fun _ => 0, 2 ^ 31 + 64⟩, ⟨[7], fun _ => 0, 2 ^ 31 + 64⟩] ∧
    ¬ AsApart (addCipher .aes) (cipherInit .aes .ecb [] none true (2 ^ 31))
      [⟨replicate 8 7, fun _ => 0, 2 ^ 31 + 64⟩,
        ⟨replicate 16 7, fun _ => 0, 2 ^ 31 + 64⟩,
        ⟨replicate 8 7, fun _ => 0, 2 ^ 31 + 64⟩] := by
  constructor
  · rintro ⟨-, -, -, hlen, -⟩
    revert hlen
    decide +kernel
  · rintro ⟨heq, -⟩
    have h := heq [⟨fun _ => 7, 0, 8, 64⟩, ⟨fun _ => 7, 0, 16, 64⟩, ⟨fun _ => 7, 0, 8, 64⟩]
      (by refine ⟨?_, ?_, ?_, trivial⟩
          all_goals exact ⟨by decide, by decide, by decide, by decide, by decide, by decide⟩)
      rfl
    revert h
    decide +kernel

end OpenHMR
