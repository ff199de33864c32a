import Mathlib.Algebra.Group.Nat.Defs
import OpenHMR.Blocks
import OpenHMR.Memory

/-!
# The crypto engine (`drivers/mcp.c`)

The engine works on whole blocks of data, as a descriptor tells it. Here is what the drivers put
into the descriptor, and what they rely on : a digest engine (`HashEngine`) applies a compression
function to each block, and a cipher engine (`CipherEngine`) encrypts or decrypts in `ECB` or `CBC`
mode.
-/

namespace OpenHMR

open List

open Blocks (blocks cbcEnc cbcDec)
open Memory (read write)

/-! ## Words of the descriptor -/

/-- `MCP_SHA1_IV_UPDATE`, `MCP_AES_H_IV_UPDATE`, and the initial vectors of the ciphers : the words
of the descriptor. -/
def ivUpdate : List UInt8 → List ℕ
  | a :: b :: c :: d :: hash =>
    (a.toNat * 2 ^ 24 + b.toNat * 2 ^ 16 + c.toNat * 2 ^ 8 + d.toNat) :: ivUpdate hash
  | _ => []

/-- The bytes of the words of a descriptor, the highest first. -/
def ivBytes (iv : List ℕ) : List UInt8 :=
  iv.flatMap fun w => [UInt8.ofNat (w / 2 ^ 24), UInt8.ofNat (w / 2 ^ 16), UInt8.ofNat (w / 2 ^ 8),
    UInt8.ofNat w]

theorem ivBytes_ivUpdate : ∀ {n : ℕ} {hash : List UInt8}, hash.length = 4 * n →
    ivBytes (ivUpdate hash) = hash
  | 0, [], _ => rfl
  | n + 1, a :: b :: c :: d :: hash, h => by
    have hlen : hash.length = 4 * n := by
      simp only [length_cons] at h
      omega
    have ha : a.toNat < 256 := a.toNat_lt
    have hb : b.toNat < 256 := b.toNat_lt
    have hc : c.toNat < 256 := c.toNat_lt
    have hd : d.toNat < 256 := d.toNat_lt
    have hbyte : ∀ (w : ℕ) (x : UInt8), w % 256 = x.toNat → UInt8.ofNat w = x := fun w x hw =>
      UInt8.toNat_inj.1 (by rw [UInt8.toNat_ofNat']; exact hw)
    rw [ivUpdate, ivBytes, flatMap_cons, ← ivBytes, ivBytes_ivUpdate hlen,
      hbyte _ a (by omega), hbyte _ b (by omega), hbyte _ c (by omega), hbyte _ d (by omega)]
    rfl

/-! ## Digests -/

/-- The digests. -/
inductive Md
  | sha1
  | aesH
  deriving DecidableEq, Repr

namespace Md

/-- The size of a block. -/
def blockSize : Md → ℕ
  | sha1 => 64
  | aesH => 16

/-- The size of the hash value. -/
def digestSize : Md → ℕ
  | sha1 => 20
  | aesH => 16

/-- `SHA1InitHash` and `AES_H_InitHash`. -/
def initHash : Md → List UInt8
  | sha1 =>
    [0x67, 0x45, 0x23, 0x01, 0xEF, 0xCD, 0xAB, 0x89, 0x98, 0xBA, 0xDC, 0xFE, 0x10, 0x32, 0x54, 0x76,
      0xC3, 0xD2, 0xE1, 0xF0]
  | aesH =>
    [0x2D, 0xC2, 0xDF, 0x39, 0x42, 0x03, 0x21, 0xD0, 0xCE, 0xF1, 0xFE, 0x23, 0x74, 0x02, 0x9D, 0x95]

/-- What the padding returns if there is no room for it, as `mcpb_put` takes it : -1 or 0. -/
def paddingFailed : Md → ℕ
  | sha1 => 2 ^ 32 - 1
  | aesH => 0

end Md

/-- The hardware : `run` is what it writes for the words of the descriptor and the data. On whole
blocks it applies the compression function to each block. -/
structure HashEngine (md : Md) where
  run : List ℕ → List UInt8 → List UInt8
  compress : List UInt8 → List UInt8 → List UInt8
  length_compress : ∀ hash b, (compress hash b).length = md.digestSize
  run_eq : ∀ iv data, md.blockSize ∣ data.length →
    run iv data = (blocks md.blockSize data).foldl compress (ivBytes iv)

/-- `MCP_SHA1_Hashing` and `MCP_AES_H_Hashing` : the new value of `hash`. -/
def hashing : {md : Md} → HashEngine md → List ℕ → List UInt8 → List UInt8 → List UInt8
  | .sha1, engine, iv, data, hash => if data.length % 64 ≠ 0 then hash else engine.run iv data
  | .aesH, engine, iv, data, _ => engine.run iv data

variable {md : Md}

/-- A hash value goes through the descriptor. -/
theorem hashing_eq (engine : HashEngine md) {data hash : List UInt8}
    (hhash : hash.length = md.digestSize) (hdata : md.blockSize ∣ data.length) (old : List UInt8) :
    hashing engine (ivUpdate hash) data old =
      (blocks md.blockSize data).foldl engine.compress hash := by
  have hiv : ivBytes (ivUpdate hash) = hash := by
    cases md
    · exact ivBytes_ivUpdate (n := 5) hhash
    · exact ivBytes_ivUpdate (n := 4) hhash
  have hrun := engine.run_eq (ivUpdate hash) data hdata
  rw [hiv] at hrun
  cases md
  · have hmod : data.length % 64 = 0 := Nat.mod_eq_zero_of_dvd hdata
    rw [hashing, if_neg (not_not.2 hmod), hrun]
  · exact hrun

/-! ## Ciphers -/

/-- The block ciphers. -/
inductive Algo
  | aes
  | des
  | tdes
  deriving DecidableEq, Repr

/-- The size of a block. -/
def Algo.blockSize : Algo → ℕ
  | aes => 16
  | des => 8
  | tdes => 8

/-- The modes `MCP_BCM_ECB` and `MCP_BCM_CBC`. -/
inductive Bcm
  | ecb
  | cbc
  deriving DecidableEq, Repr

def xorBlock (a b : List UInt8) : List UInt8 :=
  zipWith (· ^^^ ·) a b

/-- What is done to blocks in encryption, if `enc` is set, or decryption. -/
def cipherBlocks (E D : List UInt8 → List UInt8) (enc : Bool) (mode : Bcm) (iv : List UInt8)
    (bs : List (List UInt8)) : List (List UInt8) :=
  match mode, enc with
  | .ecb, true => bs.map E
  | .ecb, false => bs.map D
  | .cbc, true => cbcEnc xorBlock E iv bs
  | .cbc, false => cbcDec xorBlock D iv bs

/-- The initial vector for the blocks after `bs`. -/
def nextIv (E D : List UInt8 → List UInt8) (enc : Bool) (mode : Bcm) (iv : List UInt8)
    (bs : List (List UInt8)) : List UInt8 :=
  match mode, enc with
  | .ecb, _ => iv
  | .cbc, true => (cipherBlocks E D true .cbc iv bs).getLastD iv
  | .cbc, false => bs.getLastD iv

/-- The hardware : `run` is what it does to the memory, for encryption or decryption with a key and
the words of an initial vector, of a length of data at an address to another address. It may rely on
whole blocks, and on places that are the same or apart. -/
structure CipherEngine (algo : Algo) where
  E : List UInt8 → List UInt8 → List UInt8
  D : List UInt8 → List UInt8 → List UInt8
  length_E : ∀ key b, b.length = algo.blockSize → (E key b).length = algo.blockSize
  length_D : ∀ key b, b.length = algo.blockSize → (D key b).length = algo.blockSize
  D_E : ∀ key b, b.length = algo.blockSize → D key (E key b) = b
  run : Bool → Bcm → List UInt8 → List ℕ → (ℕ → UInt8) → ℕ → ℕ → ℕ → ℕ → UInt8
  run_eq : ∀ enc mode key iv mem inp out len, algo.blockSize ∣ len →
    (inp = out ∨ inp + len ≤ out ∨ out + len ≤ inp) →
      run enc mode key iv mem inp out len = write mem out
        (cipherBlocks (E key) (D key) enc mode (ivBytes iv)
          (blocks algo.blockSize (read mem inp len))).flatten

section CipherBlocks

variable {E D : List UInt8 → List UInt8} {enc : Bool} {mode : Bcm} {iv : List UInt8}
  {bs bs' : List (List UInt8)} {n : ℕ}

theorem length_xorBlock {a b : List UInt8} (ha : a.length = n) (hb : b.length = n) :
    (xorBlock a b).length = n := by
  rw [xorBlock, length_zipWith, ha, hb, Nat.min_self]

theorem xorBlock_xorBlock : ∀ {a b : List UInt8}, a.length = b.length →
    xorBlock (xorBlock a b) b = a
  | [], _, _ => rfl
  | x :: a, y :: b, h => by
    have hcons : ∀ (x y : UInt8) (a b : List UInt8),
        xorBlock (x :: a) (y :: b) = (x ^^^ y) :: xorBlock a b := fun _ _ _ _ => rfl
    rw [hcons, hcons, xorBlock_xorBlock (Nat.succ.inj h), UInt8.xor_assoc, UInt8.xor_self,
      UInt8.xor_zero]

@[simp] theorem length_cipherBlocks : (cipherBlocks E D enc mode iv bs).length = bs.length := by
  cases mode <;> cases enc <;> simp [cipherBlocks]

/-- The blocks can be worked on in parts. -/
theorem cipherBlocks_append : cipherBlocks E D enc mode iv (bs ++ bs') =
    cipherBlocks E D enc mode iv bs ++
      cipherBlocks E D enc mode (nextIv E D enc mode iv bs) bs' := by
  cases mode <;> cases enc
  · exact map_append
  · exact map_append
  · exact Blocks.cbcDec_append iv bs bs'
  · exact Blocks.cbcEnc_append iv bs bs'

theorem nextIv_append : nextIv E D enc mode iv (bs ++ bs') =
    nextIv E D enc mode (nextIv E D enc mode iv bs) bs' := by
  cases mode
  · rfl
  cases enc
  · exact Blocks.getLastD_append bs bs' iv
  · rw [nextIv, cipherBlocks_append, Blocks.getLastD_append]
    rfl

variable (hE : ∀ b, b.length = n → (E b).length = n)

include hE

theorem length_of_mem_cipherBlocks (hD : ∀ b, b.length = n → (D b).length = n) (hiv : iv.length = n)
    (hbs : ∀ b ∈ bs, b.length = n) : ∀ b ∈ cipherBlocks E D enc mode iv bs, b.length = n := by
  have hxor : ∀ a : List UInt8, a.length = n → ∀ b : List UInt8, b.length = n →
      (xorBlock a b).length = n := fun a ha b hb => length_xorBlock ha hb
  cases mode <;> cases enc
  · intro b hb
    obtain ⟨c, hc, rfl⟩ := mem_map.1 hb
    exact hD c (hbs c hc)
  · intro b hb
    obtain ⟨c, hc, rfl⟩ := mem_map.1 hb
    exact hE c (hbs c hc)
  · exact Blocks.mem_cbcDec (S := {b : List UInt8 | b.length = n}) hD hxor hiv hbs
  · exact Blocks.mem_cbcEnc (S := {b : List UInt8 | b.length = n}) hE hxor hiv hbs

theorem length_nextIv (hD : ∀ b, b.length = n → (D b).length = n) (hiv : iv.length = n)
    (hbs : ∀ b ∈ bs, b.length = n) : (nextIv E D enc mode iv bs).length = n := by
  have hlast : ∀ {bs : List (List UInt8)}, (∀ b ∈ bs, b.length = n) →
      (bs.getLastD iv).length = n := by
    intro bs hbs
    rcases mem_cons.1 (getLastD_mem_cons (a := iv) (l := bs)) with h | h
    · rwa [h]
    · exact hbs _ h
  cases mode
  · exact hiv
  cases enc
  · exact hlast hbs
  · exact hlast (length_of_mem_cipherBlocks hE hD hiv hbs)

/-- Decryption undoes encryption. -/
theorem cipherBlocks_cipherBlocks
    (hDE : ∀ b, b.length = n → D (E b) = b) (hiv : iv.length = n) (hbs : ∀ b ∈ bs, b.length = n) :
    cipherBlocks E D false mode iv (cipherBlocks E D true mode iv bs) = bs := by
  cases mode
  · have hmap : ∀ b ∈ bs, (D ∘ E) b = id b := fun b hb => hDE b (hbs b hb)
    rw [cipherBlocks, cipherBlocks, map_map, map_congr_left hmap, map_id]
  · exact Blocks.cbcDec_cbcEnc (S := {b : List UInt8 | b.length = n}) hE hDE
      (fun a ha b hb => length_xorBlock ha hb)
      (fun a ha b hb => xorBlock_xorBlock (ha.trans hb.symm)) hiv hbs

end CipherBlocks

end OpenHMR
