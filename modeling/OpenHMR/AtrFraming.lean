import Mathlib.Order.Nat
import OpenHMR.Atr

/-!
# Framing of the answer to reset

The grammar of an answer, over its bytes : `T0`, `TD1` and `TD2` (`chainByte`) announce the
interface bytes of the groups that begin at `chainStart`, the historical bytes follow, and a check
byte if the protocol of `TD1` has one (`atrLength`). `is_atr_complete` finds the end of this grammar
on what was received so far, and `decompress_atr` on the whole string, with one exception : an
answer of two bytes, `T0 = 0`, is never complete, as `is_atr_complete` waits for a third byte
(`not_atrFrames`, `atrFrames_iff`).
-/

namespace OpenHMR

open List Nat

/-! ## The grammar -/

/-- How many of the first `j` bytes of a group are announced by `t`. -/
def announcedBelow (t : UInt8) : ℕ → ℕ
  | 0 => 0
  | j + 1 => announcedBelow t j + if Announces t j then 1 else 0

mutual

/-- The byte that announces group `i` : `T0`, `TD1`, `TD2`, or 0 if it is absent. -/
def chainByte (b : ℕ → UInt8) : ℕ → UInt8
  | 0 => b 1
  | i + 1 =>
    if Announces (chainByte b i) 3 then b (chainStart b i + announcedBelow (chainByte b i) 3) else 0

/-- The place where group `i` begins. -/
def chainStart (b : ℕ → UInt8) : ℕ → ℕ
  | 0 => 2
  | i + 1 => chainStart b i + announcedBelow (chainByte b i) 4

end

/-- The number of historical bytes. -/
def historyLength (b : ℕ → UInt8) : ℕ :=
  (b 1 &&& 0xF).toNat

/-- The protocols `T = 0` and `T = 15` have no check byte. -/
def NoCheckByte (b : ℕ → UInt8) : Prop :=
  chainByte b 1 &&& 0xF = 0 ∨ chainByte b 1 &&& 0xF = 15

instance (b : ℕ → UInt8) : Decidable (NoCheckByte b) :=
  inferInstanceAs (Decidable (_ ∨ _))

/-- The length of the answer, with three groups at most. -/
def atrLength (b : ℕ → UInt8) : ℕ :=
  chainStart b 3 + historyLength b + if NoCheckByte b then 0 else 1

/-- Interface byte `j` of group `i`, or 0. -/
def interfaceByte (b : ℕ → UInt8) (i : ℕ) (j : Fin 4) : UInt8 :=
  if Announces (chainByte b i) j then b (chainStart b i + announcedBelow (chainByte b i) j) else 0

/-- Each byte of the answer is in its field. -/
structure Stores (b : ℕ → UInt8) (info : ScdAtrInfo) : Prop where
  ts : info.ts = b 0
  t0 : info.t0 = b 1
  t1 : info.t1 = interfaceByte b 0
  t2 : info.t2 = interfaceByte b 1
  t3 : info.t3 = interfaceByte b 2
  history : ∀ k : Fin 16, info.history k =
    if k.val < historyLength b then b (chainStart b 3 + k) else 0

/-- The bytes of a string, and 0 beyond its end. -/
def byteAt (s : List UInt8) (i : ℕ) : UInt8 :=
  s.getD i 0

/-- What is expected of the two parsers on the string of `a`. -/
structure AtrFrames (a : ScdAtr) : Prop where
  before : ∀ p : ScdAtr, p.bytes <+: a.bytes → p.length < atrLength (byteAt a.bytes) →
    isAtrComplete p = 0
  complete : ∀ p : ScdAtr, p.bytes <+: a.bytes → p.length = atrLength (byteAt a.bytes) →
    isAtrComplete p ≠ 0
  accepts : (decompressAtr a .zero).isSome ↔ a.length = atrLength (byteAt a.bytes)
  stores : ∀ info ∈ decompressAtr a .zero, Stores (byteAt a.bytes) info

/-! ### Announced bytes -/

theorem announcedBelow_three_succ {t : UInt8} (h : Announces t 3) :
    announcedBelow t 3 + 1 = announcedBelow t 4 := by
  simp [announcedBelow, h]

theorem announcedBelow_mono (t : UInt8) {j n : ℕ} (h : j ≤ n) :
    announcedBelow t j ≤ announcedBelow t n := by
  induction h with
  | refl => exact le_rfl
  | step _ ih => exact ih.trans (le_add_right _ _)

theorem forall_byte {p : UInt8 → Prop} (h : ∀ n : Fin 256, p (UInt8.ofNat n)) (t : UInt8) :
    p t := by
  have ht := h ⟨t.toNat, t.toNat_lt⟩
  rwa [UInt8.ofNat_toNat] at ht

theorem announcedBytes_eq : ∀ t : UInt8, announcedBytes t = announcedBelow t 4 :=
  forall_byte (by decide +kernel)

theorem eq_zero_of_announcedBelow :
    ∀ t : UInt8, announcedBelow t 4 = 0 → (t &&& 0xF).toNat = 0 → t = 0 :=
  forall_byte (by decide +kernel)

theorem announces_three (t : UInt8) : Announces t 3 ↔ t &&& 0x80 ≠ 0 :=
  Iff.rfl

/-! ### Strings that agree -/

section Agree

variable {b b' : ℕ → UInt8} {n : ℕ}

/-- The grammar up to a group reads the bytes before this group only. -/
theorem chain_congr (hagree : ∀ i < n, b i = b' i) :
    ∀ i, chainStart b i ≤ n → chainStart b' i = chainStart b i ∧ chainByte b' i = chainByte b i
  | 0, h => ⟨by simp [chainStart], by
    exact (hagree 1 (by simp only [chainStart] at h; omega)).symm⟩
  | i + 1, h => by
    simp only [chainStart] at h ⊢
    obtain ⟨hstart, hbyte⟩ := chain_congr hagree i (by omega)
    refine ⟨by rw [hstart, hbyte], ?_⟩
    simp only [chainByte, hstart, hbyte]
    split_ifs with h3
    · have := announcedBelow_three_succ h3
      exact (hagree _ (by omega)).symm
    · rfl

theorem chainStart_mono (b : ℕ → UInt8) {i j : ℕ} (h : i ≤ j) :
    chainStart b i ≤ chainStart b j := by
  induction h with
  | refl => exact le_rfl
  | step _ ih =>
    simp only [chainStart]
    omega

theorem two_le_chainStart (b : ℕ → UInt8) (i : ℕ) : 2 ≤ chainStart b i := by
  have h := chainStart_mono b (zero_le i)
  simpa [chainStart] using h

theorem chainStart_le_atrLength (b : ℕ → UInt8) {i : ℕ} (h : i ≤ 3) :
    chainStart b i ≤ atrLength b := by
  have := chainStart_mono b h
  unfold atrLength
  omega

variable (hagree : ∀ i < n, b i = b' i)

include hagree

theorem historyLength_congr (h : 2 ≤ n) :
    historyLength b' = historyLength b := by
  simp only [historyLength, hagree 1 (by omega)]

/-- An answer that ends before the place `n` is determined by the bytes before it. -/
theorem atrLength_congr (h : atrLength b ≤ n) :
    atrLength b' = atrLength b := by
  have hle : ∀ {i}, i ≤ 3 → chainStart b i ≤ n := fun hi => (chainStart_le_atrLength b hi).trans h
  have htwo := (two_le_chainStart b 3).trans (hle le_rfl)
  have hcheck : NoCheckByte b' ↔ NoCheckByte b := by
    simp only [NoCheckByte, (chain_congr hagree 1 (hle (by omega))).2]
  simp only [atrLength, hcheck, historyLength_congr hagree htwo,
    (chain_congr hagree 3 (hle le_rfl)).1]

theorem lt_atrLength_congr :
    n < atrLength b' ↔ n < atrLength b := by
  constructor <;> intro h <;> by_contra hle
  · rw [atrLength_congr hagree (by omega)] at h
    exact hle h
  · rw [atrLength_congr (fun i hi => (hagree i hi).symm) (by omega)] at h
    exact hle h

theorem interfaceByte_congr {i : ℕ} (h : chainStart b (i + 1) ≤ n) :
    interfaceByte b' i = interfaceByte b i := by
  have hi : chainStart b i ≤ n := (chainStart_mono b (le_succ i)).trans h
  obtain ⟨hstart, hbyte⟩ := chain_congr hagree i hi
  funext j
  simp only [interfaceByte, hstart, hbyte]
  split_ifs with hj
  · refine (hagree _ ?_).symm
    have hlt : announcedBelow (chainByte b i) j < announcedBelow (chainByte b i) (j + 1) := by
      simp [announcedBelow, hj]
    have hle := announcedBelow_mono (chainByte b i) (show j.val + 1 ≤ 4 from j.isLt)
    simp only [chainStart] at h
    omega
  · rfl

theorem Stores.congr (h : atrLength b ≤ n) {info : ScdAtrInfo}
    (hs : Stores b info) : Stores b' info := by
  have hle : ∀ {i}, i ≤ 3 → chainStart b i ≤ n := fun hi => (chainStart_le_atrLength b hi).trans h
  have htwo := (two_le_chainStart b 3).trans (hle le_rfl)
  have hstart := (chain_congr hagree 3 (hle le_rfl)).1
  refine ⟨hs.ts.trans (hagree 0 (by omega)), hs.t0.trans (hagree 1 (by omega)), ?_, ?_, ?_, ?_⟩
  · rw [hs.t1, interfaceByte_congr hagree (hle (by omega))]
  · rw [hs.t2, interfaceByte_congr hagree (hle (by omega))]
  · rw [hs.t3, interfaceByte_congr hagree (hle (by omega))]
  · intro k
    rw [hs.history k, hstart, historyLength_congr hagree htwo]
    split_ifs with hk
    · refine hagree _ ?_
      have := h
      unfold atrLength at this
      omega
    · rfl

end Agree

namespace ScdAtr

variable {a p : ScdAtr}

theorem bytes_length (a : ScdAtr) : a.bytes.length = a.length := by
  simp [bytes, a.data_length, a.length_le]

theorem byteAt_bytes (a : ScdAtr) {i : ℕ} (h : i < a.length) : byteAt a.bytes i = a.byte i := by
  simp [byteAt, bytes, byte, h]

theorem byteAt_of_front (h : p.bytes <+: a.bytes) {i : ℕ} (hi : i < p.length) :
    byteAt a.bytes i = p.byte i := by
  obtain ⟨l, hl⟩ := h
  rw [← byteAt_bytes p hi, ← hl]
  have hlen : i < p.bytes.length := by rwa [bytes_length]
  simp [byteAt, List.getElem?_append_left hlen]

end ScdAtr

/-! ## The parsers -/

section Parsers

variable {a : ScdAtr}

/-- The bytes that `is_atr_complete` uses are those of the grammar. -/
theorem chain_announcedBytes (b : ℕ → UInt8) (i : ℕ) :
    chainStart b (i + 1) = chainStart b i + announcedBytes (chainByte b i) := by
  rw [announcedBytes_eq]
  rfl

theorem chainByte_succ (b : ℕ → UInt8) (i : ℕ) :
    chainByte b (i + 1) =
      if chainByte b i &&& 0x80 ≠ 0 then b (chainStart b (i + 1) - 1) else 0 := by
  simp only [chainByte, announces_three]
  split_ifs with h
  · have h3 := announcedBelow_three_succ ((announces_three _).2 h)
    congr 1
    simp only [chainStart]
    omega
  · rfl

/-- `is_atr_complete`, in the words of the grammar. -/
theorem isAtrComplete_eq (a : ScdAtr) : isAtrComplete a =
    if a.length < 3 then 0
    else if a.byte 0 ≠ 0x3B ∧ a.byte 0 ≠ 0x3F then 1
    else if a.length < chainStart a.byte 1 then 0
    else if a.length < chainStart a.byte 2 then 0
    else if a.length < atrLength a.byte then 0
    else if NoCheckByte a.byte ∨ isAtrCrcOk a then 1 else -1 := by
  have h1 : chainStart a.byte 1 = 2 + announcedBytes (a.byte 1) := chain_announcedBytes _ 0
  have htd1 : chainByte a.byte 1 =
      if a.byte 1 &&& 0x80 ≠ 0 then a.byte (1 + announcedBytes (a.byte 1)) else 0 := by
    have hplace : 1 + announcedBytes (a.byte 1) = chainStart a.byte 1 - 1 := by omega
    rw [hplace]
    exact chainByte_succ _ 0
  have h2 : chainStart a.byte 2 = 2 + announcedBytes (a.byte 1) +
      announcedBytes (chainByte a.byte 1) := by
    rw [← h1]
    exact chain_announcedBytes _ 1
  have htd2 : chainByte a.byte 2 = if chainByte a.byte 1 &&& 0x80 ≠ 0 then
      a.byte (1 + announcedBytes (a.byte 1) + announcedBytes (chainByte a.byte 1)) else 0 := by
    have hplace : 1 + announcedBytes (a.byte 1) + announcedBytes (chainByte a.byte 1) =
        chainStart a.byte 2 - 1 := by omega
    rw [hplace]
    exact chainByte_succ _ 1
  have h3 : chainStart a.byte 3 = 2 + announcedBytes (a.byte 1) +
      announcedBytes (chainByte a.byte 1) + announcedBytes (chainByte a.byte 2) := by
    rw [← h2]
    exact chain_announcedBytes _ 2
  have hlen : atrLength a.byte =
      if NoCheckByte a.byte then chainStart a.byte 3 + historyLength a.byte
      else chainStart a.byte 3 + historyLength a.byte + 1 := by
    unfold atrLength
    split_ifs <;> rfl
  unfold isAtrComplete
  simp only [← htd1, ← htd2]
  by_cases hcheck : NoCheckByte a.byte
  · have ht : chainByte a.byte 1 &&& 0xF = 0 ∨ chainByte a.byte 1 &&& 0xF = 15 := hcheck
    simp only [hlen, h1, h2, h3, historyLength, hcheck, ht, if_true, true_or]
  · have ht : ¬ (chainByte a.byte 1 &&& 0xF = 0 ∨ chainByte a.byte 1 &&& 0xF = 15) := hcheck
    have hsum : 3 + announcedBytes (a.byte 1) + announcedBytes (chainByte a.byte 1) +
        announcedBytes (chainByte a.byte 2) + historyLength a.byte =
          chainStart a.byte 3 + historyLength a.byte + 1 := by omega
    rw [historyLength] at hsum
    simp only [hlen, hsum, h1, h2, historyLength, hcheck, ht, if_false, false_or]

/-- `is_atr_complete` finds the end of the answer, but not before the third byte. -/
theorem isAtrComplete_eq_zero_iff (hts : a.byte 0 = 0x3B ∨ a.byte 0 = 0x3F) :
    isAtrComplete a = 0 ↔ a.length < 3 ∨ a.length < atrLength a.byte := by
  have h1 := chainStart_le_atrLength a.byte (show 1 ≤ 3 by omega)
  have h2 := chainStart_le_atrLength a.byte (show 2 ≤ 3 by omega)
  have hno : ¬ (a.byte 0 ≠ 0x3B ∧ a.byte 0 ≠ 0x3F) := by tauto
  rw [isAtrComplete_eq, if_neg hno]
  split_ifs <;> simp <;> omega

/-- The loop of `decompress_atr` stores the announced bytes of a group, in their order. -/
theorem readGroup_eq (a : ScdAtr) (t : UInt8) (id : ℕ) (group : Fin 4 → UInt8) :
    ∀ n, readGroup a t id group n = (id + announcedBelow t n, fun j : Fin 4 =>
      if j.val < n ∧ Announces t j then a.byte (id + announcedBelow t j) else group j)
  | 0 => by simp [readGroup, announcedBelow]
  | n + 1 => by
    simp only [readGroup, readGroup_eq a t id group n, announcedBelow]
    split_ifs with hn
    · refine Prod.ext rfl (funext fun j => ?_)
      rcases Nat.lt_trichotomy j n with hj | hj | hj
      · simp [hj, hj.ne, lt_succ_of_lt hj]
      · simp [hj, hn]
      · simp [hj.ne', show ¬ j.val < n by omega, show ¬ j.val < n + 1 by omega]
    · refine Prod.ext rfl (funext fun j => ?_)
      simp only []
      by_cases hj : j.val = n
      · simp [hj, hn]
      · simp [show j.val < n + 1 ↔ j.val < n by omega]

/-- A group of which `decompress_atr` has read the bytes from `id` on. -/
def storedGroup (a : ScdAtr) (t : UInt8) (id : ℕ) (group : Fin 4 → UInt8) (j : Fin 4) : UInt8 :=
  if Announces t j then a.byte (id + announcedBelow t j) else group j

/-- `T1[3]` when `decompress_atr` uses it. -/
def storedT1 (b : ℕ → UInt8) (info : ScdAtrInfo) : UInt8 :=
  if Announces (b 1) 3 then b (2 + announcedBelow (b 1) 3) else info.t1 (Fin.last 3)

/-- `T2[3]` when `decompress_atr` uses it. -/
def storedT2 (b : ℕ → UInt8) (info : ScdAtrInfo) : UInt8 :=
  if Announces (storedT1 b info) 3 then b (chainStart b 1 + announcedBelow (storedT1 b info) 3)
  else info.t2 (Fin.last 3)

/-- The place where `decompress_atr` expects the historical bytes. -/
def storedStart (b : ℕ → UInt8) (info : ScdAtrInfo) : ℕ :=
  chainStart b 1 + announcedBelow (storedT1 b info) 4 + announcedBelow (storedT2 b info) 4

/-- 1 if the protocol has a check byte. -/
def checkBytes (t : UInt8) : ℕ :=
  if t &&& 0xF = 0 ∨ t &&& 0xF = 15 then 0 else 1

/-- `decompress_atr`, in the words of the grammar. -/
theorem decompressAtr_eq (a : ScdAtr) (info : ScdAtrInfo) : decompressAtr a info =
    if isAtrComplete a = 0 ∨ a.length ≠
        storedStart a.byte info + historyLength a.byte + checkBytes (storedT1 a.byte info) then none
    else
      some { info with
        status := 0, progress := 0, t1Len := 0, t2Len := 0, ts := a.byte 0, t0 := a.byte 1
        t1 := storedGroup a (a.byte 1) 2 info.t1
        t2 := storedGroup a (storedT1 a.byte info) (chainStart a.byte 1) info.t2
        t3 := storedGroup a (storedT2 a.byte info)
          (chainStart a.byte 1 + announcedBelow (storedT1 a.byte info) 4) info.t3
        history := fun k =>
          if k.val < historyLength a.byte then a.byte (storedStart a.byte info + k)
          else info.history k
        tck := a.byte (a.length - 1) } := by
  have hgroup : ∀ t id group,
      readGroup a t id group 4 = (id + announcedBelow t 4, storedGroup a t id group) := by
    intro t id group
    rw [readGroup_eq]
    refine Prod.ext rfl (funext fun j => ?_)
    simp [storedGroup]
  have h1 : storedGroup a (a.byte 1) 2 info.t1 3 = storedT1 a.byte info := rfl
  have h2 : storedGroup a (storedT1 a.byte info) (2 + announcedBelow (a.byte 1) 4) info.t2 3 =
    storedT2 a.byte info := rfl
  have hrest : ((if storedT1 a.byte info &&& 0xF = 0 ∨ storedT1 a.byte info &&& 0xF = 15
      then (a.length : ℤ) - (storedStart a.byte info : ℕ)
      else (a.length : ℤ) - (storedStart a.byte info : ℕ) - 1) ≠ (historyLength a.byte : ℤ)) ↔
        a.length ≠
          storedStart a.byte info + historyLength a.byte + checkBytes (storedT1 a.byte info) := by
    unfold checkBytes
    split_ifs <;> omega
  unfold decompressAtr
  by_cases hzero : isAtrComplete a = 0
  · simp [hzero]
  · simp only [hgroup, h1, h2, hzero, false_or, if_false, ← hrest, Int.ofNat_lt]
    rfl

/-- `decompress_atr` on a zeroed `atr_info`. -/
theorem decompressAtr_zero (a : ScdAtr) : decompressAtr a .zero =
    if isAtrComplete a = 0 ∨ a.length ≠ atrLength a.byte then none
    else
      some { ScdAtrInfo.zero with
        ts := a.byte 0
        t0 := a.byte 1
        t1 := interfaceByte a.byte 0
        t2 := interfaceByte a.byte 1
        t3 := interfaceByte a.byte 2
        history := fun k =>
          if k.val < historyLength a.byte then a.byte (chainStart a.byte 3 + k) else 0
        tck := a.byte (a.length - 1) } :=
  decompressAtr_eq a .zero

theorem decompressAtr_stores {info : ScdAtrInfo} (h : info ∈ decompressAtr a .zero) :
    a.length = atrLength a.byte ∧ Stores a.byte info := by
  rw [decompressAtr_zero] at h
  split_ifs at h with hfail
  · cases h
  · cases h
    exact ⟨by tauto, ⟨rfl, rfl, rfl, rfl, rfl, fun _ => rfl⟩⟩

/-- An answer of two bytes is one with `T0 = 0`. -/
theorem atrLength_lt_three_iff (b : ℕ → UInt8) : atrLength b < 3 ↔ b 1 = 0 := by
  have hchain : chainStart b 1 = 2 + announcedBelow (b 1) 4 := rfl
  constructor
  · intro h
    have hle := chainStart_mono b (show 1 ≤ 3 by omega)
    simp only [atrLength, historyLength] at h
    exact eq_zero_of_announcedBelow _ (by omega) (by omega)
  · intro h
    have h0 : chainByte b 0 = 0 := h
    have h1 : chainByte b 1 = 0 := by simp [chainByte, h, announces_three]
    have h2 : chainByte b 2 = 0 := by simp [chainByte, h, announces_three]
    have hnone : announcedBelow 0 4 = 0 := by decide
    have hcheck : NoCheckByte b := .inl (by rw [h1]; rfl)
    simp [atrLength, hcheck, historyLength, h, chainStart, h0, h1, h2, hnone]

end Parsers

/-! ## Framing -/

section Frames

variable {a p : ScdAtr}

theorem isAtrComplete_of_lt_three (h : p.length < 3) : isAtrComplete p = 0 := by
  simp [isAtrComplete, h]

variable (hts : byteAt a.bytes 0 = 0x3B ∨ byteAt a.bytes 0 = 0x3F)

include hts

theorem byte_zero_of_front
    (hp : p.bytes <+: a.bytes) (h : 0 < p.length) : p.byte 0 = 0x3B ∨ p.byte 0 = 0x3F := by
  rwa [← ScdAtr.byteAt_of_front hp h]

/-- `is_atr_complete` on the first bytes of the string of `a`. -/
theorem isAtrComplete_of_front (hp : p.bytes <+: a.bytes) :
    isAtrComplete p = 0 ↔ p.length < 3 ∨ p.length < atrLength (byteAt a.bytes) := by
  rcases lt_or_ge p.length 3 with hlt | hge
  · exact iff_of_true (isAtrComplete_of_lt_three hlt) (.inl hlt)
  · have hagree : ∀ i < p.length, p.byte i = byteAt a.bytes i :=
      fun i hi => (ScdAtr.byteAt_of_front hp hi).symm
    rw [isAtrComplete_eq_zero_iff (byte_zero_of_front hts hp (by omega)), lt_atrLength_congr hagree]

/-- An answer of three bytes or more, or a part of one. -/
theorem atrFrames_of_three_le
    (h : 3 ≤ atrLength (byteAt a.bytes) ∨ a.length < atrLength (byteAt a.bytes)) :
    AtrFrames a := by
  have hagree : ∀ i < a.length, a.byte i = byteAt a.bytes i := fun i hi => (a.byteAt_bytes hi).symm
  refine ⟨fun p hp hlt => ?_, fun p hp heq => ?_, ?_, fun info hinfo => ?_⟩
  · exact (isAtrComplete_of_front hts hp).2 (.inr hlt)
  · have hle : p.length ≤ a.length := by
      rw [← p.bytes_length, ← a.bytes_length]
      exact hp.length_le
    rw [Ne, isAtrComplete_of_front hts hp]
    omega
  · have hzero := isAtrComplete_of_front hts (prefix_refl a.bytes)
    rw [decompressAtr_zero]
    have hlen : a.length = atrLength a.byte ↔ a.length = atrLength (byteAt a.bytes) := by
      constructor <;> intro heq
      · rw [atrLength_congr hagree (by omega)]
        exact heq
      · rw [atrLength_congr (fun i hi => (hagree i hi).symm) (by omega)]
        exact heq
    split_ifs with hfail
    · simp only [Option.isSome_none, Bool.false_eq_true, false_iff]
      omega
    · simp only [Option.isSome_some, true_iff]
      omega
  · obtain ⟨hlen, hstores⟩ := decompressAtr_stores hinfo
    exact hstores.congr hagree (by omega)

end Frames

/-- The two parsers find the end of an answer and its bytes, if and only if `T0` is not 0. -/
theorem atrFrames_iff (a : ScdAtr) (hts : a.bytes[0]? = some 0x3B ∨ a.bytes[0]? = some 0x3F) :
    AtrFrames a ↔ a.bytes[1]? ≠ some 0 := by
  have hts' : byteAt a.bytes 0 = 0x3B ∨ byteAt a.bytes 0 = 0x3F := by
    rcases hts with h | h <;> simp [byteAt, getD_eq_getElem?_getD, h]
  have hlength := a.bytes_length
  constructor
  · intro hframes hzero
    have htwo : 1 < a.bytes.length := (List.getElem?_eq_some_iff.1 hzero).1
    have hbyte : byteAt a.bytes 1 = 0 := by simp [byteAt, getD_eq_getElem?_getD, hzero]
    have hlt := (atrLength_lt_three_iff _).2 hbyte
    have hge := chainStart_le_atrLength (byteAt a.bytes) (zero_le 3)
    have hge' : 2 ≤ atrLength (byteAt a.bytes) := hge
    -- the first two bytes of the string
    have hprefix : (ScdAtr.mk a.data 2 a.data_length (by decide)).bytes <+: a.bytes := by
      exact take_prefix_take_left (show 2 ≤ a.length by omega)
    refine hframes.complete _ hprefix (show 2 = _ by omega) ?_
    exact isAtrComplete_of_lt_three (show 2 < 3 by omega)
  · intro hzero
    refine atrFrames_of_three_le hts' ?_
    by_contra hshort
    have hbyte := (atrLength_lt_three_iff (byteAt a.bytes)).1 (by omega)
    have hge : 2 ≤ atrLength (byteAt a.bytes) :=
      chainStart_le_atrLength (byteAt a.bytes) (zero_le 3)
    have htwo : 1 < a.bytes.length := by omega
    simp [byteAt, getD_eq_getElem?_getD, List.getElem?_eq_getElem htwo] at hbyte
    exact hzero (by rw [List.getElem?_eq_getElem htwo, hbyte])

/-- An answer with three groups, one historical byte and a check byte. -/
theorem atrFrames_three_groups : AtrFrames (.ofBytes
    [0x3B, 0x91, 0x11, 0x81, 0x31, 0x20, 0x45, 0x00, 0x55] (by decide)) :=
  (atrFrames_iff _ (.inl rfl)).2 (by decide)

/-- The shortest answer is not found. -/
theorem not_atrFrames : ¬ AtrFrames (.ofBytes [0x3B, 0x00] (by decide)) :=
  fun h => h.complete _ (prefix_refl _) (by decide) (by decide)

end OpenHMR
