import OpenHMR.FlagWords
import OpenHMR.NandCalls

/-!
# The flags of erased pages

`this->erase_page_flag` has a bit for every page of every chip : the page is known to be erased,
and an ECC error on it means nothing. The operations of `rtk_nand.c` keep it. `FlagCall` is a
call of one of them, `Registers` what the hardware answers, and `FlagCall.run` what the call
returns and what it does to the array, with the bits it touches.

`Touches` says when a call reads or writes the array, `Marks`, `Clears` and `Fills` when it
finds its page blank, programs it or erases its block. The return code is the one that the
operations of `NandFlash` give for some outcome (`exists_flashRc`).
-/

open FlagWords List

namespace OpenHMR

open Nat

/-! ## The array and the registers -/

/-- The array `erase_page_flag` and what lies behind it, with the ranges of bits that were read
or written, each given by its first bit and its length. -/
structure FlagArray where
  /-- The words. -/
  words : ℕ → BitVec 32
  /-- The ranges that were read or written. -/
  touched : List (ℕ × ℕ)

namespace FlagArray

/-- Word `k` is read. -/
def touch (k : ℕ) (a : FlagArray) : FlagArray :=
  { a with touched := a.touched ++ [(32 * k, 32)] }

/-- `erase_page_flag[k] = (1 << j)`. -/
def assign (k j : ℕ) (a : FlagArray) : FlagArray :=
  { a.touch k with words := setOnly a.words k j }

/-- `erase_page_flag[k] &= ~(1 << j)`. -/
def clear (k j : ℕ) (a : FlagArray) : FlagArray :=
  { a.touch k with words := mask a.words k j }

/-- `memset(erase_page_flag + k, 0xff, n)`. -/
def memsetOnes (k n : ℕ) (a : FlagArray) : FlagArray :=
  ⟨fill a.words k (8 * n), a.touched ++ [(32 * k, 8 * n)]⟩

end FlagArray

/-- What the hardware answers during a call. -/
structure Registers where
  /-- `down_interruptible` is interrupted. -/
  interrupted : Bool
  /-- `REG_DATA`, the status after a program or an erase. -/
  data : ℕ
  /-- `REG_BLANK_CHECK` after each section of 1 KB of a page. -/
  blankCheck : ℕ → ℕ
  /-- `REG_ECC_STATE` after each section. -/
  eccState : ℕ → ℕ

namespace Registers

variable (hw : Registers)

/-- The program or erase failed. -/
def failed : Bool :=
  hw.data &&& 0x01 ≠ 0

/-- `blank_all_one` after section `k`. -/
def blank (k : ℕ) : Bool :=
  hw.blankCheck k >>> 1 &&& 0x01 ≠ 0

/-- An ECC error is reported for section `k`. -/
def eccError (k : ℕ) : Bool :=
  hw.eccState k &&& 0x0C ≠ 0

/-- The error is not correctable. -/
def uncorrectable (k : ℕ) : Bool :=
  hw.eccState k &&& 0x08 ≠ 0

theorem eccError_of_uncorrectable {k : ℕ} (h : hw.uncorrectable k = true) :
    hw.eccError k = true := by
  have hand : hw.eccState k &&& 0x08 = hw.eccState k &&& 0x0C &&& 0x08 :=
    (Nat.and_assoc _ 0x0C 0x08).symm
  rw [uncorrectable, decide_eq_true_eq, hand] at h
  rw [eccError, decide_eq_true_eq]
  exact fun h0 => h (by rw [h0, zero_and])

end Registers

/-! ## The operations -/

/-- A call of an operation. -/
structure FlagCall where
  /-- The operation. -/
  kind : FlashKind
  /-- The argument `chipnr`. -/
  chipnr : ℕ
  /-- The enabled chip. -/
  selected : ℕ
  /-- The argument `page`. -/
  page : ℕ
  /-- The argument `len` of the operations on the spare area. -/
  len : ℕ
  /-- The argument `isBBT` of `rtk_write_ecc_page`. -/
  isBBT : Bool

namespace FlagCall

section Operations

variable (g : Geometry) (c : FlagCall) (hw : Registers)

/-- `chipnr * this->page_num`, an `unsigned int`. -/
def chipBase : ℕ :=
  c.chipnr * g.pageNum % 2 ^ 32

/-- `chip_section + section`. -/
def word : ℕ :=
  c.chipBase g / 32 + c.page / 32

/-- `index`. -/
def index : ℕ :=
  c.page % 32

/-- The test for boot code. -/
def inBoot : Bool :=
  g.bootArea c.chipnr c.page

/-- The end of `rtk_read_oob` and `rtk_check_pageData` : an ECC error on a page whose flag is
not set. -/
def checkEcc (k : ℕ) (a : FlagArray) : ℤ × FlagArray :=
  if hw.eccError k then
    if a.words (c.word g) &&& 1#32 <<< c.index ≠ 0 then (0, a.touch (c.word g))
    else if hw.uncorrectable k then (if c.inBoot g then 0 else -1, a.touch (c.word g))
    else (0, a.touch (c.word g))
  else (0, a)

/-- `rtk_check_pageData(mtd, chipnr, page, isLastSector)` after section `k`. -/
def checkPageData (k : ℕ) (isLastSector : Bool) (a : FlagArray) : ℤ × FlagArray :=
  if hw.blank k then
    if isLastSector then c.checkEcc g hw k (a.assign (c.word g) c.index) else (0, a)
  else c.checkEcc g hw k a

/-- The loop of `rtk_read_ecc_page` over the sections after the first one. -/
def readSections : ℕ → ℕ → FlagArray → ℤ × FlagArray
  | 0, _, a => (0, a)
  | n + 1, k, a =>
    let (rc, a) := c.checkPageData g hw k (n = 0) a
    if rc = -1 then (-1, a) else readSections n (k + 1) a

/-- The number of the last section of a page. -/
def lastSection : ℕ :=
  g.pageSize / 1024 - 1

/-- `rtk_read_ecc_page`. -/
def readEccPage (a : FlagArray) : ℤ × FlagArray :=
  if hw.interrupted then (eRestartSys, a)
  else
    let (rc, a) := c.checkPageData g hw 0 false a
    if rc = -1 then (-1, a) else c.readSections g hw (lastSection g) 1 a

/-- `rtk_read_oob`. -/
def readOob (a : FlagArray) : ℤ × FlagArray :=
  if hw.interrupted then (eRestartSys, a)
  else if g.oobSize < c.len then (-1, a)
  else
    c.checkEcc g hw (lastSection g)
      (if hw.blank (lastSection g) then a.assign (c.word g) c.index else a)

/-- `rtk_write_oob`. -/
def writeOob (a : FlagArray) : ℤ × FlagArray :=
  if hw.interrupted then (eRestartSys, a)
  else if c.inBoot g then (-2, a)
  else if g.oobSize < c.len then (-1, a)
  else if hw.failed then (-1, a)
  else (0, a.clear (c.word g) c.index)

/-- `rtk_write_ecc_page`. -/
def writeEccPage (a : FlagArray) : ℤ × FlagArray :=
  if hw.interrupted then (eRestartSys, a)
  else if c.inBoot g ∧ ¬(c.isBBT ∧ c.page < 2 * g.ppb) then (-2, a)
  else if hw.failed then (-1, a)
  else (0, a.clear (c.word g) c.index)

/-- `rtk_erase_block`. -/
def eraseBlock (a : FlagArray) : ℤ × FlagArray :=
  if hw.interrupted then (eRestartSys, a)
  else if c.page &&& (g.ppb - 1) ≠ 0 then (-1, a)
  else if hw.failed then (if c.inBoot g then 0 else -1, a)
  else (0, a.memsetOnes (c.word g) (g.ppb / 8))

/-- What the call returns and what it does to the array. -/
def run (a : FlagArray) : ℤ × FlagArray :=
  match c.kind with
  | .readOob => c.readOob g hw a
  | .readEccPage => c.readEccPage g hw a
  | .writeOob => c.writeOob g hw a
  | .writeEccPage => c.writeEccPage g hw a
  | .eraseBlock => c.eraseBlock g hw a

end Operations

/-! ## When an operation does what -/

section Conditions

variable (g : Geometry) (c : FlagCall) (hw : Registers) (words : ℕ → BitVec 32)

/-- The bit of the page in the array. -/
def pos : ℕ :=
  32 * c.word g + c.index

/-- Section `k`, which is not the last one, makes `rtk_read_ecc_page` fail. -/
def Aborts (k : ℕ) : Prop :=
  hw.blank k = false ∧ hw.uncorrectable k = true ∧ flag words (c.pos g) = false ∧
    c.inBoot g = false

/-- The call reads or writes the array. -/
def Touches : Prop :=
  hw.interrupted = false ∧ match c.kind with
    | .readOob => c.len ≤ g.oobSize ∧
      (hw.blank (lastSection g) = true ∨ hw.eccError (lastSection g) = true)
    | .readEccPage => (∃ k < lastSection g, hw.blank k = false ∧ hw.eccError k = true) ∨
      hw.blank (lastSection g) = true ∨ hw.eccError (lastSection g) = true
    | .writeOob => c.inBoot g = false ∧ c.len ≤ g.oobSize ∧ hw.failed = false
    | .writeEccPage =>
      (c.inBoot g = true → c.isBBT = true ∧ c.page < 2 * g.ppb) ∧ hw.failed = false
    | .eraseBlock => g.ppb ∣ c.page ∧ hw.failed = false

/-- The call finds its page blank. -/
def Marks : Prop :=
  hw.interrupted = false ∧ match c.kind with
    | .readOob => c.len ≤ g.oobSize ∧ hw.blank (lastSection g) = true
    | .readEccPage => hw.blank (lastSection g) = true ∧
      ∀ k < lastSection g, ¬c.Aborts g hw words k
    | .writeOob | .writeEccPage | .eraseBlock => False

/-- The call programs its page. -/
def Clears : Prop :=
  c.Touches g hw ∧ (c.kind = .writeOob ∨ c.kind = .writeEccPage)

/-- The call erases its block. -/
def Fills : Prop :=
  c.Touches g hw ∧ c.kind = .eraseBlock

/-- The range of the array that the call touches. -/
def range : ℕ × ℕ :=
  (32 * c.word g, if c.kind = .eraseBlock then 8 * (g.ppb / 8) else 32)

end Conditions

section Effects

variable {g : Geometry} {c : FlagCall} {hw : Registers} {a : FlagArray}

theorem index_lt (c : FlagCall) : c.index < 32 :=
  mod_lt _ (by decide)

theorem flag_pos (words : ℕ → BitVec 32) :
    flag words (c.pos g) = true ↔ words (c.word g) &&& 1#32 <<< c.index ≠ 0 := by
  rw [pos, flag_mul_add words _ c.index_lt, and_one_shiftLeft_ne_zero_iff c.index_lt]

theorem checkEcc_words (k : ℕ) : (c.checkEcc g hw k a).2.words = a.words := by
  unfold checkEcc
  split_ifs <;> rfl

theorem checkEcc_touched (k : ℕ) : (c.checkEcc g hw k a).2.touched =
    a.touched ++ if hw.eccError k then [(32 * c.word g, 32)] else [] := by
  unfold checkEcc
  split_ifs <;> first | rfl | exact (append_nil _).symm

theorem checkEcc_rc (k : ℕ) : (c.checkEcc g hw k a).1 =
    if hw.uncorrectable k = true ∧ flag a.words (c.pos g) = false ∧ c.inBoot g = false then -1
    else 0 := by
  unfold checkEcc
  by_cases herr : hw.eccError k = true
  · rw [if_pos herr]
    by_cases hflag : flag a.words (c.pos g) = true
    · rw [if_pos ((flag_pos _).1 hflag), if_neg (by simp [hflag])]
    · rw [if_neg (mt (flag_pos _).2 hflag)]
      cases hw.uncorrectable k <;> cases c.inBoot g <;> simp [hflag]
  · rw [if_neg herr, if_neg fun h => herr (hw.eccError_of_uncorrectable h.1)]

/-- A section before the last one leaves the array as it is. -/
theorem checkPageData_words (k : ℕ) :
    (c.checkPageData g hw k false a).2.words = a.words := by
  unfold checkPageData
  split_ifs
  · contradiction
  · rfl
  · exact checkEcc_words k

theorem checkPageData_rc (k : ℕ) :
    (c.checkPageData g hw k false a).1 = -1 ↔ c.Aborts g hw a.words k := by
  unfold checkPageData Aborts
  cases hblank : hw.blank k with
  | true => simp
  | false => simp [checkEcc_rc]

variable {r : ℕ × ℕ} {n k : ℕ}

theorem mem_checkPageData_touched (k : ℕ) :
    r ∈ (c.checkPageData g hw k false a).2.touched ↔
      r ∈ a.touched ∨ r = (32 * c.word g, 32) ∧ hw.blank k = false ∧ hw.eccError k = true := by
  unfold checkPageData
  cases hblank : hw.blank k with
  | true => simp
  | false =>
    rw [if_neg (by simp), checkEcc_touched, mem_append]
    cases hw.eccError k <;> simp

theorem checkPageData_last_words (k : ℕ) : (c.checkPageData g hw k true a).2.words =
    if hw.blank k then setOnly a.words (c.word g) c.index else a.words := by
  unfold checkPageData
  cases hblank : hw.blank k with
  | true | false => exact checkEcc_words k

theorem mem_checkPageData_last_touched (k : ℕ) :
    r ∈ (c.checkPageData g hw k true a).2.touched ↔
      r ∈ a.touched ∨
        r = (32 * c.word g, 32) ∧ (hw.blank k = true ∨ hw.eccError k = true) := by
  unfold checkPageData
  cases hblank : hw.blank k with
  | true =>
    rw [if_pos rfl, if_pos rfl, checkEcc_touched, mem_append]
    cases hw.eccError k <;> simp [FlagArray.assign, FlagArray.touch]
  | false =>
    rw [if_neg (by simp), checkEcc_touched, mem_append]
    cases hw.eccError k <;> simp

theorem readSections_of_aborts (h : c.Aborts g hw a.words k) :
    (c.readSections g hw (n + 2) k a).2 = (c.checkPageData g hw k false a).2 := by
  rw [readSections]
  simp only [succ_ne_zero, decide_false]
  rw [if_pos ((checkPageData_rc k).2 h)]

theorem readSections_of_not_aborts (h : ¬c.Aborts g hw a.words k) :
    c.readSections g hw (n + 2) k a =
      c.readSections g hw (n + 1) (k + 1) (c.checkPageData g hw k false a).2 := by
  rw [readSections]
  simp only [succ_ne_zero, decide_false]
  rw [if_neg fun hrc => h ((checkPageData_rc k).1 hrc)]

theorem readSections_one (k : ℕ) :
    (c.readSections g hw 1 k a).2 = (c.checkPageData g hw k true a).2 := by
  simp only [readSections, decide_true]
  split_ifs <;> rfl

/-- The sections from `k` to the last one, `k + n`, if none before it makes the call fail. -/
theorem readSections_words : ∀ (n k : ℕ) {a : FlagArray},
    (∀ j, k ≤ j → j < k + n → ¬c.Aborts g hw a.words j) →
      (c.readSections g hw (n + 1) k a).2.words =
        if hw.blank (k + n) then setOnly a.words (c.word g) c.index else a.words
  | 0, k, a, _ => by rw [readSections_one, checkPageData_last_words, add_zero]
  | n + 1, k, a, h => by
    have hwords : (c.checkPageData g hw k false a).2.words = a.words := checkPageData_words k
    rw [readSections_of_not_aborts (h k le_rfl (by omega)), readSections_words n (k + 1), hwords,
      show k + 1 + n = k + (n + 1) by omega]
    rw [hwords]
    exact fun j hj hlt => h j (by omega) (by omega)

theorem readSections_words_of_aborts : ∀ (n k : ℕ) {a : FlagArray} {j : ℕ}, k ≤ j → j < k + n →
    c.Aborts g hw a.words j → (c.readSections g hw (n + 1) k a).2.words = a.words
  | 0, k, a, j, hj, hlt, _ => absurd hlt (by omega)
  | n + 1, k, a, j, hj, hlt, h => by
    have hwords : (c.checkPageData g hw k false a).2.words = a.words := checkPageData_words k
    by_cases hk : c.Aborts g hw a.words k
    · rw [readSections_of_aborts hk, hwords]
    · have hne : j ≠ k := fun he => hk (he ▸ h)
      rw [readSections_of_not_aborts hk, readSections_words_of_aborts n (k + 1) (j := j) (by omega)
        (by omega) (hwords.symm ▸ h), hwords]

/-- The words that the sections of a page touch. -/
theorem mem_readSections_touched : ∀ (n k : ℕ) {a : FlagArray} {r : ℕ × ℕ},
    r ∈ (c.readSections g hw (n + 1) k a).2.touched ↔ r ∈ a.touched ∨ r = (32 * c.word g, 32) ∧
      ((∃ j, k ≤ j ∧ j < k + n ∧ hw.blank j = false ∧ hw.eccError j = true) ∨
        hw.blank (k + n) = true ∨ hw.eccError (k + n) = true)
  | 0, k, a, r => by
    have hno : ¬∃ j, k ≤ j ∧ j < k + 0 ∧ hw.blank j = false ∧ hw.eccError j = true :=
      fun ⟨j, h1, h2, _⟩ => absurd h1 (not_le.2 h2)
    rw [readSections_one, mem_checkPageData_last_touched, or_iff_right hno, add_zero]
  | n + 1, k, a, r => by
    by_cases hk : c.Aborts g hw a.words k
    · -- a section that fails reads the flag, so the sections after it make no difference
      have hread : hw.blank k = false ∧ hw.eccError k = true :=
        ⟨hk.1, hw.eccError_of_uncorrectable hk.2.1⟩
      rw [readSections_of_aborts hk, mem_checkPageData_touched, and_iff_left hread, and_iff_left]
      exact .inl ⟨k, le_rfl, by omega, hread⟩
    · rw [readSections_of_not_aborts hk, mem_readSections_touched n (k + 1),
        mem_checkPageData_touched, show k + 1 + n = k + (n + 1) by omega, or_assoc, ← and_or_left,
        ← or_assoc (a := hw.blank k = false ∧ hw.eccError k = true)]
      refine or_congr_right (and_congr_right fun _ => or_congr_left ⟨?_, ?_⟩)
      · rintro (h | ⟨j, hj, h⟩)
        · exact ⟨k, le_rfl, by omega, h⟩
        · exact ⟨j, by omega, h⟩
      · rintro ⟨j, hj, h⟩
        rcases eq_or_lt_of_le hj with rfl | hlt
        · exact .inl h.2
        · exact .inr ⟨j, hlt, h⟩

/-- A page of at least two sections : the first section is like the others. -/
theorem readEccPage_eq (hlast : lastSection g ≠ 0) (hi : hw.interrupted = false) :
    c.readEccPage g hw a = c.readSections g hw (lastSection g + 1) 0 a := by
  obtain ⟨n, hn⟩ := exists_eq_succ_of_ne_zero hlast
  rw [readEccPage, hi, hn, readSections]
  rfl

theorem readOob_eq (hi : hw.interrupted = false) (hlen : c.len ≤ g.oobSize) :
    c.readOob g hw a = c.checkEcc g hw (lastSection g)
      (if hw.blank (lastSection g) then a.assign (c.word g) c.index else a) := by
  rw [readOob, hi, if_neg Bool.false_ne_true, if_neg (not_lt.2 hlen)]

theorem run_of_interrupted (hi : hw.interrupted = true) : (c.run g hw a).2 = a := by
  unfold run readOob readEccPage writeOob writeEccPage eraseBlock
  rw [hi]
  cases c.kind <;> rfl

/-- What the operations that program or erase do. -/
theorem run_of_clears (h : c.Clears g hw) : (c.run g hw a).2 = a.clear (c.word g) c.index := by
  obtain ⟨⟨hi, h⟩, hk⟩ := h
  unfold run
  rcases hk with hk | hk <;> rw [hk] at h ⊢
  · simp only [writeOob, hi, h.1, not_lt.2 h.2.1, h.2.2]
    rfl
  · have hboot : ¬(c.inBoot g = true ∧ ¬(c.isBBT = true ∧ c.page < 2 * g.ppb)) :=
      fun hb => hb.2 (h.1 hb.1)
    simp only [writeEccPage, hi, if_neg hboot, h.2]
    rfl

theorem run_of_fills (h : c.Fills g hw) :
    (c.run g hw a).2 = a.memsetOnes (c.word g) (g.ppb / 8) := by
  obtain ⟨⟨hi, h⟩, hk⟩ := h
  unfold run
  rw [hk] at h ⊢
  have halign : ¬c.page &&& (g.ppb - 1) ≠ 0 :=
    not_not.2 ((g.and_ppb _).trans (mod_eq_zero_of_dvd h.1))
  simp only [eraseBlock, hi, if_neg halign, h.2]
  rfl

/-- A call that touches no flag keeps the array. -/
theorem run_of_not_touches (hk : c.kind ≠ .readOob ∧ c.kind ≠ .readEccPage)
    (h : ¬c.Touches g hw) : (c.run g hw a).2 = a := by
  cases hi : hw.interrupted with
  | true => exact run_of_interrupted hi
  | false =>
    unfold run
    rw [Touches, and_iff_right hi] at h
    cases hkind : c.kind <;> rw [hkind] at h hk
    case readOob => exact absurd rfl hk.1
    case readEccPage => exact absurd rfl hk.2
    case writeOob =>
      simp only [writeOob]
      split_ifs with _ hb hl hf
      · rfl
      · rfl
      · rfl
      · rfl
      · exact absurd ⟨eq_false_of_ne_true hb, not_lt.1 hl, eq_false_of_ne_true hf⟩ h
    case writeEccPage =>
      simp only [writeEccPage]
      split_ifs with _ hb hf
      · rfl
      · rfl
      · rfl
      · exact absurd ⟨fun hb' => not_not.1 fun hn => hb ⟨hb', hn⟩, eq_false_of_ne_true hf⟩ h
    case eraseBlock =>
      simp only [eraseBlock]
      split_ifs with _ ha hf
      · rfl
      · rfl
      · rfl
      · rfl
      · rw [not_not, g.and_ppb] at ha
        exact absurd ⟨dvd_of_mod_eq_zero ha, eq_false_of_ne_true hf⟩ h

variable (hlast : lastSection g ≠ 0)

include hlast

/-- What the operations that read do. -/
theorem run_words_of_marks (h : c.Marks g hw a.words) :
    (c.run g hw a).2.words = setOnly a.words (c.word g) c.index := by
  obtain ⟨hi, h⟩ := h
  unfold run
  cases hk : c.kind <;> rw [hk] at h
  case readOob =>
    simp only []
    rw [readOob_eq hi h.1, checkEcc_words, if_pos h.2]
    rfl
  case readEccPage =>
    simp only []
    rw [readEccPage_eq hlast hi, readSections_words _ 0 fun j _ hj => h.2 j (by omega),
      zero_add, if_pos h.1]
  all_goals exact h.elim

theorem run_words_of_read
    (hk : c.kind = .readOob ∨ c.kind = .readEccPage) (h : ¬c.Marks g hw a.words) :
    (c.run g hw a).2.words = a.words := by
  cases hi : hw.interrupted with
  | true => rw [run_of_interrupted hi]
  | false =>
    unfold run
    rw [Marks, and_iff_right hi] at h
    rcases hk with hk | hk <;> rw [hk] at h ⊢
    · by_cases hlen : c.len ≤ g.oobSize
      · simp only []
        rw [readOob_eq hi hlen, checkEcc_words, if_neg fun hb => h ⟨hlen, hb⟩]
      · simp only [readOob, hi, not_le.1 hlen]
        rfl
    · simp only []
      rw [readEccPage_eq hlast hi]
      by_cases hall : ∀ k < lastSection g, ¬c.Aborts g hw a.words k
      · rw [readSections_words _ 0 fun j _ hj => hall j (by omega), zero_add,
          if_neg fun hb => h ⟨hb, hall⟩]
      · push Not at hall
        obtain ⟨k, hk, habort⟩ := hall
        exact readSections_words_of_aborts _ 0 (zero_le k) (by omega) habort

theorem mem_run_touched_of_read (hk : c.kind = .readOob ∨ c.kind = .readEccPage) :
    r ∈ (c.run g hw a).2.touched ↔
      r ∈ a.touched ∨ r = (32 * c.word g, 32) ∧ c.Touches g hw := by
  rw [Touches]
  cases hi : hw.interrupted with
  | true => simp [run_of_interrupted hi]
  | false =>
    unfold run
    rw [and_iff_right rfl]
    rcases hk with hk | hk <;> rw [hk]
    · by_cases hlen : c.len ≤ g.oobSize
      · simp only [hlen, true_and]
        rw [readOob_eq hi hlen, checkEcc_touched]
        cases hw.blank (lastSection g) <;> cases hw.eccError (lastSection g) <;>
          simp [FlagArray.assign, FlagArray.touch]
      · simp [readOob, hi, not_le.1 hlen, hlen]
    · simp only []
      rw [readEccPage_eq hlast hi, mem_readSections_touched]
      simp only [zero_add, zero_le, true_and]

/-- The bits that a call touches. -/
theorem mem_run_touched :
    r ∈ (c.run g hw a).2.touched ↔ r ∈ a.touched ∨ r = c.range g ∧ c.Touches g hw := by
  by_cases hread : c.kind = .readOob ∨ c.kind = .readEccPage
  · have hrange : c.range g = (32 * c.word g, 32) := by
      rcases hread with hk | hk <;> simp [range, hk]
    rw [mem_run_touched_of_read hlast hread, hrange]
  · by_cases ht : c.Touches g hw
    · rw [and_iff_left ht]
      cases hk : c.kind
      case readOob => exact absurd (.inl hk) hread
      case readEccPage => exact absurd (.inr hk) hread
      case eraseBlock =>
        rw [run_of_fills ⟨ht, hk⟩, range, if_pos hk, FlagArray.memsetOnes, mem_append,
          mem_singleton]
      all_goals
        rw [run_of_clears ⟨ht, by simp [hk]⟩, range, if_neg (by simp [hk]), FlagArray.clear,
          FlagArray.touch, mem_append, mem_singleton]
    · rw [run_of_not_touches (not_or.1 hread) ht, or_iff_left fun h => ht h.2]

end Effects

/-! ## The return codes -/

/-- The return code of the operation of `NandFlash` that the call is. -/
def flashRc (env : Env) (g : Geometry) (c : FlagCall) (s : Nand) : ℤ :=
  match c.kind with
  | .readOob => (OpenHMR.readOob env g c.chipnr c.page c.len s).1
  | .readEccPage => (OpenHMR.readEccPage env g c.chipnr c.page s).1
  | .writeOob => (OpenHMR.writeOob env g c.chipnr c.page c.len s.oobbuf s).1
  | .writeEccPage => (OpenHMR.writeEccPage env g c.chipnr c.page s.databuf s.oobbuf c.isBBT s).1
  | .eraseBlock => (OpenHMR.eraseBlock env g c.chipnr c.page s).1

section Codes

variable {g : Geometry} {c : FlagCall} {hw : Registers} {a : FlagArray}

/-- The code of a read is 0, or -1 outside the boot code. -/
def PlainRc (g : Geometry) (c : FlagCall) (rc : ℤ) : Prop :=
  rc = 0 ∨ rc = -1 ∧ c.inBoot g = false

theorem plainRc_checkEcc (k : ℕ) : c.PlainRc g (c.checkEcc g hw k a).1 := by
  rw [checkEcc_rc]
  split_ifs with h
  · exact .inr ⟨rfl, h.2.2⟩
  · exact .inl rfl

theorem plainRc_checkPageData (k : ℕ) (isLastSector : Bool) :
    c.PlainRc g (c.checkPageData g hw k isLastSector a).1 := by
  unfold checkPageData
  split_ifs
  · exact plainRc_checkEcc k
  · exact .inl rfl
  · exact plainRc_checkEcc k

theorem plainRc_readSections : ∀ (n k : ℕ) {a : FlagArray},
    c.PlainRc g (c.readSections g hw n k a).1
  | 0, _, _ => .inl rfl
  | n + 1, k, a => by
    rw [readSections]
    simp only []
    split_ifs with h
    · exact .inr ⟨rfl, ((plainRc_checkPageData k (n = 0)).resolve_left fun h0 =>
        absurd (h0.symm.trans h) (by decide)).2⟩
    · exact plainRc_readSections n (k + 1)

theorem plainRc_readEccPage (hi : hw.interrupted = false) :
    c.PlainRc g (c.readEccPage g hw a).1 := by
  rw [readEccPage, hi, if_neg Bool.false_ne_true]
  have hfirst : c.PlainRc g (c.checkPageData g hw 0 false a).1 := plainRc_checkPageData 0 false
  rcases hfirst with h | h
  · simp only [h]
    exact plainRc_readSections _ 1
  · simp only [h.1]
    exact .inr ⟨rfl, h.2⟩

theorem PlainRc.exists_eq {rc : ℤ} (h : c.PlainRc g rc) :
    ∃ o, o ≠ .interrupted ∧ rc = g.plainRc o c.chipnr c.page := by
  rcases h with rfl | ⟨rfl, hb⟩
  · exact ⟨.ok, by decide, rfl⟩
  · refine ⟨.failed, by decide, ?_⟩
    rw [inBoot] at hb
    rw [Geometry.plainRc, hb]
    rfl

theorem flashRc_eq (env : Env) (s : Nand) : c.flashRc env g s =
    let o := env.outcome s.log.length
    match c.kind with
    | .readOob =>
      if o ≠ .interrupted ∧ g.oobSize < c.len then -1 else g.plainRc o c.chipnr c.page
    | .readEccPage => g.plainRc o c.chipnr c.page
    | .writeOob =>
      g.writeRc (if o = .ok ∧ g.oobSize < c.len then .failed else o) c.chipnr c.page false
    | .writeEccPage =>
      g.writeRc o c.chipnr c.page (c.isBBT && decide (c.page < 2 * g.ppb))
    | .eraseBlock =>
      if o ≠ .interrupted ∧ ¬c.page &&& (g.ppb - 1) = 0 then -1
      else g.plainRc o c.chipnr c.page := by
  unfold flashRc
  cases c.kind
  case readOob | readEccPage => rfl
  all_goals
    simp only [OpenHMR.writeOob, OpenHMR.writeEccPage, OpenHMR.eraseBlock]
    split_ifs <;> rfl

/-- Every return code is that of the operation for some outcome. -/
theorem exists_flashRc (g : Geometry) (c : FlagCall) (hw : Registers) (a : FlagArray) :
    ∃ o : Outcome, ∀ (env : Env) (s : Nand), env.outcome s.log.length = o →
      (c.run g hw a).1 = c.flashRc env g s := by
  cases hi : hw.interrupted with
  | true =>
    refine ⟨.interrupted, fun env s h => ?_⟩
    rw [flashRc_eq, h]
    unfold run readOob readEccPage writeOob writeEccPage eraseBlock
    rw [hi]
    cases c.kind <;> simp [Geometry.plainRc, Geometry.writeRc]
  | false =>
    unfold run
    cases hk : c.kind
    case readOob =>
      have hplain (a) : c.PlainRc g (c.checkEcc g hw (lastSection g) a).1 := plainRc_checkEcc _
      obtain ⟨o, ho, hrc⟩ := (hplain
        (if hw.blank (lastSection g) then a.assign (c.word g) c.index else a)).exists_eq
      refine ⟨o, fun env s h => ?_⟩
      rw [flashRc_eq, h, hk]
      simp only [ne_eq, ho, not_false_eq_true, true_and]
      rw [readOob, hi, if_neg Bool.false_ne_true]
      by_cases hlen : g.oobSize < c.len
      · rw [if_pos hlen, if_pos hlen]
      · rw [if_neg hlen, if_neg hlen, hrc]
    case readEccPage =>
      obtain ⟨o, -, hrc⟩ := (plainRc_readEccPage (c := c) (g := g) (a := a) hi).exists_eq
      refine ⟨o, fun env s h => ?_⟩
      rw [flashRc_eq, h, hk]
      exact hrc
    all_goals
      refine ⟨if hw.failed then .failed else .ok, fun env s h => ?_⟩
      rw [flashRc_eq, h, hk]
      cases hf : hw.failed <;> cases hb : g.bootArea c.chipnr c.page <;>
        simp only [writeOob, writeEccPage, eraseBlock, Geometry.writeRc, Geometry.plainRc, inBoot,
          hi, hf, hb] <;>
        grind

end Codes

end FlagCall

end OpenHMR
