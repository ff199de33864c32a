import Mathlib.Algebra.Order.Group.Nat
import OpenHMR.SerialFlash

/-!
# Erase of the serial flash

`venus_sfc_probe` of `venus_sfc.c` takes the size of the sectors from the identification of the
chip. `venus_sfc_erase` accepts a request whose end, in 32 bits, is within the device, and then
erases a sector at a time until the unsigned rest of the length is zero. So it stops if and only if
the length is a multiple of the sector size, and `venusSfcErase_iff` says when the sectors that are
erased are those of the request.
-/

open SerialFlash Nat

namespace OpenHMR

/-! ## `venus_sfc_probe` -/

/-- What `venus_sfc_info_t` says of the chip. -/
structure SfcInfo where
  attr : ℕ
  eraseSize : ℕ
  eraseOpcode : ℕ
  deriving DecidableEq

/-- `VENUS_SFC_ATTR_SUPPORT_MD_PP`. -/
def venusSfcAttrSupportMdPp : ℕ :=
  0x01

def sstInit : SfcInfo :=
  ⟨0, 0x1000, 0x20⟩

/-- `ext` is the extended identification, which is read for the S25FL128P. -/
def spansionInit (deviceId1 deviceId2 ext : ℕ) : SfcInfo :=
  if deviceId1 = 0x20 then
    if deviceId2 = 0x18 then
      if ext % 0x100 = 0x03 ∧ ext / 0x100 % 0x100 = 0x00 then
        ⟨venusSfcAttrSupportMdPp, 0x40000, 0xd8⟩
      else if ext % 0x100 = 0x4d ∧ ext / 0x100 % 0x100 = 0x00 then
        ⟨venusSfcAttrSupportMdPp, 0x40000, 0xd8⟩
      else ⟨venusSfcAttrSupportMdPp, 0x10000, 0xd8⟩
    else ⟨venusSfcAttrSupportMdPp, 0x10000, 0xd8⟩
  else ⟨0, 0x10000, 0xd8⟩

def mxicInit (deviceId1 deviceId2 : ℕ) : SfcInfo :=
  if deviceId1 = 0x20 then
    match deviceId2 with
    | 0x13 => ⟨0, 0x1000, 0x20⟩
    | 0x14 => ⟨0, 0x1000, 0x20⟩
    | 0x15 => ⟨0, 0x10000, 0xd8⟩
    | 0x16 => ⟨0, 0x10000, 0xd8⟩
    | 0x17 => ⟨0, 0x10000, 0xd8⟩
    | 0x18 => ⟨venusSfcAttrSupportMdPp, 0x10000, 0xd8⟩
    | _ => ⟨0, 0x1000, 0x20⟩
  else ⟨0, 0x1000, 0x20⟩

def pmcInit : SfcInfo :=
  ⟨0, 0x1000, 0xd7⟩

def stmInit (deviceId1 deviceId2 : ℕ) : SfcInfo :=
  if deviceId1 = 0x20 then
    match deviceId2 with
    | 0x17 => ⟨venusSfcAttrSupportMdPp, 0x10000, 0xd8⟩
    | 0x18 => ⟨venusSfcAttrSupportMdPp, 0x40000, 0xd8⟩
    | _ => ⟨venusSfcAttrSupportMdPp, 0x10000, 0xd8⟩
  else ⟨venusSfcAttrSupportMdPp, 0x10000, 0xd8⟩

def eonInit (deviceId1 deviceId2 : ℕ) : SfcInfo :=
  if deviceId1 = 0x20 then
    match deviceId2 with
    | 0x17 => ⟨0, 0x10000, 0xd8⟩
    | _ => ⟨0, 0x1000, 0xd8⟩
  else ⟨0, 0x1000, 0xd8⟩

/-- `venus_sfc_probe`, with the identification `id` that the chip gives. -/
def venusSfcProbe (id ext : ℕ) : Option SfcInfo :=
  let deviceId1 := id / 0x100 % 0x100
  let deviceId2 := id / 0x10000 % 0x100
  match id % 0x100 with
  | 0xbf => some sstInit
  | 0x01 => some (spansionInit deviceId1 deviceId2 ext)
  | 0xc2 => some (mxicInit deviceId1 deviceId2)
  | 0x7f => some pmcInit
  | 0x20 => some (stmInit deviceId1 deviceId2)
  | 0x1c => some (eonInit deviceId1 deviceId2)
  | _ => none

/-- The sizes of sectors. -/
structure SectorSize (n : ℕ) : Prop where
  pos : 0 < n
  dvd : n ∣ 0x100000000

/-- Every chip of the table. -/
theorem sectorSize_of_probe {id ext : ℕ} {info : SfcInfo} (h : venusSfcProbe id ext = some info) :
    SectorSize info.eraseSize := by
  have h4k : SectorSize 0x1000 := ⟨by decide, by decide⟩
  have h64k : SectorSize 0x10000 := ⟨by decide, by decide⟩
  have h256k : SectorSize 0x40000 := ⟨by decide, by decide⟩
  unfold venusSfcProbe at h
  simp only [] at h
  split at h
  all_goals first | contradiction | obtain rfl := Option.some.inj h
  · exact h4k
  · unfold spansionInit
    split_ifs
    all_goals first | exact h64k | exact h256k
  · unfold mxicInit
    split_ifs
    · split
      all_goals first | exact h4k | exact h64k
    · exact h4k
  · exact h4k
  · unfold stmInit
    split_ifs
    · split
      all_goals first | exact h64k | exact h256k
    · exact h64k
  · unfold eonInit
    split_ifs
    · split
      all_goals first | exact h4k | exact h64k
    · exact h4k

/-! ## `venus_sfc_erase` -/

/-- The address in the flash of an address of the processor. -/
def flashAddr (flashBase addr : ℕ) : ℕ :=
  (addr + 0x100000000 - flashBase) % 0x100000000

/-- At most `fuel` rounds of the loop, with the commands to the flash. The reads of the status until
the sector is erased are left out. -/
def eraseLoop (flashBase erasesize : ℕ) : ℕ → ℕ → ℕ → Option (List Command)
  | 0, _, _ => none
  | fuel + 1, size, addr =>
    if size = 0 then some [.writeDisable]
    else
      (eraseLoop flashBase erasesize fuel ((size + 0x100000000 - erasesize) % 0x100000000)
        ((addr + erasesize) % 0x100000000)).map fun cmds =>
          .writeEnable :: .erase (flashAddr flashBase addr) :: cmds

/-- What comes of a call. -/
inductive SfcEraseResult where
  /-- It returns an error. -/
  | error (rc : ℤ)
  /-- The loop has not come to its end. -/
  | running
  /-- It returns 0. -/
  | done (cmds : List Command)
  deriving DecidableEq

/-- `venus_sfc_erase`. `interrupted` says that `down_interruptible` fails. -/
def venusSfcErase (flashBase erasesize size : ℕ) (interrupted : Bool) (fuel addr len : ℕ) :
    SfcEraseResult :=
  if size < (addr + len) % 0x100000000 then .error (-22)
  else if interrupted then .error (-22)
  else
    match eraseLoop flashBase erasesize fuel len ((flashBase + addr) % 0x100000000) with
    | some cmds => .done cmds
    | none => .running

/-- The call comes to its end, and has then erased the sectors that `[addr, addr + len)` meets,
which are within the device. -/
def ErasesRange (flashBase erasesize size addr len : ℕ) : Prop :=
  ∃ fuel cmds, venusSfcErase flashBase erasesize size false fuel addr len = .done cmds ∧
    (∀ s, s ∈ erased erasesize false cmds ↔ ∃ a, addr ≤ a ∧ a < addr + len ∧ a / erasesize = s) ∧
    ∀ s ∈ erased erasesize false cmds, (s + 1) * erasesize ≤ size

/-! ## The loop -/

section Loop

variable {flashBase erasesize : ℕ}

theorem flashAddr_base (hbase : flashBase < 0x100000000) (offset : ℕ) :
    flashAddr flashBase ((flashBase + offset) % 0x100000000) = offset % 0x100000000 := by
  unfold flashAddr
  omega

/-- The commands of `n` rounds from `offset` on, and behind them. -/
def eraseCommands (erasesize : ℕ) : ℕ → ℕ → List Command
  | 0, _ => [.writeDisable]
  | n + 1, offset => .writeEnable :: .erase (offset % 0x100000000) ::
    eraseCommands erasesize n (offset + erasesize)

/-- Whole sectors are erased in turn. -/
theorem eraseLoop_mul (hbase : flashBase < 0x100000000) (hpos : 0 < erasesize) :
    ∀ (n offset : ℕ), erasesize * n < 0x100000000 →
      eraseLoop flashBase erasesize (n + 1) (erasesize * n) ((flashBase + offset) % 0x100000000) =
        some (eraseCommands erasesize n offset)
  | 0, _, _ => rfl
  | n + 1, offset, hn => by
    have hsize : (erasesize * (n + 1) + 0x100000000 - erasesize) % 0x100000000 = erasesize * n := by
      rw [mul_add_one] at hn ⊢
      omega
    have haddr : ((flashBase + offset) % 0x100000000 + erasesize) % 0x100000000 =
        (flashBase + (offset + erasesize)) % 0x100000000 := by
      omega
    have hne : erasesize * (n + 1) ≠ 0 := mul_ne_zero hpos.ne' (succ_ne_zero n)
    rw [eraseLoop, if_neg hne, hsize, haddr, eraseLoop_mul hbase hpos n _ (by
      rw [mul_add_one] at hn
      omega), flashAddr_base hbase]
    rfl

/-- If the length is not a multiple of the sector size, the rest never becomes zero. -/
theorem eraseLoop_eq_none (hs : SectorSize erasesize) : ∀ (fuel size addr : ℕ),
    ¬erasesize ∣ size → eraseLoop flashBase erasesize fuel size addr = none
  | 0, _, _, _ => rfl
  | fuel + 1, size, addr, h => by
    have hne : size ≠ 0 := fun h0 => h (h0 ▸ dvd_zero _)
    have hle : erasesize ≤ 0x100000000 := le_of_dvd (by decide) hs.dvd
    have hrest : ¬erasesize ∣ (size + 0x100000000 - erasesize) % 0x100000000 := by
      intro hdvd
      have hsum := (dvd_mod_iff hs.dvd).1 hdvd
      rw [Nat.add_sub_assoc hle] at hsum
      exact h ((Nat.dvd_add_left (Nat.dvd_sub hs.dvd (dvd_refl _))).1 hsum)
    rw [eraseLoop, if_neg hne, eraseLoop_eq_none hs fuel _ _ hrest]
    rfl

/-- More fuel makes no difference. -/
theorem eraseLoop_unique : ∀ {fuel fuel' size addr : ℕ} {cmds cmds' : List Command},
    eraseLoop flashBase erasesize fuel size addr = some cmds →
    eraseLoop flashBase erasesize fuel' size addr = some cmds' → cmds = cmds'
  | 0, _, _, _, _, _, h, _ => absurd h (by simp [eraseLoop])
  | _ + 1, 0, _, _, _, _, _, h' => absurd h' (by simp [eraseLoop])
  | fuel + 1, fuel' + 1, size, addr, cmds, cmds', h, h' => by
    rw [eraseLoop] at h h'
    split_ifs at h h' with hzero
    · exact Option.some.inj (h.symm.trans h')
    · obtain ⟨rest, hrest, rfl⟩ := Option.map_eq_some_iff.1 h
      obtain ⟨rest', hrest', rfl⟩ := Option.map_eq_some_iff.1 h'
      rw [eraseLoop_unique hrest hrest']

theorem program_notMem_eraseCommands {a : ℕ} {data : List UInt8} : ∀ (n offset : ℕ),
    .program a data ∉ eraseCommands erasesize n offset
  | 0, _ => by simp [eraseCommands]
  | n + 1, offset => by simp [eraseCommands, program_notMem_eraseCommands n]

/-- The sectors that are erased. -/
theorem mem_erased_eraseCommands {s : ℕ} : ∀ (n offset : ℕ) (enabled : Bool),
    s ∈ erased erasesize enabled (eraseCommands erasesize n offset) ↔
      ∃ i < n, (offset + erasesize * i) % 0x100000000 / erasesize = s
  | 0, _, _ => by simp [eraseCommands, erased]
  | n + 1, offset, enabled => by
    rw [eraseCommands, erased, erased, if_pos rfl, List.mem_cons, mem_erased_eraseCommands n]
    constructor
    · rintro (rfl | ⟨i, hi, hs⟩)
      · exact ⟨0, succ_pos n, rfl⟩
      · refine ⟨i + 1, succ_lt_succ hi, ?_⟩
        rw [mul_add_one, add_comm (erasesize * i), ← add_assoc]
        exact hs
    · rintro ⟨i, hi, hs⟩
      cases i with
      | zero => exact .inl hs.symm
      | succ i =>
        refine .inr ⟨i, lt_of_succ_lt_succ hi, ?_⟩
        rw [mul_add_one, add_comm (erasesize * i), ← add_assoc] at hs
        exact hs

end Loop

/-! ## Requests -/

section Requests

variable {flashBase erasesize size addr len : ℕ} (hs : SectorSize erasesize)
  (hbase : flashBase < 0x100000000) (hlen : len < 0x100000000)

include hs hbase hlen

/-- The commands of a call that comes to its end. -/
theorem commands_of_done {fuel : ℕ} {cmds : List Command}
    (h : venusSfcErase flashBase erasesize size false fuel addr len = .done cmds) :
    ∃ n, len = erasesize * n ∧ cmds = eraseCommands erasesize n addr := by
  unfold venusSfcErase at h
  rw [if_neg (by simp : ¬false = true)] at h
  split_ifs at h
  split at h
  · rename_i cmds' hloop
    obtain rfl := SfcEraseResult.done.inj h
    have hdvd : erasesize ∣ len := by
      by_contra hnot
      rw [eraseLoop_eq_none hs _ _ _ hnot] at hloop
      exact absurd hloop (by simp)
    obtain ⟨n, rfl⟩ := hdvd
    exact ⟨n, rfl, eraseLoop_unique hloop (eraseLoop_mul hbase hs.pos n addr hlen)⟩
  · exact absurd h (by simp)

/-- The bytes of the flash afterwards : ones in the sectors of the range, the others as before. -/
theorem ErasesRange.mem (h : ErasesRange flashBase erasesize size addr len) :
    ∃ fuel cmds, venusSfcErase flashBase erasesize size false fuel addr len = .done cmds ∧
      ∀ (page a : ℕ) (f : Flash), f.enabled = false →
        ((∃ b, addr ≤ b ∧ b < addr + len ∧ b / erasesize = a / erasesize) →
          (run erasesize page f cmds).mem a = 0xff) ∧
        ((¬∃ b, addr ≤ b ∧ b < addr + len ∧ b / erasesize = a / erasesize) →
          (run erasesize page f cmds).mem a = f.mem a) := by
  obtain ⟨fuel, cmds, hdone, hmem, -⟩ := h
  refine ⟨fuel, cmds, hdone, fun page a f hen => ?_⟩
  obtain ⟨n, -, rfl⟩ := commands_of_done hs hbase hlen hdone
  rw [run_mem _ _ _ fun _ _ => program_notMem_eraseCommands n addr, hen, ← hmem]
  exact ⟨fun h => if_pos h, fun h => if_neg h⟩

/-- The range is aligned, and does not go around. -/
theorem aligned_of_erasesRange (hsize : size < 0x100000000) (hpos : 0 < len)
    (h : ErasesRange flashBase erasesize size addr len) :
    erasesize ∣ addr ∧ addr + len < 0x100000000 := by
  obtain ⟨fuel, cmds, hdone, hiff, hin⟩ := h
  obtain ⟨n, rfl, rfl⟩ := commands_of_done hs hbase hlen hdone
  -- The sector of the last byte is erased, and within the device.
  have hlast := (hiff _).2 ⟨addr + erasesize * n - 1, by omega, by omega, rfl⟩
  have hfit := hin _ hlast
  have hdiv := lt_mul_div_succ (addr + erasesize * n - 1) hs.pos
  rw [mul_comm] at hfit
  have hend : addr + erasesize * n < 0x100000000 := by omega
  refine ⟨?_, hend⟩
  by_contra hnot
  obtain ⟨i, hi, heq⟩ := (mem_erased_eraseCommands n addr false).1 hlast
  have hround : erasesize * i ≤ erasesize * n := mul_le_mul_left _ hi.le
  have hmod : addr % erasesize ≠ 0 := fun h0 => hnot (dvd_of_mod_eq_zero h0)
  have hshift : addr + erasesize * n - 1 = addr - 1 + erasesize * n := by
    have : addr ≠ 0 := fun h0 => hmod (by rw [h0, zero_mod])
    omega
  have hprev : (addr - 1) / erasesize = addr / erasesize := by
    have hdm := div_add_mod addr erasesize
    have hlt := mod_lt addr hs.pos
    refine Nat.div_eq_of_lt_le ?_ ?_
    · rw [mul_comm]
      omega
    · rw [add_one_mul, mul_comm]
      omega
  rw [mod_eq_of_lt (by omega), add_mul_div_left _ _ hs.pos, hshift,
    add_mul_div_left _ _ hs.pos, hprev] at heq
  omega

/-- An aligned range within the device is erased, and so is an empty one. -/
theorem erasesRange_of_aligned (hacc : (addr + len) % 0x100000000 ≤ size) (hdvd : erasesize ∣ len)
    (h : len = 0 ∨ erasesize ∣ addr ∧ addr + len < 0x100000000) :
    ErasesRange flashBase erasesize size addr len := by
  obtain ⟨n, rfl⟩ := hdvd
  have hdone : venusSfcErase flashBase erasesize size false (n + 1) addr (erasesize * n) =
      .done (eraseCommands erasesize n addr) := by
    rw [venusSfcErase, if_neg (not_lt.2 hacc), if_neg (by simp), eraseLoop_mul hbase hs.pos n _
      hlen]
  rcases h with hzero | ⟨⟨q, rfl⟩, hend⟩
  · obtain rfl : n = 0 := (Nat.mul_eq_zero.1 hzero).resolve_left hs.pos.ne'
    have hnone (s : ℕ) : s ∉ erased erasesize false (eraseCommands erasesize 0 addr) := by
      rw [mem_erased_eraseCommands]
      rintro ⟨i, hi, -⟩
      exact absurd hi (not_lt_zero i)
    refine ⟨_, _, hdone, fun s => iff_of_false (hnone s) ?_, fun s hs => absurd hs (hnone s)⟩
    rintro ⟨a, hle, hlt, -⟩
    omega
  · have hsector {s : ℕ} : s ∈ erased erasesize false (eraseCommands erasesize n (erasesize * q)) ↔
        q ≤ s ∧ s < q + n := by
      have hround {i : ℕ} (hi : i < n) :
          (erasesize * q + erasesize * i) % 0x100000000 / erasesize = q + i := by
        have hle : erasesize * i ≤ erasesize * n := mul_le_mul_left _ hi.le
        rw [mod_eq_of_lt (by omega), ← mul_add, Nat.mul_div_cancel_left _ hs.pos]
      rw [mem_erased_eraseCommands]
      constructor
      · rintro ⟨i, hi, rfl⟩
        rw [hround hi]
        omega
      · rintro ⟨hle, hlt⟩
        exact ⟨s - q, by omega, by rw [hround (by omega)]; omega⟩
    refine ⟨_, _, hdone, fun s => hsector.trans ?_, fun s hmem => ?_⟩
    · rw [← mul_add]
      constructor
      · rintro ⟨hle, hlt⟩
        exact ⟨erasesize * s, mul_le_mul_left _ hle, Nat.mul_lt_mul_of_pos_left hlt hs.pos,
          Nat.mul_div_cancel_left s hs.pos⟩
      · rintro ⟨a, hle, hlt, rfl⟩
        rw [mul_comm] at hle
        exact ⟨(Nat.le_div_iff_mul_le hs.pos).2 hle, Nat.div_lt_of_lt_mul hlt⟩
    · have hle := mul_le_mul_left erasesize (hsector.1 hmem).2
      rw [mod_eq_of_lt hend, ← mul_add] at hacc
      rw [mul_comm]
      exact hle.trans hacc

end Requests

/-- An accepted request is carried out as it should be if and only if its length is a multiple of
the sector size, and, if it is not empty, its address is one too and its end is below `2 ^ 32`. -/
theorem venusSfcErase_iff {id ext : ℕ} {info : SfcInfo} (hprobe : venusSfcProbe id ext = some info)
    {flashBase size addr len : ℕ} (hbase : flashBase < 0x100000000) (hsize : size < 0x100000000)
    (hlen : len < 0x100000000) (hacc : (addr + len) % 0x100000000 ≤ size) :
    ErasesRange flashBase info.eraseSize size addr len ↔
      info.eraseSize ∣ len ∧
        (len = 0 ∨ info.eraseSize ∣ addr ∧ addr + len < 0x100000000) := by
  have hs := sectorSize_of_probe hprobe
  constructor
  · intro h
    have hdvd : info.eraseSize ∣ len := by
      obtain ⟨fuel, cmds, hdone, -, -⟩ := h
      obtain ⟨n, hn, -⟩ := commands_of_done hs hbase hlen hdone
      exact ⟨n, hn⟩
    refine ⟨hdvd, ?_⟩
    rcases Nat.eq_zero_or_pos len with hzero | hpos
    · exact .inl hzero
    · exact .inr (aligned_of_erasesRange hs hbase hlen hsize hpos h)
  · rintro ⟨hdvd, h⟩
    exact erasesRange_of_aligned hs hbase hlen hacc hdvd h

/-- Two sectors of 64 KB of an MX25L1605. -/
theorem venusSfcErase_twoSectors :
    venusSfcProbe 0x1520c2 0 = some ⟨0, 0x10000, 0xd8⟩ ∧
      (ErasesRange 0xbfb00000 0x10000 0x200000 0x40000 0x20000 ↔
        0x10000 ∣ 0x20000 ∧
          (0x20000 = 0 ∨ 0x10000 ∣ 0x40000 ∧ 0x40000 + 0x20000 < 0x100000000)) := by
  have hprobe : venusSfcProbe 0x1520c2 0 = some ⟨0, 0x10000, 0xd8⟩ := by decide
  exact ⟨hprobe, venusSfcErase_iff hprobe (by decide) (by decide) (by decide) (by decide)⟩

/-- A request for 0x20100 bytes is accepted, and the loop does not come to its end. Neither is a
request right that begins within a sector, nor one that goes around. -/
theorem venusSfcErase_fails :
    venusSfcProbe 0x1520c2 0 = some ⟨0, 0x10000, 0xd8⟩ ∧
      (∀ fuel, venusSfcErase 0xbfb00000 0x10000 0x200000 false fuel 0x40000 0x20100 = .running) ∧
      (∃ cmds, venusSfcErase 0xbfb00000 0x10000 0x200000 false 2 0x48000 0x10000 = .done cmds ∧
        0x57fff / 0x10000 ∉ erased 0x10000 false cmds) ∧
      ∃ cmds, venusSfcErase 0xbfb00000 0x10000 0x200000 false 3 0xffff0000 0x20000 = .done cmds ∧
        erased 0x10000 false cmds = [0xffff, 0] := by
  have hs : SectorSize 0x10000 := ⟨by decide, by decide⟩
  refine ⟨by decide, fun fuel => ?_, ?_, ?_⟩
  · rw [venusSfcErase, if_neg (by decide), if_neg (by decide),
      eraseLoop_eq_none hs _ _ _ (by decide)]
  · exact ⟨_, rfl, by decide⟩
  · exact ⟨_, rfl, by decide⟩

end OpenHMR
