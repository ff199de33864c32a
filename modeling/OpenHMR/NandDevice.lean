import OpenHMR.NandFlash

/-!
# The supported chips

`rtk_nand_scan` reads the identifiers of the chips, looks the first one up in the list
`nand_device` and sets the sizes of the driver from the entry it finds (`rtkNandScan`). An entry
matches by its identifier and, where it gives one, by the fifth byte. If the chips that answer
are not the dies of one such chip, they are taken for several chips of the same kind, except for
the `HY27UF084G2M`, whose identifier is also that of a chip with two dies.

What the driver relies on for the sizes holds for every chip of the list (`Accepted.supported`).
-/

namespace OpenHMR

/-! ## The list of chips -/

/-- `generic_ffs(x)`, the number of the lowest bit that is set, counted from 1. -/
def genericFfs (x : ℕ) : ℕ :=
  let step := fun (w : ℕ) (xr : ℕ × ℕ) =>
    if xr.1 &&& (2 ^ w - 1) = 0 then (xr.1 >>> w, xr.2 + w) else xr
  if x = 0 then 0 else (step 1 (step 2 (step 4 (step 8 (step 16 (x, 1)))))).2

/-- The names of the chips. -/
inductive PartNum where
  | mt29f2g08aad | mt29f2g08abae | nand01gw3b2b | nand01gw3b2c | nand02gw3b2d | nand04gw3b2b
  | nand04gw3b2d | nand04gw3c2b | nand08gw3c2b | hy27uf081g2a | hy27uf082g2a | hy27uf082g2b
  | hy27uf084g2b | hy27ut084g2a | h27u4g8t2b | hy27ut088g2a | hy27uf084g2m | hy27ut084g2m
  | hy27ug088g5m | hy27ug088g5b | h27u8g8t2b | k9f1g08u0b | k9f2g08u0b | k9g4g08u0a | k9g4g08u0b
  | k9f4g08u0b | k9g8g08u0a | k9g8g08u0m | k9k8g08u0a | k9f8g08u0m | tc58nvg0s3c | tc58nvg0s3e
  | tc58nvg1s3c | tc58nvg1s3e | tc58nvg2s3e
  deriving DecidableEq

/-- `device_type_t`, without the timing of the bus. -/
structure DeviceType where
  name : PartNum
  /-- The first four bytes of the identifier. -/
  id : ℕ
  /-- The size of all dies. -/
  size : ℕ
  /-- The size of a die. -/
  chipsize : ℕ
  pageSize : ℕ
  blockSize : ℕ
  oobSize : ℕ
  /-- The number of dies. -/
  numChips : ℕ
  isLastPage : Bool
  /-- The fifth byte of the identifier, or `0xff`. -/
  cycleID5th : UInt8
  page_le : genericFfs pageSize ≤ genericFfs blockSize := by decide
  block_le : genericFfs blockSize ≤ genericFfs chipsize := by decide

/-- The list `nand_device`. -/
def nandDevice : List DeviceType := [
  .mk .mt29f2g08aad 0x2CDA8095 0x10000000 0x10000000 2048 (64 * 2048) 64 1 false 0x50,
  .mk .mt29f2g08abae 0x2CDA9095 0x10000000 0x10000000 2048 (64 * 2048) 64 1 false 0x03,
  .mk .nand01gw3b2b 0x20F1801D 0x8000000 0x8000000 2048 (64 * 2048) 64 1 false 0xff,
  .mk .nand01gw3b2c 0x20F1001D 0x8000000 0x8000000 2048 (64 * 2048) 64 1 false 0xff,
  .mk .nand02gw3b2d 0x20DA1095 0x10000000 0x10000000 2048 (64 * 2048) 64 1 false 0x44,
  .mk .nand04gw3b2b 0x20DC8095 0x20000000 0x20000000 2048 (64 * 2048) 64 1 false 0x20,
  .mk .nand04gw3b2d 0x20DC1095 0x20000000 0x20000000 2048 (64 * 2048) 64 1 false 0x54,
  .mk .nand04gw3c2b 0x20DC14A5 0x20000000 0x20000000 2048 (128 * 2048) 64 1 true 0x24,
  .mk .nand08gw3c2b 0x20D314A5 0x40000000 0x40000000 2048 (128 * 2048) 64 1 true 0x34,
  .mk .hy27uf081g2a 0xADF1801D 0x8000000 0x8000000 2048 (64 * 2048) 64 1 false 0xff,
  .mk .hy27uf082g2a 0xADDA801D 0x10000000 0x10000000 2048 (64 * 2048) 64 1 false 0x00,
  .mk .hy27uf082g2b 0xADDA1095 0x10000000 0x10000000 2048 (64 * 2048) 64 1 false 0x44,
  .mk .hy27uf084g2b 0xADDC1095 0x20000000 0x20000000 2048 (64 * 2048) 64 1 false 0x54,
  .mk .hy27ut084g2a 0xADDC14A5 0x20000000 0x20000000 2048 (128 * 2048) 64 1 true 0x24,
  .mk .h27u4g8t2b 0xADDC14A5 0x20000000 0x20000000 2048 (128 * 2048) 64 1 true 0x24,
  .mk .hy27ut088g2a 0xADD314A5 0x40000000 0x40000000 2048 (128 * 2048) 64 1 true 0x34,
  .mk .hy27uf084g2m 0xADDC8095 0x20000000 0x20000000 2048 (64 * 2048) 64 1 false 0xff,
  .mk .hy27ut084g2m 0xADDC8425 0x20000000 0x20000000 2048 (128 * 2048) 64 1 true 0xff,
  .mk .hy27ug088g5m 0xADDC8095 0x40000000 0x20000000 2048 (64 * 2048) 64 2 false 0xff,
  .mk .hy27ug088g5b 0xADDC1095 0x40000000 0x20000000 2048 (64 * 2048) 64 2 false 0x54,
  .mk .h27u8g8t2b 0xADD314B6 0x40000000 0x40000000 4096 (128 * 4096) 128 1 true 0x34,
  .mk .k9f1g08u0b 0xECF10095 0x8000000 0x8000000 2048 (64 * 2048) 64 1 false 0x40,
  .mk .k9f2g08u0b 0xECDA1095 0x10000000 0x10000000 2048 (64 * 2048) 64 1 false 0x44,
  .mk .k9g4g08u0a 0xECDC1425 0x20000000 0x20000000 2048 (128 * 2048) 64 1 true 0x54,
  .mk .k9g4g08u0b 0xECDC14A5 0x20000000 0x20000000 2048 (128 * 2048) 64 1 true 0x54,
  .mk .k9f4g08u0b 0xECDC1095 0x20000000 0x20000000 2048 (64 * 2048) 64 1 false 0x54,
  .mk .k9g8g08u0a 0xECD314A5 0x40000000 0x40000000 2048 (128 * 2048) 64 1 true 0x64,
  .mk .k9g8g08u0m 0xECD31425 0x40000000 0x40000000 2048 (128 * 2048) 64 1 true 0x64,
  .mk .k9k8g08u0a 0xECD35195 0x40000000 0x40000000 2048 (64 * 2048) 64 1 false 0x58,
  .mk .k9f8g08u0m 0xECD301A6 0x40000000 0x40000000 4096 (64 * 4096) 128 1 false 0x64,
  .mk .tc58nvg0s3c 0x98F19095 0x8000000 0x8000000 2048 (64 * 2048) 64 1 false 0xff,
  .mk .tc58nvg0s3e 0x98D19015 0x8000000 0x8000000 2048 (64 * 2048) 64 1 false 0x76,
  .mk .tc58nvg1s3c 0x98DA9095 0x10000000 0x10000000 2048 (64 * 2048) 64 1 false 0xff,
  .mk .tc58nvg1s3e 0x98DA9015 0x10000000 0x10000000 2048 (64 * 2048) 64 1 false 0x76,
  .mk .tc58nvg2s3e 0x98DC9015 0x20000000 0x20000000 2048 (64 * 2048) 64 1 false 0x76]

/-- The sizes that `rtk_nand_scan` sets for `numchips` dies of the chip. -/
def DeviceType.geometry (d : DeviceType) (numchips : ℕ) : Geometry :=
  ⟨genericFfs d.pageSize - 1, genericFfs d.blockSize - 1, genericFfs d.chipsize - 1, d.oobSize,
    numchips, d.isLastPage, Nat.sub_le_sub_right d.page_le 1, Nat.sub_le_sub_right d.block_le 1⟩

/-! ## The scan -/

/-- The five bytes that `read_id` reads from a chip. -/
structure ChipId where
  makerCode : UInt8
  deviceCode : UInt8
  third : UInt8
  fourth : UInt8
  fifth : UInt8

/-- `nand_type_id`. -/
def ChipId.typeId (c : ChipId) : ℕ :=
  c.makerCode.toNat * 2 ^ 24 + c.deviceCode.toNat * 2 ^ 16 + c.third.toNat * 2 ^ 8 + c.fourth.toNat

/-- The loop over the chips `i`, `i + 1`, … : at most `n` of them, as long as they answer with the
codes of chip 0. -/
def probe (ids : ℕ → ChipId) : ℕ → ℕ → ℕ
  | 0, i => i
  | n + 1, i =>
    if (ids 0).makerCode ≠ (ids i).makerCode ∨ (ids 0).deviceCode ≠ (ids i).deviceCode then i
    else probe ids n (i + 1)

/-- The loop over the list of chips. -/
def lookup (typeId : ℕ) (b5th : UInt8) (numChipsProbe : ℕ) : List DeviceType → Option DeviceType
  | [] => none
  | d :: ds =>
    if d.id = typeId ∧ (d.cycleID5th = 0xff ∨ d.cycleID5th = b5th) then
      if d.size = numChipsProbe * d.chipsize % 2 ^ 32 then
        if numChipsProbe = d.numChips then some d else lookup typeId b5th numChipsProbe ds
      else if d.name = .hy27uf084g2m then lookup typeId b5th numChipsProbe ds
      else some d
    else lookup typeId b5th numChipsProbe ds

/-- What `rtk_nand_scan(mtd, maxchips)` finds out about the device; `none` if the list has no
entry for it. -/
def rtkNandScan (maxchips : ℕ) (ids : ℕ → ChipId) : Option Geometry :=
  let numChipsProbe := probe ids (maxchips - 1) 1
  (lookup (ids 0).typeId (ids 0).fifth numChipsProbe nandDevice).map fun d =>
    d.geometry numChipsProbe

/-- The answers of one chip with the identifier `c`. -/
def oneChip (c : ChipId) (i : ℕ) : ChipId :=
  if i = 0 then c else ⟨0, 0, 0, 0, 0⟩

/-- A geometry that `rtk_nand_scan` may find. -/
def Geometry.Accepted (g : Geometry) : Prop :=
  ∃ maxchips ids, rtkNandScan maxchips ids = some g

/-! ## The sizes of the chips -/

theorem nandDevice_supported : ∀ d ∈ nandDevice,
    genericFfs d.pageSize - 1 < genericFfs d.blockSize - 1 ∧ genericFfs d.blockSize - 1 ≤ 23 ∧
      genericFfs d.chipsize - 1 ≤ genericFfs d.blockSize - 1 + 15 ∧ 0 < d.oobSize := by
  decide

section Accepted

variable {g : Geometry}

theorem lookup_mem {typeId numChipsProbe : ℕ} {b5th : UInt8} : ∀ {ds : List DeviceType}
    {d : DeviceType}, lookup typeId b5th numChipsProbe ds = some d → d ∈ ds
  | [], _, h => by simp [lookup] at h
  | x :: ds, d, h => by
    rw [lookup] at h
    split_ifs at h
    · exact Option.some.inj h ▸ List.mem_cons_self
    · exact List.mem_cons_of_mem _ (lookup_mem h)
    · exact List.mem_cons_of_mem _ (lookup_mem h)
    · exact Option.some.inj h ▸ List.mem_cons_self
    · exact List.mem_cons_of_mem _ (lookup_mem h)

theorem Geometry.Accepted.exists_device (h : g.Accepted) :
    ∃ d ∈ nandDevice, ∃ n, g = d.geometry n := by
  obtain ⟨maxchips, ids, h⟩ := h
  obtain ⟨d, hd, rfl⟩ := Option.map_eq_some_iff.1 h
  exact ⟨d, lookup_mem hd, _, rfl⟩

theorem Geometry.Accepted.supported (h : g.Accepted) : g.Supported := by
  obtain ⟨d, hd, n, rfl⟩ := h.exists_device
  obtain ⟨h1, h2, h3, -⟩ := nandDevice_supported d hd
  exact ⟨h1, h2, h3⟩

theorem Geometry.Accepted.oobSize_pos (h : g.Accepted) : 0 < g.oobSize := by
  obtain ⟨d, hd, n, rfl⟩ := h.exists_device
  exact (nandDevice_supported d hd).2.2.2

theorem nandDevice_chipsize : ∀ d ∈ nandDevice, genericFfs d.chipsize - 1 ≤ 30 := by
  decide

theorem Geometry.Accepted.chipShift_le (h : g.Accepted) : g.chipShift ≤ 30 := by
  obtain ⟨d, hd, n, rfl⟩ := h.exists_device
  exact nandDevice_chipsize d hd

/-- A page of a listed chip has two or four sections of 1 KB, and a block 64 or 128 pages. -/
theorem nandDevice_pages : ∀ d ∈ nandDevice,
    (genericFfs d.pageSize - 1 = 11 ∨ genericFfs d.pageSize - 1 = 12) ∧
      (genericFfs d.blockSize - 1 = genericFfs d.pageSize - 1 + 6 ∨
        genericFfs d.blockSize - 1 = genericFfs d.pageSize - 1 + 7) := by
  decide

theorem Geometry.Accepted.shifts (h : g.Accepted) :
    (g.pageShift = 11 ∨ g.pageShift = 12) ∧
      (g.eraseShift = g.pageShift + 6 ∨ g.eraseShift = g.pageShift + 7) := by
  obtain ⟨d, hd, n, rfl⟩ := h.exists_device
  exact nandDevice_pages d hd

theorem probe_le (ids : ℕ → ChipId) : ∀ n i, probe ids n i ≤ i + n
  | 0, _ => le_rfl
  | n + 1, i => by
    rw [probe]
    split_ifs
    · omega
    · have := probe_le ids n (i + 1)
      omega

theorem rtkNandScan_numchips_le {maxchips : ℕ} {ids : ℕ → ChipId}
    (h : rtkNandScan maxchips ids = some g) : g.numchips ≤ 1 + (maxchips - 1) := by
  obtain ⟨d, -, rfl⟩ := Option.map_eq_some_iff.1 h
  exact probe_le ids _ _

theorem k9f1g08u0b_accepted : k9f1g08u0b.Accepted :=
  ⟨4, oneChip ⟨0xEC, 0xF1, 0x00, 0x95, 0x40⟩, by decide +kernel⟩

end Accepted

end OpenHMR
