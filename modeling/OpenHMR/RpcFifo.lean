import OpenHMR.RpcRing

/-!
# The RPC rings are queues

Whatever the order in which a writer and a reader take their steps, the bytes that the reads
return are the first ones that the writes accepted, and the others are in the ring
(`rpc_ring_fifo`). The one or two pieces of a copy are one walk around the ring. The writer stores
behind the bytes in the ring and the reader takes the first of them, so that neither disturbs the
other (`RpcSys.Inv`).
-/

open Circular List Function

namespace OpenHMR

open RpcDev RpcSys

/-! ## Copies -/

theorem myCopyUser_eq (des src : ℕ) : ∀ size : ℕ,
    myCopyUser des src size = (range size).map fun i => (des + i, src + i)
  | 0 | 1 | 2 | 3 => rfl
  | size + 4 => by
    rw [myCopyUser, myCopyUser_eq (des + 4) (src + 4) size, add_comm size 4, range_add,
      map_append, map_map]
    refine congrArg (_ :: _ :: _ :: _ :: ·) (map_congr_left fun i _ => ?_)
    simp only [comp_apply, add_assoc]

theorem align4_eq {count : ℕ} (h : 4 ∣ count) (hle : count ≤ rpcRingSize) :
    align4 count = count := by
  obtain ⟨k, rfl⟩ := h
  have hk : k < 129 := by
    rw [rpcRingSize] at hle
    omega
  have hall : ∀ k < 129, align4 (4 * k) = 4 * k := by decide
  exact hall k hk

/-! ## Pointers -/

namespace RpcDev

variable {dev : RpcDev}

/-- The place of `ringIn`. -/
def inPos (dev : RpcDev) : ℕ :=
  dev.ringIn - dev.ringStart

/-- The place of `ringOut`. -/
def outPos (dev : RpcDev) : ℕ :=
  dev.ringOut - dev.ringStart

/-- The number of bytes in the ring. -/
def size (dev : RpcDev) : ℕ :=
  gap rpcRingSize dev.outPos dev.inPos

/-- The pointers are aligned and within the ring. -/
structure Wf (dev : RpcDev) : Prop where
  ringEnd : dev.ringEnd = dev.ringStart + rpcRingSize
  start_dvd : 4 ∣ dev.ringStart
  start_le_in : dev.ringStart ≤ dev.ringIn
  in_lt : dev.ringIn < dev.ringEnd
  in_dvd : 4 ∣ dev.ringIn
  start_le_out : dev.ringStart ≤ dev.ringOut
  out_lt : dev.ringOut < dev.ringEnd
  out_dvd : 4 ∣ dev.ringOut

theorem init_wf {ringBuf : ℕ} (h : 4 ∣ ringBuf) : (init ringBuf).Wf := by
  have hlt : ringBuf < ringBuf + rpcRingSize := Nat.lt_add_of_pos_right (by decide)
  exact ⟨rfl, h, le_rfl, hlt, h, le_rfl, hlt, h⟩

namespace Wf

variable (h : dev.Wf)

include h

theorem ringIn_eq : dev.ringIn = dev.ringStart + dev.inPos :=
  (Nat.add_sub_cancel' h.start_le_in).symm

theorem ringOut_eq : dev.ringOut = dev.ringStart + dev.outPos :=
  (Nat.add_sub_cancel' h.start_le_out).symm

theorem inPos_lt : dev.inPos < rpcRingSize := by
  have := h.in_lt
  have := h.ringEnd
  have := h.start_le_in
  unfold inPos
  omega

theorem outPos_lt : dev.outPos < rpcRingSize := by
  have := h.out_lt
  have := h.ringEnd
  have := h.start_le_out
  unfold outPos
  omega

theorem inPos_dvd : 4 ∣ dev.inPos :=
  Nat.dvd_sub h.in_dvd h.start_dvd

theorem outPos_dvd : 4 ∣ dev.outPos :=
  Nat.dvd_sub h.out_dvd h.start_dvd

theorem size_lt : dev.size < rpcRingSize :=
  gap_lt h.outPos_lt h.inPos_lt

theorem size_dvd : 4 ∣ dev.size := by
  have h1 := h.inPos_dvd
  have h2 := h.outPos_dvd
  have h3 : 4 ∣ rpcRingSize := by decide
  unfold size gap
  split_ifs <;> omega

/-- The writer's place is behind the bytes in the ring. -/
theorem place_size (k : ℕ) :
    place rpcRingSize dev.inPos k = place rpcRingSize dev.outPos (dev.size + k) := by
  rw [← place_place, size, place_gap h.outPos_lt h.inPos_lt]

/-- The number of bytes, as the calls compute it. -/
theorem size_eq : dev.size = if dev.ringOut ≤ dev.ringIn then dev.ringIn - dev.ringOut
    else rpcRingSize + dev.ringIn - dev.ringOut := by
  have h1 := h.start_le_in
  have h2 := h.start_le_out
  unfold size gap inPos outPos
  split_ifs <;> omega

/-- The pointer after `count` bytes, as the calls compute it for one piece. -/
theorem onePiece {pos count : ℕ} (hpos : pos < rpcRingSize) (hle : count ≤ rpcRingSize - pos) :
    (if dev.ringStart + pos + count = dev.ringEnd then dev.ringStart
      else dev.ringStart + pos + count) = dev.ringStart + place rpcRingSize pos count := by
  rw [h.ringEnd]
  split_ifs with heq
  · rw [place_of_le hpos (by omega) (by omega)]
    omega
  · rw [place_of_lt (by omega)]
    omega

end Wf

end RpcDev

/-! ## What the calls decide -/

section Pieces

variable {β : Type*} {n pos count : ℕ}

theorem map_onePiece (f : ℕ → ℕ → β) (start : ℕ) (hle : pos + count ≤ n) :
    (range count).map (fun k => f (start + pos + k) k) =
      (range count).map fun k => f (start + place n pos k) k := by
  refine map_congr_left fun k hk => ?_
  have := mem_range.1 hk
  rw [place_of_lt (by omega), add_assoc]

theorem map_twoPieces (f : ℕ → ℕ → β) (start : ℕ) (hpos : pos < n) (hlt : n - pos < count)
    (hle : count ≤ n) :
    ((range (n - pos)).map fun k => f (start + pos + k) k) ++
        ((range (count - (n - pos))).map fun k => f (start + k) (n - pos + k)) =
      (range count).map fun k => f (start + place n pos k) k := by
  obtain ⟨rest, hrest⟩ : ∃ rest, rest = count - (n - pos) := ⟨_, rfl⟩
  have hcount : count = n - pos + rest := by omega
  have hone : pos + (n - pos) ≤ n := by omega
  rw [← hrest, map_onePiece f start hone, hcount, range_add, map_append, map_map]
  refine congrArg _ (map_congr_left fun k hk => ?_)
  have := mem_range.1 hk
  have hplace : place n pos (n - pos + k) = k := by
    rw [place_of_le hpos (by omega) (by omega)]
    omega
  rw [comp_apply, hplace]

end Pieces

/-- The plan of a read of the first `c` bytes in the ring. -/
structure ReadPlan.Takes (dev : RpcDev) (c : ℕ) (p : ReadPlan) : Prop where
  ret : p.ret.toNat = c
  copies : p.copies =
    (range c).map fun k => (k, dev.ringStart + place rpcRingSize dev.outPos k)
  ringOut : p.ringOut = dev.ringStart + place rpcRingSize dev.outPos c

/-- The plan of a write of the first `c` bytes of a buffer. -/
structure WritePlan.Puts (dev : RpcDev) (c : ℕ) (p : WritePlan) : Prop where
  ret : p.ret.toNat = c
  copies : p.copies =
    (range c).map fun k => (dev.ringStart + place rpcRingSize dev.inPos k, k)
  ringIn : p.ringIn = dev.ringStart + place rpcRingSize dev.inPos c

namespace RpcDev.Wf

variable {dev : RpcDev} (h : dev.Wf)

include h

variable {count : ℕ}

theorem readOut_takes {ret : ℤ} (hret : ret.toNat = 0) : (dev.readOut ret).Takes dev 0 :=
  ⟨hret, rfl, by rw [place_zero h.outPos_lt, ← h.ringOut_eq]; rfl⟩

theorem writeOut_puts {ret : ℤ} (hret : ret.toNat = 0) : (dev.writeOut ret).Puts dev 0 :=
  ⟨hret, rfl, by rw [place_zero h.inPos_lt, ← h.ringIn_eq]; rfl⟩

theorem end_sub_out : dev.ringEnd - dev.ringOut = rpcRingSize - dev.outPos := by
  have := h.ringEnd
  have := h.start_le_out
  unfold outPos
  omega

theorem end_sub_in : dev.ringEnd - dev.ringIn = rpcRingSize - dev.inPos := by
  have := h.ringEnd
  have := h.start_le_in
  unfold inPos
  omega

theorem align_min (hc : 4 ∣ count) :
    4 ∣ min dev.size count ∧ min dev.size count ≤ rpcRingSize := by
  refine ⟨?_, (min_le_left _ _).trans h.size_lt.le⟩
  rcases min_choice dev.size count with he | he <;> rw [he]
  exacts [h.size_dvd, hc]

/-- A read takes what is there. -/
theorem readRing_takes (hc : 4 ∣ count) :
    (dev.readRing dev.size count).Takes dev (min dev.size count) := by
  have hmin : (if dev.size < count then dev.size else count) = min dev.size count :=
    (min_def_lt _ _).symm
  obtain ⟨hdvd, hle⟩ := h.align_min hc
  have hpos := h.outPos_lt
  have hpos4 := h.outPos_dvd
  unfold readRing
  simp only [hmin, h.end_sub_out]
  generalize min dev.size count = c at *
  by_cases hone : c ≤ rpcRingSize - dev.outPos
  · rw [if_pos hone, align4_eq hdvd hle, h.ringOut_eq]
    refine ⟨Int.toNat_natCast c, ?_, h.onePiece hpos hone⟩
    rw [myCopyUser_eq, ← map_onePiece (fun a k => (k, a)) _ (by omega : dev.outPos + c ≤ _)]
    simp only [zero_add]
  · have hsize4 : 4 ∣ rpcRingSize := by decide
    rw [if_neg hone, align4_eq (by omega) (by omega), h.ringOut_eq]
    refine ⟨?_, ?_, ?_⟩
    · rw [Int.toNat_natCast]
      omega
    · rw [myCopyUser_eq, myCopyUser_eq,
        ← map_twoPieces (fun a k => (k, a)) _ hpos (not_le.1 hone) hle]
      simp only [zero_add]
    · have hend : c - (rpcRingSize - dev.outPos) = dev.outPos + c - rpcRingSize := by omega
      rw [place_of_le hpos hle (by omega), ← hend]

/-- A write that fits. -/
theorem writeRing_puts (hc : 4 ∣ count) (hfit : dev.size + count < rpcRingSize)
    (bell : Option ℕ) : (dev.writeRing dev.size count bell).Puts dev count := by
  have hle : count ≤ rpcRingSize := by omega
  have hpos := h.inPos_lt
  have hpos4 := h.inPos_dvd
  unfold writeRing
  rw [if_neg (by omega)]
  simp only [h.end_sub_in]
  by_cases hone : count ≤ rpcRingSize - dev.inPos
  · rw [if_pos hone, align4_eq hc hle, h.ringIn_eq]
    refine ⟨Int.toNat_natCast count, ?_, h.onePiece hpos hone⟩
    rw [myCopyUser_eq, ← map_onePiece Prod.mk _ (by omega : dev.inPos + count ≤ _)]
    simp only [zero_add]
  · have hsize4 : 4 ∣ rpcRingSize := by decide
    rw [if_neg hone, align4_eq (by omega) (by omega), h.ringIn_eq]
    refine ⟨?_, ?_, ?_⟩
    · rw [Int.toNat_natCast]
      omega
    · rw [myCopyUser_eq, myCopyUser_eq, ← map_twoPieces Prod.mk _ hpos (not_le.1 hone) hle]
      simp only [zero_add]
    · have hend : count - (rpcRingSize - dev.inPos) = dev.inPos + count - rpcRingSize := by omega
      rw [place_of_le hpos hle (by omega), ← hend]

/-- The size that the calls compute. -/
theorem computed_size {β : Type*} (f : ℕ → β) :
    (if dev.ringOut < dev.ringIn then f (dev.ringIn - dev.ringOut)
      else f (rpcRingSize + dev.ringIn - dev.ringOut)) =
      if dev.ringIn = dev.ringOut then f rpcRingSize else f dev.size := by
  rw [h.size_eq]
  split_ifs <;> first | rfl | omega | (congr 1; omega)

/-- A read takes as many bytes as it asks for and there are, or none. -/
theorem read_takes (kind : RpcKind) (a : RpcArgs) (hc : 4 ∣ count) :
    ∃ c ≤ dev.size, 4 ∣ c ∧ (kind.read a dev count).Takes dev c := by
  have hnone {ret : ℤ} (hret : ret.toNat = 0) :
      ∃ c ≤ dev.size, 4 ∣ c ∧ (dev.readOut ret).Takes dev c :=
    ⟨0, Nat.zero_le _, Nat.dvd_zero 4, h.readOut_takes hret⟩
  have hring : ∃ c ≤ dev.size, 4 ∣ c ∧ (dev.readRing dev.size count).Takes dev c :=
    ⟨_, min_le_left _ _, (h.align_min hc).1, h.readRing_takes hc⟩
  have hread (i : Bool) : ∃ c ≤ dev.size, 4 ∣ c ∧ (dev.read i count).Takes dev c := by
    unfold read
    rw [h.computed_size fun size => dev.readRing size count]
    split_ifs
    exacts [hnone rfl, hnone rfl, hring]
  cases kind with
  | poll | kern => exact hread a.interrupted
  | intr =>
    unfold RpcKind.read rpcIntrRead
    simp only []
    rw [h.computed_size fun size => dev.readRing size count]
    split_ifs with h1 h2 h3
    exacts [hnone rfl, hnone rfl, absurd (.inl h3) h2, hring]

/-- What a write decides that is not interrupted. -/
theorem write_eq (kind : RpcKind) (a : RpcArgs) (count : ℕ) : ∃ bell, kind.write a dev count =
    if a.interrupted then dev.writeOut eRestart else dev.writeRing dev.size count bell := by
  have hwrite (bell : Option ℕ) : dev.write a.interrupted count bell =
      if a.interrupted then dev.writeOut eRestart else dev.writeRing dev.size count bell := by
    unfold write
    rw [h.computed_size fun size => dev.writeRing size count bell]
    split_ifs with h1 h2
    · rfl
    · rw [h.size_eq, h2, if_pos le_rfl, Nat.sub_self]
    · rfl
  cases kind <;> exact ⟨_, hwrite _⟩

/-- A write that does not fit is refused. -/
theorem write_refused (kind : RpcKind) {a : RpcArgs} (ha : a.interrupted = false)
    (hfit : rpcRingSize - 1 < dev.size + count) : kind.write a dev count = dev.writeOut 0 := by
  obtain ⟨bell, heq⟩ := h.write_eq kind a count
  have := h.size_lt
  rw [heq, ha, if_neg Bool.false_ne_true, writeRing, if_pos (by omega)]

/-- A write puts all bytes into the ring, or none. -/
theorem write_puts (kind : RpcKind) (a : RpcArgs) (hc : 4 ∣ count) :
    ∃ c ≤ count, dev.size + c < rpcRingSize ∧ 4 ∣ c ∧ (kind.write a dev count).Puts dev c := by
  have hnone {ret : ℤ} (hret : ret.toNat = 0) : ∃ c ≤ count, dev.size + c < rpcRingSize ∧ 4 ∣ c ∧
      (dev.writeOut ret).Puts dev c :=
    ⟨0, Nat.zero_le _, h.size_lt, Nat.dvd_zero 4, h.writeOut_puts hret⟩
  obtain ⟨bell, heq⟩ := h.write_eq kind a count
  rw [heq]
  split_ifs
  · exact hnone rfl
  · by_cases hfit : dev.size + count < rpcRingSize
    · exact ⟨count, le_rfl, hfit, hc, h.writeRing_puts hc hfit bell⟩
    · have := h.size_lt
      rw [writeRing, if_pos (by omega)]
      exact hnone rfl

end RpcDev.Wf

/-! ## Moving the pointers -/

theorem place_dvd {pos c : ℕ} (hpos : 4 ∣ pos) (hc : 4 ∣ c) : 4 ∣ place rpcRingSize pos c :=
  (Nat.dvd_mod_iff (by decide)).2 (Nat.dvd_add hpos hc)

namespace RpcDev

/-- `ringIn` moves by `c` places. -/
def moveIn (dev : RpcDev) (c : ℕ) : RpcDev :=
  { dev with ringIn := dev.ringStart + place rpcRingSize dev.inPos c }

/-- `ringOut` moves by `c` places. -/
def moveOut (dev : RpcDev) (c : ℕ) : RpcDev :=
  { dev with ringOut := dev.ringStart + place rpcRingSize dev.outPos c }

variable {dev : RpcDev} {c : ℕ}

theorem inPos_moveIn : (dev.moveIn c).inPos = place rpcRingSize dev.inPos c :=
  Nat.add_sub_cancel_left _ _

theorem outPos_moveOut : (dev.moveOut c).outPos = place rpcRingSize dev.outPos c :=
  Nat.add_sub_cancel_left _ _

theorem Wf.moveIn (h : dev.Wf) (hc : 4 ∣ c) : (dev.moveIn c).Wf := by
  have hlt : place rpcRingSize dev.inPos c < rpcRingSize := place_lt h.inPos_lt
  refine ⟨h.ringEnd, h.start_dvd, Nat.le_add_right _ _, ?_, ?_, h.start_le_out, h.out_lt, h.out_dvd⟩
  · exact h.ringEnd ▸ Nat.add_lt_add_left hlt _
  · exact Nat.dvd_add h.start_dvd (place_dvd h.inPos_dvd hc)

theorem Wf.moveOut (h : dev.Wf) (hc : 4 ∣ c) : (dev.moveOut c).Wf := by
  have hlt : place rpcRingSize dev.outPos c < rpcRingSize := place_lt h.outPos_lt
  refine ⟨h.ringEnd, h.start_dvd, h.start_le_in, h.in_lt, h.in_dvd, Nat.le_add_right _ _, ?_, ?_⟩
  · exact h.ringEnd ▸ Nat.add_lt_add_left hlt _
  · exact Nat.dvd_add h.start_dvd (place_dvd h.outPos_dvd hc)

theorem Wf.size_moveIn (h : dev.Wf) (hfit : dev.size + c < rpcRingSize) :
    (dev.moveIn c).size = dev.size + c := by
  rw [size, inPos_moveIn, h.place_size]
  exact gap_place h.outPos_lt hfit

theorem Wf.size_moveOut (h : dev.Wf) (hc : c ≤ dev.size) : (dev.moveOut c).size = dev.size - c := by
  have hin : dev.inPos = place rpcRingSize (place rpcRingSize dev.outPos c) (dev.size - c) := by
    rw [place_place, Nat.add_sub_cancel' hc, size, place_gap h.outPos_lt h.inPos_lt]
  change gap rpcRingSize (dev.moveOut c).outPos dev.inPos = _
  rw [outPos_moveOut, hin]
  exact gap_place (place_lt h.outPos_lt) ((Nat.sub_le _ _).trans_lt h.size_lt)

end RpcDev

/-! ## The invariant -/

namespace RpcSys

/-- The memory by places of the ring. -/
def cells (s : RpcSys) (x : ℕ) : UInt8 :=
  s.mem (s.dev.ringStart + x)

/-- The bytes in the ring. -/
def contents (s : RpcSys) : List UInt8 :=
  stretch s.cells rpcRingSize s.dev.outPos s.dev.size

/-- A write of the first `c` bytes of `buf` has stored `k` of them. -/
structure Writing (s : RpcSys) (p : WritePlan) (buf : List UInt8) (c k : ℕ) : Prop where
  fits : s.dev.size + c < rpcRingSize
  dvd : 4 ∣ c
  le : c ≤ buf.length
  done_le : k ≤ c
  ret : p.ret.toNat = c
  copies : p.copies = ((range c).drop k).map fun k =>
    (s.dev.ringStart + place rpcRingSize s.dev.inPos k, k)
  ringIn : p.ringIn = s.dev.ringStart + place rpcRingSize s.dev.inPos c
  stored : ∀ j < k, s.cells (place rpcRingSize s.dev.inPos j) = buf.getD j 0

/-- A read of `c` bytes has loaded `k` of them. -/
structure Reading (s : RpcSys) (p : ReadPlan) (buf : ℕ → UInt8) (c k : ℕ) : Prop where
  le : c ≤ s.dev.size
  dvd : 4 ∣ c
  done_le : k ≤ c
  ret : p.ret.toNat = c
  copies : p.copies = ((range c).drop k).map fun k =>
    (k, s.dev.ringStart + place rpcRingSize s.dev.outPos k)
  ringOut : p.ringOut = s.dev.ringStart + place rpcRingSize s.dev.outPos c
  loaded : ∀ j < k, buf j = s.cells (place rpcRingSize s.dev.outPos j)

/-- The invariant of the system. -/
structure Inv (s : RpcSys) : Prop where
  dev : s.dev.Wf
  fifo : s.accepted = s.returned ++ s.contents
  writing : ∀ p buf, s.writer = some (p, buf) → ∃ c k, s.Writing p buf c k
  reading : ∀ p buf, s.reader = some (p, buf) → ∃ c k, s.Reading p buf c k

variable {s s' : RpcSys}

/-- The bytes in the ring are what a read depends on. -/
theorem Reading.of_cells {p : ReadPlan} {buf : ℕ → UInt8} {c k : ℕ} (h : s.Reading p buf c k)
    (hdev : s'.dev = s.dev) (hcells : ∀ j < s.dev.size,
      s'.cells (place rpcRingSize s.dev.outPos j) = s.cells (place rpcRingSize s.dev.outPos j)) :
    s'.Reading p buf c k := by
  refine ⟨hdev ▸ h.le, h.dvd, h.done_le, h.ret, hdev ▸ h.copies, hdev ▸ h.ringOut, fun j hj => ?_⟩
  rw [hdev, hcells j ((hj.trans_le h.done_le).trans_le h.le), h.loaded j hj]

theorem Writing.of_eq {p : WritePlan} {buf : List UInt8} {c k : ℕ} (h : s.Writing p buf c k)
    (hdev : s'.dev = s.dev) (hmem : s'.mem = s.mem) : s'.Writing p buf c k := by
  have hcells : s'.cells = s.cells := by
    funext x
    rw [cells, cells, hdev, hmem]
  exact ⟨hdev ▸ h.fits, h.dvd, h.le, h.done_le, h.ret, hdev ▸ h.copies, hdev ▸ h.ringIn,
    fun j hj => by rw [hcells, hdev]; exact h.stored j hj⟩

theorem inv_init {ringBuf : ℕ} (h : 4 ∣ ringBuf) (mem : ℕ → UInt8) : (init ringBuf mem).Inv := by
  refine ⟨RpcDev.init_wf h, ?_, fun _ _ hw => ?_, fun _ _ hr => ?_⟩
  · have hsize : (RpcDev.init ringBuf).size = 0 := by
      simp [RpcDev.size, RpcDev.inPos, RpcDev.outPos, RpcDev.init, gap]
    change [] = [] ++ stretch _ _ _ (RpcDev.init ringBuf).size
    rw [hsize]
    rfl
  · cases hw
  · cases hr

/-- The next copy of a plan. -/
theorem drop_range_cons {β : Type*} {f : ℕ → β} {c k : ℕ} {x : β} {l : List β}
    (h : x :: l = ((range c).drop k).map f) :
    k < c ∧ x = f k ∧ l = ((range c).drop (k + 1)).map f := by
  have hk : k < c := by
    by_contra hn
    rw [drop_eq_nil_of_le (by simpa using hn)] at h
    cases h
  rw [drop_eq_getElem_cons (by simpa using hk), getElem_range, map_cons] at h
  obtain ⟨rfl, rfl⟩ := cons.inj h
  exact ⟨hk, rfl, rfl⟩

/-- All copies of a plan are done. -/
theorem drop_range_nil {β : Type*} {f : ℕ → β} {c k : ℕ}
    (h : [] = ((range c).drop k).map f) : c ≤ k := by
  have := congrArg length h
  simp only [length_nil, length_map, length_drop, length_range] at this
  omega

/-! ## The writer's steps -/

/-- A write begins. -/
theorem Inv.startWrite (h : s.Inv) (kind : RpcKind) (a : RpcArgs) {buf : List UInt8}
    (hc : 4 ∣ buf.length) : (s.startWrite kind a buf).Inv := by
  unfold RpcSys.startWrite
  split
  · exact h
  · refine ⟨h.dev, h.fifo, fun p buf' hp => ?_, fun p buf' hp => ?_⟩
    · obtain ⟨rfl, rfl⟩ := Prod.mk.inj (Option.some.inj hp)
      obtain ⟨c, hle, hfit, hdvd, hputs⟩ := h.dev.write_puts kind a hc
      exact ⟨c, 0, hfit, hdvd, hle, Nat.zero_le c, hputs.ret, by
        rw [drop_zero]; exact hputs.copies, hputs.ringIn,
        fun j hj => absurd hj (Nat.not_lt_zero j)⟩
    · obtain ⟨c, k, hr⟩ := h.reading p buf' hp
      exact ⟨c, k, hr.of_cells rfl fun _ _ => rfl⟩

/-- A byte is stored behind the bytes in the ring. -/
theorem Inv.store (h : s.Inv) : s.store.Inv := by
  unfold RpcSys.store
  split
  case h_2 => exact h
  case h_1 ret des src copies ringIn bell buf hw =>
    obtain ⟨c, k, hwr⟩ := h.writing _ _ hw
    obtain ⟨hk, hpair, hrest⟩ := drop_range_cons hwr.copies
    obtain ⟨hdes, rfl⟩ := Prod.mk.inj hpair
    have hlt : s.dev.size + src < rpcRingSize := (Nat.add_lt_add_left hk _).trans hwr.fits
    obtain ⟨s', hs'⟩ : ∃ s' : RpcSys, s' = { s with
      mem := update s.mem des (buf.getD src 0)
      writer := some (⟨ret, copies, ringIn, bell⟩, buf) } := ⟨_, rfl⟩
    have hdev : s'.dev = s.dev := by rw [hs']
    have hcells : s'.cells = update s.cells (place rpcRingSize s.dev.inPos src)
        (buf.getD src 0) := by
      funext x
      simp only [hs', cells, hdes, update_apply, Nat.add_left_cancel_iff]
    have hkeep : ∀ j < s.dev.size, s'.cells (place rpcRingSize s.dev.outPos j) =
        s.cells (place rpcRingSize s.dev.outPos j) := fun j hj => by
      rw [hcells, h.dev.place_size]
      refine update_of_ne (fun heq => ?_) _ _
      have := place_inj (hj.trans h.dev.size_lt) hlt heq
      omega
    rw [← hs']
    refine ⟨hdev ▸ h.dev, ?_, fun p buf' hp => ?_, fun p buf' hp => ?_⟩
    · have hcont : s'.contents = s.contents := by
        rw [contents, contents, hdev]
        exact stretch_congr hkeep
      rw [hcont, hs']
      exact h.fifo
    · rw [hs'] at hp
      obtain ⟨rfl, rfl⟩ := Prod.mk.inj (Option.some.inj hp)
      refine ⟨c, src + 1, hdev ▸ hwr.fits, hwr.dvd, hwr.le, hk, hwr.ret, hdev ▸ hrest,
        hdev ▸ hwr.ringIn, fun j hj => ?_⟩
      rw [hcells, hdev]
      rcases Nat.lt_succ_iff_lt_or_eq.1 hj with hj | rfl
      · rw [update_of_ne, hwr.stored j hj]
        intro heq
        have := place_inj (by omega) (by omega) heq
        omega
      · exact update_self _ _ _
    · rw [hs'] at hp
      obtain ⟨c', k', hre⟩ := h.reading p buf' hp
      exact ⟨c', k', hre.of_cells hdev hkeep⟩

/-- The bytes of a write that has stored them all. -/
theorem Writing.stretch_eq {p : WritePlan} {buf : List UInt8} {c k : ℕ} (h : s.Writing p buf c k)
    (hk : c ≤ k) : stretch s.cells rpcRingSize s.dev.inPos c = buf.take c := by
  refine ext_getElem (by simpa using h.le) fun j hj _ => ?_
  have hjc : j < c := by simpa using hj
  simp only [stretch, getElem_map, getElem_range, getElem_take]
  rw [h.stored j (hjc.trans_le hk), getD_eq_getElem?_getD,
    List.getElem?_eq_getElem (hjc.trans_le h.le), Option.getD_some]

/-- The bytes of a read that has loaded them all. -/
theorem Reading.stretch_eq {p : ReadPlan} {buf : ℕ → UInt8} {c k : ℕ} (h : s.Reading p buf c k)
    (hk : c ≤ k) : stretch s.cells rpcRingSize s.dev.outPos c = (range c).map buf :=
  map_congr_left fun j hj => (h.loaded j ((mem_range.1 hj).trans_le hk)).symm

/-- The write is added to the bytes in the ring. -/
theorem Inv.publishIn (h : s.Inv) : s.publishIn.Inv := by
  unfold RpcSys.publishIn
  split
  case h_2 => exact h
  case h_1 ret ringIn bell buf hw =>
    obtain ⟨c, k, hwr⟩ := h.writing _ _ hw
    have hck : c ≤ k := drop_range_nil hwr.copies
    have hdev : ({ s.dev with ringIn } : RpcDev) = s.dev.moveIn c := by
      rw [moveIn, ← hwr.ringIn]
    have hsize := h.dev.size_moveIn hwr.fits
    rw [hdev, hwr.ret]
    refine ⟨h.dev.moveIn hwr.dvd, ?_, fun _ _ hp => (nomatch hp), fun p buf' hp => ?_⟩
    · have hcont : stretch s.cells rpcRingSize s.dev.outPos (s.dev.moveIn c).size =
          s.contents ++ buf.take c := by
        rw [hsize, stretch_add, ← hwr.stretch_eq hck, size,
          place_gap h.dev.outPos_lt h.dev.inPos_lt]
        rfl
      change s.accepted ++ buf.take c =
        s.returned ++ stretch s.cells rpcRingSize s.dev.outPos (s.dev.moveIn c).size
      rw [hcont, h.fifo, append_assoc]
    · obtain ⟨c', k', hre⟩ := h.reading p buf' hp
      exact ⟨c', k', { hre with le := hre.le.trans (hsize ▸ Nat.le_add_right _ _) }⟩

/-! ## The reader's steps -/

/-- A read begins. -/
theorem Inv.startRead (h : s.Inv) (kind : RpcKind) (a : RpcArgs) {count : ℕ} (hc : 4 ∣ count)
    (buf : ℕ → UInt8) : (s.startRead kind a count buf).Inv := by
  unfold RpcSys.startRead
  split
  · exact h
  · refine ⟨h.dev, h.fifo, fun p buf' hp => ?_, fun p buf' hp => ?_⟩
    · obtain ⟨c, k, hw⟩ := h.writing p buf' hp
      exact ⟨c, k, hw.of_eq rfl rfl⟩
    · obtain ⟨rfl, rfl⟩ := Prod.mk.inj (Option.some.inj hp)
      obtain ⟨c, hle, hdvd, htakes⟩ := h.dev.read_takes kind a hc
      exact ⟨c, 0, hle, hdvd, Nat.zero_le c, htakes.ret, by
        rw [drop_zero]; exact htakes.copies, htakes.ringOut,
        fun j hj => absurd hj (Nat.not_lt_zero j)⟩

/-- The reader copies a byte. -/
theorem Inv.load (h : s.Inv) : s.load.Inv := by
  unfold RpcSys.load
  split
  case h_2 => exact h
  case h_1 ret des src copies ringOut buf hr =>
    obtain ⟨c, k, hre⟩ := h.reading _ _ hr
    obtain ⟨hk, hpair, hrest⟩ := drop_range_cons hre.copies
    obtain ⟨rfl, hsrc⟩ := Prod.mk.inj hpair
    refine ⟨h.dev, h.fifo, fun p buf' hp => ?_, fun p buf' hp => ?_⟩
    · obtain ⟨c', k', hw⟩ := h.writing p buf' hp
      exact ⟨c', k', hw.of_eq rfl rfl⟩
    · obtain ⟨rfl, rfl⟩ := Prod.mk.inj (Option.some.inj hp)
      refine ⟨c, des + 1, hre.le, hre.dvd, hk, hre.ret, hrest, hre.ringOut, fun j hj => ?_⟩
      rcases Nat.lt_succ_iff_lt_or_eq.1 hj with hj | rfl
      · rw [update_of_ne hj.ne]
        exact hre.loaded j hj
      · rw [update_self, hsrc]
        rfl

/-- The read is taken from the bytes in the ring. -/
theorem Inv.publishOut (h : s.Inv) : s.publishOut.Inv := by
  unfold RpcSys.publishOut
  split
  case h_2 => exact h
  case h_1 ret ringOut buf hr =>
    obtain ⟨c, k, hre⟩ := h.reading _ _ hr
    have hck : c ≤ k := drop_range_nil hre.copies
    have hdev : ({ s.dev with ringOut } : RpcDev) = s.dev.moveOut c := by
      rw [moveOut, ← hre.ringOut]
    have hsize := h.dev.size_moveOut hre.le
    rw [hdev, hre.ret]
    refine ⟨h.dev.moveOut hre.dvd, ?_, fun p buf' hp => ?_, fun _ _ hp => nomatch hp⟩
    · have hcont : s.contents = (range c).map buf ++
          stretch s.cells rpcRingSize (s.dev.moveOut c).outPos (s.dev.moveOut c).size := by
        rw [hsize, outPos_moveOut, ← hre.stretch_eq hck, ← stretch_add, Nat.add_sub_cancel' hre.le]
        rfl
      change s.accepted = s.returned ++ (range c).map buf ++ stretch s.cells _ _ _
      rw [h.fifo, hcont, append_assoc]
    · obtain ⟨c', k', hw⟩ := h.writing p buf' hp
      have hfits : (s.dev.moveOut c).size + c' < rpcRingSize := by
        rw [hsize]
        exact (Nat.add_le_add_right (Nat.sub_le _ _) _).trans_lt hw.fits
      exact ⟨c', k', { hw with fits := hfits }⟩

end RpcSys

/-! ## Runs -/

/-- The counts of the calls are multiples of 4. -/
def RpcEvent.Aligned : RpcEvent → Prop
  | write _ buf => 4 ∣ buf.length
  | read _ count _ => 4 ∣ count
  | store | publishIn | load | publishOut => True

namespace RpcSys

variable {s : RpcSys} {kind : RpcKind}

theorem Inv.step (h : s.Inv) {e : RpcEvent} (he : e.Aligned) : (s.step kind e).Inv := by
  cases e with
  | write a buf => exact h.startWrite kind a he
  | store => exact h.store
  | publishIn => exact h.publishIn
  | read a count buf => exact h.startRead kind a he buf
  | load => exact h.load
  | publishOut => exact h.publishOut

theorem Inv.run : ∀ {events : List RpcEvent} {s : RpcSys}, s.Inv → (∀ e ∈ events, e.Aligned) →
    (s.run kind events).Inv
  | [], _, h, _ => h
  | e :: events, _, h, hal => by
    obtain ⟨he, hevents⟩ := forall_mem_cons.1 hal
    exact (h.step he).run hevents

/-- A write that is refused leaves the system as it was. -/
theorem step_writeOut (hw : s.writer = none) {a : RpcArgs} {buf : List UInt8}
    (h : kind.write a s.dev buf.length = s.dev.writeOut 0) :
    (s.step kind (.write a buf)).step kind .publishIn = s := by
  cases s with
  | mk dev mem writer reader accepted returned =>
    obtain rfl : writer = none := hw
    simp only [step, startWrite, h, writeOut, publishIn, Int.toNat_zero, take_zero, append_nil]

end RpcSys

theorem ringBuf_dvd (i : ℕ) (kind : RpcKind) : 4 ∣ kind.ringBuf i := by
  cases kind <;>
  · simp only [RpcKind.ringBuf, rpcRingSize]
    omega

/-- In every run of a driver's calls on a ring, however the steps of the writer and the reader are
interleaved, the pointers stay aligned and within the ring, the bytes that were read are the first
ones that were written, and the others are in the ring. A write that does not fit returns 0 and
changes nothing. -/
theorem rpc_ring_fifo (kind : RpcKind) (i : ℕ) (mem : ℕ → UInt8) {events : List RpcEvent}
    (hal : ∀ e ∈ events, e.Aligned) {s : RpcSys}
    (hs : s = (init (kind.ringBuf i) mem).run kind events) :
    (s.dev.ringStart ≤ s.dev.ringIn ∧ s.dev.ringIn < s.dev.ringEnd ∧ 4 ∣ s.dev.ringIn) ∧
      (s.dev.ringStart ≤ s.dev.ringOut ∧ s.dev.ringOut < s.dev.ringEnd ∧ 4 ∣ s.dev.ringOut) ∧
      s.returned <+: s.accepted ∧ s.contents = s.accepted.drop s.returned.length ∧
      ∀ (a : RpcArgs) (buf : List UInt8), a.interrupted = false →
        rpcRingSize - 1 < s.dev.size + buf.length →
          (kind.write a s.dev buf.length).ret = 0 ∧
            (s.writer = none → (s.step kind (.write a buf)).step kind .publishIn = s) := by
  have h : s.Inv := hs ▸ (inv_init (ringBuf_dvd i kind) mem).run hal
  refine ⟨⟨h.dev.start_le_in, h.dev.in_lt, h.dev.in_dvd⟩,
    ⟨h.dev.start_le_out, h.dev.out_lt, h.dev.out_dvd⟩, ?_, ?_, fun a buf ha hfit => ?_⟩
  · exact ⟨s.contents, h.fifo.symm⟩
  · rw [h.fifo, drop_left]
  · have hrefused := h.dev.write_refused kind ha hfit
    exact ⟨by rw [hrefused]; rfl, fun hw => step_writeOut hw hrefused⟩

/-- A write of eight bytes, and a read of four of them that starts when six are stored. -/
def eightThenFour : List RpcEvent :=
  .write ⟨false, false, 1⟩ [1, 2, 3, 4, 5, 6, 7, 8] :: replicate 6 .store ++
    .read ⟨false, false, 1⟩ 4 (fun _ => 0) :: .publishOut :: replicate 2 .store ++
    .publishIn :: .read ⟨false, false, 1⟩ 4 (fun _ => 0) :: replicate 4 .load ++ [.publishOut]

/-- The first read finds the ring empty, the second one gets the first four bytes. -/
theorem rpc_ring_fifo_eightThenFour :
    ((init (RpcKind.intr.ringBuf 0) fun _ => 0).run .intr eightThenFour).returned =
        [1, 2, 3, 4] ∧
      ((init (RpcKind.intr.ringBuf 0) fun _ => 0).run .intr eightThenFour).contents =
        ((init (RpcKind.intr.ringBuf 0) fun _ => 0).run .intr eightThenFour).accepted.drop 4 := by
  have hal : ∀ e ∈ eightThenFour, e.Aligned := by
    simp [eightThenFour, RpcEvent.Aligned]
  have hret : ((init (RpcKind.intr.ringBuf 0) fun _ => 0).run .intr
      eightThenFour).returned = [1, 2, 3, 4] := by decide +kernel
  have hdrop := (rpc_ring_fifo .intr 0 (fun _ => 0) hal rfl).2.2.2.1
  rw [hret] at hdrop
  exact ⟨hret, hdrop⟩

end OpenHMR
