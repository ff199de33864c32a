import OpenHMR.RpcFifo

/-!
# The capacity of the RPC rings

The calls compute the number of bytes in a ring from its pointers (`RpcDev.occupied`), so that a
full ring looks like an empty one. A write moves `ringIn` by the count rounded up to words, but is
accepted if the count itself leaves one byte free. The ring is right after a write if and only if
the rounded count leaves a place free (`occupied_afterWrite_iff`) : in a ring that is empty, a
message of 509 to 511 bytes is accepted and lost (`occupied_afterWrite_full`). The counts of the
calls before are arbitrary too (`RpcSys.Within`).
-/

open Circular

namespace OpenHMR

open Nat

/-- A count rounded up to words. -/
def roundUp (count : ℕ) : ℕ :=
  4 * ((count + 3) / 4)

theorem align4_eq_roundUp {count : ℕ} (h : count ≤ rpcRingSize) : align4 count = roundUp count := by
  have hall : ∀ k < 513, align4 k = roundUp k := by decide +kernel
  exact hall count (lt_succ_of_le h)

theorem roundUp_dvd (count : ℕ) : 4 ∣ roundUp count :=
  dvd_mul_right _ _

namespace RpcDev

/-- The number of bytes in the ring, as the calls compute it. -/
def occupied (dev : RpcDev) : ℕ :=
  if dev.ringIn = dev.ringOut then 0
  else if dev.ringOut < dev.ringIn then dev.ringIn - dev.ringOut
  else rpcRingSize + dev.ringIn - dev.ringOut

/-- A place in the ring at a word. -/
def IsPlace (dev : RpcDev) (p : ℕ) : Prop :=
  dev.ringStart ≤ p ∧ p < dev.ringEnd ∧ 4 ∣ p

variable {dev : RpcDev}

namespace Wf

variable (h : dev.Wf)

include h

theorem occupied_eq : dev.occupied = dev.size := by
  rw [occupied, h.size_eq]
  split_ifs <;> omega

/-- The pointer after a call, in one or in two pieces. -/
theorem moved {pos count : ℕ} (hpos : pos < rpcRingSize) (hdvd : 4 ∣ pos)
    (hle : count ≤ rpcRingSize) :
    (if count ≤ rpcRingSize - pos then
      if dev.ringStart + pos + align4 count = dev.ringEnd then dev.ringStart
      else dev.ringStart + pos + align4 count
    else dev.ringStart + align4 (count - (rpcRingSize - pos))) =
      dev.ringStart + place rpcRingSize pos (roundUp count) := by
  have hsize : rpcRingSize = 512 := rfl
  have hround : roundUp count = 4 * ((count + 3) / 4) := rfl
  split_ifs with hone hend
  · rw [← h.onePiece hpos (by omega), ← align4_eq_roundUp hle, if_pos hend]
  · rw [← h.onePiece hpos (by omega), ← align4_eq_roundUp hle, if_neg hend]
  · have hrest : roundUp (count - (rpcRingSize - pos)) = pos + roundUp count - rpcRingSize := by
      rw [roundUp, roundUp]
      omega
    rw [align4_eq_roundUp (by omega), place_of_le hpos (by omega) (by omega), hrest]

theorem readRing_ringOut (count : ℕ) : (dev.readRing dev.size count).ringOut =
    dev.ringStart + place rpcRingSize dev.outPos (roundUp (min dev.size count)) := by
  have hmin : (if dev.size < count then dev.size else count) = min dev.size count :=
    (min_def_lt _ _).symm
  have hlt := h.size_lt
  rw [← h.moved h.outPos_lt h.outPos_dvd (by omega), ← h.ringOut_eq, ← h.end_sub_out, readRing]
  simp only [hmin]
  split_ifs <;> rfl

theorem writeRing_ringIn {count : ℕ} (hfit : dev.size + count < rpcRingSize) (bell : Option ℕ) :
    (dev.writeRing dev.size count bell).ringIn =
      dev.ringStart + place rpcRingSize dev.inPos (roundUp count) := by
  rw [← h.moved h.inPos_lt h.inPos_dvd (by omega), ← h.ringIn_eq, ← h.end_sub_in, writeRing,
    if_neg (by omega)]
  simp only []
  split_ifs <;> rfl

/-- Some steps from a place in the ring there is a place. -/
theorem isPlace_place {pos : ℕ} (hpos : pos < rpcRingSize) (hdvd : 4 ∣ pos) {c : ℕ} (hc : 4 ∣ c) :
    dev.IsPlace (dev.ringStart + place rpcRingSize pos c) := by
  refine ⟨Nat.le_add_right _ _, ?_, Nat.dvd_add h.start_dvd (place_dvd hdvd hc)⟩
  rw [h.ringEnd]
  exact Nat.add_lt_add_left (place_lt hpos) _

theorem isPlace_ringIn : dev.IsPlace dev.ringIn :=
  ⟨h.start_le_in, h.in_lt, h.in_dvd⟩

theorem isPlace_ringOut : dev.IsPlace dev.ringOut :=
  ⟨h.start_le_out, h.out_lt, h.out_dvd⟩

theorem isPlace_read (kind : RpcKind) (a : RpcArgs) (count : ℕ) :
    dev.IsPlace (kind.read a dev count).ringOut := by
  have hring : dev.IsPlace (dev.readRing dev.size count).ringOut := by
    rw [h.readRing_ringOut]
    exact h.isPlace_place h.outPos_lt h.outPos_dvd (roundUp_dvd _)
  have hread (i : Bool) : dev.IsPlace (dev.read i count).ringOut := by
    unfold RpcDev.read
    rw [h.computed_size fun size => dev.readRing size count]
    split_ifs
    exacts [h.isPlace_ringOut, h.isPlace_ringOut, hring]
  cases kind with
  | poll | kern => exact hread a.interrupted
  | intr =>
    unfold RpcKind.read rpcIntrRead
    simp only []
    rw [h.computed_size fun size => dev.readRing size count]
    split_ifs with h1 h2 h3
    exacts [h.isPlace_ringOut, h.isPlace_ringOut, absurd (.inl h3) h2, hring]

theorem isPlace_write (kind : RpcKind) (a : RpcArgs) (count : ℕ) :
    dev.IsPlace (kind.write a dev count).ringIn := by
  obtain ⟨bell, heq⟩ := h.write_eq kind a count
  have hlt := h.size_lt
  rw [heq]
  split_ifs
  · exact h.isPlace_ringIn
  · by_cases hfit : dev.size + count < rpcRingSize
    · rw [h.writeRing_ringIn hfit]
      exact h.isPlace_place h.inPos_lt h.inPos_dvd (roundUp_dvd _)
    · rw [RpcDev.writeRing, if_pos (by omega)]
      exact h.isPlace_ringIn

theorem set_ringIn {p : ℕ} (hp : dev.IsPlace p) : ({ dev with ringIn := p } : RpcDev).Wf :=
  { h with start_le_in := hp.1, in_lt := hp.2.1, in_dvd := hp.2.2 }

theorem set_ringOut {p : ℕ} (hp : dev.IsPlace p) : ({ dev with ringOut := p } : RpcDev).Wf :=
  { h with start_le_out := hp.1, out_lt := hp.2.1, out_dvd := hp.2.2 }

end Wf

end RpcDev

/-! ## Reachable rings -/

namespace RpcSys

/-- The pointers of the ring, and those that the calls under way will set, are places in it. -/
structure Within (s : RpcSys) : Prop where
  wf : s.dev.Wf
  writer : ∀ p buf, s.writer = some (p, buf) → s.dev.IsPlace p.ringIn
  reader : ∀ p buf, s.reader = some (p, buf) → s.dev.IsPlace p.ringOut

theorem within_init {ringBuf : ℕ} (h : 4 ∣ ringBuf) (mem : ℕ → UInt8) :
    (init ringBuf mem).Within :=
  ⟨RpcDev.init_wf h, (fun _ _ h => nomatch h), fun _ _ h => nomatch h⟩

variable {kind : RpcKind} {s : RpcSys}

section

variable (h : s.Within)

include h

theorem Within.startWrite (a : RpcArgs) (buf : List UInt8) :
    (s.startWrite kind a buf).Within := by
  unfold RpcSys.startWrite
  split
  · exact h
  · refine ⟨h.wf, fun p _ hp => ?_, h.reader⟩
    obtain ⟨rfl, rfl⟩ := Prod.mk.inj (Option.some.inj hp)
    exact h.wf.isPlace_write kind a _

theorem Within.store : s.store.Within := by
  unfold RpcSys.store
  split
  · rename_i hw
    refine ⟨h.wf, fun p _ hp => ?_, h.reader⟩
    obtain ⟨rfl, rfl⟩ := Prod.mk.inj (Option.some.inj hp)
    have hplace := h.writer _ _ hw
    exact hplace
  · exact h

theorem Within.publishIn : s.publishIn.Within := by
  unfold RpcSys.publishIn
  split
  · rename_i hw
    exact ⟨h.wf.set_ringIn (h.writer _ _ hw), (fun _ _ hp => nomatch hp), h.reader⟩
  · exact h

theorem Within.startRead (a : RpcArgs) (count : ℕ) (buf : ℕ → UInt8) :
    (s.startRead kind a count buf).Within := by
  unfold RpcSys.startRead
  split
  · exact h
  · refine ⟨h.wf, h.writer, fun p _ hp => ?_⟩
    obtain ⟨rfl, rfl⟩ := Prod.mk.inj (Option.some.inj hp)
    exact h.wf.isPlace_read kind a count

theorem Within.load : s.load.Within := by
  unfold RpcSys.load
  split
  · rename_i hr
    refine ⟨h.wf, h.writer, fun p _ hp => ?_⟩
    obtain ⟨rfl, rfl⟩ := Prod.mk.inj (Option.some.inj hp)
    have hplace := h.reader _ _ hr
    exact hplace
  · exact h

theorem Within.publishOut : s.publishOut.Within := by
  unfold RpcSys.publishOut
  split
  · rename_i hr
    exact ⟨h.wf.set_ringOut (h.reader _ _ hr), h.writer, fun _ _ hp => nomatch hp⟩
  · exact h

theorem Within.step : ∀ e : RpcEvent, (s.step kind e).Within
  | .write a buf => h.startWrite a buf
  | .store => h.store
  | .publishIn => h.publishIn
  | .read a count buf => h.startRead a count buf
  | .load => h.load
  | .publishOut => h.publishOut

end

theorem Within.run : ∀ (events : List RpcEvent) {s : RpcSys}, s.Within → (s.run kind events).Within
  | [], _, h => h
  | e :: events, _, h => (h.step e).run events

end RpcSys

/-! ## The size after a write -/

/-- The ring after a write. -/
def RpcKind.afterWrite (kind : RpcKind) (a : RpcArgs) (dev : RpcDev) (count : ℕ) : RpcDev :=
  { dev with ringIn := (kind.write a dev count).ringIn }

variable {kind : RpcKind} {dev : RpcDev} {a : RpcArgs} {count : ℕ}

/-- A write that is accepted moves `ringIn` by the rounded count. -/
theorem RpcDev.Wf.afterWrite_eq (h : dev.Wf) (hcount : 0 < count)
    (hret : (kind.write a dev count).ret = count) :
    kind.afterWrite a dev count = dev.moveIn (roundUp count) ∧ dev.size + count < rpcRingSize := by
  obtain ⟨bell, heq⟩ := h.write_eq kind a count
  have hlt := h.size_lt
  rw [heq] at hret
  have ha : ¬ a.interrupted = true := by
    intro ha
    rw [if_pos ha] at hret
    change eRestart = count at hret
    unfold eRestart at hret
    omega
  rw [if_neg ha] at hret heq
  have hfit : dev.size + count < rpcRingSize := by
    by_contra hfit
    rw [RpcDev.writeRing, if_pos (by omega)] at hret
    change (0 : ℤ) = count at hret
    omega
  refine ⟨?_, hfit⟩
  rw [RpcKind.afterWrite, heq, h.writeRing_ringIn hfit]
  rfl

/-- A ring that is filled by the rounded count looks empty. -/
theorem RpcDev.Wf.size_moveIn_full (h : dev.Wf) {c : ℕ} (hc : dev.size + c = rpcRingSize) :
    (dev.moveIn c).size = 0 := by
  have hplace : place rpcRingSize dev.inPos c = dev.outPos := by
    rw [h.place_size, hc, place_of_le h.outPos_lt le_rfl (by omega), Nat.add_sub_cancel]
  rw [size, inPos_moveIn, hplace]
  change gap rpcRingSize dev.outPos dev.outPos = 0
  rw [gap, if_pos le_rfl, Nat.sub_self]

/-- After a write of some bytes that is accepted in a reachable ring, the number of bytes is the one
before and the rounded count, and in particular not 0, if and only if they leave a place free. -/
theorem occupied_afterWrite_iff (kind : RpcKind) (i : ℕ) (mem : ℕ → UInt8) (events : List RpcEvent)
    (a : RpcArgs) (count : ℕ) (s : RpcSys)
    (hs : s = RpcSys.run kind events (RpcSys.init (kind.ringBuf i) mem)) (hcount : 0 < count)
    (hret : (kind.write a s.dev count).ret = count) :
    ((kind.afterWrite a s.dev count).occupied = s.dev.occupied + roundUp count ∧
      (kind.afterWrite a s.dev count).occupied ≠ 0) ↔
    s.dev.occupied + roundUp count < rpcRingSize := by
  have h : s.dev.Wf := by
    rw [hs]
    exact ((RpcSys.within_init (ringBuf_dvd i kind) mem).run events).wf
  obtain ⟨heq, hfit⟩ := h.afterWrite_eq hcount hret
  have hround : roundUp count = 4 * ((count + 3) / 4) := rfl
  rw [heq, (h.moveIn (roundUp_dvd count)).occupied_eq, h.occupied_eq]
  rcases lt_or_ge (s.dev.size + roundUp count) rpcRingSize with hlt | hge
  · rw [h.size_moveIn hlt]
    omega
  · -- the size is a multiple of 4, so the count can only fill the ring
    have hfull : s.dev.size + roundUp count = rpcRingSize := by
      have hdvd := h.size_dvd
      have hsize : rpcRingSize = 512 := rfl
      omega
    rw [h.size_moveIn_full hfull]
    omega

/-- A message of 300 bytes is read before the next one, which goes around the end of the ring. -/
def RpcEvent.twoMessages : List RpcEvent :=
  let message :=
    .write ⟨false, false, 0⟩ (.replicate 300 0) :: .replicate 300 .store ++ [.publishIn]
  message ++ .read ⟨false, false, 0⟩ 300 (fun _ => 0) :: .replicate 300 .load ++
    .publishOut :: message

/-- A message of 98 bytes after one of 300. -/
theorem occupied_afterWrite_of_twoMessages :
    let dev :=
      (RpcSys.run .poll RpcEvent.twoMessages (.init (RpcKind.poll.ringBuf 0) fun _ => 0)).dev
    dev.occupied = 300 ∧ (RpcKind.poll.afterWrite ⟨false, false, 0⟩ dev 98).occupied = 400 := by
  have hdev : (RpcSys.run .poll RpcEvent.twoMessages
      (.init (RpcKind.poll.ringBuf 0) fun _ => 0)).dev.occupied = 300 := by decide +kernel
  have h := (occupied_afterWrite_iff .poll 0 (fun _ => 0) RpcEvent.twoMessages ⟨false, false, 0⟩ 98
    _ rfl (by decide) (by decide +kernel)).2 (by rw [hdev]; decide)
  exact ⟨hdev, h.1.trans (by rw [hdev]; decide)⟩

/-- In each driver, a new ring accepts 510 bytes, and looks empty afterwards. -/
theorem occupied_afterWrite_full :
    [RpcKind.poll, .intr, .kern].map (fun kind =>
      ((kind.write ⟨false, false, 0⟩ (.init (kind.ringBuf 0)) 510).ret,
        (kind.afterWrite ⟨false, false, 0⟩ (.init (kind.ringBuf 0)) 510).occupied)) =
      [(510, 0), (510, 0), (510, 0)] := by
  decide +kernel

end OpenHMR
