import Mathlib.Data.Nat.Find
import OpenHMR.VenusG2cTransfer
import OpenHMR.VenusI2cIrq

/-!
# Message lists (`drivers/i2c/busses/i2c-venus-k.c`)

`i2c_venus_xfer` runs a list of messages. A write that is followed by a read of the same target is
one transfer with it, a write that is not the last message is given to the bit-banged master, which
can leave STOP out, and the rest is given to the controller unless a message asks for the pins.

How the two masters run is an argument (`I2cEngines`) : `I2cEngines.Faithful` says that what they
return is what a run of them gives, with slaves that acknowledge everything. What is read stays in
the buffer of the transfer.

The messages are on the bus as they should if and only if none is empty, only the last one is a
read, and the bytes of a random read of the controller can be counted in 16 bits (`messages_iff`).
-/

namespace OpenHMR

open TwoWire Runs Bus List Nat

/-! ## Messages -/

/-- `i2c_msg`. -/
structure I2cMsg where
  addr : BitVec 16
  flags : BitVec 16
  len : ℕ
  len_lt : len < 2 ^ 16
  buf : ℕ → BitVec 8

namespace I2cMsg

/-- `IsReadMsg`. -/
def isReadMsg (m : I2cMsg) : Bool :=
  m.flags &&& 0x0001#16 ≠ 0#16

/-- `IsGPIORW`. -/
def isGPIORW (m : I2cMsg) : Bool :=
  m.flags &&& 0x0080#16 ≠ 0#16

/-- `IsSameTarget`. -/
def isSameTarget (m m' : I2cMsg) : Bool :=
  m.addr = m'.addr && (m.flags ^^^ m'.flags) &&& ~~~0x0001#16 = 0#16

/-- A write and a read that are one transfer. -/
def fuses (m m' : I2cMsg) : Bool :=
  !m.isReadMsg && m'.isReadMsg && m.isSameTarget m'

end I2cMsg

/-! ## Transfers -/

/-- `venus_g2c_start_xfer` and `venus_i2c_start_xfer` on a device with a message loaded. There is no
result if the call does not return. -/
structure I2cEngines where
  g2c : VenusI2c → Option VenusI2c
  i2c : VenusI2c → Option VenusI2c

/-- A null pointer. -/
def nullBuf : ℕ → BitVec 8 := fun _ => 0

/-- The loop of `venus_i2c_read` and `venus_i2c_write` : once more after a timeout. -/
def retryXfer (start : VenusI2c → Option VenusI2c) (load : VenusI2c → VenusI2c) :
    ℕ → VenusI2c → Option VenusI2c
  | 0, p => some p
  | retry + 1, p => (start (load p)).bind fun q =>
    if q.xfer.ret ≠ etimeout then some q else retryXfer start load retry q

/-- `venus_i2c_set_tar` with 7 bits. -/
def venusI2cSetTar (p : VenusI2c) (addr : BitVec 16) : Option VenusI2c :=
  if 0x7F#16 < addr then none else some { p with tar := addr }

/-- `-EACCES`. -/
def eacces : ℤ := -13

namespace I2cEngines

variable (E : I2cEngines)

/-- `venus_i2c_read`. -/
def venusI2cRead (p : VenusI2c) (txBuf : ℕ → BitVec 8) (txBufLen : ℕ) (rxBuf : ℕ → BitVec 8)
    (rxBufLen : ℕ) : Option VenusI2c :=
  retryXfer E.i2c
    (venusI2cLoadMessage · (if txBufLen ≠ 0 then .masterRandomRead else .masterRead) txBuf txBufLen
      rxBuf rxBufLen 0) 2 p

/-- `venus_i2c_write`, with `CONFIG_I2C_VENUS_NON_STOP_WRITE_XFER`. -/
def venusI2cWrite (p : VenusI2c) (txBuf : ℕ → BitVec 8) (txBufLen : ℕ) (waitStop : Bool) :
    Option VenusI2c :=
  retryXfer (if waitStop then E.i2c else E.g2c)
    (venusI2cLoadMessage · .masterWrite txBuf txBufLen nullBuf 0
      (if waitStop then 0 else i2cNoStop)) 2 p

/-- `venus_g2c_write`. -/
def venusG2cWrite (p : VenusI2c) (txBuf : ℕ → BitVec 8) (txBufLen : ℕ) (waitStop : Bool) :
    Option VenusI2c :=
  E.g2c (venusI2cLoadMessage p .masterWrite txBuf txBufLen nullBuf 0
    (if waitStop then 0 else i2cNoStop))

/-- `venus_g2c_read`. -/
def venusG2cRead (p : VenusI2c) (txBuf : ℕ → BitVec 8) (txBufLen : ℕ) (rxBuf : ℕ → BitVec 8)
    (rxBufLen : ℕ) : Option VenusI2c :=
  let read := fun q => E.g2c (venusI2cLoadMessage q .masterRead nullBuf 0 rxBuf rxBufLen 0)
  if txBufLen ≠ 0 then
    (E.venusG2cWrite p txBuf txBufLen false).bind fun q => if q.xfer.ret < 0 then some q else read q
  else read p

/-- A message that is a transfer of its own. -/
def single (m : I2cMsg) (last : Bool) (p : VenusI2c) : Option VenusI2c :=
  if m.isReadMsg then
    if m.isGPIORW then E.venusG2cRead p nullBuf 0 m.buf m.len
    else E.venusI2cRead p nullBuf 0 m.buf m.len
  else if m.isGPIORW then E.venusG2cWrite p m.buf m.len last
  else E.venusI2cWrite p m.buf m.len last

/-- A random read : a write and a read. -/
def random (m m' : I2cMsg) (p : VenusI2c) : Option VenusI2c :=
  if m.isGPIORW then E.venusG2cRead p m.buf m.len m'.buf m'.len
  else E.venusI2cRead p m.buf m.len m'.buf m'.len

/-- The test of the result of a transfer. -/
def check (r : Option VenusI2c) (next : VenusI2c → Option (ℤ × VenusI2c)) :
    Option (ℤ × VenusI2c) :=
  r.bind fun q => if q.xfer.ret < 0 then some (eacces, q) else next q

/-- The loop of `i2c_venus_xfer` at message `i`, with the messages from there on. -/
def xferLoop : List I2cMsg → ℕ → VenusI2c → Option (ℤ × VenusI2c)
  | [], i, p => some (i, p)
  | [m], i, p =>
    match venusI2cSetTar p m.addr with
    | none => some (eacces, p)
    | some p => check (E.single m true p) fun q => some (i + 1, q)
  | m :: m' :: ms, i, p =>
    match venusI2cSetTar p m.addr with
    | none => some (eacces, p)
    | some p =>
      if m.fuses m' then check (E.random m m' p) (xferLoop ms (i + 2))
      else check (E.single m false p) (xferLoop (m' :: ms) (i + 1))

/-- `i2c_venus_xfer`. -/
def i2cVenusXfer (p : VenusI2c) (msgs : List I2cMsg) : Option (ℤ × VenusI2c) :=
  E.xferLoop msgs 0 p

end I2cEngines

/-! ## Runs of the masters -/

/-- What a call returns that is over when `busy` is. -/
def CallOutcome {σ : Type} (busy : σ → Prop) (result : σ → VenusI2c) (st : ℕ → σ) :
    Option VenusI2c → Prop
  | some q => ∃ k, q = result (st k) ∧ ¬busy (st k) ∧ ∀ j < k, busy (st j)
  | none => ∀ k, busy (st k)

/-- The device after a transfer of the controller, whose signals are on the bus. -/
def IcSys.finish (d : ℕ → BitVec 8) (s : IcSys) : VenusI2c :=
  { s.dev with bus := { s.dev.bus with monitor := { s.dev.bus.monitor with
      seen := s.dev.bus.monitor.seen ++
        icSignals (s.dev.tar.setWidth 7) d none 0 (s.pushed.take s.done) ++ [.stop] } } }

/-- The bytes that are read in a transfer of the controller. `world` are the bytes that the slaves
send after the signals that have been on the bus. -/
def icData (world : List Signal → ℕ → BitVec 8) (H : List Signal) (p : VenusI2c) : ℕ → BitVec 8 :=
  world (H ++ icMessage (p.tar.setWidth 7) false p.xfer.txBuff p.xfer.txBuffLen)

/-- The masters run on a bus whose slaves acknowledge everything. -/
structure I2cEngines.Faithful (E : I2cEngines) (depth : ℕ) (world : List Signal → ℕ → BitVec 8) :
    Prop where
  depth_pos : 0 < depth
  g2c : ∀ p H, Resting H p.bus → ∃ st act, G2cRun (ackingSlave (world H)) st act ∧ st 0 = p ∧
    CallOutcome Busy id st (E.g2c p)
  i2c : ∀ p H, Resting H p.bus → ∃ st act, IcRun depth (icData world H p) st act ∧
    st 0 = ⟨p, [], 0⟩ ∧ CallOutcome IcSys.Busy (IcSys.finish (icData world H p)) st (E.i2c p)

/-- The signals of a message, after the signals `H`. -/
def I2cMsg.signals (world : List Signal → ℕ → BitVec 8) (H : List Signal) (m : I2cMsg) :
    List Signal :=
  messageSignals (m.addr.setWidth 7) m.isReadMsg (if m.isReadMsg then world H else m.buf) m.len

/-- What the bus should show for a list of messages, after the signals `H`. -/
def busSignals (world : List Signal → ℕ → BitVec 8) : List Signal → List I2cMsg → List Signal
  | _, [] => [.stop]
  | H, m :: ms => m.signals world H ++ busSignals world (H ++ m.signals world H) ms

/-- The messages are on the bus as they should, whatever the slaves send and however the masters
run. -/
def ShowsMessages (msgs : List I2cMsg) : Prop :=
  ∀ E depth world, I2cEngines.Faithful E depth world → ∀ p H, Resting H p.bus →
    ∃ q, E.i2cVenusXfer p msgs = some ((msgs.length : ℤ), q) ∧
      q.bus.monitor.seen = H ++ busSignals world H msgs

/-- No message is empty, only the last one is a read, and a random read of the controller has fewer
than 2^16 bytes. -/
def Clean : List I2cMsg → Prop
  | [] => True
  | [m] => 0 < m.len
  | m :: m' :: ms => 0 < m.len ∧ m.isReadMsg = false ∧
      (m.fuses m' = true → m.isGPIORW = false → m.len + m'.len < 2 ^ 16) ∧ Clean (m' :: ms)

/-! ## Single calls -/

theorem eq_some_of_outcome {σ : Type} {busy : σ → Prop} {result : σ → VenusI2c} {st : ℕ → σ}
    {o : Option VenusI2c} (ho : CallOutcome busy result st o) {k : ℕ} (hk : ¬busy (st k))
    (hj : ∀ j < k, busy (st j)) : o = some (result (st k)) := by
  cases o with
  | none => exact absurd (ho k) hk
  | some q =>
    obtain ⟨l, rfl, hl, hlt⟩ := ho
    rcases lt_trichotomy l k with h | rfl | h
    · exact absurd (hj l h) hl
    · rfl
    · exact absurd (hlt k h) hk

theorem setWidth_addr {addr : BitVec 16} (h : addr ≤ 0x7F#16) :
    (addr.setWidth 7).setWidth 16 = addr := by
  have hle : addr.toNat ≤ 0x7F := h
  apply BitVec.eq_of_toNat_eq
  simp only [BitVec.toNat_setWidth]
  omega

/-- A call that returns without an error, after which the bus has shown `E`. -/
def Shown (tar : BitVec 16) (E : List Signal) (o : Option VenusI2c) : Prop :=
  ∃ q, o = some q ∧ 0 ≤ q.xfer.ret ∧ q.tar = tar ∧ Resting E q.bus

variable {E : I2cEngines} {depth : ℕ} {world : List Signal → ℕ → BitVec 8} {p : VenusI2c}
  {H : List Signal}

section Calls

variable {f g : ℕ → BitVec 8} {n m : ℕ}

theorem resting_finish {s : IcSys} {d : ℕ → BitVec 8} (h : Resting H s.dev.bus) :
    Resting (H ++ (icSignals (s.dev.tar.setWidth 7) d none 0 (s.pushed.take s.done) ++ [.stop]))
      (s.finish d).bus := by
  obtain ⟨h1, h2, h3⟩ := h
  exact ⟨h1, h2, by rw [IcSys.finish, h3, append_assoc]⟩

theorem loaded_write (p : VenusI2c) (f : ℕ → BitVec 8) (n : ℕ) (g : ℕ → BitVec 8)
    (flags : BitVec 8) : (venusI2cLoadMessage p .masterWrite f n g 0 flags).xfer.Loaded :=
  ⟨.inl ⟨rfl, rfl⟩, rfl, rfl, rfl⟩

/-- A message as `venus_i2c_read` loads it. -/
def loadRead (p : VenusI2c) (f : ℕ → BitVec 8) (n : ℕ) (g : ℕ → BitVec 8) (m : ℕ) : VenusI2c :=
  venusI2cLoadMessage p (if n ≠ 0 then .masterRandomRead else .masterRead) f n g m 0

theorem loaded_read (p : VenusI2c) (f : ℕ → BitVec 8) (n : ℕ) (g : ℕ → BitVec 8) (m : ℕ) :
    (loadRead p f n g m).xfer.Loaded := by
  refine ⟨.inr ?_, rfl, rfl, rfl⟩
  by_cases hn : n = 0
  · exact .inl ⟨by simp [loadRead, venusI2cLoadMessage, hn], hn⟩
  · exact .inr (by simp [loadRead, venusI2cLoadMessage, hn])

theorem count_read (p : VenusI2c) (f : ℕ → BitVec 8) (n : ℕ) (g : ℕ → BitVec 8) (m : ℕ) :
    (loadRead p f n g m).xfer.count = m := by
  refine if_neg ?_
  by_cases hn : n = 0 <;> simp [loadRead, venusI2cLoadMessage, hn]

theorem retryXfer_of_shown {start : VenusI2c → Option VenusI2c} {load : VenusI2c → VenusI2c}
    {tar : BitVec 16} (retry : ℕ) (h : Shown tar H (start (load p))) :
    Shown tar H (retryXfer start load (retry + 1) p) := by
  obtain ⟨q, hq, hret, hbus⟩ := h
  have hne : q.xfer.ret ≠ etimeout := by
    intro h
    rw [h] at hret
    exact absurd hret (by decide)
  refine ⟨q, ?_, hret, hbus⟩
  rw [retryXfer, hq, Option.bind_some, if_pos hne]

theorem lastSignals_stop (last : Bool) :
    lastSignals (if last then 0 else i2cNoStop) = if last then [.stop] else [] := by
  cases last <;> rfl

/-- What `venus_i2c_read` and `venus_g2c_read` should show, after the signals `H`. -/
def readSignals (world : List Signal → ℕ → BitVec 8) (H : List Signal) (addr : BitVec 7)
    (f : ℕ → BitVec 8) (n m : ℕ) : List Signal :=
  icMessage addr false f n ++
    messageSignals addr true (world (H ++ icMessage addr false f n)) m ++ [.stop]

theorem readSignals_zero (addr : BitVec 7) :
    readSignals world H addr f 0 m = messageSignals addr true (world H) m ++ [.stop] := by
  simp [readSignals, icMessage]

theorem readSignals_of_pos (addr : BitVec 7) (hn : 0 < n) :
    readSignals world H addr f n m = messageSignals addr false f n ++
      (messageSignals addr true (world (H ++ messageSignals addr false f n)) m ++ [.stop]) := by
  simp [readSignals, icMessage, ne_of_gt hn]

variable (hE : E.Faithful depth world) (hp : Resting H p.bus)

include hE hp

/-- A write with the pins. -/
theorem shown_g2c_write (htar : p.tar ≤ 0x7F#16) (hn : n < 2 ^ 16) (flags : BitVec 8) :
    Shown p.tar (H ++ (messageSignals (p.tar.setWidth 7) false f (n - 1 + 1) ++ lastSignals flags))
      (E.g2c (venusI2cLoadMessage p .masterWrite f n g 0 flags)) := by
  obtain ⟨st, act, hrun, h0, ho⟩ := hE.g2c (venusI2cLoadMessage p .masterWrite f n g 0 flags) H hp
  obtain ⟨k, hk, hbusy⟩ := exists_returned_write hrun (setWidth_addr htar).symm hp hn h0
  rw [writeTrace_ackingSlave, acked_ackingSlave] at hk
  refine ⟨st k, eq_some_of_outcome ho (fun h => h hk.mode) hbusy, ?_,
    hk.tar.trans (setWidth_addr htar), hk.bus⟩
  rw [hk.ret]
  exact Int.le_refl 0

/-- A read with the pins. -/
theorem shown_g2c_read (htar : p.tar ≤ 0x7F#16) (hn : n < 2 ^ 16) :
    Shown p.tar (H ++ (messageSignals (p.tar.setWidth 7) true (world H) (n - 1 + 1) ++ [.stop]))
      (E.g2c (venusI2cLoadMessage p .masterRead f m g n 0)) := by
  obtain ⟨st, act, hrun, h0, ho⟩ := hE.g2c (venusI2cLoadMessage p .masterRead f m g n 0) H hp
  obtain ⟨k, hk, hbusy⟩ := exists_returned_read hrun (setWidth_addr htar).symm hp hn h0
  rw [readTrace_ackingSlave] at hk
  refine ⟨st k, eq_some_of_outcome ho (fun h => h hk.mode) hbusy, ?_,
    hk.tar.trans (setWidth_addr htar), hk.bus⟩
  rw [hk.ret]
  exact Int.le_refl 0

/-- A transfer of the controller. -/
theorem shown_i2c (hx : p.xfer.Loaded)
    (htotal : p.xfer.total < 2 ^ 16) (hcount : p.xfer.count ≠ 0) :
    Shown p.tar (H ++ (icSignals (p.tar.setWidth 7) (icData world H p) none 0
      ((range p.xfer.total).map p.xfer.cmd) ++ [.stop])) (E.i2c p) := by
  obtain ⟨st, act, hrun, h0, ho⟩ := hE.i2c p H hp
  obtain ⟨k, hk, hbusy⟩ := exists_returned_irq hrun hE.depth_pos hx htotal hcount h0
  have hidel : ¬(st k).Busy := by
    rw [IcSys.Busy, hk.dev]
    simp
  refine ⟨_, eq_some_of_outcome ho hidel hbusy, ?_, ?_, ?_⟩
  · rw [IcSys.finish, hk.dev]
    exact Int.natCast_nonneg _
  · rw [IcSys.finish, hk.dev]
  · have h := resting_finish (d := icData world H p) (by rw [hk.dev]; exact hp)
    rw [hk.pushed, hk.done, cmds_of_le _ (le_of_lt htotal), take_of_length_le (by simp),
      hk.dev] at h
    exact h

/-- A transfer of the controller without bytes does not return. -/
theorem i2c_eq_none (hx : p.xfer.Loaded)
    (htotal : p.xfer.total < 2 ^ 16) (hcount : p.xfer.count = 0) : E.i2c p = none := by
  obtain ⟨st, act, hrun, h0, ho⟩ := hE.i2c p H hp
  cases ho' : E.i2c p with
  | none => rfl
  | some q =>
    rw [ho'] at ho
    obtain ⟨k, -, hk, -⟩ := ho
    exact absurd (busy_of_count_zero hrun hx htotal hcount h0 k) hk

/-- A write of the controller. -/
theorem shown_i2c_write (hn : n < 2 ^ 16) (hpos : 0 < n) (flags : BitVec 8) :
    Shown p.tar (H ++ (messageSignals (p.tar.setWidth 7) false f n ++ [.stop]))
      (E.i2c (venusI2cLoadMessage p .masterWrite f n g 0 flags)) := by
  have h := shown_i2c hE (p := venusI2cLoadMessage p .masterWrite f n g 0 flags) hp
    (loaded_write ..) hn (ne_of_gt hpos)
  have hcmd := icSignals_write (p.tar.setWidth 7)
    (icData world H (venusI2cLoadMessage p .masterWrite f n g 0 flags))
    (venusI2cLoadMessage p .masterWrite f n g 0 flags).xfer hpos
  exact hcmd ▸ h

/-- A read or a random read of the controller. -/
theorem shown_i2c_read (hsum : n + m < 2 ^ 16) (hpos : 0 < m) :
    Shown p.tar (H ++ readSignals world H (p.tar.setWidth 7) f n m)
      (E.i2c (loadRead p f n g m)) := by
  have h := shown_i2c hE (p := loadRead p f n g m) hp (loaded_read ..) hsum
    (by rw [count_read]; omega)
  have hcmd := icSignals_cmd (p.tar.setWidth 7) (icData world H (loadRead p f n g m))
    (loadRead p f n g m).xfer m [] (by simp) hpos
  rw [append_nil, icSignals, append_nil] at hcmd
  rw [readSignals]
  exact hcmd ▸ h

section

variable (htar : p.tar ≤ 0x7F#16) (hn : n < 2 ^ 16)

include htar hn

/-- A write that may leave STOP out. -/
theorem shown_venusG2cWrite (last : Bool) :
    Shown p.tar (H ++ (messageSignals (p.tar.setWidth 7) false f (n - 1 + 1) ++
      if last then [.stop] else [])) (E.venusG2cWrite p f n last) := by
  rw [← lastSignals_stop]
  exact shown_g2c_write hE hp htar hn _

/-- A read after a write, if there is one. -/
theorem shown_venusG2cRead (hm : m < 2 ^ 16) :
    Shown p.tar (H ++ readSignals world H (p.tar.setWidth 7) f n (m - 1 + 1))
      (E.venusG2cRead p f n g m) := by
  rw [I2cEngines.venusG2cRead]
  by_cases hzero : n = 0
  · rw [hzero, readSignals_zero, if_neg (by simp)]
    exact shown_g2c_read hE hp htar hm
  · obtain ⟨q, hq, hret, hqtar, hbus⟩ := shown_venusG2cWrite hE hp htar hn false
    have hsub : n - 1 + 1 = n := by omega
    simp only [hsub, Bool.false_eq_true, if_false, append_nil] at hbus
    have h := shown_g2c_read (f := nullBuf) (m := 0) (g := g) hE hbus (hqtar ▸ htar) hm
    rw [readSignals_of_pos _ (by omega), if_pos hzero, hq, Option.bind_some,
      if_neg (Int.not_lt.2 hret)]
    rwa [hqtar, append_assoc] at h

/-- A write without STOP is not for the controller. -/
theorem shown_venusI2cWrite_noStop :
    Shown p.tar (H ++ messageSignals (p.tar.setWidth 7) false f (n - 1 + 1))
      (E.venusI2cWrite p f n false) := by
  have h := shown_venusG2cWrite (f := f) hE hp htar hn false
  rw [if_neg Bool.false_ne_true, append_nil] at h
  refine retryXfer_of_shown 1 ?_
  exact h

theorem shown_venusI2cWrite (hpos : 0 < n) (last : Bool) :
    Shown p.tar (H ++ (messageSignals (p.tar.setWidth 7) false f n ++
      if last then [.stop] else [])) (E.venusI2cWrite p f n last) := by
  cases last with
  | true =>
    refine retryXfer_of_shown 1 ?_
    exact shown_i2c_write hE hp hn hpos 0
  | false =>
    have h := shown_venusI2cWrite_noStop (f := f) hE hp htar hn
    rw [Nat.sub_add_cancel hpos] at h
    rwa [if_neg Bool.false_ne_true, append_nil]

end

theorem shown_venusI2cRead (hsum : n + m < 2 ^ 16) (hpos : 0 < m) :
    Shown p.tar (H ++ readSignals world H (p.tar.setWidth 7) f n m)
      (E.venusI2cRead p f n g m) := by
  refine retryXfer_of_shown 1 ?_
  exact shown_i2c_read hE hp hsum hpos

theorem venusI2cRead_eq_none (hn : n < 2 ^ 16) : E.venusI2cRead p f n g 0 = none := by
  have h := i2c_eq_none hE (p := loadRead p f n g 0) hp (loaded_read ..) hn (count_read ..)
  exact congrArg (Option.bind · _) h

theorem venusI2cWrite_eq_none :
    E.venusI2cWrite p f 0 true = none := by
  have h := i2c_eq_none hE (p := venusI2cLoadMessage p .masterWrite f 0 nullBuf 0 0) hp
    (loaded_write ..) (Nat.two_pow_pos 16) rfl
  exact congrArg (Option.bind · _) h

end Calls

/-! ## Transfers of messages -/

section Messages

variable {m m' : I2cMsg}

/-- A message with bytes, with the STOP of a read or of the last message. -/
theorem shown_single (hE : E.Faithful depth world) (hp : Resting H p.bus) (htar : p.tar = m.addr)
    (haddr : m.addr ≤ 0x7F#16) (hlen : 0 < m.len) (last : Bool) :
    Shown p.tar (H ++ (m.signals world H ++ if m.isReadMsg || last then [.stop] else []))
      (E.single m last p) := by
  have hsub : m.len - 1 + 1 = m.len := by omega
  have htar' : p.tar ≤ 0x7F#16 := htar ▸ haddr
  rw [I2cEngines.single, I2cMsg.signals, ← htar]
  cases m.isReadMsg with
  | true =>
    have hg2c := shown_venusG2cRead (f := nullBuf) (n := 0) (g := m.buf) hE hp htar' (by decide)
      m.len_lt
    have hi2c := shown_venusI2cRead (f := nullBuf) (g := m.buf) hE hp
      (by rw [zero_add]; exact m.len_lt) hlen
    rw [readSignals_zero] at hg2c hi2c
    rw [hsub] at hg2c
    cases m.isGPIORW with
    | true => exact hg2c
    | false => exact hi2c
  | false =>
    have hg2c := shown_venusG2cWrite (f := m.buf) hE hp htar' m.len_lt last
    have hi2c := shown_venusI2cWrite (f := m.buf) hE hp htar' m.len_lt hlen last
    rw [hsub] at hg2c
    cases m.isGPIORW with
    | true => exact hg2c
    | false => exact hi2c

theorem fuses_iff : m.fuses m' = true ↔ m.isReadMsg = false ∧ m'.isReadMsg = true ∧
    m.isSameTarget m' = true := by
  simp [I2cMsg.fuses, and_assoc]

theorem addr_of_fuses (h : m.fuses m' = true) : m'.addr = m.addr := by
  have h := (fuses_iff.1 h).2.2
  simp only [I2cMsg.isSameTarget, Bool.and_eq_true, decide_eq_true_eq] at h
  exact h.1.symm

/-- A random read with bytes to write and to read that can be counted. -/
theorem shown_random (hE : E.Faithful depth world) (hp : Resting H p.bus) (htar : p.tar = m.addr)
    (haddr : m.addr ≤ 0x7F#16) (hlen : 0 < m.len) (hlen' : 0 < m'.len) (hfuse : m.fuses m' = true)
    (hsum : m.isGPIORW = false → m.len + m'.len < 2 ^ 16) :
    Shown p.tar (H ++ (m.signals world H ++ (m'.signals world (H ++ m.signals world H) ++ [.stop])))
      (E.random m m' p) := by
  have hsub' : m'.len - 1 + 1 = m'.len := by omega
  obtain ⟨hw, hr, -⟩ := fuses_iff.1 hfuse
  have hg2c := shown_venusG2cRead (f := m.buf) (g := m'.buf) hE hp (htar ▸ haddr) m.len_lt
    m'.len_lt
  have hi2c := fun hsum => shown_venusI2cRead (f := m.buf) (n := m.len) (g := m'.buf) hE hp hsum
    hlen'
  simp only [readSignals_of_pos _ hlen, hsub'] at hg2c hi2c
  simp only [I2cEngines.random, I2cMsg.signals, hw, hr, addr_of_fuses hfuse, ← htar, if_true,
    Bool.false_eq_true, if_false]
  cases hg : m.isGPIORW with
  | true => exact hg2c
  | false => exact hi2c (hsum hg)

/-- The loop goes on after a transfer without an error. -/
theorem check_of_shown {tar : BitVec 16} {o : Option VenusI2c} (h : Shown tar H o) :
    ∃ q, Resting H q.bus ∧ ∀ next, I2cEngines.check o next = next q := by
  obtain ⟨q, rfl, hret, -, hbus⟩ := h
  exact ⟨q, hbus, fun next => if_neg (Int.not_lt.2 hret)⟩

theorem venusI2cSetTar_of_le {addr : BitVec 16} (h : addr ≤ 0x7F#16) (p : VenusI2c) :
    venusI2cSetTar p addr = some { p with tar := addr } :=
  if_neg (BitVec.not_lt.2 h)

/-- Clean messages are on the bus as they should. -/
theorem xferLoop_of_clean (hE : E.Faithful depth world) : ∀ (msgs : List I2cMsg) (i : ℕ)
    (p : VenusI2c) (H : List Signal), msgs ≠ [] → (∀ m ∈ msgs, m.addr ≤ 0x7F#16) → Clean msgs →
    Resting H p.bus → ∃ q, E.xferLoop msgs i p = some (((i + msgs.length : ℕ) : ℤ), q) ∧
      q.bus.monitor.seen = H ++ busSignals world H msgs
  | [], _, _, _, hne, _, _, _ => absurd rfl hne
  | [m], i, p, H, _, haddr, hclean, hp => by
    have ha := haddr m (by simp)
    obtain ⟨q, hbus, hnext⟩ := check_of_shown
      (shown_single (p := { p with tar := m.addr }) hE hp rfl ha hclean true)
    refine ⟨q, ?_, ?_⟩
    · simp only [I2cEngines.xferLoop, venusI2cSetTar_of_le ha, hnext]
      rfl
    · simpa [busSignals] using hbus.2.2
  | m :: m' :: ms, i, p, H, _, haddr, hclean, hp => by
    obtain ⟨hlen, hw, hsum, hrest⟩ := hclean
    have ha := haddr m (by simp)
    simp only [I2cEngines.xferLoop, venusI2cSetTar_of_le ha]
    by_cases hfuse : m.fuses m' = true
    · -- The read is the last message.
      obtain rfl : ms = [] := by
        cases ms with
        | nil => rfl
        | cons m'' ms => exact absurd hrest.2.1 (by simp [(fuses_iff.1 hfuse).2.1])
      obtain ⟨q, hbus, hnext⟩ := check_of_shown
        (shown_random (p := { p with tar := m.addr }) hE hp rfl ha hlen hrest hfuse (hsum hfuse))
      refine ⟨q, ?_, ?_⟩
      · rw [if_pos hfuse, hnext]
        rfl
      · simpa [busSignals] using hbus.2.2
    · obtain ⟨q, hbus, hnext⟩ := check_of_shown
        (shown_single (p := { p with tar := m.addr }) hE hp rfl ha hlen false)
      simp only [hw, Bool.or_false, Bool.false_eq_true, if_false, append_nil] at hbus
      obtain ⟨q', hq', hseen⟩ := xferLoop_of_clean hE (m' :: ms) (i + 1) q _ (by simp)
        (fun x hx => haddr x (by simp [mem_cons.1 hx])) hrest hbus
      refine ⟨q', ?_, ?_⟩
      · rw [if_neg hfuse, hnext, hq']
        simp only [length_cons]
        congr 3
        omega
      · rw [hseen, append_assoc]
        rfl

end Messages

/-! ## Messages that are not clean -/

/-- A call after which, if it returns, the bus has shown `X` and maybe more. -/
def Leaves (X : List Signal) (o : Option VenusI2c) : Prop :=
  ∀ q, o = some q → ∃ Z, X <+: Z ∧ Resting Z q.bus

section Leaves

variable {X Z : List Signal} {f g : ℕ → BitVec 8} {n m : ℕ} {o : Option VenusI2c}

theorem Leaves.of_none (h : o = none) : Leaves X o := by
  rintro q rfl
  cases h

theorem Leaves.mono (h : Leaves Z o) (hX : X <+: Z) : Leaves X o := by
  intro q hq
  obtain ⟨Z', hZ', hbus⟩ := h q hq
  exact ⟨Z', hX.trans hZ', hbus⟩

theorem Shown.leaves {tar : BitVec 16} (h : Shown tar Z o) (hX : X <+: Z) : Leaves X o := by
  rintro q rfl
  obtain ⟨q', hq, -, -, hbus⟩ := h
  cases hq
  exact ⟨Z, hX, hbus⟩

theorem leaves_retryXfer {start : VenusI2c → Option VenusI2c} {load : VenusI2c → VenusI2c}
    (hstart : ∀ p H, Resting H p.bus → Leaves H (start (load p))) :
    ∀ retry p, Leaves X (start (load p)) → Leaves X (retryXfer start load (retry + 1) p)
  | retry, p, h => by
    intro q hq
    obtain ⟨q', hq', hq⟩ := Option.bind_eq_some_iff.1 hq
    obtain ⟨Z, hX, hZ⟩ := h q' hq'
    split at hq
    · cases hq
      exact ⟨Z, hX, hZ⟩
    · cases retry with
      | zero => cases hq; exact ⟨Z, hX, hZ⟩
      | succ retry => exact leaves_retryXfer hstart retry q' ((hstart q' _ hZ).mono hX) q hq

variable {d : ℕ → BitVec 8} {st : ℕ → IcSys} {act : ℕ → IcAction}

/-- The interrupts of the controller do not touch the pins. -/
theorem bus_of_icRun (hrun : IcRun depth d st act) (h0 : st 0 = ⟨p, [], 0⟩) (k : ℕ) :
    (st k).dev.bus = p.bus ∧ (st k).dev.tar = p.tar := by
  induction k with
  | zero => rw [h0]; exact ⟨rfl, rfl⟩
  | succ k ih =>
    rw [hrun.next]
    cases act k with
    | irq => exact ih
    | exec => rw [IcSys.act]; split <;> exact ih

/-- What the commands that have been run show. -/
theorem leaves_of_outcome
    (hp : Resting H p.bus) (hrun : IcRun depth d st act) (h0 : st 0 = ⟨p, [], 0⟩)
    (ho : CallOutcome IcSys.Busy (IcSys.finish d) st o)
    (hX : ∀ k, ¬(st k).Busy → (∀ j < k, (st j).Busy) → X <+:
      icSignals (p.tar.setWidth 7) d none 0 ((st k).pushed.take (st k).done) ++ [.stop]) :
    Leaves (H ++ X) o := by
  rintro q rfl
  obtain ⟨k, rfl, hk, hj⟩ := ho
  obtain ⟨hbus, htar⟩ := bus_of_icRun hrun h0 k
  have h := resting_finish (d := d) (by rw [hbus]; exact hp)
  rw [htar] at h
  exact ⟨_, (prefix_append_right_inj H).2 (hX k hk hj), h⟩

theorem leaves_i2c (hE : E.Faithful depth world) (hp : Resting H p.bus) : Leaves H (E.i2c p) := by
  obtain ⟨st, act, hrun, h0, ho⟩ := hE.i2c p H hp
  exact (leaves_of_outcome hp hrun h0 ho fun _ _ _ => nil_prefix).mono
    (prefix_append H [])

theorem leaves_venusI2cRead (hE : E.Faithful depth world)
    (h : Leaves X (E.i2c (loadRead p f n g m))) : Leaves X (E.venusI2cRead p f n g m) := by
  refine leaves_retryXfer (fun q H hq => ?_) 1 p ?_
  · exact leaves_i2c hE hq
  · exact h

theorem bit_of_messageSignals (addr : BitVec 7) (rd : Bool) (f : ℕ → BitVec 8) (n : ℕ) :
    addressSignals addr rd ++ [.bit (byteBit (f 0) 0)] <+: messageSignals addr rd f (n + 1) :=
  (prefix_append_right_inj _).2 ⟨_, rfl⟩

end Leaves

variable {m m' : I2cMsg}

theorem signals_of_len_zero (hlen : m.len = 0) :
    m.signals world H = addressSignals (m.addr.setWidth 7) m.isReadMsg := by
  rw [I2cMsg.signals, hlen, messageSignals, dataSignals, append_nil]

section Unclean

variable (hE : E.Faithful depth world) (hp : Resting H p.bus) (htar : p.tar = m.addr)
  (haddr : m.addr ≤ 0x7F#16)

include hE hp htar haddr

/-- A message without bytes : there is no call that returns and shows none. -/
theorem leaves_single_zero (hlen : m.len = 0) (last : Bool) :
    ∃ b, Leaves (H ++ (m.signals world H ++ [.bit b])) (E.single m last p) := by
  have htar' : p.tar ≤ 0x7F#16 := htar ▸ haddr
  rw [signals_of_len_zero hlen, I2cEngines.single, hlen, ← htar]
  cases m.isReadMsg with
  | true =>
    have hbit := bit_of_messageSignals (p.tar.setWidth 7) true (world H) 0
    have hg2c := shown_venusG2cRead (f := nullBuf) (n := 0) (g := m.buf) (m := 0) hE hp htar'
      (by decide) (by decide)
    rw [readSignals_zero] at hg2c
    refine ⟨byteBit (world H 0) 0, ?_⟩
    cases m.isGPIORW with
    | true =>
      exact hg2c.leaves ((prefix_append_right_inj H).2 (hbit.trans (prefix_append ..)))
    | false => exact .of_none (venusI2cRead_eq_none hE hp (by decide))
  | false =>
    have hbit := bit_of_messageSignals (p.tar.setWidth 7) false m.buf 0
    have hg2c := shown_venusG2cWrite (f := m.buf) (n := 0) hE hp htar' (by decide) last
    refine ⟨byteBit (m.buf 0) 0, ?_⟩
    cases m.isGPIORW with
    | true =>
      exact hg2c.leaves ((prefix_append_right_inj H).2 (hbit.trans (prefix_append ..)))
    | false =>
      cases last with
      | true => exact .of_none (venusI2cWrite_eq_none hE hp)
      | false =>
        exact (shown_venusI2cWrite_noStop hE hp htar' (by decide)).leaves
          ((prefix_append_right_inj H).2 hbit)

theorem leaves_single (last : Bool) : Leaves H (E.single m last p) := by
  rcases Nat.eq_zero_or_pos m.len with hlen | hlen
  · obtain ⟨b, hb⟩ := leaves_single_zero hE hp htar haddr hlen last
    exact hb.mono (prefix_append ..)
  · exact (shown_single hE hp htar haddr hlen last).leaves (prefix_append ..)

/-- A random read that fails to return, or that the pins are used for, or that the controller runs
as `hi2c` says. -/
theorem leaves_random_of {X : List Signal} (hg2c : m.isGPIORW = true →
      X <+: H ++ readSignals world H (p.tar.setWidth 7) m.buf m.len (m'.len - 1 + 1))
    (hi2c : m.isGPIORW = false → Leaves X (E.i2c (loadRead p m.buf m.len m'.buf m'.len))) :
    Leaves X (E.random m m' p) := by
  rw [I2cEngines.random]
  cases hg : m.isGPIORW with
  | true =>
    exact (shown_venusG2cRead hE hp (htar ▸ haddr) m.len_lt m'.len_lt).leaves (hg2c hg)
  | false => exact leaves_venusI2cRead hE (hi2c hg)

theorem leaves_random : Leaves H (E.random m m' p) :=
  leaves_random_of hE hp htar haddr (fun _ => prefix_append ..) fun _ => leaves_i2c hE hp

/-- A write without bytes is not on the bus. -/
theorem leaves_random_zero (hlen : m.len = 0) :
    Leaves (H ++ addressSignals (m.addr.setWidth 7) true) (E.random m m' p) := by
  refine leaves_random_of hE hp htar haddr (fun _ => ?_) fun _ => ?_
  · simp [hlen, readSignals_zero, messageSignals, htar]
  · rcases Nat.eq_zero_or_pos m'.len with hlen' | hlen'
    · exact .of_none (i2c_eq_none hE hp (loaded_read ..) (hlen' ▸ m.len_lt)
      (by rw [count_read, hlen']))
    · refine (shown_i2c_read hE hp (by rw [hlen, zero_add]; exact m'.len_lt) hlen').leaves ?_
      simp [hlen, readSignals_zero, messageSignals, htar]

/-- A read without bytes after a write : there is no call that returns and shows none. -/
theorem leaves_random_read_zero (hfuse : m.fuses m' = true)
    (hlen : 0 < m.len) (hlen' : m'.len = 0) :
    ∃ b, Leaves
      (H ++ (m.signals world H ++ (m'.signals world (H ++ m.signals world H) ++ [.bit b])))
      (E.random m m' p) := by
  obtain ⟨hw, hr, -⟩ := fuses_iff.1 hfuse
  have hm : m.signals world H = messageSignals (p.tar.setWidth 7) false m.buf m.len := by
    rw [I2cMsg.signals, hw, htar]
    rfl
  rw [signals_of_len_zero hlen', hr, addr_of_fuses hfuse, ← htar, hm]
  refine ⟨byteBit (world (H ++ messageSignals (p.tar.setWidth 7) false m.buf m.len) 0) 0,
    leaves_random_of hE hp htar haddr (fun _ => ?_) fun _ => ?_⟩
  · rw [readSignals_of_pos _ hlen, hlen']
    refine (prefix_append_right_inj _).2 ((prefix_append_right_inj _).2 ?_)
    exact (bit_of_messageSignals _ _ _ _).trans (prefix_append ..)
  · exact .of_none (i2c_eq_none hE hp (loaded_read ..) (hlen' ▸ m.len_lt)
      (by rw [count_read, hlen']))

end Unclean

/-! ## A controller whose interrupts are slow -/

/-- The runs of the controller are those of `turnRun`. -/
def I2cEngines.Turns (E : I2cEngines) (late : Bool) (depth : ℕ)
    (world : List Signal → ℕ → BitVec 8) : Prop :=
  ∀ p H, Resting H p.bus → CallOutcome IcSys.Busy (IcSys.finish (icData world H p))
    (turnRun depth late (icData world H p) p) (E.i2c p)

theorem exists_outcome {σ : Type} (busy : σ → Prop) (result : σ → VenusI2c) (st : ℕ → σ) :
    ∃ o, CallOutcome busy result st o := by
  classical
  by_cases h : ∃ k, ¬busy (st k)
  · exact ⟨some (result (st (Nat.find h))), _, rfl, Nat.find_spec h,
      fun j hj => not_not.1 (Nat.find_min h hj)⟩
  · exact ⟨none, fun k => not_not.1 fun hk => h ⟨k, hk⟩⟩

theorem watched_of_resting {b : Bus} (h : Resting H b) : b.Watched := by
  obtain ⟨h1, h2, -⟩ := h
  refine ⟨h2.trans h1.symm, ?_⟩
  have hscl : (b.master.wired b.slave).scl = true := congrArg Lines.scl h1
  exact (Bool.and_eq_true_iff.1 hscl).2

theorem exists_turns (late : Bool) (hdepth : 0 < depth) (world : List Signal → ℕ → BitVec 8) :
    ∃ E : I2cEngines, E.Faithful depth world ∧ E.Turns late depth world := by
  choose g hg using fun p : VenusI2c => exists_outcome Busy id
    (promptRun (ackingSlave (world p.bus.monitor.seen)) p)
  choose i hi using fun p : VenusI2c => exists_outcome IcSys.Busy
    (IcSys.finish (icData world p.bus.monitor.seen p))
    (turnRun depth late (icData world p.bus.monitor.seen p) p)
  have hturns : (I2cEngines.mk g i).Turns late depth world := by
    rintro p H ⟨-, -, rfl⟩
    exact hi p
  refine ⟨⟨g, i⟩, ⟨hdepth, fun p H hp => ?_, fun p H hp => ?_⟩, hturns⟩
  · have hrun := prompt_run (S := ackingSlave (world H)) (watched_of_resting hp)
    refine ⟨_, _, hrun, rfl, ?_⟩
    obtain ⟨-, -, rfl⟩ := hp
    exact hg p
  · exact ⟨_, _, turn_run late, rfl, hturns p H hp⟩

/-- The commands of a random read that has run them and then `cs`. -/
theorem icSignals_loadRead (world : List Signal → ℕ → BitVec 8) (H : List Signal) (p : VenusI2c)
    (f g : ℕ → BitVec 8) (n : ℕ) {l k : ℕ} (hl : 0 < l) (hk : 0 < k) (cs : List IcCmd)
    (hcs : cs.head? ≠ some .read) :
    icSignals (p.tar.setWidth 7) (icData world H (loadRead p f l g n)) none 0
        ((range (l + k)).map (loadRead p f l g n).xfer.cmd ++ cs) =
      messageSignals (p.tar.setWidth 7) false f l ++
        (messageSignals (p.tar.setWidth 7) true
          (world (H ++ messageSignals (p.tar.setWidth 7) false f l)) k ++
          icSignals (p.tar.setWidth 7) (icData world H (loadRead p f l g n)) (some true) k cs) := by
  have hdata : icData world H (loadRead p f l g n) =
      world (H ++ messageSignals (p.tar.setWidth 7) false f l) := by
    exact congrArg (fun X => world (H ++ X)) (if_neg (ne_of_gt hl))
  have hcmd := icSignals_cmd (p.tar.setWidth 7) (icData world H (loadRead p f l g n))
    (loadRead p f l g n).xfer k cs hcs hk
  rw [icMessage, if_neg (by exact ne_of_gt hl), append_assoc] at hcmd
  rw [hdata] at hcmd ⊢
  exact hcmd

theorem signals_of_fuses (hfuse : m.fuses m' = true) (htar : p.tar = m.addr) :
    m.signals world H = messageSignals (p.tar.setWidth 7) false m.buf m.len ∧
      m'.signals world H = messageSignals (p.tar.setWidth 7) true (world H) m'.len := by
  obtain ⟨hw, hr, -⟩ := fuses_iff.1 hfuse
  simp [I2cMsg.signals, hw, hr, addr_of_fuses hfuse, htar]

/-- A random read of too many bytes goes on with a START. -/
theorem leaves_random_late (hE : E.Faithful depth world) (hT : E.Turns true depth world)
    (hdepth : 2 ≤ depth) (hp : Resting H p.bus) (htar : p.tar = m.addr) (hfuse : m.fuses m' = true)
    (hlen : 0 < m.len) (hg : m.isGPIORW = false) {k : ℕ} (hk : m.len + k = 2 ^ 16)
    (hsum : k ≤ m'.len) :
    Leaves (H ++ (m.signals world H ++ (messageSignals (p.tar.setWidth 7) true
      (world (H ++ m.signals world H)) k ++ [.start]))) (E.random m m' p) := by
  have hlt := m.len_lt
  have hmode : (loadRead p m.buf m.len m'.buf m'.len).xfer.mode = .masterRandomRead :=
    if_pos (ne_of_gt hlen)
  rw [I2cEngines.random, hg, (signals_of_fuses hfuse htar).1]
  refine leaves_venusI2cRead hE (leaves_of_outcome (p := loadRead p m.buf m.len m'.buf m'.len) hp
    (turn_run true) rfl (hT _ H hp) fun i hi _ => ?_)
  obtain ⟨cs, hcs⟩ := turnRun_late (loaded_read ..) hmode hlt m'.len_lt hlen
    (by rw [← hk]; exact Nat.add_le_add_left hsum m.len) hdepth hi
  have hcmd := icSignals_loadRead world H p m.buf m'.buf m'.len (k := k) hlen (by omega)
    (.data (m.buf 0) :: cs) (by simp)
  rw [← hk, append_assoc] at hcs
  rw [← hcs]
  refine List.IsPrefix.trans ?_ (prefix_append ..)
  refine hcmd ▸ (prefix_append_right_inj _).2 ((prefix_append_right_inj _).2 ?_)
  exact ⟨_, rfl⟩

/-- A random read of 2^16 bytes in all, whose interrupts come in time. -/
theorem leaves_random_exact (hE : E.Faithful depth world) (hT : E.Turns false depth world)
    (hp : Resting H p.bus) (htar : p.tar = m.addr) (hfuse : m.fuses m' = true)
    (hlen : 0 < m.len) (hg : m.isGPIORW = false) (hsum : m.len + m'.len = 2 ^ 16) :
    Leaves (H ++ (m.signals world H ++ (m'.signals world (H ++ m.signals world H) ++ [.stop])))
      (E.random m m' p) := by
  have hlt := m.len_lt
  have hmode : (loadRead p m.buf m.len m'.buf m'.len).xfer.mode = .masterRandomRead :=
    if_pos (ne_of_gt hlen)
  rw [I2cEngines.random, hg, (signals_of_fuses hfuse htar).1, (signals_of_fuses hfuse htar).2]
  refine leaves_venusI2cRead hE (leaves_of_outcome (p := loadRead p m.buf m.len m'.buf m'.len) hp
    (turn_run false) rfl (hT _ H hp) fun i hi hbusy => ?_)
  obtain ⟨i', hi', hbusy', htake⟩ := turnRun_exact (loaded_read ..) hmode
    hlt m'.len_lt hsum hE.depth_pos
  obtain rfl : i = i' := by
    rcases lt_trichotomy i i' with h | h | h
    · exact absurd (hbusy' i h) hi
    · exact h
    · exact absurd (hbusy i' h) hi'
  have hcmd := icSignals_loadRead world H p m.buf m'.buf m'.len (k := m'.len) hlen (by omega)
    [] (by simp)
  rw [append_nil, icSignals, append_nil] at hcmd
  rw [← hsum] at htake
  rw [htake, ← append_assoc]
  exact hcmd ▸ prefix_rfl

/-! ## Comparison of signals -/

section Compare

variable {E' : I2cEngines} {ms : List I2cMsg}

theorem not_bit_busSignals (b : Bool) : ¬[.bit b] <+: busSignals world H ms := by
  cases ms <;> simp [busSignals, I2cMsg.signals, messageSignals, addressSignals]

theorem not_stop_busSignals : ¬[.stop] <+: busSignals world H (m :: ms) := by
  simp [busSignals, I2cMsg.signals, messageSignals, addressSignals]

theorem not_start_busSignals : ¬[.start] <+: busSignals world H [] := by
  simp [busSignals]

theorem not_addressSignals (addr : BitVec 7) (Y : List Signal) :
    ¬addressSignals addr true <+: addressSignals addr false ++ Y := by
  intro h
  have heq := prefix_of_prefix_length_le h (prefix_append ..) (le_of_eq rfl)
  have hbit : byteBit (addressByte addr true) 7 = byteBit (addressByte addr false) 7 := by
    have h := List.IsPrefix.eq_of_length heq rfl
    simp only [addressSignals, byteSignals, cons_append, cons.injEq, true_and,
      append_cancel_right_eq] at h
    have h7 := congrArg (fun l => l[7]?) h
    simpa using h7
  have hlast : ∀ rd, byteBit (addressByte addr rd) 7 = rd := by
    intro rd
    rw [byteBit, addressByte, BitVec.getLsbD_append]
    cases rd <;> rfl
  rw [hlast, hlast] at hbit
  cases hbit

/-- The last byte of a read is not acknowledged, and the ones before are. -/
theorem not_dataSignals (d : ℕ → BitVec 8) (Y : List Signal) : ∀ n l i, 0 < n → n < l →
    ¬dataSignals true d n i <+: dataSignals true d l i ++ Y
  | 0, _, _, h, _ => absurd h (lt_irrefl 0)
  | _, 0, _, _, h => absurd h (not_lt_zero _)
  | n + 1, l + 1, i, _, hl => by
    intro h
    rw [dataSignals, dataSignals, append_assoc] at h
    have h := (prefix_append_right_inj _).1 h
    rw [cons_append, cons_prefix_cons] at h
    obtain ⟨hbit, h⟩ := h
    rcases Nat.eq_zero_or_pos n with rfl | hn
    · have hl0 : (l == 0) = false := by simp; omega
      simp [hl0] at hbit
    · exact not_dataSignals d Y n l (i + 1) hn (by omega) h

/-- The messages are on the bus as they should, in one call. -/
def ShowsFrom (E : I2cEngines) (world : List Signal → ℕ → BitVec 8) (msgs : List I2cMsg) : Prop :=
  ∃ p H i r q, Resting H p.bus ∧ E.xferLoop msgs i p = some (r, q) ∧
    q.bus.monitor.seen = H ++ busSignals world H msgs

/-- What is on the bus stays. -/
theorem prefix_of_check {X : List Signal} {o : Option VenusI2c}
    {next : VenusI2c → Option (ℤ × VenusI2c)} {r : ℤ} {q : VenusI2c} (h : Leaves X o)
    (hnext : ∀ Z p, Resting Z p.bus → next p = some (r, q) → Z <+: q.bus.monitor.seen)
    (hcheck : I2cEngines.check o next = some (r, q)) : X <+: q.bus.monitor.seen := by
  obtain ⟨q', hq', hcheck⟩ := Option.bind_eq_some_iff.1 hcheck
  obtain ⟨Z, hX, hZ⟩ := h q' hq'
  split at hcheck
  · cases hcheck
    exact hZ.2.2.symm ▸ hX
  · exact hX.trans (hnext Z q' hZ hcheck)

/-- A message that is a transfer of its own. -/
theorem xferLoop_single (ha : m.addr ≤ 0x7F#16) (hms : ∀ m' ∈ ms.head?, m.fuses m' = false)
    (i : ℕ) (p : VenusI2c) :
    E.xferLoop (m :: ms) i p =
      I2cEngines.check (E.single m ms.isEmpty { p with tar := m.addr })
        (E.xferLoop ms (i + 1)) := by
  cases ms with
  | nil =>
    simp only [I2cEngines.xferLoop, venusI2cSetTar_of_le ha]
    rfl
  | cons m' ms =>
    simp only [I2cEngines.xferLoop, venusI2cSetTar_of_le ha, hms m' rfl]
    rfl

/-- A write and a read that are one transfer. -/
theorem xferLoop_random (ha : m.addr ≤ 0x7F#16) (hfuse : m.fuses m' = true) (i : ℕ) (p : VenusI2c) :
    E.xferLoop (m :: m' :: ms) i p =
      I2cEngines.check (E.random m m' { p with tar := m.addr }) (E.xferLoop ms (i + 2)) := by
  simp only [I2cEngines.xferLoop, venusI2cSetTar_of_le ha, hfuse]
  rfl

variable (hE : E.Faithful depth world)

include hE

theorem prefix_of_xferLoop {r : ℤ} {q : VenusI2c} :
    ∀ (msgs : List I2cMsg) (i : ℕ), (∀ m ∈ msgs, m.addr ≤ 0x7F#16) →
    ∀ (H : List Signal) (p : VenusI2c), Resting H p.bus → E.xferLoop msgs i p = some (r, q) →
      H <+: q.bus.monitor.seen
  | [], i, _, H, p, hp, h => by
    cases h
    exact hp.2.2 ▸ prefix_rfl
  | [m], i, haddr, H, p, hp, h => by
    have ha := haddr m (by simp)
    rw [xferLoop_single ha (by simp)] at h
    exact prefix_of_check (leaves_single (p := { p with tar := m.addr }) hE hp rfl ha _)
      (prefix_of_xferLoop [] (i + 1) (by simp)) h
  | m :: m' :: ms, i, haddr, H, p, hp, h => by
    have ha := haddr m (by simp)
    have hrest : ∀ x ∈ m' :: ms, x.addr ≤ 0x7F#16 := fun x hx => haddr x (mem_cons_of_mem m hx)
    cases hfuse : m.fuses m' with
    | true =>
      rw [xferLoop_random ha hfuse] at h
      exact prefix_of_check (leaves_random (p := { p with tar := m.addr }) hE hp rfl ha)
        (prefix_of_xferLoop ms (i + 2) fun x hx => hrest x (mem_cons_of_mem m' hx)) h
    | false =>
      rw [xferLoop_single ha (by simpa using hfuse)] at h
      exact prefix_of_check (leaves_single (p := { p with tar := m.addr }) hE hp rfl ha _)
        (prefix_of_xferLoop (m' :: ms) (i + 1) hrest) h

/-- What a message shows is what the bus should show. -/
theorem prefix_of_single (haddr : ∀ x ∈ m :: ms, x.addr ≤ 0x7F#16)
    (hms : ∀ m' ∈ ms.head?, m.fuses m' = false) (h : ShowsFrom E world (m :: ms)) :
    ∃ p H, Resting H p.bus ∧ p.tar = m.addr ∧ ∀ X, Leaves X (E.single m ms.isEmpty p) →
      X <+: H ++ busSignals world H (m :: ms) := by
  obtain ⟨p, H, i, r, q, hp, hloop, hseen⟩ := h
  rw [xferLoop_single (haddr m (by simp)) hms] at hloop
  have hrest := prefix_of_xferLoop (r := r) (q := q) hE ms (i + 1) fun x hx =>
    haddr x (mem_cons_of_mem m hx)
  exact ⟨{ p with tar := m.addr }, H, hp, rfl, fun X hX => hseen ▸ prefix_of_check hX hrest hloop⟩

theorem prefix_of_random (haddr : ∀ x ∈ m :: m' :: ms, x.addr ≤ 0x7F#16) (hfuse : m.fuses m' = true)
    (h : ShowsFrom E world (m :: m' :: ms)) :
    ∃ p H, Resting H p.bus ∧ p.tar = m.addr ∧ ∀ X, Leaves X (E.random m m' p) →
      X <+: H ++ busSignals world H (m :: m' :: ms) := by
  obtain ⟨p, H, i, r, q, hp, hloop, hseen⟩ := h
  rw [xferLoop_random (haddr m (by simp)) hfuse] at hloop
  have hrest := prefix_of_xferLoop (r := r) (q := q) hE ms (i + 2) fun x hx =>
    haddr x (by simp [hx])
  exact ⟨{ p with tar := m.addr }, H, hp, rfl, fun X hX => hseen ▸ prefix_of_check hX hrest hloop⟩

theorem len_pos_of_single (haddr : ∀ x ∈ m :: ms, x.addr ≤ 0x7F#16)
    (hms : ∀ m' ∈ ms.head?, m.fuses m' = false) (h : ShowsFrom E world (m :: ms)) : 0 < m.len := by
  obtain ⟨p, H, hp, htar, hX⟩ := prefix_of_single hE haddr hms h
  refine Nat.pos_of_ne_zero fun hlen => ?_
  obtain ⟨b, hb⟩ := leaves_single_zero hE hp htar (haddr m (by simp)) hlen ms.isEmpty
  have hpre := hX _ hb
  rw [prefix_append_right_inj, busSignals, prefix_append_right_inj] at hpre
  exact not_bit_busSignals b hpre

section

variable (haddr : ∀ x ∈ m :: m' :: ms, x.addr ≤ 0x7F#16)

include haddr

/-- A read has a STOP. -/
theorem isReadMsg_of_single (hfuse : m.fuses m' = false) (h : ShowsFrom E world (m :: m' :: ms)) :
    m.isReadMsg = false := by
  have hms : ∀ x ∈ (m' :: ms).head?, m.fuses x = false := by simpa using hfuse
  obtain ⟨p, H, hp, htar, hX⟩ := prefix_of_single hE haddr hms h
  cases hr : m.isReadMsg with
  | false => rfl
  | true =>
    have hshown := shown_single hE hp htar (haddr m (by simp)) (len_pos_of_single hE haddr hms h)
      (m' :: ms).isEmpty
    rw [hr, Bool.true_or, if_pos rfl] at hshown
    have hpre := hX _ (hshown.leaves prefix_rfl)
    rw [prefix_append_right_inj, busSignals, prefix_append_right_inj] at hpre
    exact absurd hpre not_stop_busSignals

/-- The messages after a write. -/
theorem showsFrom_rest (hfuse : m.fuses m' = false) (hlen : 0 < m.len) (hw : m.isReadMsg = false)
    (h : ShowsFrom E world (m :: m' :: ms)) :
    ShowsFrom E world (m' :: ms) := by
  obtain ⟨p, H, i, r, q, hp, hloop, hseen⟩ := h
  have ha := haddr m (by simp)
  rw [xferLoop_single ha (by simpa using hfuse)] at hloop
  obtain ⟨q', hbus, hnext⟩ := check_of_shown
    (shown_single (p := { p with tar := m.addr }) hE hp rfl ha hlen (m' :: ms).isEmpty)
  rw [hnext] at hloop
  simp only [hw, isEmpty_cons, Bool.or_false, Bool.false_eq_true, if_false, append_nil] at hbus
  rw [busSignals, ← append_assoc] at hseen
  exact ⟨q', _, i + 1, r, q, hbus, hloop, hseen⟩

/-- The bytes of a random read that is on the bus as it should be. -/
theorem len_pos_of_random (hfuse : m.fuses m' = true) (h : ShowsFrom E world (m :: m' :: ms)) :
    0 < m.len ∧ 0 < m'.len := by
  obtain ⟨p, H, hp, htar, hX⟩ := prefix_of_random hE haddr hfuse h
  have ha := haddr m (by simp)
  have hlen : 0 < m.len := by
    refine Nat.pos_of_ne_zero fun hlen => ?_
    have hpre := hX _ (leaves_random_zero hE hp htar ha hlen)
    rw [prefix_append_right_inj, busSignals, signals_of_len_zero hlen,
      (fuses_iff.1 hfuse).1] at hpre
    exact not_addressSignals _ _ hpre
  refine ⟨hlen, Nat.pos_of_ne_zero fun hlen' => ?_⟩
  obtain ⟨b, hb⟩ := leaves_random_read_zero hE hp htar ha hfuse hlen hlen'
  have hpre := hX _ hb
  rw [prefix_append_right_inj, busSignals, prefix_append_right_inj, busSignals,
    prefix_append_right_inj] at hpre
  exact not_bit_busSignals b hpre

end

omit hE in
/-- A random read with a STOP is the last transfer. -/
theorem rest_of_random {ms : List I2cMsg}
    (hX : H ++ (m.signals world H ++ (m'.signals world (H ++ m.signals world H) ++ [.stop])) <+:
      H ++ busSignals world H (m :: m' :: ms)) : ms = [] := by
  rw [prefix_append_right_inj, busSignals, prefix_append_right_inj, busSignals,
    prefix_append_right_inj] at hX
  cases ms with
  | nil => rfl
  | cons m'' ms => exact absurd hX not_stop_busSignals

/-- A random read whose commands cannot be counted is not on the bus as it should be, if one
interrupt is late or if there are messages after it. -/
theorem sum_lt_of_random (hT : E.Turns true depth world)
    (hE' : E'.Faithful depth world) (hT' : E'.Turns false depth world) (hdepth : 2 ≤ depth)
    (haddr : ∀ x ∈ m :: m' :: ms, x.addr ≤ 0x7F#16) (hfuse : m.fuses m' = true)
    (h : ShowsFrom E world (m :: m' :: ms)) (h' : ShowsFrom E' world (m :: m' :: ms))
    (hg : m.isGPIORW = false) : m.len + m'.len < 2 ^ 16 := by
  obtain ⟨hlen, hlen'⟩ := len_pos_of_random hE haddr hfuse h
  refine Nat.lt_of_not_le fun hsum => ?_
  have hlt := m.len_lt
  obtain ⟨k, hk⟩ : ∃ k, m.len + k = 2 ^ 16 := ⟨2 ^ 16 - m.len, by omega⟩
  have hkle : k ≤ m'.len := by omega
  obtain ⟨p, H, hp, htar, hX⟩ := prefix_of_random hE haddr hfuse h
  have hpre := hX _ (leaves_random_late hE hT hdepth hp htar hfuse hlen hg hk hkle)
  rw [prefix_append_right_inj, busSignals, prefix_append_right_inj, busSignals,
    (signals_of_fuses hfuse htar).2] at hpre
  rcases Nat.lt_or_eq_of_le hkle with hlt' | heq
  · -- The byte after which the reads end is acknowledged in the message.
    rw [messageSignals, messageSignals, append_assoc, append_assoc, prefix_append_right_inj] at hpre
    exact not_dataSignals _ _ k m'.len 0 (by omega) hlt' ((prefix_append ..).trans hpre)
  · -- The transfer may end in time, and its STOP is then the last signal.
    subst heq
    rw [prefix_append_right_inj] at hpre
    obtain ⟨p', H', hp', htar', hX'⟩ := prefix_of_random hE' haddr hfuse h'
    obtain rfl := rest_of_random
      (hX' _ (leaves_random_exact hE' hT' hp' htar' hfuse hlen hg hk))
    exact not_start_busSignals hpre

/-- Only clean messages are on the bus as they should, whatever the interrupts. -/
theorem clean_of_showsFrom (hT : E.Turns true depth world)
    (hE' : E'.Faithful depth world) (hT' : E'.Turns false depth world) (hdepth : 2 ≤ depth) :
    ∀ msgs : List I2cMsg, (∀ m ∈ msgs, m.addr ≤ 0x7F#16) → ShowsFrom E world msgs →
      ShowsFrom E' world msgs → Clean msgs
  | [], _, _, _ => trivial
  | [_], haddr, h, _ => len_pos_of_single hE haddr (by simp) h
  | m :: m' :: ms, haddr, h, h' => by
    cases hfuse : m.fuses m' with
    | true =>
      obtain ⟨hlen, hlen'⟩ := len_pos_of_random hE haddr hfuse h
      have hsum := sum_lt_of_random hE hT hE' hT' hdepth haddr hfuse h h'
      obtain ⟨p, H, hp, htar, hX⟩ := prefix_of_random hE haddr hfuse h
      have hshown := shown_random hE hp htar (haddr m (by simp)) hlen hlen' hfuse hsum
      obtain rfl := rest_of_random (hX _ (hshown.leaves prefix_rfl))
      exact ⟨hlen, (fuses_iff.1 hfuse).1, fun _ => hsum, hlen'⟩
    | false =>
      have hms : ∀ x ∈ (m' :: ms).head?, m.fuses x = false := by simpa using hfuse
      have hlen := len_pos_of_single hE haddr hms h
      have hw := isReadMsg_of_single hE haddr hfuse h
      refine ⟨hlen, hw, fun h => absurd h (by simp [hfuse]), ?_⟩
      exact clean_of_showsFrom hT hE' hT' hdepth (m' :: ms)
        (fun x hx => haddr x (mem_cons_of_mem m hx))
        (showsFrom_rest hE haddr hfuse hlen hw h) (showsFrom_rest hE' haddr hfuse hlen hw h')

end Compare

/-! ## Message lists -/

/-- Messages that are on the bus as they should in every run are clean. -/
theorem clean_of_showsMessages {msgs : List I2cMsg} (haddr : ∀ m ∈ msgs, m.addr ≤ 0x7F#16)
    (h : ShowsMessages msgs) : Clean msgs := by
  have hfrom : ∀ E, I2cEngines.Faithful E 2 (fun _ _ => 0) → ShowsFrom E (fun _ _ => 0) msgs := by
    intro E hE
    have hp : Resting [] (createVenusI2cHandle 0).bus := ⟨rfl, rfl, rfl⟩
    obtain ⟨q, hq, hseen⟩ := h E 2 _ hE _ _ hp
    exact ⟨_, _, 0, _, q, hp, hq, hseen⟩
  obtain ⟨E, hE, hT⟩ := exists_turns true (by decide : 0 < 2) fun _ _ => 0
  obtain ⟨E', hE', hT'⟩ := exists_turns false (by decide : 0 < 2) fun _ _ => 0
  exact clean_of_showsFrom hE hT hE' hT' (le_refl 2) msgs haddr (hfrom E hE) (hfrom E' hE')

/-- The call returns the number of the messages, and the bus shows each of them with its bytes and a
STOP at the end, if and only if no message is empty, only the last one is a read, and a random read
of the controller has fewer than 2^16 bytes. -/
theorem messages_iff {msgs : List I2cMsg} (hne : msgs ≠ []) (haddr : ∀ m ∈ msgs, m.addr ≤ 0x7F#16) :
    ShowsMessages msgs ↔ Clean msgs := by
  refine ⟨clean_of_showsMessages haddr, fun hclean E depth world hE p H hp => ?_⟩
  obtain ⟨q, hq, hseen⟩ := xferLoop_of_clean hE msgs 0 p H hne haddr hclean hp
  rw [zero_add] at hq
  exact ⟨q, hq, hseen⟩

/-- Two bytes to the slave at address 0x50, and a byte from it. -/
theorem messages_random_read :
    let w : I2cMsg := ⟨0x50#16, 0#16, 2, by decide, fun _ => 0xA5#8⟩
    let r : I2cMsg := ⟨0x50#16, 1#16, 1, by decide, fun _ => 0⟩
    ShowsMessages [w, r] ∧ ¬ShowsMessages [r, r] := by
  intro w r
  have hw : ShowsMessages [w, r] ↔ _ := messages_iff (by simp) (by simp [w, r])
  have hr : ShowsMessages [r, r] ↔ _ := messages_iff (by simp) (by simp [r])
  exact ⟨hw.2 ⟨by decide, by decide, fun _ _ => by decide, by simp [Clean, r]⟩,
    fun h => absurd (hr.1 h).2.1 (by decide)⟩

/-- A read of a byte and then a write of one : there is a STOP between them. -/
theorem read_then_write_not_shown :
    ¬ShowsMessages [⟨0x50#16, 1#16, 1, by decide, fun _ => 0⟩,
      ⟨0x50#16, 0#16, 1, by decide, fun _ => 0⟩] := by
  intro h
  have hclean := clean_of_showsMessages (by simp) h
  exact absurd hclean.2.1 (by decide)

end OpenHMR
