import OpenHMR.VenusG2cRun

/-!
# Transfers of the bit-banged I2C master

From the bits to whole transfers : the address, the bytes of a write, the bytes of a read, START and
STOP, each as what it leads to in every run. `g2c_transfers` puts them together : the call returns,
and the monitor of the bus has seen exactly the signals of the transfer.

The state machine sends or reads a byte before it compares its count with the length of the message,
so that a message without bytes is a transfer of one byte (`exists_returned_write`,
`exists_returned_read`).
-/

namespace OpenHMR

open TwoWire Runs Bus Function Nat VenusI2cXfer VenusI2c Slave

variable {S : Slave} {st : ℕ → VenusI2c} {act : ℕ → G2cAction} {x : VenusI2cXfer}

section Bits

variable (tar : BitVec 16) {E : List Signal} (hrun : G2cRun S st act)

include hrun

attribute [local simp] venusG2cIsr venusG2cDoAddress venusG2cDoWrite venusG2cDoRead venusG2cDoStop
  setDirNext pos nextSub nextState
  enter

/-! ## Address -/

/-- One bit of the address. -/
theorem addressBit_leadsTo (hx : x.mode ≠ .idel) {k : ℕ} (hk : k < 8) (hE : phase E = .address k) :
    LeadsTo st Busy (At tar (x.pos .addr k 1) (Low E)) (At tar (x.pos .addr (k + 1) 1)
      (Low (E ++ [.bit (byteBit (g2cAddr tar x.mode) k)]))) := by
  have hle : k ≤ 7 := by omega
  refine bit_leadsTo hrun hx (byteBit (g2cAddr tar x.mode) k) (x.pos .addr (k + 1) 0)
    (by rw [hE]; exact Bool.and_true _) hx ?_ ?_ ?_ ?_ ?_
  · intro b
    simp [hle, byteBit]
  · intro b hsda
    simp [hle, hsda (by rw [hE]; rfl), byteBit]
  · intro b hscl
    simp [hle, hscl]
  · intro b hscl _
    simp [hle, hscl]
  · intro b
    -- The next state may be the one of the acknowledge bit.
    rcases Nat.lt_or_ge k 7 with h | h
    · simp [succ_le_of_lt h]
    · obtain rfl : k = 7 := by omega
      simp

/-- The address and the direction. -/
theorem address_leadsTo (hx : x.mode ≠ .idel) (hE : phase E = .address 0) :
    LeadsTo st Busy (At tar (x.pos .addr 0 1) (Low E))
        (At tar (x.pos .addr 8 1) (Low (E ++ byteSignals (g2cAddr tar x.mode)))) ∧
      phase (E ++ byteSignals (g2cAddr tar x.mode)) =
        .addressAck (byteBit (g2cAddr tar x.mode) 7) :=
  bits_leadsTo (fun k => x.pos .addr k 1) .address _ (g2cAddr tar x.mode)
    (fun _ hk _ => addressBit_leadsTo tar hrun hx hk) (fun k hk => by simp [Phase.next, hk]) rfl hE

/-- The acknowledge bit of the address, with the state it leads to. -/
theorem addressAck_leadsTo (hx : x.mode ≠ .idel) {rd : Bool}
    (hE : phase E = .addressAck rd) (y : VenusI2cXfer)
    (hy : y = if S.ack 0 then x.pos .data 0 0 else { x with ret := etxabort }.pos .stop 0 0) :
    LeadsTo st Busy (At tar (x.pos .addr 8 1) (Low E))
      (At tar y.nextSub (Low (E ++ [.bit (!S.ack 0)]))) := by
  refine bit_leadsTo hrun hx true y (by rw [hE]; rfl) (by subst hy; split <;> exact hx)
    ?_ ?_ ?_ ?_ ?_
  · intro b
    simp
  · intro b _
    simp
  · intro b hscl
    simp [hscl]
  · intro b hscl hsda
    cases hack : S.ack 0 <;> simp [hscl, hsda, hy, hack]
  · intro b
    subst hy
    split
    · by_cases hm : x.mode = .masterWrite <;> simp [hm]
    · simp

/-! ## Writing -/

variable {i j : ℕ}

/-- One bit of a byte is written. -/
theorem writeBit_leadsTo (hx : x.mode = .masterWrite) (hj : j < 8) (hE : phase E = .write i j) :
    LeadsTo st Busy (At tar (x.pos .data j 1) (Low E)) (At tar (x.pos .data (j + 1) 1)
      (Low (E ++ [.bit (byteBit (x.txBuff x.txLen) j)]))) := by
  have hmode : x.mode ≠ .idel := by simp [hx]
  refine bit_leadsTo hrun hmode (byteBit (x.txBuff x.txLen) j) (x.pos .data (j + 1) 0)
    (by rw [hE]; exact Bool.and_true _) hmode ?_ ?_ ?_ ?_ ?_
  · intro b
    simp [hx, hj, byteBit]
  · intro b hsda
    simp [hx, hj, hsda (by rw [hE]; rfl), byteBit]
  · intro b hscl
    simp [hx, hj, hscl]
  · intro b hscl _
    simp [hx, hj, hscl]
  · intro b
    by_cases h : j + 1 < 8 <;> simp [hx, h]

theorem writeByte_leadsTo (hx : x.mode = .masterWrite) (hE : phase E = .write i 0) :
    LeadsTo st Busy (At tar (x.pos .data 0 1) (Low E))
        (At tar (x.pos .data 8 1) (Low (E ++ byteSignals (x.txBuff x.txLen)))) ∧
      phase (E ++ byteSignals (x.txBuff x.txLen)) = .writeAck i :=
  bits_leadsTo (fun j => x.pos .data j 1) (.write i) _ (x.txBuff x.txLen)
    (fun _ hj _ => writeBit_leadsTo tar hrun hx hj) (fun j hj => by simp [Phase.next, hj]) rfl hE

/-- The acknowledge bit of a byte, with the state it leads to. -/
theorem writeAck_leadsTo (hx : x.mode = .masterWrite)
    (hlen : x.txLen + 1 < 2 ^ 16) (hE : phase E = .writeAck i) (y : VenusI2cXfer)
    (hy : y = if S.ack (i + 1) then
        { x with txLen := x.txLen + 1 }.pos
          (if x.txBuffLen ≤ x.txLen + 1 then .stop else .data) 0 0
      else { x with txLen := x.txLen + 1, ret := etxabort }.pos .stop 0 0) :
    LeadsTo st Busy (At tar (x.pos .data 8 1) (Low E))
      (At tar y.nextSub (Low (E ++ [.bit (!S.ack (i + 1))]))) := by
  have hmode : x.mode ≠ .idel := by simp [hx]
  refine bit_leadsTo hrun hmode true y (by rw [hE]; rfl) (by subst hy; split <;> exact hmode)
    ?_ ?_ ?_ ?_ ?_
  · intro b
    simp [hx]
  · intro b _
    simp [hx]
  · intro b hscl
    simp [hscl, hx]
  · intro b hscl hsda
    have hlen' : x.txLen + 1 < 65536 := hlen
    rw [hy]
    cases hack : S.ack (i + 1)
    · simp [hx, hscl, hsda, hack, mod_eq_of_lt hlen']
    · by_cases hlast : x.txBuffLen ≤ x.txLen + 1 <;>
        simp [hx, hscl, hsda, hack, mod_eq_of_lt hlen', hlast]
  · intro b
    subst hy
    split
    · by_cases hlast : x.txBuffLen ≤ x.txLen + 1 <;> simp [hx, hlast]
    · simp

/-! ## Reading -/

/-- A byte after its first `j` bits. -/
def rxBits (d : BitVec 8) : ℕ → BitVec 8
  | 0 => 0
  | j + 1 => if byteBit d j then rxBits d j ||| 1#8 <<< (7 - j) else rxBits d j

omit hrun in
theorem rxBits_eight : ∀ d : BitVec 8, rxBits d 8 = d := by
  decide +kernel

/-- The driver in a byte of which it has the first `j` bits. The count of bytes is one higher at
the acknowledge bit. -/
def VenusI2cXfer.receiving (x : VenusI2cXfer) (d : BitVec 8) (j : ℕ) : VenusI2cXfer :=
  { x with
    rxBuff := update x.rxBuff x.rxLen (x.rxBuff x.rxLen ||| rxBits d j)
    rxLen := if j < 8 then x.rxLen else x.rxLen + 1 }

/-- One bit of a byte is read. -/
theorem readBit_leadsTo (hx : x.mode = .masterRead)
    (hj : j < 8) (hlen : x.rxLen + 1 < 2 ^ 16) (hE : phase E = .read i j) :
    LeadsTo st Busy (At tar ((x.receiving (S.data i) j).pos .data j 1) (Low E))
      (At tar ((x.receiving (S.data i) (j + 1)).pos .data (j + 1) 1)
        (Low (E ++ [.bit (byteBit (S.data i) j)]))) := by
  have hmode : x.mode ≠ .idel := by simp [hx]
  refine bit_leadsTo hrun (x := x.receiving (S.data i) j) hmode true
    ({ x.receiving (S.data i) (j + 1) with rxLen := x.rxLen }.pos .data (j + 1) 0)
    (by rw [hE]; rfl) hmode ?_ ?_ ?_ ?_ ?_
  · intro b
    simp [receiving, hx, hj]
  · intro b _
    simp [receiving, hx, hj]
  · intro b hscl
    simp [receiving, hx, hj, hscl]
  · intro b hscl hsda
    cases hbit : byteBit (S.data i) j <;>
    simp [receiving, hx, hj, hscl, hsda, hbit, rxBits, BitVec.or_assoc]
  · intro b
    have hlen' : x.rxLen + 1 < 65536 := hlen
    by_cases h : j + 1 < 8 <;>
      simp [receiving, hx, h, mod_eq_of_lt hlen']

/-- The driver when it has a byte. -/
def VenusI2cXfer.store (x : VenusI2cXfer) (d : BitVec 8) : VenusI2cXfer :=
  { x with
    rxBuff := update x.rxBuff x.rxLen (x.rxBuff x.rxLen ||| d), rxLen := x.rxLen + 1 }

theorem readByte_leadsTo (hx : x.mode = .masterRead)
    (hlen : x.rxLen + 1 < 2 ^ 16) (hE : phase E = .read i 0) :
    LeadsTo st Busy (At tar (x.pos .data 0 1) (Low E))
        (At tar ((x.store (S.data i)).pos .data 8 1) (Low (E ++ byteSignals (S.data i)))) ∧
      phase (E ++ byteSignals (S.data i)) = .readAck i := by
  have hfirst : (x.receiving (S.data i) 0).pos .data 0 1 = x.pos .data 0 1 := by
    simp [receiving, rxBits]
  have hlast : x.receiving (S.data i) 8 = x.store (S.data i) := by
    simp [receiving, store, rxBits_eight]
  rw [← hfirst, ← hlast]
  exact bits_leadsTo (fun j => (x.receiving (S.data i) j).pos .data j 1) (.read i) _ (S.data i)
    (fun _ hj _ => readBit_leadsTo tar hrun hx hj hlen) (fun j hj => by simp [Phase.next, hj]) rfl
    hE

/-- The acknowledge bit of the master. -/
theorem readAck_leadsTo (hx : x.mode = .masterRead) (hE : phase E = .readAck i) :
    LeadsTo st Busy (At tar (x.pos .data 8 1) (Low E))
      (At tar (x.pos (if x.rxLen < x.rxBuffLen then .data else .stop) 0 1)
        (Low (E ++ [.bit (!decide (x.rxLen < x.rxBuffLen))]))) := by
  have hmode : x.mode ≠ .idel := by simp [hx]
  refine bit_leadsTo hrun hmode (!decide (x.rxLen < x.rxBuffLen))
    (x.pos (if x.rxLen < x.rxBuffLen then .data else .stop) 0 0)
    (by rw [hE]; exact Bool.and_true _) hmode ?_ ?_ ?_ ?_ ?_
  · intro b
    by_cases h : x.rxLen < x.rxBuffLen <;>
      simp [hx, h]
  · intro b _
    simp [hx]
  · intro b hscl
    simp [hscl, hx]
  · intro b hscl _
    by_cases h : x.rxLen < x.rxBuffLen <;>
      simp [hx, h, hscl]
  · intro b
    by_cases h : x.rxLen < x.rxBuffLen <;>
      simp [hx, h]

/-! ## STOP -/

/-- `venus_g2c_start_xfer` has returned `r`, with `rx` in the buffer for reception and the signals
`E` on the bus. -/
structure G2cReturned (tar : BitVec 16) (r : ℤ) (rx : ℕ → BitVec 8) (E : List Signal)
    (p : VenusI2c) : Prop where
  tar : p.tar = tar
  mode : p.xfer.mode = .idel
  ret : p.xfer.ret = r
  rxBuff : p.xfer.rxBuff = rx
  bus : Resting E p.bus

/-- Sub state 3 of STOP. -/
theorem stopEdge_leadsTo (hx : x.mode ≠ .idel) (hE : (phase E).turn = false) (v : Bool) :
    LeadsTo st Busy (At tar (x.pos .stop 0 3) (Rising v (S.level (phase E)) E))
      (At tar (x.pos .done 0 0) (Free (E ++ if v then [] else [.stop]))) := by
  refine step_leadsTo hrun hx (kept_rising v E) ?_
  rintro b (⟨s, rfl⟩ | rfl) -
  · refine .inl ⟨rfl, ?_⟩
    simp [venusGpioRead]
  · refine .inr ?_
    rw [S.level_of_not_turn hE]
    have hisr : venusG2cIsr false ⟨tar, x.pos .stop 0 3,
          driven (!v) false .idle (some (v && true)) E⟩ =
        ⟨tar, x.pos .done 0 0,
          venusGpioSetDir .sda false (driven (!v) false .idle (some (v && true)) E)⟩ := by
      simp [venusGpioRead, Lines.idle]
    refine ⟨congrArg VenusI2c.tar hisr, congrArg VenusI2c.xfer hisr, ?_⟩
    rw [show (⟨true, true⟩ : Lines) = .idle from rfl, hisr]
    cases v with
    | false => exact ⟨_, setDir_sda_stop _ _⟩
    | true => exact ⟨_, by simpa using setDir_sda_self false false .idle (some true) E⟩

/-- The caller is woken. -/
theorem complete_leadsTo (hx : x.mode ≠ .idel) :
    LeadsTo st Busy (At tar (x.pos .done 0 0) (Free E)) (G2cReturned tar x.ret x.rxBuff E) := by
  have hdone : LeadsTo st Busy (At tar (x.pos .done 0 0) (Free E))
      (At tar { x.pos .done 0 1 with mode := .idel } (Resting E)) := by
    refine step_leadsTo hrun hx (kept_free E) ?_
    rintro b ⟨m, rfl⟩ -
    refine .inr ?_
    simp only [At, venusG2cIsr, pos, ne_eq, Bool.false_eq_true, and_false, ↓reduceIte,
      venusG2cDoComplete, nextSub, zero_add, setDir_sda_self, setDir_scl_self,
      true_and]
    simp [venusI2cGpioSelection, Bus.watch, Bus.lines, Bus.master, Lines.wired, Lines.idle, Resting,
      driven, Monitor.observe]
  refine hdone.trans (LeadsTo.of_imp ?_)
  rintro p ⟨htar, hp, hbus⟩
  exact ⟨htar, by rw [hp], by rw [hp]; rfl, by rw [hp]; rfl, hbus⟩

/-- The signals at the end of a transfer in which every byte was acknowledged. -/
def lastSignals (flags : BitVec 8) : List Signal :=
  if flags &&& i2cNoStop = 0#8 then [.stop] else []

/-- The stop condition. -/
theorem stop_leadsTo (hx : x.mode ≠ .idel) (hE : (phase E).turn = false) :
    LeadsTo st Busy (At tar (x.pos .stop 0 1) (Low E))
      (G2cReturned tar x.ret x.rxBuff
        (E ++ if x.ret < 0 then [.stop] else lastSignals x.flags)) := by
  have hlast : (if x.ret < 0 then [.stop] else lastSignals x.flags) =
      if !decide (x.flags &&& i2cNoStop = 0#8 ∨ x.ret < 0) then [] else [Signal.stop] := by
    unfold lastSignals
    by_cases h : x.ret < 0 <;> by_cases h' : x.flags &&& i2cNoStop = 0#8 <;> simp [h, h']
  rw [hlast]
  have hset : LeadsTo st Busy (At tar (x.pos .stop 0 1) (Low E)) (At tar (x.pos .stop 0 2)
      (Bus.Set (!decide (x.flags &&& i2cNoStop = 0#8 ∨ x.ret < 0)) E)) := by
    refine set_leadsTo hrun (x := x.pos .stop 0 1) hx fun b => ?_
    by_cases h : x.flags &&& i2cNoStop = 0#8 ∨ x.ret < 0 <;>
      simp [h]
  have hrise : ∀ v, LeadsTo st Busy (At tar (x.pos .stop 0 2) (Bus.Set v E))
      (At tar (x.pos .stop 0 3) (Rising v (S.level (phase E)) E)) := by
    intro v
    refine rise_leadsTo hrun (x := x.pos .stop 0 2) hx fun b _ => ?_
    simp
  exact hset.trans <| (hrise _).trans <| (stopEdge_leadsTo tar hrun hx hE _).trans
    (complete_leadsTo tar hrun hx)

end Bits

section Bytes

variable (tar : BitVec 16) {E : List Signal} (hrun : G2cRun S st act)

include hrun

/-! ## The bytes of a write -/

/-- A slave that has not acknowledged is out of the transfer. -/
theorem abort_leadsTo (hx : x.mode ≠ .idel) (hret : x.ret = etxabort)
    (hE : (phase E).turn = false) :
    LeadsTo st Busy (At tar (x.pos .stop 0 1) (Low E))
      (G2cReturned tar etxabort x.rxBuff (E ++ [.stop])) := by
  have h := stop_leadsTo tar hrun hx hE
  rwa [hret, if_pos (by decide)] at h

/-- A byte is not acknowledged. -/
theorem writeNack_leadsTo (hx : x.mode = .masterWrite)
    (hlen : x.txLen + 1 < 2 ^ 16) (hE : phase E = .write x.txLen 0)
    (hack : S.ack (x.txLen + 1) = false) :
    LeadsTo st Busy (At tar (x.pos .data 0 1) (Low E))
      (G2cReturned tar etxabort x.rxBuff
        (E ++ byteSignals (x.txBuff x.txLen) ++ [.bit true] ++ [.stop])) := by
  obtain ⟨hbyte, hE'⟩ := writeByte_leadsTo tar hrun hx hE
  refine hbyte.trans <| (writeAck_leadsTo tar hrun hx hlen hE' _ rfl).trans ?_
  rw [hack]
  refine abort_leadsTo tar hrun (x := { x with txLen := x.txLen + 1, ret := etxabort })
    (by simp [hx]) rfl ?_
  rw [phase_concat, hE']
  rfl

theorem writeAcked_leadsTo (hx : x.mode = .masterWrite)
    (hlen : x.txLen + 1 < 2 ^ 16) (hE : phase E = .write x.txLen 0)
    (hack : S.ack (x.txLen + 1) = true) :
    LeadsTo st Busy (At tar (x.pos .data 0 1) (Low E))
        (At tar ({ x with txLen := x.txLen + 1 }.pos
            (if x.txBuffLen ≤ x.txLen + 1 then .stop else .data) 0 1)
          (Low (E ++ byteSignals (x.txBuff x.txLen) ++ [.bit false]))) ∧
      phase (E ++ byteSignals (x.txBuff x.txLen) ++ [.bit false]) = .write (x.txLen + 1) 0 := by
  obtain ⟨hbyte, hE'⟩ := writeByte_leadsTo tar hrun hx hE
  have h := hbyte.trans (writeAck_leadsTo tar hrun hx hlen hE' _ rfl)
  rw [hack] at h
  refine ⟨h, ?_⟩
  rw [phase_concat, hE']
  rfl

/-- The bytes from place `i` on, and the end of the transfer. At least one byte is sent, even if
there is none. -/
theorem writeBytes_leadsTo : ∀ (n i : ℕ) (x : VenusI2cXfer)
    (E : List Signal), x.mode = .masterWrite → x.txLen = i → x.txBuffLen - (i + 1) = n →
    x.txBuffLen < 2 ^ 16 → i + 1 < 2 ^ 16 → x.ret = 0 → phase E = .write i 0 →
    LeadsTo st Busy (At tar (x.pos .data 0 1) (Low E))
      (G2cReturned tar (if S.acked (n + 1) i then 0 else etxabort) x.rxBuff
        (E ++ S.writeBytes x.txBuff (lastSignals x.flags) (n + 1) i)) := by
  intro n i x E hx hi hn hlen hi' hret hE
  subst hi
  rw [acked, writeBytes]
  cases hack : S.ack (x.txLen + 1) with
  | false => simpa using writeNack_leadsTo tar hrun hx hi' hE hack
  | true =>
    obtain ⟨hto, hE'⟩ := writeAcked_leadsTo tar hrun hx hi' hE hack
    refine hto.trans ?_
    cases n with
    | zero =>
      have h := stop_leadsTo tar hrun (x := { x with txLen := x.txLen + 1 })
        (by simp [hx]) (by rw [hE']; rfl)
      rw [if_pos (by omega)]
      simpa [acked, writeBytes, hret] using h
    | succ n =>
      have h := writeBytes_leadsTo n (x.txLen + 1) { x with txLen := x.txLen + 1 } _ hx rfl
        (by simp only; omega) hlen (by omega) hret hE'
      rw [if_neg (by omega)]
      simpa using h

/-! ## The bytes of a read -/

/-- A byte with its acknowledge bit. -/
theorem readAcked_leadsTo (hx : x.mode = .masterRead)
    (hlen : x.rxLen + 1 < 2 ^ 16) (hE : phase E = .read x.rxLen 0) :
    LeadsTo st Busy (At tar (x.pos .data 0 1) (Low E))
        (At tar ((x.store (S.data x.rxLen)).pos
            (if x.rxLen + 1 < x.rxBuffLen then .data else .stop) 0 1)
          (Low (E ++ byteSignals (S.data x.rxLen) ++
            [.bit (!decide (x.rxLen + 1 < x.rxBuffLen))]))) ∧
      phase (E ++ byteSignals (S.data x.rxLen) ++ [.bit (!decide (x.rxLen + 1 < x.rxBuffLen))]) =
        if x.rxLen + 1 < x.rxBuffLen then .read (x.rxLen + 1) 0 else .idle := by
  obtain ⟨hbyte, hE'⟩ := readByte_leadsTo tar hrun hx hlen hE
  refine ⟨hbyte.trans (readAck_leadsTo tar hrun (x := x.store (S.data x.rxLen)) hx hE'), ?_⟩
  rw [phase_concat, hE']
  by_cases h : x.rxLen + 1 < x.rxBuffLen <;> simp [Phase.next, h]

/-- The buffer for reception with the `n` bytes of `d` from place `i` on. -/
def rxFilled (rx d : ℕ → BitVec 8) (i n : ℕ) (a : ℕ) : BitVec 8 :=
  if i ≤ a ∧ a < i + n then rx a ||| d a else rx a

omit hrun in
theorem rxFilled_zero (rx d : ℕ → BitVec 8) (i : ℕ) : rxFilled rx d i 0 = rx := by
  funext a
  exact if_neg (by omega)

omit hrun in
theorem rxFilled_succ (rx d : ℕ → BitVec 8) (i n : ℕ) :
    rxFilled (update rx i (rx i ||| d i)) d (i + 1) n = rxFilled rx d i (n + 1) := by
  funext a
  unfold rxFilled
  by_cases ha : a = i
  · subst ha
    rw [if_neg (by omega), if_pos (by omega), update_self]
  · rw [update_of_ne ha]
    congr 1
    rw [eq_iff_iff]
    omega

/-- The bytes from place `i` on, and the end of the transfer. At least one byte is read, even if
there is room for none. -/
theorem readBytes_leadsTo : ∀ (n i : ℕ) (x : VenusI2cXfer)
    (E : List Signal), x.mode = .masterRead → x.rxLen = i → x.rxBuffLen - (i + 1) = n →
    x.rxBuffLen < 2 ^ 16 → i + 1 < 2 ^ 16 → x.ret = 0 → x.flags = 0 → phase E = .read i 0 →
    LeadsTo st Busy (At tar (x.pos .data 0 1) (Low E))
      (G2cReturned tar 0 (rxFilled x.rxBuff S.data i (n + 1)) (E ++ S.readBytes (n + 1) i)) := by
  intro n i x E hx hi hn hlen hi' hret hflags hE
  subst hi
  obtain ⟨hto, hE'⟩ := readAcked_leadsTo tar hrun hx hi' hE
  refine hto.trans ?_
  rw [readBytes, ← rxFilled_succ]
  cases n with
  | zero =>
    have hlast : ¬x.rxLen + 1 < x.rxBuffLen := by omega
    have h := stop_leadsTo tar hrun (x := x.store (S.data x.rxLen))
      (by simp [store, hx]) (by rw [hE', if_neg hlast]; rfl)
    simpa [store, hlast, hret, hflags, lastSignals, rxFilled_zero, readBytes]
      using h
  | succ n =>
    have hmore : x.rxLen + 1 < x.rxBuffLen := by omega
    have h := readBytes_leadsTo n (x.rxLen + 1) (x.store (S.data x.rxLen)) _ hx rfl
      (by simp only [store]; omega) hlen (by omega) hret hflags
      (by rw [hE', if_pos hmore])
    simpa [store, hmore] using h

/-! ## START -/

omit hrun in
theorem watch_of_idle {b : Bus} (hmaster : b.master = .idle) (hslave : b.slave = .idle)
    (hmonitor : b.monitor.lines = .idle) : b.watch = b :=
  watch_self (by rw [hmonitor, Bus.lines, hmaster, hslave]; rfl)

omit hrun in
theorem parts_of_resting {b : Bus} (h : Resting E b) : b.master = .idle ∧ b.slave = .idle := by
  have hlines := h.1
  simp only [Bus.lines, Lines.wired, Lines.idle, Lines.mk.injEq, Bool.and_eq_true] at hlines
  obtain ⟨⟨hmc, hsc⟩, hmd, hsd⟩ := hlines
  exact ⟨Lines.ext hmc hmd, Lines.ext hsc hsd⟩

omit hrun in
/-- Sub state 0 of START takes the pins over without a change of the lines. -/
theorem free_of_resting {b : Bus} (h : Resting E b) :
    Free E (venusI2cGpioSelection .gpio <| venusGpioWrite .scl false <|
      venusGpioWrite .sda false <| venusGpioSetDir .scl false <| venusGpioSetDir .sda false b) := by
  obtain ⟨hmaster, hslave⟩ := parts_of_resting h
  obtain ⟨-, hmonitor, hseen⟩ := h
  obtain ⟨⟨sd, so⟩, ⟨cd, co⟩, mux, slave, ⟨lines, sample, seen⟩⟩ := b
  have hscl : mux = .gpio → (!cd || co) = true := by
    rintro rfl
    exact congrArg Lines.scl hmaster
  simp only at hslave hmonitor hseen
  subst hslave hmonitor hseen
  set m : Monitor := ⟨.idle, sample, seen⟩
  have h1 : venusGpioSetDir .sda false ⟨⟨sd, so⟩, ⟨cd, co⟩, mux, .idle, m⟩ =
      ⟨⟨false, so⟩, ⟨cd, co⟩, mux, .idle, m⟩ := by
    refine watch_of_idle ?_ rfl rfl
    cases mux with
    | i2c => rfl
    | gpio => exact Lines.ext (hscl rfl) rfl
  -- From here on the pin of the data line is an input, and after the next step both are.
  have h2 : venusGpioSetDir .scl false ⟨⟨false, so⟩, ⟨cd, co⟩, mux, .idle, m⟩ =
      ⟨⟨false, so⟩, ⟨false, co⟩, mux, .idle, m⟩ :=
    watch_of_idle (by cases mux <;> rfl) rfl rfl
  have h3 : venusGpioWrite .sda false ⟨⟨false, so⟩, ⟨false, co⟩, mux, .idle, m⟩ =
      ⟨⟨false, false⟩, ⟨false, co⟩, mux, .idle, m⟩ :=
    watch_of_idle (by cases mux <;> rfl) rfl rfl
  have h4 : venusGpioWrite .scl false ⟨⟨false, false⟩, ⟨false, co⟩, mux, .idle, m⟩ =
      ⟨⟨false, false⟩, ⟨false, false⟩, mux, .idle, m⟩ :=
    watch_of_idle (by cases mux <;> rfl) rfl rfl
  rw [h1, h2, h3, h4]
  exact ⟨sample, watch_of_idle rfl rfl rfl⟩

omit hrun in
theorem venusG2cDoStart_of_isr (sub : ℕ) (b : Bus) :
    venusG2cIsr false ⟨tar, x.pos .start 0 sub, b⟩ =
      venusG2cDoStart ⟨tar, x.pos .start 0 sub, b⟩ := by
  simp [venusG2cIsr, pos]

/-- The start condition. -/
theorem start_leadsTo (hx : x.mode ≠ .idel) :
    LeadsTo st Busy (At tar (x.pos .start 0 0) (Resting E))
      (At tar (x.pos .addr 0 1) (Low (E ++ [.start]))) := by
  have h0 : LeadsTo st Busy (At tar (x.pos .start 0 0) (Resting E))
      (At tar (x.pos .start 0 1) (Free E)) := by
    refine step_leadsTo hrun hx (kept_resting E) fun b hb _ => .inr ?_
    rw [venusG2cDoStart_of_isr]
    exact ⟨rfl, rfl, free_of_resting hb⟩
  have h1 : LeadsTo st Busy (At tar (x.pos .start 0 1) (Free E))
      (At tar (x.pos .start 0 2) (Free E)) := by
    refine step_leadsTo hrun hx (kept_free E) ?_
    rintro b ⟨m, rfl⟩ -
    rw [venusG2cDoStart_of_isr]
    exact .inr ⟨rfl, rfl, m, rfl⟩
  have h2 : LeadsTo st Busy (At tar (x.pos .start 0 2) (Free E))
      (At tar (x.pos .start 0 3) (Started (E ++ [.start]))) := by
    refine step_leadsTo hrun hx (kept_free E) ?_
    rintro b ⟨m, rfl⟩ -
    rw [venusG2cDoStart_of_isr]
    exact .inr ⟨rfl, rfl, setDir_sda_start m E⟩
  have h3 : LeadsTo st Busy (At tar (x.pos .start 0 3) (Started (E ++ [.start])))
      (At tar (x.pos .addr 0 0) (Low (E ++ [.start]))) := by
    refine step_leadsTo hrun hx (kept_started _) ?_
    rintro b rfl -
    rw [venusG2cDoStart_of_isr]
    have hfall := setDir_scl_fall true true none (E ++ [.start])
    rw [Option.toList_none, List.map_nil, List.append_nil] at hfall
    exact .inr ⟨rfl, rfl, true, .idle, hfall⟩
  have h4 : LeadsTo st Busy (At tar (x.pos .addr 0 0) (Low (E ++ [.start])))
      (At tar (x.pos .addr 0 1) (Low (E ++ [.start]))) := by
    refine hold_leadsTo hrun (x := x.pos .addr 0 0) hx fun b => ?_
    simp [venusG2cIsr, venusG2cDoAddress, setDirNext, pos, nextSub]
  exact h0.trans <| h1.trans <| h2.trans <| h3.trans h4

end Bytes

/-! ## Transfers -/

section Transfers

theorem g2cAddr_setWidth (addr : BitVec 7) (mode : XferMode) :
    g2cAddr (addr.setWidth 16) mode = addressByte addr (decide (mode = .masterRead)) := by
  revert addr
  cases mode <;> decide +kernel

theorem byteBit_addressByte : ∀ (addr : BitVec 7) (rd : Bool),
    byteBit (addressByte addr rd) 7 = rd := by
  decide +kernel

/-- The signals up to the acknowledge bit of the address. -/
def headSignals (S : Slave) (addr : BitVec 7) (rd : Bool) : List Signal :=
  .start :: byteSignals (addressByte addr rd) ++ [.bit (!S.ack 0)]

variable {E : List Signal} (addr : BitVec 7) (hrun : G2cRun S st act)

include hrun

/-- START and the address. -/
theorem head_leadsTo (E : List Signal)
    (hx : x.mode ≠ .idel) (rd : Bool) (hrd : decide (x.mode = .masterRead) = rd) :
    LeadsTo st Busy (At (addr.setWidth 16) (x.pos .start 0 0) (Resting E))
        (At (addr.setWidth 16)
          (if S.ack 0 then x.pos .data 0 0 else { x with ret := etxabort }.pos .stop 0 0).nextSub
          (Low (E ++ headSignals S addr rd))) ∧
      phase (E ++ headSignals S addr rd) =
        if S.ack 0 then if rd then .read 0 0 else .write 0 0 else .idle := by
  have hstart := start_leadsTo (addr.setWidth 16) (E := E) hrun hx
  obtain ⟨haddr, hE⟩ := address_leadsTo (addr.setWidth 16) (E := E ++ [.start]) hrun hx
    (by simp [Phase.next])
  rw [g2cAddr_setWidth, hrd] at haddr hE
  have hack := addressAck_leadsTo (addr.setWidth 16) hrun hx hE _ rfl
  rw [byteBit_addressByte] at hE
  have hsignals : E ++ headSignals S addr rd =
      E ++ [.start] ++ byteSignals (addressByte addr rd) ++ [.bit (!S.ack 0)] := by
    simp [headSignals]
  rw [hsignals]
  refine ⟨hstart.trans (haddr.trans hack), ?_⟩
  rw [phase_concat, hE]
  cases S.ack 0 <;> simp [Phase.next]

/-- A transfer to the slave. -/
theorem write_leadsTo (hx : x.mode = .masterWrite) (hlen : x.txLen = 0)
    (hn : x.txBuffLen < 2 ^ 16) (hret : x.ret = 0) :
    LeadsTo st Busy (At (addr.setWidth 16) (x.pos .start 0 0) (Resting E))
      (G2cReturned (addr.setWidth 16)
        (if S.ack 0 && S.acked (x.txBuffLen - 1 + 1) 0 then 0 else etxabort) x.rxBuff
        (E ++ S.writeTrace addr x.txBuff (x.txBuffLen - 1 + 1) (lastSignals x.flags))) := by
  have hmode : x.mode ≠ .idel := by simp [hx]
  obtain ⟨hhead, hE⟩ := head_leadsTo addr hrun E hmode false (by simp [hx])
  refine hhead.trans ?_
  cases hack : S.ack 0 with
  | false =>
    have h := abort_leadsTo (addr.setWidth 16) hrun (x := { x with ret := etxabort }) hmode rfl
      (by rw [hE, hack]; rfl)
    simpa [headSignals, writeTrace, hack] using h
  | true =>
    have h := writeBytes_leadsTo (addr.setWidth 16) hrun (x.txBuffLen - 1) 0 x _ hx hlen rfl hn
      (by omega) hret (by rw [hE, hack]; rfl)
    simpa [headSignals, writeTrace, hack] using h

/-- A transfer from the slave. -/
theorem read_leadsTo (hx : x.mode = .masterRead) (hlen : x.rxLen = 0)
    (hn : x.rxBuffLen < 2 ^ 16) (hret : x.ret = 0) (hflags : x.flags = 0) :
    LeadsTo st Busy (At (addr.setWidth 16) (x.pos .start 0 0) (Resting E))
      (G2cReturned (addr.setWidth 16) (if S.ack 0 then 0 else etxabort)
        (rxFilled x.rxBuff S.data 0 (if S.ack 0 then x.rxBuffLen - 1 + 1 else 0))
        (E ++ S.readTrace addr (x.rxBuffLen - 1 + 1))) := by
  have hmode : x.mode ≠ .idel := by simp [hx]
  obtain ⟨hhead, hE⟩ := head_leadsTo addr hrun E hmode true (by simp [hx])
  refine hhead.trans ?_
  cases hack : S.ack 0 with
  | false =>
    have h := abort_leadsTo (addr.setWidth 16) hrun (x := { x with ret := etxabort }) hmode rfl
      (by rw [hE, hack]; rfl)
    simpa [headSignals, readTrace, hack, rxFilled_zero] using h
  | true =>
    have h := readBytes_leadsTo (addr.setWidth 16) hrun (x.rxBuffLen - 1) 0 x _ hx hlen rfl hn
      (by omega) hret hflags (by rw [hE, hack]; rfl)
    simpa [headSignals, readTrace, hack] using h

end Transfers

/-! ## The master's transfers -/

section Master

variable {p : VenusI2c} {E : List Signal} {addr : BitVec 7} {n m : ℕ} {tx rx : ℕ → BitVec 8}
  {flags : BitVec 8}

/-- A write of `n` bytes, or of one byte if `n` is 0. -/
theorem exists_returned_write (hrun : G2cRun S st act) (htar : p.tar = addr.setWidth 16)
    (hbus : Resting E p.bus) (hn : n < 2 ^ 16)
    (h0 : st 0 = venusI2cLoadMessage p .masterWrite tx n rx 0 flags) :
    ∃ k, G2cReturned (addr.setWidth 16)
      (if S.ack 0 && S.acked (n - 1 + 1) 0 then 0 else etxabort) rx
      (E ++ S.writeTrace addr tx (n - 1 + 1) (lastSignals flags)) (st k) ∧
        ∀ j < k, Busy (st j) := by
  obtain ⟨k, -, hk, hbusy⟩ := write_leadsTo addr hrun (x := (st 0).xfer) (by rw [h0]; rfl)
    (by rw [h0]; rfl) (by rw [h0]; exact hn) (by rw [h0]; rfl) 0
    (by rw [h0]; exact ⟨htar, rfl, hbus⟩)
  rw [h0] at hk
  exact ⟨k, by simpa [venusI2cLoadMessage] using hk, fun j => hbusy j (zero_le j)⟩

/-- A read of `n` bytes, or of one byte if `n` is 0. -/
theorem exists_returned_read (hrun : G2cRun S st act) (htar : p.tar = addr.setWidth 16)
    (hbus : Resting E p.bus) (hn : n < 2 ^ 16)
    (h0 : st 0 = venusI2cLoadMessage p .masterRead tx m rx n 0) :
    ∃ k, G2cReturned (addr.setWidth 16) (if S.ack 0 then 0 else etxabort)
      (rxFilled (fun a => if a < n then 0 else rx a) S.data 0 (if S.ack 0 then n - 1 + 1 else 0))
      (E ++ S.readTrace addr (n - 1 + 1)) (st k) ∧ ∀ j < k, Busy (st j) := by
  obtain ⟨k, -, hk, hbusy⟩ := read_leadsTo addr hrun (x := (st 0).xfer) (by rw [h0]; rfl)
    (by rw [h0]; rfl) (by rw [h0]; exact hn) (by rw [h0]; rfl) (by rw [h0]; rfl) 0
    (by rw [h0]; exact ⟨htar, rfl, hbus⟩)
  rw [h0] at hk
  exact ⟨k, hk, fun j => hbusy j (zero_le j)⟩

end Master

/-! ## A slave that answers at once -/

/-- What the pins keep, the master keeps. -/
theorem venusG2cIsr_bus {P : Bus → Prop} (hdir : ∀ id d b, P b → P (venusGpioSetDir id d b))
    (hwrite : ∀ id v b, P b → P (venusGpioWrite id v b))
    (hselect : ∀ mode b, P b → P (venusI2cGpioSelection mode b)) (late : Bool) (p : VenusI2c)
    (h : P p.bus) : P (venusG2cIsr late p).bus := by
  have hlate : ∀ q : VenusI2c, P q.bus →
      P (if q.xfer.mode ≠ .idel ∧ late then
        { q with xfer := { q.xfer with ret := etimeout }.enter .done } else q).bus := by
    intro q hq
    split <;> exact hq
  unfold venusG2cIsr
  have hq := hlate p h
  generalize (if p.xfer.mode ≠ .idel ∧ late then
    ({ p with xfer := { p.xfer with ret := etimeout }.enter .done } : VenusI2c) else p) = q at hq
  simp only
  split
  · unfold venusG2cDoStart
    split <;> try split
    · dsimp only
      exact hselect _ _ (hwrite _ _ _ (hwrite _ _ _ (hdir _ _ _ (hdir _ _ _ hq))))
    all_goals first | exact hq | (simp only [setDirNext]; exact hdir _ _ _ hq)
  · unfold venusG2cDoAddress
    simp only
    repeat' split
    all_goals first | exact hq | (simp only [setDirNext]; exact hdir _ _ _ hq)
  · unfold venusG2cDoStop
    repeat' split
    all_goals first | exact hq | (simp only [setDirNext]; exact hdir _ _ _ hq)
  · unfold venusG2cDoComplete
    split
    · dsimp only
      exact hselect _ _ (hdir _ _ _ (hdir _ _ _ hq))
    · exact hq
  · split
    · unfold venusG2cDoWrite
      simp only
      repeat' split
      all_goals first | exact hq | (simp only [setDirNext]; exact hdir _ _ _ hq)
    · unfold venusG2cDoRead
      simp only
      repeat' split
      all_goals first | exact hq | (simp only [setDirNext]; exact hdir _ _ _ hq)

/-- The monitor has seen the lines, and the slave does not hold the clock. -/
def Bus.Watched (b : Bus) : Prop :=
  b.monitor.lines = b.lines ∧ b.slave.scl = true

theorem watched_watch {b : Bus} (h : b.slave.scl = true) : b.watch.Watched :=
  ⟨Monitor.lines_observe _ _, h⟩

theorem watched_act {p : VenusI2c} (h : p.bus.Watched) : ∀ {a : G2cAction}, (∀ v, a ≠ .scl v) →
    (p.act a).bus.Watched
  | .isr late, _ => by
    rw [act]
    split
    · exact h
    · refine venusG2cIsr_bus (fun id d b hb => ?_) (fun id v b hb => ?_) (fun mode b hb => ?_)
        late p h
      · cases id <;> exact watched_watch hb.2
      · cases id <;> exact watched_watch hb.2
      · exact watched_watch hb.2
  | .sda _, _ => watched_watch h.2
  | .scl v, ha => absurd rfl (ha v)

/-- The slave has its answer on the data line. -/
def Prepared (S : Slave) (p : VenusI2c) : Prop :=
  p.bus.lines.scl = false → p.bus.slave.sda = S.level (phase p.bus.monitor.seen)

/-- The slave puts its answer on the data line whenever it may, and then the master steps. -/
def promptAct (S : Slave) (p : VenusI2c) (k : ℕ) : G2cAction :=
  if k % 2 = 0 then
    .sda (if p.bus.lines.scl then p.bus.slave.sda else S.level (phase p.bus.monitor.seen))
  else .isr false

def promptRun (S : Slave) (p : VenusI2c) : ℕ → VenusI2c
  | 0 => p
  | k + 1 => (promptRun S p k).act (promptAct S (promptRun S p k) k)

theorem scl_slaveSda (b : Bus) (v : Bool) : (b.slaveSda v).lines.scl = b.lines.scl := by
  simp [Bus.slaveSda, Bus.watch, Bus.lines, Bus.master, Lines.wired]

theorem watched_promptRun {p : VenusI2c} (h : p.bus.Watched) :
    ∀ k, (promptRun S p k).bus.Watched
  | 0 => h
  | k + 1 => watched_act (watched_promptRun h k) fun v => by unfold promptAct; split <;> simp

theorem prepared_promptRun {p : VenusI2c} (h : p.bus.Watched) {k : ℕ} (hk : k % 2 = 1) :
    Prepared S (promptRun S p k) := by
  obtain ⟨k, rfl⟩ : ∃ j, k = j + 1 := ⟨k - 1, by omega⟩
  have hw := watched_promptRun (S := S) h k
  have hact : promptAct S (promptRun S p k) k = .sda (if (promptRun S p k).bus.lines.scl then
      (promptRun S p k).bus.slave.sda else
        S.level (phase (promptRun S p k).bus.monitor.seen)) := if_pos (by omega)
  rw [promptRun, hact]
  generalize promptRun S p k = q at hw
  intro hscl
  rw [act] at hscl ⊢
  rw [scl_slaveSda] at hscl
  have hseen : (q.bus.slaveSda (S.level (phase q.bus.monitor.seen))).monitor.seen =
      q.bus.monitor.seen :=
    Monitor.seen_observe_of_low (by rw [hw.1]; exact hscl) ((scl_slaveSda _ _).trans hscl)
  simp only [hscl, Bool.false_eq_true, if_false, hseen]
  rfl

/-- The prompt run is a run. -/
theorem prompt_run {p : VenusI2c} (h : p.bus.Watched) :
    G2cRun S (promptRun S p) (fun k => promptAct S (promptRun S p k) k) := by
  refine ⟨fun k => rfl, fun k => ?_, fun k => ?_⟩
  · have hprep := prepared_promptRun (S := S) h (k := k)
    generalize promptRun S p k = q at hprep
    unfold promptAct
    split
    · refine ⟨by simp, ?_, by simp, by simp, fun hscl hrise => ?_⟩
      · rintro v hv
        cases hscl : q.bus.lines.scl <;> simp_all
      · rw [act, scl_slaveSda, hscl] at hrise
        cases hrise
    · rename_i hk
      have hprep := hprep (by omega)
      refine ⟨by simp, by simp, by simp, fun _ hscl hturn => ?_, fun hscl _ => hprep hscl⟩
      rw [hprep hscl, S.level_of_not_turn hturn]
  · refine ⟨2 * k + 1, by omega, if_neg (by omega), (watched_promptRun h _).2⟩

/-! ## Correctness -/

/-- A master that is loaded with a message of `n` bytes and finds the bus at rest, with a slave `S`
at its address, whatever the slave answers and whenever it holds the clock low : the call returns,
and the bus has shown the signals of the transfer and no other one. -/
theorem g2c_transfers (S : Slave) (addr : BitVec 7) {n : ℕ} (hn : 1 ≤ n) (hlen : n < 2 ^ 16)
    {p : VenusI2c} {E : List Signal} (htar : p.tar = addr.setWidth 16) (hbus : Resting E p.bus)
    {st : ℕ → VenusI2c} {act : ℕ → G2cAction} (hrun : G2cRun S st act) :
    (∀ tx rx flags, st 0 = venusI2cLoadMessage p .masterWrite tx n rx 0 flags →
      ∃ k, (∀ j < k, Busy (st j)) ∧ (st k).xfer.mode = .idel ∧
        (st k).xfer.ret = (if ∀ i ≤ n, S.ack i = true then 0 else etxabort) ∧
        (st k).bus.monitor.seen = E ++ S.writeTrace addr tx n (lastSignals flags)) ∧
    (∀ tx rx, st 0 = venusI2cLoadMessage p .masterRead tx 0 rx n 0 →
      ∃ k, (∀ j < k, Busy (st j)) ∧ (st k).xfer.mode = .idel ∧
        (st k).xfer.ret = (if S.ack 0 = true then 0 else etxabort) ∧
        (st k).bus.monitor.seen = E ++ S.readTrace addr n ∧
        (S.ack 0 = true → ∀ a, (st k).xfer.rxBuff a = if a < n then S.data a else rx a)) := by
  have hsub : n - 1 + 1 = n := by omega
  refine ⟨fun tx rx flags h0 => ?_, fun tx rx h0 => ?_⟩
  · obtain ⟨k, hk, hbusy⟩ := exists_returned_write hrun htar hbus hlen h0
    rw [hsub] at hk
    refine ⟨k, hbusy, hk.mode, ?_, hk.bus.2.2⟩
    rw [hk.ret]
    congr 1
    rw [Bool.and_eq_true, S.acked_iff, eq_iff_iff]
    constructor
    · rintro ⟨hfirst, hrest⟩ i hi
      cases i with
      | zero => exact hfirst
      | succ i => simpa using hrest i (by omega)
    · intro h
      exact ⟨h 0 (zero_le n), fun j hj => by simpa using h (j + 1) (by omega)⟩
  · obtain ⟨k, hk, hbusy⟩ := exists_returned_read hrun htar hbus hlen h0
    rw [hsub] at hk
    refine ⟨k, hbusy, hk.mode, hk.ret, hk.bus.2.2, fun hack a => ?_⟩
    rw [hk.rxBuff, hack]
    by_cases ha : a < n <;> simp [rxFilled, ha]

/-- Two bytes to the slave at address 0x50, which acknowledges the first one only. -/
theorem g2c_transfers_two_bytes :
    let S : Slave := ⟨fun i => i ≤ 1, fun _ => 0⟩
    let tx := fun i => BitVec.ofNat 8 (0xA5 + i)
    let p := venusI2cLoadMessage (createVenusI2cHandle 0x50) .masterWrite tx 2 (fun _ => 0) 0
      i2cNoStop
    G2cRun S (promptRun S p) (fun k => promptAct S (promptRun S p k) k) ∧
      ∃ k, (promptRun S p k).xfer.mode = .idel ∧ (promptRun S p k).xfer.ret = etxabort ∧
        (promptRun S p k).bus.monitor.seen = S.writeTrace 0x50 tx 2 [] := by
  intro S tx p
  have hrun : G2cRun S (promptRun S p) (fun k => promptAct S (promptRun S p k) k) :=
    prompt_run ⟨rfl, rfl⟩
  obtain ⟨k, -, hmode, hret, hseen⟩ := (g2c_transfers S 0x50 (n := 2) (by decide) (by decide)
    (p := createVenusI2cHandle 0x50) (E := []) rfl ⟨rfl, rfl, rfl⟩ hrun).1 tx (fun _ => 0)
    i2cNoStop rfl
  refine ⟨hrun, k, hmode, ?_, hseen⟩
  rw [hret, if_neg fun hacks => absurd (hacks 2 (by decide)) (by decide)]

end OpenHMR
