import Mathlib.Data.Nat.Notation
import Mathlib.Tactic.Common

/-!
# A two-wire bus

A clock line and a data line that each party either releases or pulls low. Data is valid while the
clock is high and changes while it is low ; a change of the data line while the clock is high is a
START or a STOP condition. `Monitor` reads the levels of the lines as such signals : a bit is one
full pulse of the clock during which the data line stood still.

A slave follows the signals (`Phase`) : after a START come the seven bits of the address and the
direction, then, for a transfer to the slave, bytes that it acknowledges, or, for a transfer from
it, bytes that the master acknowledges. `Slave` says what it answers, and `Slave.level` what it puts
on the data line for the next bit. `writeTrace` and `readTrace` are the signals of a transfer.
-/

namespace TwoWire

/-! ## Lines and signals -/

/-- Levels of the two lines, where `true` is high. For a party, `true` is a line that it
releases. -/
@[ext]
structure Lines where
  scl : Bool
  sda : Bool
  deriving DecidableEq

/-- Nobody pulls a line low. -/
def Lines.idle : Lines :=
  ⟨true, true⟩

/-- A line is high if both parties release it. -/
def Lines.wired (a b : Lines) : Lines :=
  ⟨a.scl && b.scl, a.sda && b.sda⟩

/-- What is seen on the bus. A `glitch` is a change of both lines at once. -/
inductive Signal where
  | start | stop | bit (b : Bool) | glitch
  deriving DecidableEq

/-- What an observer of the lines has seen. -/
structure Monitor where
  lines : Lines
  /-- The level of the data line when the clock rose, as long as it stays so. -/
  sample : Option Bool
  seen : List Signal
  deriving DecidableEq

/-- The lines are now `l`. -/
def Monitor.observe (m : Monitor) (l : Lines) : Monitor :=
  match m.lines.scl, l.scl with
  | true, true =>
    if m.lines.sda = l.sda then m
    else ⟨l, none, m.seen ++ [if l.sda then .stop else .start]⟩
  | true, false =>
    if m.lines.sda = l.sda then ⟨l, none, m.seen ++ m.sample.toList.map .bit⟩
    else ⟨l, none, m.seen ++ [.glitch]⟩
  | false, true =>
    if m.lines.sda = l.sda then ⟨l, some l.sda, m.seen⟩
    else ⟨l, none, m.seen ++ [.glitch]⟩
  | false, false => { m with lines := l }

/-- Lines that have not changed give no signal. -/
@[simp] theorem Monitor.observe_self (m : Monitor) : m.observe m.lines = m := by
  unfold observe
  cases h : m.lines.scl <;> simp

@[simp] theorem Monitor.lines_observe (m : Monitor) (l : Lines) : (m.observe l).lines = l := by
  unfold observe
  split <;> try split
  all_goals first | rfl | exact Lines.ext (by simp_all) ‹_›

/-- Nothing is signalled while the clock stays low. -/
theorem Monitor.seen_observe_of_low {m : Monitor} {l : Lines} (h : m.lines.scl = false)
    (hl : l.scl = false) : (m.observe l).seen = m.seen := by
  simp [observe, h, hl]

/-! ## The slave -/

/-- Where a slave is in a transfer : byte `i`, bit `j`. -/
inductive Phase where
  | idle
  | address (k : ℕ)
  | addressAck (rd : Bool)
  | write (i j : ℕ)
  | writeAck (i : ℕ)
  | read (i j : ℕ)
  | readAck (i : ℕ)
  deriving DecidableEq

/-- The phase after a signal. -/
def Phase.next : Phase → Signal → Phase
  | _, .start => .address 0
  | .address k, .bit b => if k < 7 then .address (k + 1) else .addressAck b
  | .addressAck rd, .bit b => if b then .idle else if rd then .read 0 0 else .write 0 0
  | .write i j, .bit _ => if j < 7 then .write i (j + 1) else .writeAck i
  | .writeAck i, .bit b => if b then .idle else .write (i + 1) 0
  | .read i j, .bit _ => if j < 7 then .read i (j + 1) else .readAck i
  | .readAck i, .bit b => if b then .idle else .read (i + 1) 0
  | _, _ => .idle

/-- The phase after the signals `l`. -/
def phase (l : List Signal) : Phase :=
  l.foldl Phase.next .idle

@[simp] theorem phase_concat (l : List Signal) (s : Signal) :
    phase (l ++ [s]) = (phase l).next s := by
  simp [phase]

/-- The answers of a slave in one transfer. -/
structure Slave where
  /-- Whether it acknowledges the address (`0`), and byte `i` (`i + 1`). -/
  ack : ℕ → Bool
  /-- The bytes it sends. -/
  data : ℕ → BitVec 8

/-- The next bit is one in which the slave may pull the data line low. -/
def Phase.turn : Phase → Bool
  | .addressAck _ | .writeAck _ | .read _ _ | .readAck _ => true
  | _ => false

/-- Bit `j` of a byte, most significant bit first. -/
def byteBit (b : BitVec 8) (j : ℕ) : Bool :=
  b.getLsbD (7 - j)

/-- The signals of a byte. -/
def byteSignals (b : BitVec 8) : List Signal :=
  (List.range 8).map fun j => .bit (byteBit b j)

/-- The first byte of a transfer : the address and the direction. -/
def addressByte (addr : BitVec 7) (rd : Bool) : BitVec 8 :=
  addr ++ BitVec.ofBool rd

namespace Slave

variable (S : Slave)

/-- What the slave puts on the data line for the next bit. The bit after a byte that it has sent is
the master's. -/
def level : Phase → Bool
  | .addressAck _ => !S.ack 0
  | .writeAck i => !S.ack (i + 1)
  | .read i j => byteBit (S.data i) j
  | _ => true

theorem level_of_not_turn {ph : Phase} (h : ph.turn = false) : S.level ph = true := by
  cases ph <;> first | rfl | cases h

/-! ## Transfers -/

/-- The bytes of `tx` from place `i` on, `n` of them as long as the slave acknowledges. A transfer
that has not been acknowledged ends with STOP, the others with `last`. -/
def writeBytes (tx : ℕ → BitVec 8) (last : List Signal) : ℕ → ℕ → List Signal
  | 0, _ => last
  | n + 1, i => byteSignals (tx i) ++ .bit (!S.ack (i + 1)) ::
      if S.ack (i + 1) then writeBytes tx last n (i + 1) else [.stop]

/-- The bytes of the slave from place `i` on, `n` of them, each with an acknowledge bit of the
master that is low except for the last one. -/
def readBytes : ℕ → ℕ → List Signal
  | 0, _ => [.stop]
  | n + 1, i => byteSignals (S.data i) ++ .bit (n == 0) :: readBytes n (i + 1)

/-- A transfer of the first `n` bytes of `tx` to the slave. -/
def writeTrace (addr : BitVec 7) (tx : ℕ → BitVec 8) (n : ℕ) (last : List Signal) : List Signal :=
  .start :: byteSignals (addressByte addr false) ++ .bit (!S.ack 0) ::
    if S.ack 0 then S.writeBytes tx last n 0 else [.stop]

/-- A transfer of `n` bytes from the slave. -/
def readTrace (addr : BitVec 7) (n : ℕ) : List Signal :=
  .start :: byteSignals (addressByte addr true) ++ .bit (!S.ack 0) ::
    if S.ack 0 then S.readBytes n 0 else [.stop]

/-- The slave acknowledges the `n` bytes from place `i` on. -/
def acked : ℕ → ℕ → Bool
  | 0, _ => true
  | n + 1, i => S.ack (i + 1) && acked n (i + 1)

theorem acked_iff : ∀ (n i : ℕ), S.acked n i = true ↔ ∀ j < n, S.ack (i + j + 1) = true
  | 0, i => by simp [acked]
  | n + 1, i => by
    rw [acked, Bool.and_eq_true, acked_iff n (i + 1), Nat.forall_lt_succ_left']
    simp [Nat.add_comm, Nat.add_left_comm]

end Slave

/-! ## Messages -/

/-- The `n` bytes of `f` from place `i` on, with a slave that acknowledges everything. -/
def dataSignals (rd : Bool) (f : ℕ → BitVec 8) : ℕ → ℕ → List Signal
  | 0, _ => []
  | n + 1, i => byteSignals (f i) ++ .bit (rd && n == 0) :: dataSignals rd f n (i + 1)

/-- START and the address, acknowledged. -/
def addressSignals (addr : BitVec 7) (rd : Bool) : List Signal :=
  .start :: byteSignals (addressByte addr rd) ++ [.bit false]

/-- A message of `n` bytes, up to the STOP or the next START. -/
def messageSignals (addr : BitVec 7) (rd : Bool) (f : ℕ → BitVec 8) (n : ℕ) : List Signal :=
  addressSignals addr rd ++ dataSignals rd f n 0

/-- A slave that acknowledges everything. -/
def ackingSlave (data : ℕ → BitVec 8) : Slave :=
  ⟨fun _ => true, data⟩

theorem writeBytes_ackingSlave (d tx : ℕ → BitVec 8) (last : List Signal) : ∀ n i,
    (ackingSlave d).writeBytes tx last n i = dataSignals false tx n i ++ last
  | 0, _ => rfl
  | n + 1, i => by
    simp [Slave.writeBytes, dataSignals, ackingSlave, ← writeBytes_ackingSlave d tx last n (i + 1)]

theorem readBytes_ackingSlave (d : ℕ → BitVec 8) : ∀ n i,
    (ackingSlave d).readBytes n i = dataSignals true d n i ++ [.stop]
  | 0, _ => rfl
  | n + 1, i => by
    rw [Slave.readBytes, readBytes_ackingSlave d n (i + 1)]
    simp [dataSignals, ackingSlave]

theorem writeTrace_ackingSlave (d : ℕ → BitVec 8) (addr : BitVec 7) (tx : ℕ → BitVec 8) (n : ℕ)
    (last : List Signal) :
    (ackingSlave d).writeTrace addr tx n last = messageSignals addr false tx n ++ last := by
  rw [Slave.writeTrace, writeBytes_ackingSlave]
  simp [messageSignals, addressSignals, ackingSlave]

theorem readTrace_ackingSlave (d : ℕ → BitVec 8) (addr : BitVec 7) (n : ℕ) :
    (ackingSlave d).readTrace addr n = messageSignals addr true d n ++ [.stop] := by
  rw [Slave.readTrace, readBytes_ackingSlave]
  simp [messageSignals, addressSignals, ackingSlave]

theorem acked_ackingSlave (d : ℕ → BitVec 8) (n i : ℕ) : (ackingSlave d).acked n i = true :=
  ((ackingSlave d).acked_iff n i).2 fun _ _ => rfl

end TwoWire
