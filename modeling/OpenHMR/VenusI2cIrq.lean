import Mathlib.Data.List.Basic
import OpenHMR.Runs
import OpenHMR.VenusG2c

/-!
# The interrupt-mode I2C master (`drivers/i2c/busses/i2c-venus-priv.c`)

The I2C controller takes commands, a byte to send or an order to read one, from a FIFO, and its
interrupt handlers (`venus_i2c_msater_write`, `venus_i2c_msater_read`,
`venus_i2c_msater_random_read`) fill the FIFO, take what has been read, and complete the transfer.
The count `tx_len` of commands has 16 bits, also in a random read, where it counts the bytes to send
and those to read.

The controller is as one would want it : slaves acknowledge everything, and it sends STOP when it
has run all commands of the transfer and not earlier. `IcSys` is a transfer in which the controller
runs commands and interrupts come in any order.
-/

namespace OpenHMR

open TwoWire Runs List Function Nat VenusI2cXfer

/-! ## Handlers -/

/-- A command in the FIFO : a byte to send, or `READ_CMD`. -/
inductive IcCmd where
  | data (b : BitVec 8)
  | read
  deriving DecidableEq

/-- The events of an interrupt that a handler looks at. -/
structure IcEvent where
  txAbrt : Bool
  stopDet : Bool

/-- `-ECMDSPLIT`. -/
def ecmdsplit : ℤ := -40

/-- The TX thread of a handler : commands are put into the FIFO as long as it has room, up to
`total` of them. The result is the new `tx_len` and the commands. -/
def txThread (total : ℕ) (cmd : ℕ → IcCmd) : ℕ → ℕ → ℕ × List IcCmd
  | 0, txLen => (txLen, [])
  | room + 1, txLen =>
    if total ≤ txLen then (txLen, [])
    else
      let r := txThread total cmd room ((txLen + 1) % 2 ^ 16)
      (r.1, cmd txLen :: r.2)

/-- The RX thread of a handler, with the bytes that it finds in the FIFO. -/
def rxThread (x : VenusI2cXfer) : List (BitVec 8) → VenusI2cXfer
  | [] => x
  | b :: bs =>
    if x.rxBuffLen ≤ x.rxLen then x
    else rxThread
      { x with
        rxBuff := update x.rxBuff x.rxLen b, rxLen := (x.rxLen + 1) % 2 ^ 16 } bs

/-- The end of each handler : a transfer with a result is completed. -/
def VenusI2cXfer.complete (x : VenusI2cXfer) : VenusI2cXfer :=
  if x.ret ≠ 0 then { x with mode := .idel } else x

/-- The result of a write. -/
def VenusI2cXfer.txResult (x : VenusI2cXfer) (event : IcEvent) : VenusI2cXfer :=
  if event.txAbrt then { x with ret := etxabort }.complete
  else if event.stopDet then
    { x with ret := if x.txBuffLen ≤ x.txLen then (x.txLen : ℤ) else ecmdsplit }.complete
  else x.complete

/-- `venus_i2c_msater_write`. -/
def venusI2cMsaterWrite (x : VenusI2cXfer) (room : ℕ) (event : IcEvent) :
    VenusI2cXfer × List IcCmd :=
  let t := txThread x.txBuffLen (fun i => .data (x.txBuff i)) room x.txLen
  ({ x with txLen := t.1 }.txResult event, t.2)

/-- The result of a read. It does not wait for STOP. -/
def VenusI2cXfer.rxResult (x : VenusI2cXfer) (event : IcEvent) : VenusI2cXfer :=
  if event.txAbrt then { x with ret := etxabort }.complete
  else if event.stopDet || decide (x.rxBuffLen ≤ x.rxLen) then
    { x with ret := if x.rxBuffLen ≤ x.rxLen then (x.rxLen : ℤ) else ecmdsplit }.complete
  else x.complete

/-- The two handlers of reads differ in the commands that they put into the FIFO. -/
def msaterReceive (total : ℕ) (cmd : ℕ → IcCmd) (x : VenusI2cXfer) (room : ℕ)
    (rx : List (BitVec 8)) (event : IcEvent) : VenusI2cXfer × List IcCmd :=
  let t := txThread total cmd room x.txLen
  ((rxThread { x with txLen := t.1 } rx).rxResult event, t.2)

/-- `venus_i2c_msater_read`. -/
def venusI2cMsaterRead (x : VenusI2cXfer) : ℕ → List (BitVec 8) → IcEvent →
    VenusI2cXfer × List IcCmd :=
  msaterReceive x.rxBuffLen (fun _ => .read) x

/-- `venus_i2c_msater_random_read`. -/
def venusI2cMsaterRandomRead (x : VenusI2cXfer) : ℕ → List (BitVec 8) → IcEvent →
    VenusI2cXfer × List IcCmd :=
  msaterReceive (x.rxBuffLen + x.txBuffLen)
    (fun i => if i < x.txBuffLen then .data (x.txBuff i) else .read) x

/-- `venus_i2c_isr`. -/
def venusI2cIsr (x : VenusI2cXfer) (room : ℕ) (rx : List (BitVec 8)) (event : IcEvent) :
    VenusI2cXfer × List IcCmd :=
  match x.mode with
  | .masterWrite => venusI2cMsaterWrite x room event
  | .masterRead => venusI2cMsaterRead x room rx event
  | .masterRandomRead => venusI2cMsaterRandomRead x room rx event
  | .idel => (x, [])

/-! ## The controller -/

/-- START and the address, if the direction changes. -/
def icAddress (addr : BitVec 7) (dir : Option Bool) (rd : Bool) : List Signal :=
  if dir == some rd then [] else addressSignals addr rd

/-- The signals of commands, where `dir` is the direction so far and `d` the bytes that are read,
from place `j` on. The last byte of a read is not acknowledged. -/
def icSignals (addr : BitVec 7) (d : ℕ → BitVec 8) : Option Bool → ℕ → List IcCmd → List Signal
  | _, _, [] => []
  | dir, j, .data b :: cs =>
    icAddress addr dir false ++ byteSignals b ++
      .bit false :: icSignals addr d (some false) j cs
  | dir, j, .read :: cs =>
    icAddress addr dir true ++ byteSignals (d j) ++
      .bit (cs.head? != some .read) :: icSignals addr d (some true) (j + 1) cs

/-- The number of commands of a transfer. -/
def VenusI2cXfer.total (x : VenusI2cXfer) : ℕ :=
  x.txBuffLen + x.rxBuffLen

/-- A transfer of the controller. -/
structure IcSys where
  dev : VenusI2c
  /-- The commands that have been put into the FIFO. -/
  pushed : List IcCmd
  /-- How many of them the controller has run. -/
  done : ℕ

/-- The controller runs a command, or an interrupt comes. -/
inductive IcAction where
  | exec | irq
  deriving DecidableEq

namespace IcSys

variable (depth : ℕ) (d : ℕ → BitVec 8)

/-- The bytes in the FIFO for reception. -/
def waiting (s : IcSys) : List (BitVec 8) :=
  ((range ((s.pushed.take s.done).count .read)).drop s.dev.xfer.rxLen).map d

/-- All commands have been run, and STOP has been seen. -/
def stopDet (s : IcSys) : Bool :=
  s.done = s.pushed.length && s.dev.xfer.total ≤ s.dev.xfer.txLen

/-- One action. The controller is disabled when the transfer is completed. -/
def act (s : IcSys) : IcAction → IcSys
  | .exec =>
    if s.dev.xfer.mode ≠ .idel ∧ s.done < s.pushed.length then { s with done := s.done + 1 } else s
  | .irq =>
    let r := venusI2cIsr s.dev.xfer (depth - (s.pushed.length - s.done)) (s.waiting d)
      ⟨false, s.stopDet⟩
    { s with dev := { s.dev with xfer := r.1 }, pushed := s.pushed ++ r.2 }

end IcSys

/-- A run of a transfer, with a FIFO of `depth` places and a slave that sends `d`. -/
structure IcRun (depth : ℕ) (d : ℕ → BitVec 8) (st : ℕ → IcSys) (act : ℕ → IcAction) : Prop where
  next : ∀ k, st (k + 1) = (st k).act depth d (act k)
  fair : ∀ a k, ∃ l ≥ k, act l = a

/-! ## Threads -/

variable {total n : ℕ}

theorem txThread_congr {cmd cmd' : ℕ → IcCmd} (h : ∀ i < total, cmd i = cmd' i) :
    ∀ room t, txThread total cmd room t = txThread total cmd' room t
  | 0, t => rfl
  | room + 1, t => by
    rw [txThread, txThread]
    split
    · rfl
    · rename_i ht
      rw [txThread_congr h room, h t (by omega)]

/-- The commands of a transfer come in order, without an end as long as `tx_len` has enough bits. -/
theorem txThread_spec (cmd : ℕ → IcCmd) (htotal : total < 2 ^ 16) :
    ∀ room t, t ≤ total → t ≤ (txThread total cmd room t).1 ∧
      (txThread total cmd room t).1 ≤ total ∧
      (0 < room → t < total → t < (txThread total cmd room t).1) ∧
      (range t).map cmd ++ (txThread total cmd room t).2 =
        (range (txThread total cmd room t).1).map cmd
  | 0, t, ht => by simp [txThread, ht]
  | room + 1, t, ht => by
    rw [txThread]
    split
    · rename_i h
      simp [ht]
      omega
    · rename_i h
      rw [mod_eq_of_lt (by omega)]
      obtain ⟨h1, h2, -, h4⟩ := txThread_spec cmd htotal room (t + 1) (by omega)
      refine ⟨by simp only; omega, h2, fun _ _ => by simp only; omega, ?_⟩
      rw [← h4, range_succ]
      simp

/-- The buffer for reception with its first `n` bytes from `d`. -/
def rxTaken (rx d : ℕ → BitVec 8) (n : ℕ) (a : ℕ) : BitVec 8 :=
  if a < n then d a else rx a

theorem rxTaken_succ (rx d : ℕ → BitVec 8) (n : ℕ) :
    update (rxTaken rx d n) n (d n) = rxTaken rx d (n + 1) := by
  funext a
  by_cases ha : a = n
  · subst ha
    simp [rxTaken]
  · rw [update_of_ne ha]
    unfold rxTaken
    congr 1
    rw [eq_iff_iff]
    omega

/-- The RX thread takes all bytes that wait. -/
theorem rxThread_spec {d rx : ℕ → BitVec 8} (x : VenusI2cXfer) (hlen : x.rxBuffLen < 2 ^ 16)
    (hn : n ≤ x.rxBuffLen) : ∀ r ≤ n,
    rxThread { x with rxLen := r, rxBuff := rxTaken rx d r }
        (((range n).drop r).map d) =
      { x with rxLen := n, rxBuff := rxTaken rx d n } := by
  intro r hr
  induction hk : n - r generalizing r with
  | zero =>
    obtain rfl : r = n := by omega
    rw [drop_eq_nil_of_le (by simp)]
    rfl
  | succ k ih =>
    rw [drop_eq_getElem_cons (by simp; omega), map_cons, rxThread, if_neg (by simp; omega)]
    simp only [getElem_range, rxTaken_succ]
    rw [mod_eq_of_lt (by omega)]
    exact ih (r + 1) (by omega) (by omega)

/-! ## Transfers -/

/-- Command `i` of a transfer. -/
def VenusI2cXfer.cmd (x : VenusI2cXfer) (i : ℕ) : IcCmd :=
  if i < x.txBuffLen then .data (x.txBuff i) else .read

theorem count_read_cmd (x : VenusI2cXfer) :
    ∀ n, ((range n).map x.cmd).count .read = n - x.txBuffLen
  | 0 => by simp
  | n + 1 => by
    rw [range_succ, map_append, count_append, count_read_cmd x n]
    by_cases h : n < x.txBuffLen
    · simp [cmd, h]
      omega
    · simp [cmd, h]
      omega

/-- A message as `venus_i2c_write` and `venus_i2c_read` load it, with the number of bytes that the
transfer returns. -/
structure VenusI2cXfer.Loaded (x : VenusI2cXfer) : Prop where
  mode : x.mode = .masterWrite ∧ x.rxBuffLen = 0 ∨ x.mode = .masterRead ∧ x.txBuffLen = 0 ∨
    x.mode = .masterRandomRead
  txLen : x.txLen = 0
  rxLen : x.rxLen = 0
  ret : x.ret = 0

/-- What a transfer returns if it goes well. -/
def VenusI2cXfer.count (x : VenusI2cXfer) : ℕ :=
  if x.mode = .masterWrite then x.txBuffLen else x.rxBuffLen

/-- `x` after `t` commands and `r` bytes read. -/
def VenusI2cXfer.moved (x : VenusI2cXfer) (d : ℕ → BitVec 8) (t r : ℕ) : VenusI2cXfer :=
  { x with txLen := t, rxLen := r, rxBuff := rxTaken x.rxBuff d r }

theorem moved_zero {x : VenusI2cXfer} {d : ℕ → BitVec 8} (ht : x.txLen = 0) (hr : x.rxLen = 0) :
    x.moved d 0 0 = x := by
  have hrx : rxTaken x.rxBuff d 0 = x.rxBuff := funext fun a => if_neg (by omega)
  rw [moved, hrx]
  cases x
  simp_all

/-! ## Counts -/

namespace VenusI2cXfer

/-- The first `t` commands that the handlers write, with the count of 16 bits. -/
def cmds (x : VenusI2cXfer) (t : ℕ) : List IcCmd :=
  (range t).map fun i => x.cmd (i % 2 ^ 16)

/-- The number of commands after a handler that finds `room` in the FIFO. -/
def next (x : VenusI2cXfer) (room t : ℕ) : ℕ :=
  if x.total < 2 ^ 16 then min x.total (t + room) else t + room

/-- `t` commands have been written. -/
def Counted (x : VenusI2cXfer) (t : ℕ) : Prop :=
  x.total < 2 ^ 16 → t ≤ x.total

end VenusI2cXfer

theorem length_cmds (x : VenusI2cXfer) (t : ℕ) : (x.cmds t).length = t := by
  rw [cmds, length_map, length_range]

/-- The commands before the count wraps. -/
theorem cmds_of_le (x : VenusI2cXfer) {t : ℕ} (ht : t ≤ 2 ^ 16) :
    x.cmds t = (range t).map x.cmd :=
  map_congr_left fun i hi => by
    have := mem_range.1 hi
    rw [mod_eq_of_lt (by omega)]

theorem count_read_cmds (x : VenusI2cXfer) {t : ℕ} (ht : t ≤ 2 ^ 16) :
    (x.cmds t).count .read = t - x.txBuffLen := by
  rw [cmds_of_le x ht, count_read_cmd]

/-- The first commands. -/
theorem take_cmds (x : VenusI2cXfer) {t : ℕ} (h : n ≤ t) : (x.cmds t).take n = x.cmds n := by
  rw [cmds, ← map_take, take_range, Nat.min_eq_left h]
  rfl

theorem txThread_min (cmd : ℕ → IcCmd) (htotal : total < 2 ^ 16) : ∀ room t, t ≤ total →
    (txThread total cmd room t).1 = min total (t + room)
  | 0, t, ht => (Nat.min_eq_right ht).symm
  | room + 1, t, ht => by
    rw [txThread]
    split_ifs with hfull
    · rw [Nat.le_antisymm ht hfull, Nat.min_eq_left (Nat.le_add_right _ _)]
    · rw [mod_eq_of_lt (by omega)]
      rw [txThread_min cmd htotal room (t + 1) (by omega), Nat.add_right_comm, Nat.add_assoc]

/-- The count does not come to its end : the commands start again. -/
theorem txThread_wrap (htotal : 2 ^ 16 ≤ total) (cmd : ℕ → IcCmd) : ∀ room t,
    t < 2 ^ 16 → txThread total cmd room t =
      ((t + room) % 2 ^ 16, (range room).map fun i => cmd ((t + i) % 2 ^ 16))
  | 0, t, ht => by rw [txThread, add_zero, mod_eq_of_lt ht, range_zero, map_nil]
  | room + 1, t, ht => by
    rw [txThread, if_neg (by omega),
      txThread_wrap htotal cmd room ((t + 1) % 2 ^ 16) (mod_lt _ (by decide)),
      range_succ_eq_map]
    simp only [map_cons, map_map, comp_def, add_zero, mod_eq_of_lt ht]
    refine Prod.ext (by simp only; omega) ?_
    simp only [cons.injEq, true_and]
    refine map_congr_left fun i _ => ?_
    congr 1
    omega

section Next

variable {x : VenusI2cXfer} {t : ℕ}

theorem le_next (ht : x.Counted t) (room : ℕ) : t ≤ x.next room t := by
  unfold VenusI2cXfer.next
  split_ifs with h
  · have := ht h
    omega
  · omega

theorem next_le (x : VenusI2cXfer) (room t : ℕ) : x.next room t ≤ t + room := by
  unfold VenusI2cXfer.next
  split_ifs
  · exact Nat.min_le_right _ _
  · exact Nat.le_refl _

theorem counted_next (x : VenusI2cXfer) (room t : ℕ) : x.Counted (x.next room t) := by
  intro h
  rw [VenusI2cXfer.next, if_pos h]
  exact Nat.min_le_left _ _

/-- The TX thread writes the next commands. -/
theorem txThread_next (ht : x.Counted t) (room : ℕ) :
    (txThread x.total x.cmd room (t % 2 ^ 16)).1 = x.next room t % 2 ^ 16 ∧
      x.cmds t ++ (txThread x.total x.cmd room (t % 2 ^ 16)).2 = x.cmds (x.next room t) := by
  unfold VenusI2cXfer.next
  split_ifs with h
  · have hle := ht h
    have hmin := txThread_min x.cmd h room t hle
    obtain ⟨-, -, -, hcmds⟩ := txThread_spec x.cmd h room t hle
    rw [mod_eq_of_lt (by omega), hmin, mod_eq_of_lt (by omega),
      cmds_of_le x (by omega), cmds_of_le x (by omega), hcmds, hmin]
    exact ⟨rfl, rfl⟩
  · rw [txThread_wrap (Nat.le_of_not_lt h) x.cmd room _ (mod_lt _ (by decide)), mod_add_mod]
    refine ⟨rfl, ?_⟩
    rw [cmds, cmds, range_add, map_append, map_map]
    refine congrArg _ (map_congr_left fun i _ => ?_)
    rw [mod_add_mod]
    rfl

end Next
/-! ## What a handler does -/

theorem rxThread_full {x : VenusI2cXfer} (h : x.rxBuffLen ≤ x.rxLen) (rx : List (BitVec 8)) :
    rxThread x rx = x := by
  cases rx with
  | nil => rfl
  | cons b bs => exact if_pos h

theorem rxThread_append : ∀ (l l' : List (BitVec 8)) (x : VenusI2cXfer),
    rxThread x (l ++ l') = rxThread (rxThread x l) l'
  | [], _, _ => rfl
  | b :: l, l', x => by
    rw [cons_append, rxThread, rxThread]
    split_ifs with h
    · exact (rxThread_full h l').symm
    · exact rxThread_append l l' _

/-- The RX thread takes what waits, up to the length of the buffer. -/
theorem rxThread_min {d rx : ℕ → BitVec 8} (x : VenusI2cXfer) (hlen : x.rxBuffLen < 2 ^ 16)
    {r : ℕ} (hr : r ≤ n) (hrx : r ≤ x.rxBuffLen) :
    rxThread { x with rxLen := r, rxBuff := rxTaken rx d r } (((range n).drop r).map d) =
      { x with rxLen := min n x.rxBuffLen, rxBuff := rxTaken rx d (min n x.rxBuffLen) } := by
  rcases Nat.le_total n x.rxBuffLen with hle | hge
  · rw [Nat.min_eq_left hle]
    exact rxThread_spec x hlen hle r hr
  · obtain ⟨k, rfl⟩ := Nat.exists_eq_add_of_le hge
    rw [Nat.min_eq_right hge, range_add, drop_append_of_le_length (by simpa using hrx),
      map_append, rxThread_append, rxThread_spec x hlen (Nat.le_refl _) r hrx]
    exact rxThread_full (Nat.le_refl _) _

/-- The bytes of a transfer have been moved, by the counts. -/
def VenusI2cXfer.Complete (x : VenusI2cXfer) (t r : ℕ) : Prop :=
  if x.mode = .masterWrite then x.txBuffLen ≤ t else x.rxBuffLen ≤ r

/-- What becomes of a transfer that a handler leaves with `t` commands written and `r` bytes
taken. -/
inductive IcOutcome (x : VenusI2cXfer) (d : ℕ → BitVec 8) (event : IcEvent) (t r : ℕ) :
    VenusI2cXfer → Prop
  | goesOn (habrt : event.txAbrt = false) (hstop : event.stopDet = true → x.count = 0)
      (hrx : x.mode ≠ .masterWrite → x.rxBuffLen ≤ r → x.count = 0) :
      IcOutcome x d event t r (x.moved d (t % 2 ^ 16) r)
  | aborted (habrt : event.txAbrt = true) : IcOutcome x d event t r
      { x.moved d (t % 2 ^ 16) r with ret := etxabort, mode := .idel }
  | split (habrt : event.txAbrt = false) (hstop : event.stopDet = true)
      (hcomplete : ¬x.Complete t r) : IcOutcome x d event t r
      { x.moved d (t % 2 ^ 16) r with ret := ecmdsplit, mode := .idel }
  | completed (habrt : event.txAbrt = false) (hcomplete : x.Complete t r)
      (hstop : x.mode = .masterWrite → event.stopDet = true) (hcount : x.count ≠ 0) :
      IcOutcome x d event t r { x.moved d (t % 2 ^ 16) r with ret := x.count, mode := .idel }

section Outcome

variable {x : VenusI2cXfer} {d : ℕ → BitVec 8} {event : IcEvent} {t r : ℕ}

/-- The handler of a write. -/
theorem venusI2cIsr_write (hm : x.mode = .masterWrite) (hlen : x.rxBuffLen = 0)
    (room : ℕ) (rx : List (BitVec 8)) (event : IcEvent) :
    venusI2cIsr (x.moved d t r) room rx event =
      let tx := txThread x.total x.cmd room t
      ((x.moved d tx.1 r).txResult event, tx.2) := by
  have htx : txThread x.txBuffLen (fun i => .data (x.txBuff i)) room t =
      txThread x.total x.cmd room t := by
    rw [total, hlen, add_zero]
    exact txThread_congr (fun i hi => (if_pos hi).symm) room t
  simp only [venusI2cIsr, moved, hm, venusI2cMsaterWrite, htx]

/-- The handlers of reads put the commands of the transfer into the FIFO. -/
theorem venusI2cIsr_msaterReceive
    (hm : x.mode = .masterRead ∧ x.txBuffLen = 0 ∨ x.mode = .masterRandomRead) (room : ℕ)
    (rx : List (BitVec 8)) (event : IcEvent) :
    venusI2cIsr (x.moved d t r) room rx event =
      msaterReceive x.total x.cmd (x.moved d t r) room rx event := by
  rcases hm with ⟨hm, htx⟩ | hm
  · have hcmd : x.cmd = fun _ => .read := funext fun i => if_neg (by omega)
    simp [venusI2cIsr, moved, hm, venusI2cMsaterRead, total, htx, hcmd]
  · simp only [venusI2cIsr, moved, hm, venusI2cMsaterRandomRead, total, add_comm x.rxBuffLen]
    rfl

theorem complete_of_ret (h : x.ret = 0) : x.complete = x :=
  if_neg (by simp [h])

theorem complete_ret {y : VenusI2cXfer} {ret : ℤ} (h : ret ≠ 0) :
    { y with ret := ret }.complete = { y with ret := ret, mode := .idel } :=
  if_pos h

/-- The end of a handler that finds all bytes moved. -/
theorem complete_count (hx : x.Loaded) (habrt : event.txAbrt = false) (hcomplete : x.Complete t r)
    (hstop : x.mode = .masterWrite → event.stopDet = true) :
    IcOutcome x d event t r { x.moved d (t % 2 ^ 16) r with ret := (x.count : ℤ) }.complete := by
  by_cases hzero : x.count = 0
  · have hsame : { x.moved d (t % 2 ^ 16) r with ret := (x.count : ℤ) } =
        x.moved d (t % 2 ^ 16) r := by
      have hret : (x.count : ℤ) = (x.moved d (t % 2 ^ 16) r).ret := by
        rw [hzero]
        exact hx.ret.symm
      rw [hret]
    rw [hsame, complete_of_ret (x := x.moved d (t % 2 ^ 16) r) hx.ret]
    exact .goesOn habrt (fun _ => hzero) fun _ _ => hzero
  · rw [complete_ret (by exact_mod_cast hzero)]
    exact .completed habrt hcomplete hstop hzero

/-- The result of a write. -/
theorem txResult_outcome (hx : x.Loaded) (hm : x.mode = .masterWrite) (ht : t ≤ x.txBuffLen)
    (hlen : x.txBuffLen < 2 ^ 16) :
    IcOutcome x d event t r ((x.moved d (t % 2 ^ 16) r).txResult event) := by
  have hcount : x.count = x.txBuffLen := if_pos hm
  have hcomplete : x.Complete t r ↔ x.txBuffLen ≤ t := by rw [VenusI2cXfer.Complete, if_pos hm]
  have hmod : t % 2 ^ 16 = t := mod_eq_of_lt (by omega)
  rw [txResult]
  cases habrt : event.txAbrt with
  | true =>
    exact .aborted habrt
  | false =>
    cases hstop : event.stopDet with
    | false =>
      rw [if_neg Bool.false_ne_true, complete_of_ret (x := x.moved d (t % 2 ^ 16) r) hx.ret]
      exact .goesOn habrt (fun h => by rw [hstop] at h; contradiction) fun h => absurd hm h
    | true =>
      change IcOutcome x d event t r { x.moved d (t % 2 ^ 16) r with
        ret := if x.txBuffLen ≤ t % 2 ^ 16 then ((t % 2 ^ 16 : ℕ) : ℤ) else ecmdsplit }.complete
      by_cases hfull : x.txBuffLen ≤ t
      · have hret : ((t % 2 ^ 16 : ℕ) : ℤ) = x.count := by
          rw [hmod, hcount, Nat.le_antisymm ht hfull]
        rw [if_pos (by omega), hret]
        exact complete_count hx habrt (hcomplete.2 hfull) fun _ => hstop
      · rw [if_neg (by omega), complete_ret (by decide)]
        exact .split habrt hstop (mt hcomplete.1 hfull)

/-- The result of a read. -/
theorem rxResult_outcome (hx : x.Loaded) (hm : x.mode ≠ .masterWrite) (hr : r ≤ x.rxBuffLen) :
    IcOutcome x d event t r ((x.moved d (t % 2 ^ 16) r).rxResult event) := by
  have hcount : x.count = x.rxBuffLen := if_neg hm
  have hcomplete : x.Complete t r ↔ x.rxBuffLen ≤ r := by rw [VenusI2cXfer.Complete, if_neg hm]
  rw [rxResult]
  cases habrt : event.txAbrt with
  | true =>
    exact .aborted habrt
  | false =>
    change IcOutcome x d event t r (if (event.stopDet || decide (x.rxBuffLen ≤ r)) = true then
      { x.moved d (t % 2 ^ 16) r with
        ret := if x.rxBuffLen ≤ r then ((r : ℕ) : ℤ) else ecmdsplit }.complete else _)
    by_cases hfull : x.rxBuffLen ≤ r
    · have hret : ((r : ℕ) : ℤ) = x.count := by rw [hcount, Nat.le_antisymm hr hfull]
      rw [decide_eq_true hfull, Bool.or_true, if_pos rfl, if_pos hfull, hret]
      exact complete_count hx habrt (hcomplete.2 hfull) fun h => absurd h hm
    · rw [decide_eq_false hfull, Bool.or_false, if_neg hfull]
      cases hstop : event.stopDet with
      | true =>
        exact .split habrt hstop (mt hcomplete.1 hfull)
      | false =>
        rw [if_neg Bool.false_ne_true, complete_of_ret (x := x.moved d (t % 2 ^ 16) r) hx.ret]
        exact .goesOn habrt (fun h => by rw [hstop] at h; contradiction) fun _ h => absurd h hfull

/-- A handler writes the next commands and takes the bytes that wait. -/
theorem venusI2cIsr_outcome (hx : x.Loaded) (htx : x.txBuffLen < 2 ^ 16)
    (hrx : x.rxBuffLen < 2 ^ 16) {n : ℕ} (hr : r ≤ n) (hrm : r ≤ x.rxBuffLen) (ht : x.Counted t)
    (room : ℕ) (event : IcEvent) :
    ∃ y cs, venusI2cIsr (x.moved d (t % 2 ^ 16) r) room (((range n).drop r).map d) event =
        (y, cs) ∧ x.cmds t ++ cs = x.cmds (x.next room t) ∧
      IcOutcome x d event (x.next room t) (min n x.rxBuffLen) y := by
  obtain ⟨hlen, hcmds⟩ := txThread_next ht room
  rcases hx.mode with ⟨hm, hzero⟩ | hm
  · have htotal : x.total = x.txBuffLen := by rw [total, hzero, add_zero]
    have hle := counted_next x room t (by omega)
    obtain rfl : r = min n x.rxBuffLen := by omega
    refine ⟨_, _, venusI2cIsr_write hm hzero _ _ _, hcmds, ?_⟩
    rw [hlen]
    exact txResult_outcome hx hm (by omega) htx
  · have hmode : x.mode ≠ .masterWrite := by rcases hm with ⟨hm, -⟩ | hm <;> simp [hm]
    have hmoved : rxThread { x.moved d (t % 2 ^ 16) r with
          txLen := (txThread x.total x.cmd room (t % 2 ^ 16)).1 } (((range n).drop r).map d) =
        x.moved d (x.next room t % 2 ^ 16) (min n x.rxBuffLen) := by
      refine (rxThread_min { x with txLen := (txThread x.total x.cmd room (t % 2 ^ 16)).1 } hrx hr
        hrm).trans ?_
      rw [hlen]
      rfl
    have hisr : venusI2cIsr (x.moved d (t % 2 ^ 16) r) room (((range n).drop r).map d) event =
        ((x.moved d (x.next room t % 2 ^ 16) (min n x.rxBuffLen)).rxResult event,
          (txThread x.total x.cmd room (t % 2 ^ 16)).2) := by
      rw [venusI2cIsr_msaterReceive hm, msaterReceive, ← hmoved]
      rfl
    exact ⟨_, _, hisr, hcmds, rxResult_outcome hx hmode (Nat.min_le_right _ _)⟩

end Outcome
/-! ## Transfers of the controller -/

/-- A transfer that goes on, after `t` commands and `r` bytes. -/
structure IcSys.Running (p : VenusI2c) (d : ℕ → BitVec 8) (t r : ℕ) (s : IcSys) : Prop where
  dev : s.dev = { p with xfer := p.xfer.moved d (t % 2 ^ 16) r }
  pushed : s.pushed = p.xfer.cmds t
  counted : p.xfer.Counted t
  done : s.done ≤ t
  rx : r ≤ (p.xfer.cmds s.done).count .read
  le : r ≤ p.xfer.rxBuffLen

/-- A transfer that has come to its end. -/
structure IcSys.Returned (p : VenusI2c) (d : ℕ → BitVec 8) (s : IcSys) : Prop where
  dev : s.dev = { p with xfer :=
    { p.xfer.moved d p.xfer.total p.xfer.rxBuffLen with ret := p.xfer.count, mode := .idel } }
  pushed : s.pushed = p.xfer.cmds p.xfer.total
  done : s.done = p.xfer.total

/-- The transfer has not been completed. -/
def IcSys.Busy (s : IcSys) : Prop :=
  s.dev.xfer.mode ≠ .idel

section Irq

variable {p : VenusI2c} {d : ℕ → BitVec 8} {t r depth : ℕ} {s : IcSys}

theorem busy_of_running (hx : p.xfer.Loaded) (h : s.Running p d t r) : s.Busy := by
  rw [IcSys.Busy, h.dev]
  rcases hx.mode with ⟨hm, -⟩ | ⟨hm, -⟩ | hm <;> simp [moved, hm]

theorem running_start (hx : p.xfer.Loaded) (d : ℕ → BitVec 8) :
    IcSys.Running p d 0 0 ⟨p, [], 0⟩ :=
  ⟨by rw [zero_mod, moved_zero hx.txLen hx.rxLen], rfl, fun _ => Nat.zero_le _, Nat.le_refl 0,
    zero_le _, zero_le _⟩

/-- The controller runs a command if there is one. -/
theorem exec_of_running (depth : ℕ) (hx : p.xfer.Loaded) (h : s.Running p d t r) :
    (s.act depth d .exec).Running p d t r ∧
      (s.act depth d .exec).done = if s.done < t then s.done + 1 else s.done := by
  have hlen : s.pushed.length = t := by rw [h.pushed, length_cmds]
  rw [IcSys.act, hlen]
  by_cases hlt : s.done < t
  · rw [if_pos ⟨busy_of_running hx h, hlt⟩, if_pos hlt]
    have hmore : (p.xfer.cmds s.done).count .read ≤ (p.xfer.cmds (s.done + 1)).count .read := by
      rw [← take_cmds p.xfer (le_succ s.done)]
      exact (take_sublist _ _).count_le _
    exact ⟨⟨h.dev, h.pushed, h.counted, hlt, Nat.le_trans h.rx hmore, h.le⟩, rfl⟩
  · rw [if_neg fun hand => hlt hand.2, if_neg hlt]
    exact ⟨h, rfl⟩

/-- An interrupt fills the FIFO and takes the bytes that wait. -/
theorem irq_of_running (depth : ℕ) (hx : p.xfer.Loaded) (htx : p.xfer.txBuffLen < 2 ^ 16)
    (hrx : p.xfer.rxBuffLen < 2 ^ 16) (h : s.Running p d t r) :
    ∃ y, s.act depth d .irq =
        ⟨{ p with xfer := y }, p.xfer.cmds (p.xfer.next (depth - (t - s.done)) t), s.done⟩ ∧
      IcOutcome p.xfer d ⟨false, s.stopDet⟩ (p.xfer.next (depth - (t - s.done)) t)
        (min ((p.xfer.cmds s.done).count .read) p.xfer.rxBuffLen) y := by
  have hlen : s.pushed.length = t := by rw [h.pushed, length_cmds]
  have hwait : s.waiting d =
      ((range ((p.xfer.cmds s.done).count .read)).drop r).map d := by
    rw [IcSys.waiting, h.pushed, take_cmds _ h.done, h.dev]
    rfl
  obtain ⟨y, cs, hisr, hcs, hout⟩ := venusI2cIsr_outcome (d := d) hx htx hrx h.rx h.le h.counted
    (depth - (t - s.done)) ⟨false, s.stopDet⟩
  refine ⟨y, ?_, hout⟩
  rw [IcSys.act, hlen, hwait, h.dev]
  simp only [hisr]
  rw [h.pushed, hcs]

/-- The transfer goes on after an interrupt. -/
theorem IcSys.Running.goesOn {room : ℕ} {dev : VenusI2c} (h : s.Running p d t r)
    (hdev : dev = { p with xfer := (p.xfer.moved d (p.xfer.next room t % 2 ^ 16)
      (min ((p.xfer.cmds s.done).count .read) p.xfer.rxBuffLen)) }) :
    IcSys.Running p d (p.xfer.next room t)
      (min ((p.xfer.cmds s.done).count .read) p.xfer.rxBuffLen)
      ⟨dev, p.xfer.cmds (p.xfer.next room t), s.done⟩ :=
  ⟨hdev, rfl, counted_next _ _ _, Nat.le_trans h.done (le_next h.counted room),
    Nat.min_le_left _ _, Nat.min_le_right _ _⟩

/-- An interrupt : the transfer is completed if all commands have been run, and goes on
otherwise. -/
theorem irq_or_returned (depth : ℕ) (hx : p.xfer.Loaded) (htotal : p.xfer.total < 2 ^ 16)
    (hcount : p.xfer.count ≠ 0) (h : s.Running p d t r) :
    if s.done = p.xfer.total then (s.act depth d .irq).Returned p d
    else ∃ t' r', (s.act depth d .irq).Running p d t' r' ∧ t ≤ t' ∧ r ≤ r' ∧
      (0 < depth - (t - s.done) → t < p.xfer.total → t < t') := by
  have hdef : p.xfer.total = p.xfer.txBuffLen + p.xfer.rxBuffLen := rfl
  have hle := h.counted htotal
  have hdone := h.done
  have hnext : p.xfer.next (depth - (t - s.done)) t =
      min p.xfer.total (t + (depth - (t - s.done))) := if_pos htotal
  have hreads := count_read_cmds p.xfer (t := s.done) (by omega)
  have hstopDet : s.stopDet = true ↔ s.done = p.xfer.total := by
    have htxLen : s.dev.xfer.txLen = t := by
      rw [h.dev]
      exact mod_eq_of_lt (by omega)
    have hxtotal : s.dev.xfer.total = p.xfer.total := by rw [h.dev]; rfl
    rw [IcSys.stopDet, h.pushed, length_cmds, htxLen, hxtotal, Bool.and_eq_true, decide_eq_true_eq,
      decide_eq_true_eq]
    omega
  obtain ⟨y, hact, hout⟩ := irq_of_running depth hx (by omega) (by omega) h
  rw [hact]
  cases hout with
  | goesOn _ hstop _ =>
    rw [if_neg fun hend => hcount (hstop (hstopDet.2 hend))]
    exact ⟨_, _, h.goesOn rfl, le_next h.counted _, Nat.le_min.mpr ⟨h.rx, h.le⟩, by omega⟩
  | aborted habrt => exact absurd habrt Bool.false_ne_true
  | split _ hstop hcomplete =>
    have hend := hstopDet.1 hstop
    rw [VenusI2cXfer.Complete] at hcomplete
    split_ifs at hcomplete <;> omega
  | completed _ hcomplete hstop _ =>
    have hend : s.done = p.xfer.total := by
      by_cases hm : p.xfer.mode = .masterWrite
      · exact hstopDet.1 (hstop hm)
      · have hlen : p.xfer.count = p.xfer.rxBuffLen := if_neg hm
        rw [VenusI2cXfer.Complete, if_neg hm] at hcomplete
        omega
    have hall : p.xfer.next (depth - (t - s.done)) t = p.xfer.total := by omega
    have hread : min ((p.xfer.cmds s.done).count .read) p.xfer.rxBuffLen = p.xfer.rxBuffLen := by
      omega
    rw [if_pos hend, hall, hread, mod_eq_of_lt htotal]
    exact ⟨rfl, rfl, hend⟩

/-- What is left to put into the FIFO, to run and to take. -/
def IcSys.left (p : VenusI2c) (s : IcSys) : ℕ :=
  2 * p.xfer.total + p.xfer.rxBuffLen - (s.pushed.length + s.done + s.dev.xfer.rxLen)

theorem IcSys.Running.left_eq (h : s.Running p d t r) :
    s.left p = 2 * p.xfer.total + p.xfer.rxBuffLen - (t + s.done + r) := by
  rw [IcSys.left, h.pushed, length_cmds, h.dev]
  rfl

/-- The counts determine the transfer. -/
theorem IcSys.Running.ext {s' : IcSys} (h : s.Running p d t r) (h' : s'.Running p d t r)
    (hdone : s'.done = s.done) : s' = s := by
  obtain ⟨dev, pushed, done⟩ := s
  obtain ⟨dev', pushed', done'⟩ := s'
  obtain rfl : done' = done := hdone
  rw [IcSys.mk.injEq]
  exact ⟨h'.dev.trans h.dev.symm, h'.pushed.trans h.pushed.symm, rfl⟩

/-- An action changes nothing, completes the transfer or leaves less to do. -/
theorem IcSys.Running.progress (hx : p.xfer.Loaded) (htotal : p.xfer.total < 2 ^ 16)
    (hcount : p.xfer.count ≠ 0) (h : s.Running p d t r) (a : IcAction) :
    s.act depth d a = s ∨ (s.act depth d a).Returned p d ∨
      (∃ t' r', (s.act depth d a).Running p d t' r') ∧ (s.act depth d a).left p < s.left p := by
  have hle := h.counted htotal
  have hdone := h.done
  have hr := h.le
  cases a with
  | exec =>
    obtain ⟨h', hdone'⟩ := exec_of_running depth hx h
    split_ifs at hdone' with hlt
    · refine .inr (.inr ⟨⟨t, r, h'⟩, ?_⟩)
      rw [h.left_eq, h'.left_eq]
      omega
    · exact .inl (h.ext h' hdone')
  | irq =>
    have hirq := irq_or_returned depth hx htotal hcount h
    have hdone' : (s.act depth d .irq).done = s.done := rfl
    split_ifs at hirq with hend
    · exact .inr (.inl hirq)
    · obtain ⟨t', r', h', ht, hr', -⟩ := hirq
      have hle' := h'.counted htotal
      have hrm' := h'.le
      by_cases hsame : t' = t ∧ r' = r
      · obtain ⟨rfl, rfl⟩ := hsame
        exact .inl (h.ext h' hdone')
      · refine .inr (.inr ⟨⟨t', r', h'⟩, ?_⟩)
        rw [h.left_eq, h'.left_eq]
        omega

/-- An action that is awaited : the controller has a command to run, or the next interrupt fills the
FIFO or completes the transfer. -/
theorem IcSys.Running.act_ne (hdepth : 0 < depth) (hx : p.xfer.Loaded)
    (htotal : p.xfer.total < 2 ^ 16) (hcount : p.xfer.count ≠ 0) (h : s.Running p d t r) :
    s.act depth d (if s.done < t then .exec else .irq) ≠ s := by
  intro hsame
  have hdone := h.done
  split_ifs at hsame with hlt
  · obtain ⟨-, hnext⟩ := exec_of_running depth hx h
    rw [hsame, if_pos hlt] at hnext
    omega
  · have hirq := irq_or_returned depth hx htotal hcount h
    rw [hsame] at hirq
    split_ifs at hirq with hend
    · refine busy_of_running hx h ?_
      rw [hirq.dev]
    · obtain ⟨t', r', h', -, -, hgrows⟩ := hirq
      have hlen := congrArg length (h.pushed.symm.trans h'.pushed)
      rw [length_cmds, length_cmds] at hlen
      have hle := h.counted htotal
      omega

variable {st : ℕ → IcSys} {act : ℕ → IcAction}

variable (hrun : IcRun depth d st act)

include hrun

/-- A transfer of at least one byte whose commands can be counted in 16 bits comes to its end. -/
theorem exists_returned_irq (hdepth : 0 < depth) (hx : p.xfer.Loaded)
    (htotal : p.xfer.total < 2 ^ 16) (hcount : p.xfer.count ≠ 0) (h0 : st 0 = ⟨p, [], 0⟩) :
    ∃ k, (st k).Returned p d ∧ ∀ j < k, (st j).Busy := by
  have hleads : LeadsTo st IcSys.Busy (fun s => ∃ t r, s.Running p d t r)
      (IcSys.Returned p d) := by
    refine LeadsTo.of_progress (f := IcSys.left p) (fun s hs => ?_) (fun k hk => ?_) fun k hk => ?_
    · obtain ⟨t, r, h⟩ := hs
      exact busy_of_running hx h
    · obtain ⟨t, r, h⟩ := hk
      rw [hrun.next]
      exact h.progress hx htotal hcount (act k)
    · obtain ⟨t, r, h⟩ := hk
      obtain ⟨l, hkl, hl⟩ := hrun.fair (if (st k).done < t then .exec else .irq) k
      refine ⟨l, hkl, fun hlk => ?_⟩
      rw [hrun.next, hl, hlk]
      exact h.act_ne hdepth hx htotal hcount
  obtain ⟨k, -, hk, hj⟩ := hleads 0 ⟨0, 0, h0 ▸ running_start hx d⟩
  exact ⟨k, hk, fun j => hj j (zero_le j)⟩

/-- A transfer without bytes is never completed. -/
theorem busy_of_count_zero (hx : p.xfer.Loaded)
    (htotal : p.xfer.total < 2 ^ 16) (hcount : p.xfer.count = 0) (h0 : st 0 = ⟨p, [], 0⟩) (k : ℕ) :
    (st k).Busy := by
  have hdef : p.xfer.total = p.xfer.txBuffLen + p.xfer.rxBuffLen := rfl
  have hrunning : ∃ t r, (st k).Running p d t r := by
    induction k with
    | zero => exact ⟨0, 0, h0 ▸ running_start hx d⟩
    | succ k ih =>
      obtain ⟨t, r, h⟩ := ih
      rw [hrun.next]
      cases act k with
      | exec => exact ⟨t, r, (exec_of_running depth hx h).1⟩
      | irq =>
        obtain ⟨y, hact, hout⟩ := irq_of_running depth hx (by omega) (by omega) h
        rw [hact]
        cases hout with
        | goesOn => exact ⟨_, _, h.goesOn rfl⟩
        | aborted habrt => exact absurd habrt Bool.false_ne_true
        | split _ _ hcomplete =>
          rw [VenusI2cXfer.Complete] at hcomplete
          rw [VenusI2cXfer.count] at hcount
          split_ifs at hcomplete hcount <;> omega
        | completed _ _ _ hne => exact absurd hcount hne
  obtain ⟨t, r, h⟩ := hrunning
  exact busy_of_running hx h

end Irq

/-! ## Signals -/

section Signals

variable (addr : BitVec 7) (d : ℕ → BitVec 8)

/-- The direction of a command. -/
def IcCmd.rd : IcCmd → Bool
  | .data _ => false
  | .read => true

theorem icSignals_cons (dir : Option Bool) (j : ℕ) (c : IcCmd) (cs : List IcCmd) :
    icSignals addr d dir j (c :: cs) =
      icAddress addr dir c.rd ++ icSignals addr d (some c.rd) j (c :: cs) := by
  cases c <;> simp [icSignals, icAddress, IcCmd.rd]

theorem icSignals_data (tx : ℕ → BitVec 8) (j : ℕ) (cs : List IcCmd) : ∀ n i,
    icSignals addr d (some false) j ((range n).map (fun k => .data (tx (i + k))) ++ cs) =
      dataSignals false tx n i ++ icSignals addr d (some false) j cs
  | 0, _ => rfl
  | n + 1, i => by
    have ih := icSignals_data tx j cs n (i + 1)
    simp only [add_assoc, add_comm 1] at ih
    simp [range_succ_eq_map, icSignals, icAddress, dataSignals, comp_def, ih]

theorem icSignals_read (cs : List IcCmd) (hcs : cs.head? ≠ some .read) : ∀ n j,
    icSignals addr d (some true) j (replicate n .read ++ cs) =
      dataSignals true d n j ++ icSignals addr d (some true) (j + n) cs
  | 0, _ => rfl
  | n + 1, j => by
    have ih := icSignals_read cs hcs n (j + 1)
    have hack : ((replicate n IcCmd.read ++ cs).head? != some .read) = (n == 0) := by
      cases n with
      | zero => simpa using hcs
      | succ n => simp [replicate_succ]
    rw [replicate_succ, cons_append, icSignals, hack, ih, dataSignals]
    simp [icAddress, Nat.add_comm, Nat.add_left_comm]

/-- The commands of a transfer, the bytes and then the reads. -/
theorem map_cmd (x : VenusI2cXfer) (n : ℕ) :
    (range (x.txBuffLen + n)).map x.cmd =
      (range x.txBuffLen).map (fun i => .data (x.txBuff i)) ++ replicate n .read := by
  rw [range_add, map_append, map_map]
  congr 1
  · exact map_congr_left fun i hi => if_pos (mem_range.1 hi)
  · rw [eq_replicate_iff]
    refine ⟨by simp, fun c hc => ?_⟩
    obtain ⟨i, -, rfl⟩ := mem_map.1 hc
    exact if_neg (by simp)

/-- A message, or nothing if it has no bytes. -/
def icMessage (rd : Bool) (f : ℕ → BitVec 8) (n : ℕ) : List Signal :=
  if n = 0 then [] else messageSignals addr rd f n

/-- The signals of the bytes of a transfer, with what follows them. -/
theorem icSignals_bytes (tx : ℕ → BitVec 8) {n : ℕ} (hn : 0 < n) (cs : List IcCmd) :
    icSignals addr d none 0 ((range n).map (fun i => .data (tx i)) ++ cs) =
      messageSignals addr false tx n ++ icSignals addr d (some false) 0 cs := by
  obtain ⟨m, rfl⟩ : ∃ m, n = m + 1 := ⟨n - 1, by omega⟩
  have h := icSignals_data addr d tx 0 cs (m + 1) 0
  simp only [zero_add] at h
  rw [range_succ_eq_map, map_cons, cons_append] at h ⊢
  rw [icSignals_cons, IcCmd.rd, h]
  simp [icAddress, messageSignals]

/-- The signals of the reads of a transfer, with what follows them. -/
theorem icSignals_reads {n : ℕ} (hn : 0 < n) (cs : List IcCmd) (hcs : cs.head? ≠ some .read)
    {dir : Option Bool} (hdir : dir ≠ some true) :
    icSignals addr d dir 0 (replicate n .read ++ cs) =
      messageSignals addr true d n ++ icSignals addr d (some true) n cs := by
  obtain ⟨m, rfl⟩ : ∃ m, n = m + 1 := ⟨n - 1, by omega⟩
  have h := icSignals_read addr d cs hcs (m + 1) 0
  rw [replicate_succ, cons_append] at h ⊢
  rw [icSignals_cons, IcCmd.rd, h]
  simp [icAddress, hdir, messageSignals]

/-- The signals of all commands of a transfer. -/
theorem icSignals_cmd (x : VenusI2cXfer) (n : ℕ) (cs : List IcCmd)
    (hcs : cs.head? ≠ some .read) (hn : 0 < n) :
    icSignals addr d none 0 ((range (x.txBuffLen + n)).map x.cmd ++ cs) =
      icMessage addr false x.txBuff x.txBuffLen ++ messageSignals addr true d n ++
        icSignals addr d (some true) n cs := by
  rw [map_cmd, append_assoc]
  rcases Nat.eq_zero_or_pos x.txBuffLen with h | h
  · rw [h, icMessage, if_pos rfl, range_zero, map_nil, nil_append,
      icSignals_reads addr d hn cs hcs (by simp)]
    rfl
  · rw [icSignals_bytes addr d _ h, icSignals_reads addr d hn cs hcs (by simp), icMessage,
      if_neg (Nat.ne_of_gt h), append_assoc]

theorem icSignals_write (x : VenusI2cXfer) (hx : 0 < x.txBuffLen) :
    icSignals addr d none 0 ((range x.txBuffLen).map x.cmd) =
      messageSignals addr false x.txBuff x.txBuffLen := by
  have hcmd := map_cmd x 0
  rw [add_zero, replicate_zero] at hcmd
  rw [hcmd, icSignals_bytes addr d _ hx, icSignals, append_nil]

end Signals
/-! ## A count that wraps -/

section Wrap

variable {d : ℕ → BitVec 8} {p : VenusI2c} {t r depth : ℕ}

/-- One command more than the count can tell is the first one again. -/
theorem map_range_wrap (cmd : ℕ → IcCmd) (n : ℕ) :
    (range (n + 1)).map (fun i => cmd (i % n)) = (range n).map cmd ++ [cmd 0] := by
  rw [range_succ, map_append, map_singleton, mod_self]
  congr 1
  exact map_congr_left fun i hi => by rw [mod_eq_of_lt (mem_range.1 hi)]

/-- Interrupts and commands in turn. If `late`, one interrupt does not come in time. -/
def turnAct (late : Bool) (k : ℕ) : IcAction :=
  if k % 2 = 0 ∧ ¬(late ∧ k = 2 * 2 ^ 16) then .irq else .exec

def turnRun (depth : ℕ) (late : Bool) (d : ℕ → BitVec 8) (p : VenusI2c) : ℕ → IcSys
  | 0 => ⟨p, [], 0⟩
  | k + 1 => (turnRun depth late d p k).act depth d (turnAct late k)

theorem turn_run (late : Bool) : IcRun depth d (turnRun depth late d p) (turnAct late) := by
  refine ⟨fun _ => rfl, fun a k => ?_⟩
  cases a with
  | irq => exact ⟨2 * (k + 2 * 2 ^ 16), by omega, if_pos ⟨by omega, by omega⟩⟩
  | exec => exact ⟨2 * k + 1, by omega, if_neg (by omega)⟩

/-- What the controller has run stays. -/
theorem take_done_act (s : IcSys) (a : IcAction) (depth : ℕ) {l : List IcCmd}
    (h : l <+: s.pushed.take s.done) :
    l <+: (s.act depth d a).pushed.take (s.act depth d a).done := by
  cases a with
  | exec =>
    rw [IcSys.act]
    split
    · exact h.trans (take_prefix_take_left (le_succ _))
    · exact h
  | irq =>
    rw [IcSys.act]
    simp only [take_append]
    exact h.trans (prefix_append _ _)

/-- An interrupt does not change what the controller has run. -/
theorem take_done_irq (s : IcSys) (depth : ℕ) (h : s.done ≤ s.pushed.length) :
    (s.act depth d .irq).pushed.take (s.act depth d .irq).done = s.pushed.take s.done := by
  exact take_append_of_le_length h

/-- STOP is never seen if the commands cannot be counted. -/
theorem stopDet_of_wrap {s : IcSys} (htotal : 2 ^ 16 ≤ p.xfer.total) (h : s.Running p d t r) :
    s.stopDet = false := by
  have htxLen : s.dev.xfer.txLen = t % 2 ^ 16 := by rw [h.dev]; rfl
  have hxtotal : s.dev.xfer.total = p.xfer.total := by rw [h.dev]; rfl
  have hlt : ¬p.xfer.total ≤ t % 2 ^ 16 := by omega
  rw [IcSys.stopDet, htxLen, hxtotal, decide_eq_false hlt, Bool.and_false]

section Turns

variable (late : Bool) (hx : p.xfer.Loaded) (hm : p.xfer.mode = .masterRandomRead)
  (htx : p.xfer.txBuffLen < 2 ^ 16) (hrx : p.xfer.rxBuffLen < 2 ^ 16)
include hx hm htx hrx

/-- The FIFO is full after each interrupt, and one command is run before the next one. -/
theorem turnRun_running (htotal : 2 ^ 16 ≤ p.xfer.total) (hdepth : 0 < depth) : ∀ j < 2 ^ 16,
    ((∃ r, (turnRun depth late d p (2 * j + 1)).Running p d (depth + j) r) ∧
      (turnRun depth late d p (2 * j + 1)).done = j) ∧
    (∃ r, (turnRun depth late d p (2 * (j + 1))).Running p d (depth + j) r) ∧
      (turnRun depth late d p (2 * (j + 1))).done = j + 1 := by
  have hdef : p.xfer.total = p.xfer.txBuffLen + p.xfer.rxBuffLen := rfl
  have hirq : ∀ j < 2 ^ 16, ∀ {t r}, (turnRun depth late d p (2 * j)).Running p d t r →
      (turnRun depth late d p (2 * j)).done = j → t + (depth - (t - j)) = depth + j →
      (∃ r, (turnRun depth late d p (2 * j + 1)).Running p d (depth + j) r) ∧
        (turnRun depth late d p (2 * j + 1)).done = j := by
    intro j hj t r h hdone ht
    have hact : turnAct late (2 * j) = .irq := if_pos ⟨by omega, by omega⟩
    obtain ⟨y, heq, hout⟩ := irq_of_running depth hx htx hrx h
    have hnext : p.xfer.next (depth - (t - (turnRun depth late d p (2 * j)).done)) t =
        depth + j := by
      rw [hdone, ← ht]
      exact if_neg (Nat.not_lt.2 htotal)
    rw [stopDet_of_wrap htotal h] at hout
    rw [turnRun, hact, heq]
    cases hout with
    | goesOn =>
      rw [← hnext]
      exact ⟨⟨_, h.goesOn rfl⟩, hdone⟩
    | aborted habrt => exact absurd habrt Bool.false_ne_true
    | split _ hstop => exact absurd hstop Bool.false_ne_true
    | completed _ hcomplete =>
      rw [VenusI2cXfer.Complete, if_neg (by simp [hm]), hdone, count_read_cmds _ (by omega)]
        at hcomplete
      omega
  have hexec : ∀ j, (∃ r, (turnRun depth late d p (2 * j + 1)).Running p d (depth + j) r) ∧
        (turnRun depth late d p (2 * j + 1)).done = j →
      (∃ r, (turnRun depth late d p (2 * (j + 1))).Running p d (depth + j) r) ∧
        (turnRun depth late d p (2 * (j + 1))).done = j + 1 := by
    rintro j ⟨⟨r, h⟩, hdone⟩
    have hact : turnAct late (2 * j + 1) = .exec := if_neg (by omega)
    obtain ⟨hnext, hdone'⟩ := exec_of_running depth hx h
    rw [hdone, if_pos (by omega)] at hdone'
    have hstep : turnRun depth late d p (2 * (j + 1)) =
        (turnRun depth late d p (2 * j + 1)).act depth d .exec := by
      rw [mul_succ, turnRun, hact]
    rw [hstep]
    exact ⟨⟨r, hnext⟩, hdone'⟩
  intro j
  induction j with
  | zero =>
    intro hj
    have h := hirq 0 hj (running_start hx d) rfl (by omega)
    exact ⟨h, hexec 0 h⟩
  | succ j ih =>
    intro hj
    obtain ⟨-, ⟨r, hprev⟩, hdone⟩ := ih (by omega)
    have h := hirq (j + 1) hj hprev hdone (by omega)
    exact ⟨h, hexec (j + 1) h⟩

/-- The state after 2^16 commands have been run, and the states before. -/
theorem turnRun_half (htotal : 2 ^ 16 ≤ p.xfer.total) (hdepth : 0 < depth) :
    (∃ r, (turnRun depth late d p (2 * 2 ^ 16)).Running p d (depth + (2 ^ 16 - 1)) r) ∧
      (turnRun depth late d p (2 * 2 ^ 16)).done = 2 ^ 16 ∧
      ∀ k ≤ 2 * 2 ^ 16, (turnRun depth late d p k).Busy := by
  have hall := turnRun_running (d := d) late hx hm htx hrx htotal hdepth
  obtain ⟨-, hlast, hdone⟩ := hall (2 ^ 16 - 1) (by decide)
  refine ⟨hlast, hdone, fun k hk => ?_⟩
  obtain ⟨j, rfl | rfl⟩ : ∃ j, k = 2 * j ∨ k = 2 * j + 1 := ⟨k / 2, by omega⟩
  · cases j with
    | zero => simp [turnRun, IcSys.Busy, hm]
    | succ j =>
      obtain ⟨-, ⟨r, h⟩, -⟩ := hall j (by omega)
      exact busy_of_running hx h
  · obtain ⟨⟨⟨r, h⟩, -⟩, -⟩ := hall j (by omega)
    exact busy_of_running hx h

/-- A random read of too many bytes that is completed after a late interrupt has sent the first byte
once more. -/
theorem turnRun_late (hpos : 0 < p.xfer.txBuffLen) (htotal : 2 ^ 16 ≤ p.xfer.total)
    (hdepth : 2 ≤ depth) {k : ℕ} (hk : ¬(turnRun depth true d p k).Busy) :
    (range (2 ^ 16)).map p.xfer.cmd ++ [.data (p.xfer.txBuff 0)] <+:
      (turnRun depth true d p k).pushed.take (turnRun depth true d p k).done := by
  obtain ⟨⟨r, h⟩, hdone, hbusy⟩ :=
    turnRun_half (d := d) true hx hm htx hrx htotal (by omega : 0 < depth)
  obtain ⟨hnext, hdone'⟩ := exec_of_running depth hx h
  have hact : turnAct true (2 * 2 ^ 16) = .exec := if_neg fun h => h.2 ⟨rfl, rfl⟩
  have hstep : turnRun depth true d p (2 * 2 ^ 16 + 1) =
      (turnRun depth true d p (2 * 2 ^ 16)).act depth d .exec := by rw [turnRun, hact]
  rw [← hstep] at hnext hdone'
  rw [hdone, if_pos (by omega)] at hdone'
  have hlate : ∀ i, (range (2 ^ 16)).map p.xfer.cmd ++ [.data (p.xfer.txBuff 0)] <+:
      (turnRun depth true d p (2 * 2 ^ 16 + 1 + i)).pushed.take
        (turnRun depth true d p (2 * 2 ^ 16 + 1 + i)).done := by
    intro i
    induction i with
    | zero =>
      rw [add_zero, hnext.pushed, take_cmds _ hnext.done, hdone', cmds, map_range_wrap]
      simp [cmd, hpos]
    | succ i ih => exact take_done_act _ _ _ ih
  rcases Nat.lt_or_ge k (2 * 2 ^ 16 + 1) with hlt | hge
  · exact absurd (hbusy k (by omega)) hk
  · obtain ⟨i, rfl⟩ := Nat.exists_eq_add_of_le hge
    exact hlate i

/-- A random read of 2^16 bytes in all whose last interrupt comes in time. -/
theorem turnRun_exact (htotal : p.xfer.total = 2 ^ 16) (hdepth : 0 < depth) :
    ∃ k, ¬(turnRun depth false d p k).Busy ∧ (∀ j < k, (turnRun depth false d p j).Busy) ∧
      (turnRun depth false d p k).pushed.take (turnRun depth false d p k).done =
        (range (2 ^ 16)).map p.xfer.cmd := by
  have hdef : p.xfer.total = p.xfer.txBuffLen + p.xfer.rxBuffLen := rfl
  have hle := Nat.le_of_eq htotal.symm
  obtain ⟨⟨r, h⟩, hdone, hbusy⟩ := turnRun_half (d := d) false hx hm htx hrx hle hdepth
  have hact : turnAct false (2 * 2 ^ 16) = .irq := if_pos ⟨by omega, by simp⟩
  have hstep : turnRun depth false d p (2 * 2 ^ 16 + 1) =
      (turnRun depth false d p (2 * 2 ^ 16)).act depth d .irq := by rw [turnRun, hact]
  have hmode : p.xfer.mode ≠ .masterWrite := by simp [hm]
  refine ⟨2 * 2 ^ 16 + 1, ?_, fun j hj => hbusy j (by omega), ?_⟩
  · obtain ⟨y, heq, hout⟩ := irq_of_running depth hx htx hrx h
    rw [hstep, heq]
    cases hout with
    | goesOn _ _ hgoes =>
      have hcount : p.xfer.count = p.xfer.rxBuffLen := if_neg hmode
      rw [count_read_cmds _ (Nat.le_of_eq hdone), hdone] at hgoes
      have := hgoes hmode (by omega)
      omega
    | aborted | split | completed => exact fun hb => hb rfl
  · have hlen : (turnRun depth false d p (2 * 2 ^ 16)).done ≤
        (turnRun depth false d p (2 * 2 ^ 16)).pushed.length := by
      rw [h.pushed, length_cmds]
      exact h.done
    rw [hstep, take_done_irq _ _ hlen, h.pushed, take_cmds _ h.done,
      cmds_of_le _ (Nat.le_of_eq hdone), hdone]

end Turns

end Wrap

end OpenHMR
