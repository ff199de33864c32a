import OpenHMR.VenusI2cIrq

/-!
# The FIFOs of the interrupt-mode I2C master

`IcCtl` is a transfer with the FIFOs of the controller and the registers that the interrupt handlers
set. Between interrupts the controller runs commands of its TX FIFO, and each `READ_CMD` brings a
byte into the RX FIFO. A handler fills the TX FIFO first and then empties the RX FIFO, so that the
commands in the one and the bytes in the other are together never more than the TX FIFO can hold
(`Core.fifos`).

The handlers count the commands in 16 bits. `venusI2cFifo_iff` : commands, received bytes, buffers,
FIFOs and completion are as they should be, for all schedules of the controller and of interrupts
with any events, if and only if the commands of the transfer can be counted. Until the controller
gives up or runs dry, it does what `IcSys` does (`Core.sys_exec`, `Core.sys_irq`).
-/

namespace OpenHMR

open Runs List Nat VenusI2cXfer

/-! ## The controller with its FIFOs -/

/-- What happens. -/
inductive IcStep where
  /-- The controller runs a command. -/
  | exec
  /-- The controller gives up the transfer. -/
  | abort
  /-- An interrupt with these events. -/
  | irq (event : IcEvent)

/-- A transfer, with the registers and FIFOs of the controller. -/
structure IcCtl where
  xfer : VenusI2cXfer
  /-- `TX_EMPTY_BIT` of `IC_INTR_MASK`. -/
  txEmptyMask : Bool
  /-- `IC_ENABLE`. -/
  enable : Bool
  txFifo : List IcCmd
  rxFifo : List (BitVec 8)
  /-- `STOP_DET_BIT` of `IC_INTR_STAT`. -/
  stopDet : Bool
  /-- `TX_ABRT_BIT` of `IC_INTR_STAT`. -/
  txAbrt : Bool
  /-- The values that were written to `IC_DATA_CMD`. -/
  written : List IcCmd
  /-- The number of bytes that were received. -/
  received : ℕ
  /-- A byte was received when the RX FIFO was full. -/
  overflow : Bool
  /-- The commands of each transfer on the bus, from START to STOP. -/
  closed : List (List IcCmd)
  /-- The commands since START. -/
  opened : List IcCmd
  /-- The number of calls of `complete`. -/
  completes : ℕ

/-- `TxComplete()` compares `tx_len` with this. -/
def VenusI2cXfer.txTotal (x : VenusI2cXfer) : ℕ :=
  match x.mode with
  | .masterWrite => x.txBuffLen
  | .masterRead => x.rxBuffLen
  | .masterRandomRead => x.rxBuffLen + x.txBuffLen
  | .idel => 0

/-- `venus_i2c_start_xfer` enables the controller, whose FIFOs are empty. -/
def venusI2cStartXfer (x : VenusI2cXfer) : IcCtl :=
  ⟨x, true, true, [], [], false, false, [], 0, false, [], [], 0⟩

namespace IcCtl

variable (txDepth rxDepth : ℕ) (d : ℕ → BitVec 8)

/-- STOP, if there was START. -/
def stop (s : IcCtl) : IcCtl :=
  if s.opened = [] then s else { s with closed := s.closed ++ [s.opened], opened := [] }

/-- A command on the bus. The RX FIFO receives the bytes `d`, and a byte that finds it full is
lost. -/
def move (s : IcCtl) (c : IcCmd) : IcCtl :=
  match c with
  | .data _ => { s with opened := s.opened ++ [c] }
  | .read =>
    if rxDepth ≤ s.rxFifo.length then { s with opened := s.opened ++ [c], overflow := true }
    else
      { s with
        opened := s.opened ++ [c]
        rxFifo := s.rxFifo ++ [d s.received]
        received := s.received + 1 }

/-- The controller runs the first command of the TX FIFO. With the last, it ends the transfer. -/
def exec (s : IcCtl) : IcCtl :=
  if s.enable then
    match s.txFifo with
    | [] => s
    | [c] => { (s.move rxDepth d c).stop with txFifo := [], stopDet := true }
    | c :: cs => { s.move rxDepth d c with txFifo := cs }
  else s

/-- The controller gives up the transfer. -/
def abort (s : IcCtl) : IcCtl :=
  if s.enable then { s.stop with txFifo := [], txAbrt := true } else s

/-- What a handler leaves, with the transfer `y` and the commands `cs`. At the end of the transfer
the controller is disabled, which drops its commands. -/
def leave (s : IcCtl) (y : VenusI2cXfer) (cs : List IcCmd) : IcCtl :=
  let s' :=
    { s with
      xfer := y
      txEmptyMask := s.txEmptyMask && decide (y.txLen < s.xfer.txTotal)
      txFifo := s.txFifo ++ cs
      rxFifo := s.rxFifo.drop (y.rxLen - s.xfer.rxLen)
      stopDet := false
      txAbrt := false
      written := s.written ++ cs }
  if y.mode = .idel then
    { s'.stop with
      txEmptyMask := false, txFifo := [], enable := false
      completes := if s.xfer.mode = .idel then s.completes else s.completes + 1 }
  else s'

/-- `venus_i2c_isr`. -/
def irq (s : IcCtl) (event : IcEvent) : IcCtl :=
  let r := venusI2cIsr s.xfer (txDepth - s.txFifo.length) s.rxFifo event
  s.leave r.1 r.2

def step (s : IcCtl) : IcStep → IcCtl
  | .exec => s.exec rxDepth d
  | .abort => s.abort
  | .irq event => s.irq txDepth event

end IcCtl

/-! ## The invariant -/

namespace IcCtl

/-- A transfer that goes on, with `t` commands written and `r` bytes taken. -/
structure Core (x : VenusI2cXfer) (d : ℕ → BitVec 8) (txDepth rxDepth t r : ℕ) (s : IcCtl) :
    Prop where
  xfer : s.xfer = x.moved d (t % 2 ^ 16) r
  written : s.written = x.cmds t
  counted : x.Counted t
  rxFifo : s.rxFifo = ((range s.received).drop r).map d
  taken : r ≤ s.received
  le : r ≤ x.rxBuffLen
  fifos : s.txFifo.length + s.rxFifo.length ≤ txDepth
  reads : s.received + s.txFifo.count .read ≤ s.written.count .read
  enable : s.enable = true
  completes : s.completes = 0
  overflow : txDepth ≤ rxDepth → s.overflow = false

/-- A transfer that has been completed, with `t` commands written and `r` bytes taken. -/
structure Ended (x : VenusI2cXfer) (d : ℕ → BitVec 8) (txDepth rxDepth t r : ℕ) (s : IcCtl) :
    Prop where
  xfer : ∃ ret, s.xfer = { x.moved d (t % 2 ^ 16) r with ret := ret, mode := .idel }
  written : s.written = x.cmds t
  counted : x.Counted t
  taken : r ≤ s.received
  le : r ≤ x.rxBuffLen
  enable : s.enable = false
  completes : s.completes = 1
  overflow : txDepth ≤ rxDepth → s.overflow = false

variable {x : VenusI2cXfer} {d : ℕ → BitVec 8} {txDepth rxDepth t r : ℕ} {s : IcCtl}

/-- STOP changes what is known of the bus only. -/
theorem stop_eq (s : IcCtl) :
    s.stop = { s with closed := s.stop.closed, opened := s.stop.opened } := by
  unfold stop
  split_ifs <;> rfl

section Leave

variable {y : VenusI2cXfer} {cs : List IcCmd}

theorem leave_of_ne (s : IcCtl) (h : y.mode ≠ .idel) : s.leave y cs = { s with
      xfer := y
      txEmptyMask := s.txEmptyMask && decide (y.txLen < s.xfer.txTotal)
      txFifo := s.txFifo ++ cs
      rxFifo := s.rxFifo.drop (y.rxLen - s.xfer.rxLen)
      stopDet := false
      txAbrt := false
      written := s.written ++ cs } :=
  if_neg h

theorem leave_of_eq (s : IcCtl) (h : y.mode = .idel) : s.leave y cs = { s with
      xfer := y
      txEmptyMask := false
      enable := false
      txFifo := []
      rxFifo := s.rxFifo.drop (y.rxLen - s.xfer.rxLen)
      stopDet := false
      txAbrt := false
      written := s.written ++ cs
      closed := s.stop.closed
      opened := s.stop.opened
      completes := if s.xfer.mode = .idel then s.completes else s.completes + 1 } := by
  refine (if_pos h).trans ?_
  unfold stop
  split_ifs <;> rfl

end Leave

section

variable (h : Core x d txDepth rxDepth t r s)

include h

/-- A command is run. -/
theorem Core.move {c : IcCmd} {cs : List IcCmd} (hfifo : s.txFifo = c :: cs) :
    Core x d txDepth rxDepth t r { s.move rxDepth d c with txFifo := cs } := by
  have hfifos := h.fifos
  have hreads := h.reads
  rw [hfifo, length_cons] at hfifos
  rw [hfifo, count_cons] at hreads
  cases c with
  | data b =>
    have hlen : cs.length + s.rxFifo.length ≤ txDepth := by omega
    have hcount : s.received + cs.count .read ≤ s.written.count .read := by omega
    exact { h with fifos := hlen, reads := hcount }
  | read =>
    rw [if_pos (beq_self_eq_true _)] at hreads
    unfold IcCtl.move
    split_ifs with hfull
    · have hlen : cs.length + s.rxFifo.length ≤ txDepth := by omega
      have hcount : s.received + cs.count .read ≤ s.written.count .read := by omega
      exact { h with fifos := hlen, reads := hcount, overflow := fun _ => by omega }
    · have htaken := h.taken
      have hcount : s.received + 1 + cs.count .read ≤ s.written.count .read := by omega
      refine ⟨h.xfer, h.written, h.counted, ?_, le_succ_of_le htaken, h.le, ?_, hcount,
        h.enable, h.completes, h.overflow⟩
      · change s.rxFifo ++ [d s.received] = ((range (s.received + 1)).drop r).map d
        rw [h.rxFifo, range_succ, drop_append_of_le_length (by simpa using htaken),
          map_append, map_singleton]
      · change cs.length + (s.rxFifo ++ [d s.received]).length ≤ _
        rw [length_append, length_singleton]
        omega

/-- A command is executed. -/
theorem Core.exec :
    Core x d txDepth rxDepth t r (s.exec rxDepth d) := by
  rw [IcCtl.exec, if_pos h.enable]
  cases hfifo : s.txFifo with
  | nil => exact h
  | cons c cs =>
    have hmove := h.move hfifo
    cases cs with
    | nil =>
      simp only []
      rw [stop_eq]
      exact { hmove with }
    | cons c' cs => exact hmove

theorem Core.abort : Core x d txDepth rxDepth t r s.abort := by
  have hfifos := h.fifos
  have hreads := h.reads
  rw [IcCtl.abort, if_pos h.enable, stop_eq]
  refine { h with fifos := ?_, reads := ?_ }
  · simp only [length_nil]
    omega
  · simp only [count_nil]
    omega

variable (hx : x.Loaded)

include hx

/-- An interrupt. -/
theorem Core.irq (htx : x.txBuffLen < 2 ^ 16) (hrx : x.rxBuffLen < 2 ^ 16) (event : IcEvent) :
    ∃ y cs, s.irq txDepth event = s.leave y cs ∧
      s.written ++ cs = x.cmds (x.next (txDepth - s.txFifo.length) t) ∧
      IcOutcome x d event (x.next (txDepth - s.txFifo.length) t) (min s.received x.rxBuffLen)
        y := by
  obtain ⟨y, cs, hisr, hcmds, hout⟩ := venusI2cIsr_outcome (d := d) hx htx hrx h.taken h.le
    h.counted (txDepth - s.txFifo.length) event
  refine ⟨y, cs, ?_, by rw [h.written, hcmds], hout⟩
  rw [IcCtl.irq, h.xfer, h.rxFifo, hisr]

omit h in
theorem moved_mode_ne (d : ℕ → BitVec 8) (t r : ℕ) :
    (x.moved d t r).mode ≠ .idel := by
  change x.mode ≠ .idel
  rcases hx.mode with ⟨hm, -⟩ | ⟨hm, -⟩ | hm <;> rw [hm] <;> decide

omit h in
theorem rxBuffLen_of_write (hm : x.mode = .masterWrite) : x.rxBuffLen = 0 := by
  rcases hx.mode with ⟨-, hzero⟩ | ⟨hm', -⟩ | hm'
  · exact hzero
  · rw [hm] at hm'
    contradiction
  · rw [hm] at hm'
    contradiction

/-- The transfer goes on, and all bytes have been taken. -/
theorem Core.goesOn (htx : x.txBuffLen < 2 ^ 16) {cs : List IcCmd}
    (hcs : s.written ++ cs = x.cmds (x.next (txDepth - s.txFifo.length) t))
    (hgoes : x.mode ≠ .masterWrite → x.rxBuffLen ≤ min s.received x.rxBuffLen → x.count = 0) :
    Core x d txDepth rxDepth (x.next (txDepth - s.txFifo.length) t) (min s.received x.rxBuffLen)
      (s.leave (x.moved d (x.next (txDepth - s.txFifo.length) t % 2 ^ 16)
        (min s.received x.rxBuffLen)) cs) := by
  have hreads := h.reads
  have hle := h.le
  have htaken := h.taken
  have hfifos := h.fifos
  have hlen := congrArg length hcs
  rw [length_append, h.written, length_cmds, length_cmds] at hlen
  have hnext := next_le x (txDepth - s.txFifo.length) t
  -- No byte is left in the RX FIFO.
  have hall : min s.received x.rxBuffLen = s.received := by
    by_cases htotal : x.total < 2 ^ 16
    · have ht := h.counted htotal
      have hdef : x.total = x.txBuffLen + x.rxBuffLen := rfl
      rw [h.written, count_read_cmds x (by omega)] at hreads
      omega
    · have hdef : x.total = x.txBuffLen + x.rxBuffLen := rfl
      have hm : x.mode ≠ .masterWrite := fun hm => by
        have := rxBuffLen_of_write hx hm
        omega
      have hcount : x.count = x.rxBuffLen := if_neg hm
      have := hgoes hm
      omega
  rw [hall]
  have hdrop : s.rxFifo.drop (s.received - s.xfer.rxLen) = [] := by
    rw [h.xfer, h.rxFifo]
    refine drop_eq_nil_of_le ?_
    rw [length_map, length_drop, length_range]
    exact Nat.le_refl _
  rw [leave_of_ne _ (moved_mode_ne hx _ _ _)]
  refine ⟨rfl, hcs, counted_next _ _ _, ?_, Nat.le_refl _, by omega, ?_, ?_, h.enable, h.completes,
    h.overflow⟩
  · have hnone : (range s.received).drop s.received = [] :=
      drop_eq_nil_of_le (Nat.le_of_eq length_range)
    change s.rxFifo.drop (s.received - s.xfer.rxLen) =
      ((range s.received).drop s.received).map d
    rw [hdrop, hnone, map_nil]
  · change (s.txFifo ++ cs).length + (s.rxFifo.drop (s.received - s.xfer.rxLen)).length ≤ txDepth
    rw [hdrop, length_append, length_nil]
    omega
  · change s.received + (s.txFifo ++ cs).count .read ≤ (s.written ++ cs).count .read
    rw [count_append, count_append, h.written]
    rw [h.written] at hreads
    omega

/-- The transfer is completed. -/
theorem Core.ends {cs : List IcCmd} {t' r' : ℕ} (ret : ℤ)
    (hcs : s.written ++ cs = x.cmds t') (ht' : x.Counted t')
    (hr' : r' ≤ s.received) (hrm : r' ≤ x.rxBuffLen) :
    Ended x d txDepth rxDepth t' r'
      (s.leave { x.moved d (t' % 2 ^ 16) r' with ret := ret, mode := .idel } cs) := by
  have hmode : s.xfer.mode ≠ .idel := by
    rw [h.xfer]
    exact moved_mode_ne hx _ _ _
  rw [leave_of_eq _ rfl]
  refine ⟨⟨ret, rfl⟩, hcs, ht', hr', hrm, rfl, ?_, h.overflow⟩
  change (if _ then _ else _) = 1
  rw [if_neg hmode, h.completes]

/-- After an interrupt the transfer goes on, or it has been completed. -/
theorem Core.irq_or (htx : x.txBuffLen < 2 ^ 16) (hrx : x.rxBuffLen < 2 ^ 16) (event : IcEvent) :
    Core x d txDepth rxDepth (x.next (txDepth - s.txFifo.length) t) (min s.received x.rxBuffLen)
        (s.irq txDepth event) ∨
      Ended x d txDepth rxDepth (x.next (txDepth - s.txFifo.length) t) (min s.received x.rxBuffLen)
        (s.irq txDepth event) := by
  obtain ⟨y, cs, heq, hcs, hout⟩ := h.irq hx htx hrx event
  rw [heq]
  have hends (ret : ℤ) := h.ends hx ret hcs (counted_next _ _ _) (Nat.min_le_left _ _)
    (Nat.min_le_right s.received x.rxBuffLen)
  cases hout with
  | goesOn habrt hstop hgoes => exact .inl (h.goesOn hx htx hcs hgoes)
  | aborted | split | completed => exact .inr (hends _)

end

/-- Nothing happens after the end. -/
theorem Ended.step (h : Ended x d txDepth rxDepth t r s) (a : IcStep) :
    Ended x d txDepth rxDepth t r (s.step txDepth rxDepth d a) := by
  have hoff : ¬s.enable = true := by
    rw [h.enable]
    exact Bool.false_ne_true
  cases a with
  | exec =>
    rw [IcCtl.step, IcCtl.exec, if_neg hoff]
    exact h
  | abort =>
    rw [IcCtl.step, IcCtl.abort, if_neg hoff]
    exact h
  | irq event =>
    obtain ⟨ret, hret⟩ := h.xfer
    have hmode : s.xfer.mode = .idel := by rw [hret]
    have hisr : venusI2cIsr s.xfer (txDepth - s.txFifo.length) s.rxFifo event = (s.xfer, []) := by
      rw [venusI2cIsr, hmode]
    rw [IcCtl.step, IcCtl.irq, hisr, leave_of_eq _ hmode]
    refine ⟨h.xfer, ?_, h.counted, h.taken, h.le, rfl, ?_, h.overflow⟩
    · change s.written ++ [] = _
      rw [append_nil, h.written]
    · change (if _ then _ else _) = 1
      rw [if_pos hmode, h.completes]

/-! ## All schedules -/

/-- What should hold at any time. The slave sends the bytes `d`. -/
structure Sound (x : VenusI2cXfer) (d : ℕ → BitVec 8) (s : IcCtl) : Prop where
  /-- The values written to `IC_DATA_CMD` are the bytes of `tx_buff`, followed by `READ_CMD`s. -/
  written : s.written <+: (range x.txBuffLen).map (fun i => .data (x.txBuff i)) ++
    replicate x.rxBuffLen .read
  /-- `rx_buff` holds the received bytes in order. -/
  received : s.xfer.rxLen ≤ s.received ∧ ∀ j < s.xfer.rxLen, s.xfer.rxBuff j = d j
  overflow : s.overflow = false
  /-- No index reaches past a buffer. -/
  inside : s.xfer.txLen ≤ x.txBuffLen + x.rxBuffLen ∧ s.xfer.rxLen ≤ x.rxBuffLen ∧
    ∀ j ≥ x.rxBuffLen, s.xfer.rxBuff j = x.rxBuff j
  completes : s.completes = if s.xfer.mode = .idel then 1 else 0

/-- The commands that are written, if they can be counted. -/
theorem cmds_isPrefix (htotal : x.total < 2 ^ 16) (ht : x.Counted t) :
    x.cmds t <+: (range x.txBuffLen).map (fun i => .data (x.txBuff i)) ++
      replicate x.rxBuffLen .read := by
  have hle := ht htotal
  rw [← map_cmd, cmds_of_le x (by omega), ← total, ← Nat.min_eq_left hle, ← take_range]
  refine IsPrefix.map _ ?_
  exact take_prefix _ _

theorem rxTaken_of_le {rx : ℕ → BitVec 8} {n j : ℕ} (h : n ≤ j) : rxTaken rx d n j = rx j :=
  if_neg (Nat.not_lt.2 h)

theorem rxTaken_of_lt {rx : ℕ → BitVec 8} {n j : ℕ} (h : j < n) : rxTaken rx d n j = d j :=
  if_pos h

theorem Core.sound (hx : x.Loaded) (hdepth : txDepth ≤ rxDepth) (htotal : x.total < 2 ^ 16)
    (h : Core x d txDepth rxDepth t r s) : s.Sound x d := by
  refine ⟨h.written ▸ cmds_isPrefix htotal h.counted, ?_, h.overflow hdepth, ?_, ?_⟩
  · rw [h.xfer]
    exact ⟨h.taken, fun j hj => rxTaken_of_lt hj⟩
  · rw [h.xfer]
    exact ⟨Nat.le_trans (Nat.mod_le _ _) (h.counted htotal), h.le,
      fun j hj => rxTaken_of_le (Nat.le_trans h.le hj)⟩
  · rw [h.completes, h.xfer, if_neg (moved_mode_ne hx _ _ _)]

theorem Ended.sound (hdepth : txDepth ≤ rxDepth) (htotal : x.total < 2 ^ 16)
    (h : Ended x d txDepth rxDepth t r s) : s.Sound x d := by
  obtain ⟨ret, hxfer⟩ := h.xfer
  refine ⟨h.written ▸ cmds_isPrefix htotal h.counted, ?_, h.overflow hdepth, ?_, ?_⟩
  · rw [hxfer]
    exact ⟨h.taken, fun j hj => rxTaken_of_lt hj⟩
  · rw [hxfer]
    exact ⟨Nat.le_trans (Nat.mod_le _ _) (h.counted htotal), h.le,
      fun j hj => rxTaken_of_le (Nat.le_trans h.le hj)⟩
  · rw [h.completes, hxfer, if_pos rfl]

/-- The transfer goes on, or it has been completed. -/
def Inv (x : VenusI2cXfer) (d : ℕ → BitVec 8) (txDepth rxDepth : ℕ) (s : IcCtl) : Prop :=
  ∃ t r, Core x d txDepth rxDepth t r s ∨ Ended x d txDepth rxDepth t r s

theorem Inv.step (hx : x.Loaded) (htx : x.txBuffLen < 2 ^ 16) (hrx : x.rxBuffLen < 2 ^ 16)
    (h : Inv x d txDepth rxDepth s) (a : IcStep) :
    Inv x d txDepth rxDepth (s.step txDepth rxDepth d a) := by
  obtain ⟨t, r, h | h⟩ := h
  · cases a with
    | exec => exact ⟨t, r, .inl h.exec⟩
    | abort => exact ⟨t, r, .inl h.abort⟩
    | irq event => exact ⟨_, _, h.irq_or hx htx hrx event⟩
  · exact ⟨t, r, .inr (h.step a)⟩

theorem core_start (hx : x.Loaded) (d : ℕ → BitVec 8) (txDepth rxDepth : ℕ) :
    Core x d txDepth rxDepth 0 0 (venusI2cStartXfer x) := by
  refine ⟨?_, rfl, fun _ => Nat.zero_le _, rfl, Nat.le_refl 0, Nat.zero_le _, Nat.zero_le _,
    Nat.le_refl 0, rfl, rfl, fun _ => rfl⟩
  exact (moved_zero hx.txLen hx.rxLen).symm

/-! ## A transfer that cannot be counted -/

theorem exec_txFifo (h : s.enable = true) : (s.exec rxDepth d).txFifo = s.txFifo.tail := by
  rw [IcCtl.exec, if_pos h]
  cases hfifo : s.txFifo with
  | nil => exact hfifo
  | cons c cs =>
    cases cs with
    | nil | cons => rfl

/-- The controller runs all commands. -/
theorem Core.execs : ∀ (k : ℕ) {s : IcCtl}, Core x d txDepth rxDepth t r s →
    s.txFifo.length = k → ∃ steps : List IcStep,
      Core x d txDepth rxDepth t r (steps.foldl (step txDepth rxDepth d) s) ∧
        (steps.foldl (step txDepth rxDepth d) s).txFifo = []
  | 0, s, h, hk => ⟨[], h, eq_nil_of_length_eq_zero hk⟩
  | k + 1, s, h, hk => by
    have htail : (s.exec rxDepth d).txFifo.length = k := by
      rw [exec_txFifo h.enable, length_tail, hk]
      rfl
    obtain ⟨steps, hcore, hempty⟩ := Core.execs k h.exec htail
    exact ⟨.exec :: steps, hcore, hempty⟩

/-- If the commands cannot be counted, there is a schedule with more of them than 16 bits can
count. -/
theorem Core.exceeds (hx : x.Loaded) (htx : x.txBuffLen < 2 ^ 16) (hrx : x.rxBuffLen < 2 ^ 16)
    (hpos : 0 < txDepth) (htotal : 2 ^ 16 ≤ x.total) :
    ∀ (k : ℕ) {s : IcCtl} {t r : ℕ}, Core x d txDepth rxDepth t r s → t ≤ 2 ^ 16 → 2 ^ 16 < t + k →
      ∃ (steps : List IcStep) (t' : ℕ), 2 ^ 16 < t' ∧
        (steps.foldl (step txDepth rxDepth d) s).written = x.cmds t'
  | 0, _, _, _, _, hle, hlt => absurd hlt (Nat.not_lt.2 hle)
  | k + 1, s, t, r, h, hle, hlt => by
    obtain ⟨steps, hcore, hempty⟩ := h.execs _ rfl
    generalize hs' : steps.foldl (step txDepth rxDepth d) s = s' at hcore hempty
    have hnext : x.next (txDepth - s'.txFifo.length) t = t + txDepth := by
      rw [hempty, VenusI2cXfer.next, if_neg (Nat.not_lt.2 htotal)]
      rfl
    have hrun (more : List IcStep) :
        (steps ++ IcStep.irq ⟨false, false⟩ :: more).foldl (step txDepth rxDepth d) s =
          more.foldl (step txDepth rxDepth d) (s'.irq txDepth ⟨false, false⟩) := by
      rw [foldl_append, hs']
      rfl
    obtain ⟨y, cs, heq, hcs, hout⟩ := hcore.irq hx htx hrx ⟨false, false⟩
    rcases Nat.lt_or_ge (2 ^ 16) (t + txDepth) with hmany | hfew
    · refine ⟨steps ++ [IcStep.irq ⟨false, false⟩], t + txDepth, hmany, ?_⟩
      rw [hrun]
      rcases hcore.irq_or hx htx hrx ⟨false, false⟩ with hnext' | hnext'
      · rw [← hnext]
        exact hnext'.written
      · rw [← hnext]
        exact hnext'.written
    · cases hout with
      | goesOn habrt hstop hgoes =>
        have hgoes' := hcore.goesOn hx htx hcs hgoes
        rw [← heq, hnext] at hgoes'
        obtain ⟨more, t', ht', hwritten⟩ :=
          Core.exceeds hx htx hrx hpos htotal k hgoes' hfew (by omega)
        refine ⟨steps ++ IcStep.irq ⟨false, false⟩ :: more, t', ht', ?_⟩
        rw [hrun]
        exact hwritten
      | aborted habrt => exact absurd habrt Bool.false_ne_true
      | split _ hstop => exact absurd hstop Bool.false_ne_true
      | completed _ hcomplete hstop =>
        have hm : x.mode ≠ .masterWrite := fun hm => absurd (hstop hm) Bool.false_ne_true
        have hreads := hcore.reads
        have hdef : x.total = x.txBuffLen + x.rxBuffLen := rfl
        rw [VenusI2cXfer.Complete, if_neg hm] at hcomplete
        rw [hcore.written, count_read_cmds x hle] at hreads
        omega

/-- The command after as many as 16 bits can count is the first one again. -/
theorem not_isPrefix (htx : x.txBuffLen < 2 ^ 16) (hrx : x.rxBuffLen < 2 ^ 16)
    (htotal : 2 ^ 16 ≤ x.total) (ht : 2 ^ 16 < t) :
    ¬x.cmds t <+: (range x.txBuffLen).map (fun i => .data (x.txBuff i)) ++
      replicate x.rxBuffLen .read := by
  intro hprefix
  have hdef : x.total = x.txBuffLen + x.rxBuffLen := rfl
  have hget : (x.cmds t)[2 ^ 16]? = some (.data (x.txBuff 0)) := by
    rw [cmds, List.getElem?_map, List.getElem?_range ht, Option.map_some, mod_self,
      cmd, if_pos (by omega)]
  obtain ⟨rest, hrest⟩ := hprefix
  have hlist : (x.cmds t ++ rest)[2 ^ 16]? = _ := congrArg (fun l => l[2 ^ 16]?) hrest
  rw [List.getElem?_append_left (by rw [length_cmds]; exact ht), hget,
    List.getElem?_append_right (by rw [length_map, length_range]; omega)] at hlist
  have hmem := mem_of_getElem? hlist.symm
  exact absurd (eq_of_mem_replicate hmem) (by simp)

/-- For all schedules, the FIFOs and buffers are used as they should be and `complete` is called
once, if and only if the commands of the transfer can be counted in 16 bits. -/
theorem venusI2cFifo_iff (hx : x.Loaded) (htx : x.txBuffLen < 2 ^ 16) (hrx : x.rxBuffLen < 2 ^ 16)
    (hpos : 0 < txDepth) (hdepth : txDepth ≤ rxDepth) :
    (∀ (d : ℕ → BitVec 8) (steps : List IcStep),
      Sound x d (steps.foldl (step txDepth rxDepth d) (venusI2cStartXfer x))) ↔
        x.txBuffLen + x.rxBuffLen < 2 ^ 16 := by
  constructor
  · intro hsound
    by_contra htotal
    have hstart := core_start hx (fun _ => 0) txDepth rxDepth
    obtain ⟨steps, t, ht, hwritten⟩ := hstart.exceeds hx htx hrx hpos (Nat.le_of_not_lt htotal)
      (2 ^ 16 + 1) (zero_le _) (by omega)
    have hprefix := (hsound (fun _ => 0) steps).written
    rw [hwritten] at hprefix
    exact not_isPrefix htx hrx (Nat.le_of_not_lt htotal) ht hprefix
  · intro htotal d steps
    have hstart : Inv x d txDepth rxDepth (venusI2cStartXfer x) :=
      ⟨0, 0, .inl (core_start hx d txDepth rxDepth)⟩
    have hstep (s : IcCtl) (a : IcStep) (h : Inv x d txDepth rxDepth s) :
        Inv x d txDepth rxDepth (step txDepth rxDepth d s a) := h.step hx htx hrx a
    have hinv := foldl_of_step hstep steps hstart
    obtain ⟨t, r, h | h⟩ := hinv
    · exact h.sound hx hdepth htotal
    · exact h.sound hdepth htotal

/-! ## The FIFOs and `IcSys` -/

/-- The transfer as `IcSys` has it. -/
def sys (p : VenusI2c) (s : IcCtl) : IcSys :=
  ⟨{ p with xfer := s.xfer }, s.written, s.written.length - s.txFifo.length⟩

/-- The commands that have left the TX FIFO have been run, and all bytes that they read were
received. -/
def Intact (s : IcCtl) : Prop :=
  ∃ ran, s.written = ran ++ s.txFifo ∧ s.received = ran.count .read

section Sys

variable {p : VenusI2c} (h : Core x d txDepth rxDepth t r s) (hs : s.Intact)

include h hs

/-- The controller runs a command in both. -/
theorem Core.sys_exec (hx : x.Loaded) (hdepth : txDepth ≤ rxDepth) :
    (s.exec rxDepth d).sys p = (s.sys p).act txDepth d .exec ∧ (s.exec rxDepth d).Intact := by
  obtain ⟨ran, hwritten, hreceived⟩ := hs
  have hlen := congrArg length hwritten
  have hmode : s.xfer.mode ≠ .idel := h.xfer ▸ moved_mode_ne hx d _ r
  have hfifos := h.fifos
  rw [length_append] at hlen
  cases hfifo : s.txFifo with
  | nil =>
    have hexec : s.exec rxDepth d = s := by rw [IcCtl.exec, if_pos h.enable, hfifo]
    rw [hexec, IcSys.act, if_neg (by simp [sys, hfifo])]
    exact ⟨rfl, ran, hwritten, hreceived⟩
  | cons c cs =>
    rw [hfifo, length_cons] at hfifos hlen
    obtain ⟨hxfer, hsame, htx, hrx⟩ : (s.exec rxDepth d).xfer = s.xfer ∧
        (s.exec rxDepth d).written = s.written ∧ (s.exec rxDepth d).txFifo = cs ∧
        (s.exec rxDepth d).received = s.received + [c].count .read := by
      have hfull : ¬ rxDepth ≤ s.rxFifo.length := by omega
      rw [IcCtl.exec, if_pos h.enable, hfifo]
      cases c <;> cases cs <;> simp [IcCtl.move, IcCtl.stop, hfull]
    refine ⟨?_, ran ++ [c], ?_, ?_⟩
    · have hlt : (s.sys p).done < (s.sys p).pushed.length := by
        simp only [sys, hfifo, length_cons]
        omega
      rw [IcSys.act, if_pos ⟨hmode, hlt⟩, sys, hxfer, hsame, htx, sys, hfifo, length_cons,
        IcSys.mk.injEq]
      exact ⟨rfl, rfl, by simp only []; omega⟩
    · rw [hsame, htx, hwritten, hfifo, append_assoc, singleton_append]
    · rw [hrx, hreceived, count_append]

/-- An interrupt leaves the same transfer and the same commands in both. -/
theorem Core.sys_irq : ∃ s', s.irq txDepth ⟨false, (s.sys p).stopDet⟩ = s' ∧
    s'.xfer = ((s.sys p).act txDepth d .irq).dev.xfer ∧
    s'.written = ((s.sys p).act txDepth d .irq).pushed ∧
    (s'.xfer.mode ≠ .idel → s'.sys p = (s.sys p).act txDepth d .irq ∧ s'.Intact) := by
  obtain ⟨ran, hwritten, hreceived⟩ := hs
  have hlen := congrArg length hwritten
  rw [length_append] at hlen
  have hdone : s.written.length - s.txFifo.length = ran.length := by omega
  have hwaiting : (s.sys p).waiting d = s.rxFifo := by
    rw [IcSys.waiting, h.rxFifo, hreceived]
    simp only [sys, hdone, h.xfer, moved]
    rw [hwritten, take_left]
  have hroom : s.written.length - (s.written.length - s.txFifo.length) = s.txFifo.length := by omega
  have hact : (s.sys p).act txDepth d .irq =
      ⟨{ p with xfer := (venusI2cIsr s.xfer (txDepth - s.txFifo.length) s.rxFifo
          ⟨false, (s.sys p).stopDet⟩).1 },
        s.written ++ (venusI2cIsr s.xfer (txDepth - s.txFifo.length) s.rxFifo
          ⟨false, (s.sys p).stopDet⟩).2, s.written.length - s.txFifo.length⟩ := by
    rw [IcSys.act, hwaiting]
    simp only [sys, hroom]
  rw [hact]
  refine ⟨_, rfl, ?_⟩
  rw [IcCtl.irq]
  generalize venusI2cIsr s.xfer (txDepth - s.txFifo.length) s.rxFifo _ = res
  obtain ⟨y, cs⟩ := res
  by_cases hmode : y.mode = .idel
  · rw [leave_of_eq _ hmode]
    exact ⟨rfl, rfl, fun hne => absurd hmode hne⟩
  · rw [leave_of_ne _ hmode]
    refine ⟨rfl, rfl, fun _ => ⟨?_, ran, ?_, hreceived⟩⟩
    · rw [sys, IcSys.mk.injEq]
      refine ⟨rfl, rfl, ?_⟩
      simp only [length_append]
      omega
    · simp only [hwritten, append_assoc]

end Sys

/-- A loaded transfer, with `n` bytes to send and `m` to receive. -/
def loaded (mode : XferMode) (n m : ℕ) : VenusI2cXfer :=
  ⟨mode, 0, fun i => BitVec.ofNat 8 i, n, 0, fun _ => 0, m, 0, 0, ⟨.start, 0⟩, 0⟩

/-- A byte is sent, and as many are received as a message can have, or one less. -/
theorem venusI2cFifo_randomRead :
    (∀ (d : ℕ → BitVec 8) (steps : List IcStep), Sound (loaded .masterRandomRead 1 65534) d
      (steps.foldl (step 8 8 d) (venusI2cStartXfer (loaded .masterRandomRead 1 65534)))) ∧
    ¬∀ (d : ℕ → BitVec 8) (steps : List IcStep), Sound (loaded .masterRandomRead 1 65535) d
      (steps.foldl (step 8 8 d) (venusI2cStartXfer (loaded .masterRandomRead 1 65535))) := by
  have hx (m : ℕ) : (loaded .masterRandomRead 1 m).Loaded := ⟨.inr (.inr rfl), rfl, rfl, rfl⟩
  constructor
  · exact (venusI2cFifo_iff (hx 65534) (by decide) (by decide) (by decide) (Nat.le_refl 8)).2
      (by decide)
  · intro h
    have hfits := (venusI2cFifo_iff (hx 65535) (by decide) (by decide) (by decide)
      (Nat.le_refl 8)).1 h
    exact absurd hfits (by decide)

/-- A random read of 65536 bytes in all, with FIFOs of 8 places : there is a schedule in which the
byte to send is written to `IC_DATA_CMD` once more. -/
theorem randomRead_not_isPrefix :
    ∃ steps : List IcStep, ¬(steps.foldl (step 8 8 fun _ => 0)
        (venusI2cStartXfer (loaded .masterRandomRead 1 65535))).written <+:
      .data 0 :: replicate 65535 .read := by
  have hx : (loaded .masterRandomRead 1 65535).Loaded := ⟨.inr (.inr rfl), rfl, rfl, rfl⟩
  have htotal : 2 ^ 16 ≤ (loaded .masterRandomRead 1 65535).total := by decide
  obtain ⟨steps, t, ht, hwritten⟩ := (core_start hx (fun _ => 0) 8 8).exceeds hx (by decide)
    (by decide) (by decide) htotal (2 ^ 16 + 1) (zero_le _) (by omega)
  refine ⟨steps, ?_⟩
  rw [hwritten]
  exact not_isPrefix (x := loaded .masterRandomRead 1 65535) (by decide) (by decide) htotal ht

end IcCtl

end OpenHMR
