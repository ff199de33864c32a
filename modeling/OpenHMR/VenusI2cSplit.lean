import OpenHMR.VenusI2cFifo

/-!
# Transfers that the I2C controller splits

The controller sends STOP as soon as its TX FIFO is empty, also in the middle of a transfer whose
interrupt comes late. A handler that is called for this STOP fills the FIFO first, and compares the
number of commands that it has put there : a read has not received its bytes then and returns
`-ECMDSPLIT`, but a write whose rest fits into the FIFO is taken for complete, and the rest is
dropped when the controller is disabled.

`venusI2cSplit_iff` : a transfer that returns a count had all its bytes between one START and STOP,
for all interrupt latencies, if and only if it is no write, or a write that fits into the FIFO. (A
FIFO of a single place is an exception : there it is the writes of two bytes that go wrong.)
-/

namespace OpenHMR

open Runs List Nat VenusI2cXfer

namespace IcCtl

/-! ## Interrupts -/

/-- `FIFO_THRESHOLD`. -/
def fifoThreshold : ℕ := 4

/-- An interrupt that is not masked is pending. `IC_TX_TL` is the threshold, and `IC_RX_TL` is the
depth of the RX FIFO less the threshold. -/
def pending (rxDepth : ℕ) (s : IcCtl) : Bool :=
  s.txAbrt || s.stopDet || s.txEmptyMask && decide (s.txFifo.length ≤ fifoThreshold) ||
    decide (s.xfer.mode ≠ .masterWrite) && decide (rxDepth - fifoThreshold < s.rxFifo.length)

/-- What can happen : an interrupt comes if one is pending, with the events that have occurred. -/
def Occurs (rxDepth : ℕ) (s : IcCtl) : IcStep → Prop
  | .exec => True
  | .abort => True
  | .irq event =>
    s.enable = true ∧ s.pending rxDepth = true ∧ event = ⟨s.txAbrt, s.stopDet⟩

/-- All bytes of a transfer were moved between one START and STOP. -/
def Whole (x : VenusI2cXfer) (closed : List (List IcCmd)) : Prop :=
  ∃ cs, closed = [cs] ∧ (range x.txBuffLen).map (fun i => .data (x.txBuff i)) <+: cs ∧
    x.rxBuffLen ≤ cs.count .read

/-- The result of a completed transfer is right. -/
def Reported (x : VenusI2cXfer) (s : IcCtl) : Prop :=
  s.xfer.mode = .idel → (0 ≤ s.xfer.ret → Whole x s.closed) ∧
    (s.xfer.ret < 0 → s.xfer.ret = ecmdsplit ∨ s.xfer.ret = etxabort)

variable {x : VenusI2cXfer} {d : ℕ → BitVec 8} {txDepth rxDepth t r : ℕ} {s : IcCtl}

/-! ## Commands on the bus -/

/-- A command changes what is known of the bus, and the RX FIFO. -/
theorem move_eq (s : IcCtl) (c : IcCmd) : s.move rxDepth d c = { s with
      opened := s.opened ++ [c]
      rxFifo := (s.move rxDepth d c).rxFifo
      received := (s.move rxDepth d c).received
      overflow := (s.move rxDepth d c).overflow } := by
  unfold move
  split
  · rfl
  · split_ifs <;> rfl

theorem opened_move (s : IcCtl) (c : IcCmd) : (s.move rxDepth d c).opened = s.opened ++ [c] := by
  rw [move_eq]

theorem closed_move (s : IcCtl) (c : IcCmd) : (s.move rxDepth d c).closed = s.closed := by
  rw [move_eq]

theorem written_move (s : IcCtl) (c : IcCmd) : (s.move rxDepth d c).written = s.written := by
  rw [move_eq]

theorem stopDet_move (s : IcCtl) (c : IcCmd) : (s.move rxDepth d c).stopDet = s.stopDet := by
  rw [move_eq]

theorem received_move (s : IcCtl) (c : IcCmd) :
    (s.move rxDepth d c).received ≤ s.received + [c].count .read := by
  unfold move
  split
  · exact Nat.le_refl _
  · split_ifs
    · exact le_succ _
    · exact Nat.le_refl _

theorem stop_of_ne (h : s.opened ≠ []) :
    s.stop = { s with closed := s.closed ++ [s.opened], opened := [] } :=
  if_neg h

theorem stop_of_eq (h : s.opened = []) : s.stop = s :=
  if_pos h

/-- The controller has not run dry. -/
structure Going (s : IcCtl) : Prop where
  stopDet : s.stopDet = false
  closed : s.closed = []
  written : s.written = s.opened ++ s.txFifo
  started : s.txFifo = [] → s.written = []
  received : s.received ≤ s.opened.count .read

/-- The controller has run dry, and has sent STOP. -/
structure Dry (s : IcCtl) : Prop where
  stopDet : s.stopDet = true
  closed : s.closed = [s.written]
  opened : s.opened = []
  txFifo : s.txFifo = []
  started : s.written ≠ []
  received : s.received ≤ s.written.count .read

theorem exec_nil (h : s.txFifo = []) : s.exec rxDepth d = s := by
  unfold IcCtl.exec
  rw [h]
  exact ite_self s

/-- The last command in the FIFO is run. -/
theorem Going.exec_last (h : s.Going) (he : s.enable = true) {c : IcCmd} (hfifo : s.txFifo = [c]) :
    (s.exec rxDepth d).Dry := by
  have hopened : (s.move rxDepth d c).opened = s.written := by
    rw [opened_move, h.written, hfifo]
  have hne : s.written ≠ [] := by
    rw [h.written, hfifo]
    exact append_ne_nil_of_right_ne_nil _ (cons_ne_nil _ _)
  have hstop : (s.move rxDepth d c).stop = _ := stop_of_ne (hopened ▸ hne)
  have hexec : s.exec rxDepth d =
      { (s.move rxDepth d c).stop with txFifo := [], stopDet := true } := by
    rw [IcCtl.exec, if_pos he, hfifo]
  rw [hexec, hstop]
  refine ⟨rfl, ?_, rfl, rfl, ?_, ?_⟩
  · change (s.move rxDepth d c).closed ++ [(s.move rxDepth d c).opened] =
      [(s.move rxDepth d c).written]
    rw [closed_move, h.closed, hopened, written_move]
    rfl
  · change (s.move rxDepth d c).written ≠ []
    rw [written_move]
    exact hne
  · change (s.move rxDepth d c).received ≤ (s.move rxDepth d c).written.count .read
    rw [written_move, h.written, hfifo, count_append]
    exact Nat.le_trans (received_move s c) (Nat.add_le_add_right h.received _)

variable {cs : List IcCmd} {y : VenusI2cXfer}

/-- A command is run that is not the last one in the FIFO. -/
theorem Going.exec_cons (h : s.Going) (he : s.enable = true) {c c' : IcCmd}
    (hfifo : s.txFifo = c :: c' :: cs) : (s.exec rxDepth d).Going := by
  have hexec : s.exec rxDepth d = { s.move rxDepth d c with txFifo := c' :: cs } := by
    rw [IcCtl.exec, if_pos he, hfifo]
  rw [hexec]
  refine ⟨?_, ?_, ?_, fun hnil => absurd hnil (cons_ne_nil _ _), ?_⟩
  · change (s.move rxDepth d c).stopDet = false
    rw [stopDet_move, h.stopDet]
  · change (s.move rxDepth d c).closed = []
    rw [closed_move, h.closed]
  · change (s.move rxDepth d c).written = (s.move rxDepth d c).opened ++ c' :: cs
    rw [written_move, h.written, opened_move, hfifo, append_assoc]
    rfl
  · change (s.move rxDepth d c).received ≤ (s.move rxDepth d c).opened.count .read
    rw [opened_move, count_append]
    exact Nat.le_trans (received_move s c) (Nat.add_le_add_right h.received _)

/-- A command is run, if there is one. -/
theorem Going.exec (h : s.Going) (he : s.enable = true) :
    (s.exec rxDepth d).Going ∨ (s.exec rxDepth d).Dry := by
  cases hfifo : s.txFifo with
  | nil =>
    rw [exec_nil hfifo]
    exact .inl h
  | cons c cs =>
    cases cs with
    | nil => exact .inr (h.exec_last he hfifo)
    | cons c' cs => exact .inl (h.exec_cons he hfifo)

/-- The controller changes neither the transfer nor what a handler has set. -/
theorem exec_eq (s : IcCtl) : s.exec rxDepth d = { s with
      txFifo := (s.exec rxDepth d).txFifo
      rxFifo := (s.exec rxDepth d).rxFifo
      stopDet := (s.exec rxDepth d).stopDet
      received := (s.exec rxDepth d).received
      overflow := (s.exec rxDepth d).overflow
      closed := (s.exec rxDepth d).closed
      opened := (s.exec rxDepth d).opened } := by
  unfold IcCtl.exec
  split_ifs
  · split
    · rfl
    · rw [stop_eq, move_eq]
    · rw [move_eq]
  · rfl

theorem txAbrt_exec (s : IcCtl) : (s.exec rxDepth d).txAbrt = s.txAbrt := by
  rw [exec_eq]

theorem txEmptyMask_exec (s : IcCtl) : (s.exec rxDepth d).txEmptyMask = s.txEmptyMask := by
  rw [exec_eq]

/-! ## What has been moved -/

/-- The first commands of a transfer are its bytes to send. -/
theorem data_isPrefix_cmds (htx : x.txBuffLen < 2 ^ 16) (ht : x.txBuffLen ≤ t) :
    (range x.txBuffLen).map (fun i => .data (x.txBuff i)) <+: x.cmds t := by
  have htake : (range x.txBuffLen).map (fun i => .data (x.txBuff i)) =
      x.cmds x.txBuffLen :=
    map_congr_left fun i hi => by
      have hlt := mem_range.1 hi
      rw [Nat.mod_eq_of_lt (by omega), cmd, if_pos hlt]
  rw [htake, cmds, cmds, ← Nat.min_eq_left ht, ← take_range]
  refine IsPrefix.map _ ?_
  exact take_prefix _ _

/-- Commands with a read come after the bytes to send. -/
theorem data_isPrefix_of_read (htx : x.txBuffLen < 2 ^ 16) (hcs : cs <+: x.cmds t)
    (hread : 0 < cs.count .read) :
    (range x.txBuffLen).map (fun i => .data (x.txBuff i)) <+: cs := by
  have hle := hcs.length_le
  rw [length_cmds] at hle
  have heq : cs = x.cmds cs.length := by
    refine (prefix_iff_eq_take.1 hcs).trans ?_
    rw [cmds, ← map_take, take_range, Nat.min_eq_left hle]
    rfl
  rcases Nat.lt_or_ge cs.length x.txBuffLen with hlt | hge
  · rw [heq, count_read_cmds x (by omega)] at hread
    omega
  · rw [heq]
    exact data_isPrefix_cmds htx hge

/-! ## The invariant -/

/-- A write cannot be split, or only in a way that is noticed. -/
def Safe (x : VenusI2cXfer) (txDepth : ℕ) : Prop :=
  x.mode = .masterWrite → x.txBuffLen ≤ txDepth ∨ txDepth = 1 ∧ 3 ≤ x.txBuffLen

/-- The commands of a write that is safe. -/
def Filled (x : VenusI2cXfer) (txDepth t : ℕ) : Prop :=
  x.mode = .masterWrite →
    (x.txBuffLen ≤ txDepth → t = 0 ∨ x.txBuffLen ≤ t) ∧ (txDepth = 1 → t ≤ 1)

/-- What is known of the bus during a transfer. A transfer without bytes is not completed by
STOP. -/
def Live (x : VenusI2cXfer) (txDepth t : ℕ) (s : IcCtl) : Prop :=
  x.count = 0 ∨ s.txAbrt = true ∨ (s.Going ∨ s.Dry) ∧ Filled x txDepth t

/-- The transfer goes on, or its result is right. -/
def SplitInv (x : VenusI2cXfer) (d : ℕ → BitVec 8) (txDepth rxDepth : ℕ) (s : IcCtl) : Prop :=
  (∃ t r, Core x d txDepth rxDepth t r s ∧ Live x txDepth t s) ∨ s.enable = false ∧ s.Reported x

theorem Live.exec (h : Live x txDepth t s) (he : s.enable = true) :
    Live x txDepth t (s.exec rxDepth d) := by
  rcases h with h | h | ⟨h | h, hfilled⟩
  · exact .inl h
  · exact .inr (.inl ((txAbrt_exec s).trans h))
  · exact .inr (.inr ⟨h.exec he, hfilled⟩)
  · rw [exec_nil h.txFifo]
    exact .inr (.inr ⟨.inr h, hfilled⟩)

theorem Live.abort (he : s.enable = true) : Live x txDepth t s.abort := by
  refine .inr (.inl ?_)
  rw [IcCtl.abort, if_pos he]

/-- A handler keeps what is known of the commands of a write. -/
theorem Going.filled (hx : x.Loaded) (htx : x.txBuffLen < 2 ^ 16) (h : s.Going)
    (hc : Core x d txDepth rxDepth t r s) (hfilled : Filled x txDepth t) :
    Filled x txDepth (x.next (txDepth - s.txFifo.length) t) := by
  intro hm
  obtain ⟨hshort, hone⟩ := hfilled hm
  have hrx := rxBuffLen_of_write hx hm
  have htotal : x.total = x.txBuffLen := by rw [total, hrx, add_zero]
  have hlen := congrArg length h.written
  rw [hc.written, length_cmds, length_append] at hlen
  have hnext : x.next (txDepth - s.txFifo.length) t =
      min x.txBuffLen (t + (txDepth - s.txFifo.length)) := by
    rw [VenusI2cXfer.next, htotal, if_pos htx]
  have hstarted : s.txFifo.length = 0 → t = 0 := fun hzero => by
    have hwritten := h.started (eq_nil_of_length_eq_zero hzero)
    rw [hc.written] at hwritten
    rw [← length_cmds x t, hwritten]
    rfl
  rw [hnext]
  refine ⟨fun hle => ?_, fun hdepth => ?_⟩
  · have := hshort hle
    omega
  · have := hone hdepth
    omega

/-- A handler leaves a transfer that goes on. -/
theorem Going.leave (h : s.Going) (hmode : y.mode ≠ .idel) :
    (s.leave y cs).Going := by
  rw [leave_of_ne _ hmode]
  refine ⟨rfl, h.closed, ?_, fun hnil => ?_, h.received⟩
  · change s.written ++ cs = s.opened ++ (s.txFifo ++ cs)
    rw [h.written, append_assoc]
  · obtain ⟨hfifo, hnone⟩ := append_eq_nil_iff.1 hnil
    change s.written ++ cs = []
    rw [h.started hfifo, hnone]
    rfl

/-- The interrupt that completes a transfer with a count. -/
theorem Going.whole (h : s.Going) (htx : x.txBuffLen < 2 ^ 16)
    (hc : Core x d txDepth rxDepth t r s) (hread : x.rxBuffLen ≠ 0)
    (hreceived : x.rxBuffLen ≤ s.received) :
    Whole x s.stop.closed := by
  have hcount := Nat.le_trans hreceived h.received
  have hne : s.opened ≠ [] := fun hnil => by
    rw [hnil, count_nil] at hcount
    omega
  have hopened : s.opened <+: x.cmds t := ⟨s.txFifo, by rw [← h.written, hc.written]⟩
  refine ⟨s.opened, ?_, data_isPrefix_of_read htx hopened (by omega), hcount⟩
  rw [stop_of_ne hne]
  change s.closed ++ [s.opened] = _
  rw [h.closed]
  rfl

/-- A transfer that is complete was whole. -/
theorem Dry.whole (h : s.Dry) (hx : x.Loaded) (htx : x.txBuffLen < 2 ^ 16)
    (hc : Core x d txDepth rxDepth t r s) (hfilled : Filled x txDepth t) (hsafe : Safe x txDepth)
    (hcount : x.count ≠ 0)
    (hcomplete : x.Complete (x.next (txDepth - s.txFifo.length) t) (min s.received x.rxBuffLen)) :
    Whole x s.stop.closed := by
  have hstop : s.stop.closed = [x.cmds t] := by rw [stop_of_eq h.opened, h.closed, hc.written]
  have hreceived := h.received
  rw [hc.written] at hreceived
  refine ⟨x.cmds t, hstop, ?_⟩
  by_cases hm : x.mode = .masterWrite
  · rw [VenusI2cXfer.Complete, if_pos hm] at hcomplete
    have hrx := rxBuffLen_of_write hx hm
    have ht : t ≠ 0 := fun hzero => h.started (by rw [hc.written, hzero]; rfl)
    have hle := next_le x (txDepth - s.txFifo.length) t
    obtain ⟨hshort, hone⟩ := hfilled hm
    have hdata : x.txBuffLen ≤ t := by
      rcases hsafe hm with hfits | ⟨hdepth, hmany⟩
      · have := hshort hfits
        omega
      · have := hone hdepth
        omega
    exact ⟨data_isPrefix_cmds htx hdata, by omega⟩
  · rw [VenusI2cXfer.Complete, if_neg hm] at hcomplete
    have hlen : x.count = x.rxBuffLen := if_neg hm
    exact ⟨data_isPrefix_of_read htx (prefix_refl _) (by omega), by omega⟩

/-- The end of a transfer. -/
theorem splitInv_leave (hmode : y.mode = .idel) (hwhole : 0 ≤ y.ret → Whole x s.stop.closed)
    (hneg : y.ret < 0 → y.ret = ecmdsplit ∨ y.ret = etxabort) :
    SplitInv x d txDepth rxDepth (s.leave y cs) := by
  rw [leave_of_eq _ hmode]
  exact .inr ⟨rfl, fun _ => ⟨hwhole, hneg⟩⟩

/-- The interrupt of the events that have occurred. -/
theorem Live.irq (hx : x.Loaded) (htx : x.txBuffLen < 2 ^ 16) (hrx : x.rxBuffLen < 2 ^ 16)
    (hsafe : Safe x txDepth) (hc : Core x d txDepth rxDepth t r s) (h : Live x txDepth t s) :
    SplitInv x d txDepth rxDepth (s.irq txDepth ⟨s.txAbrt, s.stopDet⟩) := by
  obtain ⟨y, cs, heq, hcs, hout⟩ := hc.irq hx htx hrx ⟨s.txAbrt, s.stopDet⟩
  rw [heq]
  cases hout with
  | goesOn habrt hstop hgoes =>
    refine .inl ⟨_, _, hc.goesOn hx htx hcs hgoes, ?_⟩
    rcases h with h | h | ⟨h | h, hfilled⟩
    · exact .inl h
    · rw [h] at habrt
      contradiction
    · exact .inr (.inr ⟨.inl (h.leave (moved_mode_ne hx _ _ _)), h.filled hx htx hc hfilled⟩)
    · exact .inl (hstop h.stopDet)
  | aborted =>
    exact splitInv_leave rfl (fun hpos => absurd hpos (by decide : ¬0 ≤ etxabort)) fun _ =>
      .inr rfl
  | split =>
    exact splitInv_leave rfl (fun hpos => absurd hpos (by decide : ¬0 ≤ ecmdsplit)) fun _ =>
      .inl rfl
  | completed habrt hcomplete hstop hcount =>
    refine splitInv_leave rfl (fun _ => ?_) fun hneg =>
      absurd hneg (Int.not_lt.2 (Int.natCast_nonneg _))
    rcases h with h | h | ⟨h | h, hfilled⟩
    · exact absurd h hcount
    · rw [h] at habrt
      contradiction
    · have hm : x.mode ≠ .masterWrite := fun hm => by
        have hdet := hstop hm
        rw [h.stopDet] at hdet
        contradiction
      have hlen : x.count = x.rxBuffLen := if_neg hm
      rw [VenusI2cXfer.Complete, if_neg hm] at hcomplete
      exact h.whole htx hc (by omega) (by omega)
    · exact h.whole hx htx hc hfilled hsafe hcount hcomplete

/-- Every step keeps the invariant. -/
theorem SplitInv.step (hx : x.Loaded) (htx : x.txBuffLen < 2 ^ 16) (hrx : x.rxBuffLen < 2 ^ 16)
    (hsafe : Safe x txDepth) (h : SplitInv x d txDepth rxDepth s) {a : IcStep}
    (ha : s.Occurs rxDepth a) : SplitInv x d txDepth rxDepth (s.step txDepth rxDepth d a) := by
  rcases h with ⟨t, r, hc, hlive⟩ | ⟨hoff, hreported⟩
  · cases a with
    | exec => exact .inl ⟨t, r, hc.exec, hlive.exec hc.enable⟩
    | abort => exact .inl ⟨t, r, hc.abort, Live.abort hc.enable⟩
    | irq event =>
      obtain ⟨-, -, rfl⟩ := ha
      exact hlive.irq hx htx hrx hsafe hc
  · have hne : ¬s.enable = true := by
      rw [hoff]
      exact Bool.false_ne_true
    cases a with
    | exec =>
      rw [IcCtl.step, IcCtl.exec, if_neg hne]
      exact .inr ⟨hoff, hreported⟩
    | abort =>
      rw [IcCtl.step, IcCtl.abort, if_neg hne]
      exact .inr ⟨hoff, hreported⟩
    | irq event => exact absurd ha.1 hne

theorem splitInv_start (hx : x.Loaded) (d : ℕ → BitVec 8) (txDepth rxDepth : ℕ) :
    SplitInv x d txDepth rxDepth (venusI2cStartXfer x) := by
  refine .inl ⟨0, 0, core_start hx d txDepth rxDepth, .inr (.inr ⟨.inl ?_, fun _ => ?_⟩)⟩
  · exact ⟨rfl, rfl, rfl, fun _ => rfl, Nat.le_refl 0⟩
  · exact ⟨fun _ => .inl rfl, fun _ => zero_le 1⟩

theorem SplitInv.reported (hx : x.Loaded) (h : SplitInv x d txDepth rxDepth s) : s.Reported x := by
  rcases h with ⟨t, r, hc, -⟩ | ⟨-, h⟩
  · intro hmode
    rw [hc.xfer] at hmode
    exact absurd hmode (moved_mode_ne hx _ _ _)
  · exact h

/-! ## A write that is split -/

/-- A write goes on, and waits for `TX_EMPTY`. -/
structure Ready (x : VenusI2cXfer) (d : ℕ → BitVec 8) (txDepth rxDepth t r : ℕ) (s : IcCtl) :
    Prop where
  core : Core x d txDepth rxDepth t r s
  going : s.Going
  txAbrt : s.txAbrt = false
  txEmptyMask : s.txEmptyMask = true

/-- The controller runs all commands but the last. -/
theorem Ready.execs : ∀ (k : ℕ) {s : IcCtl}, Ready x d txDepth rxDepth t r s →
    s.txFifo.length = k + 1 → ∃ steps : List IcStep,
      Each (step txDepth rxDepth d) (Occurs rxDepth) s steps ∧
        Ready x d txDepth rxDepth t r (steps.foldl (step txDepth rxDepth d) s) ∧
          (steps.foldl (step txDepth rxDepth d) s).txFifo.length = 1
  | 0, _, h, hlen => ⟨[], trivial, h, hlen⟩
  | k + 1, s, h, hlen => by
    obtain ⟨c, c', cs, hfifo⟩ : ∃ c c' cs, s.txFifo = c :: c' :: cs := by
      match hfifo : s.txFifo, hlen with
      | c :: c' :: cs, _ => exact ⟨c, c', cs, rfl⟩
    have hready : Ready x d txDepth rxDepth t r (s.exec rxDepth d) :=
      ⟨h.core.exec, h.going.exec_cons h.core.enable hfifo, (txAbrt_exec s).trans h.txAbrt,
        (txEmptyMask_exec s).trans h.txEmptyMask⟩
    have htail : (s.exec rxDepth d).txFifo.length = k + 1 := by
      rw [exec_txFifo h.core.enable, length_tail, hlen]
      rfl
    obtain ⟨steps, heach, hready', hone⟩ := Ready.execs k hready htail
    exact ⟨.exec :: steps, ⟨trivial, heach⟩, hready', hone⟩

section Write

variable (hx : x.Loaded) (htx : x.txBuffLen < 2 ^ 16) (hm : x.mode = .masterWrite)
include hx htx hm

theorem next_of_write (room t : ℕ) : x.next room t = min x.txBuffLen (t + room) := by
  have htotal : x.total = x.txBuffLen := by
    rw [total, rxBuffLen_of_write hx hm, add_zero]
  rw [VenusI2cXfer.next, htotal, if_pos htx]

/-- An interrupt fills the FIFO, and more bytes are left. -/
theorem Ready.irq (h : Ready x d txDepth rxDepth t r s) (hlen : s.txFifo.length ≤ fifoThreshold)
    (hmore : t + (txDepth - s.txFifo.length) < x.txBuffLen) :
    s.Occurs rxDepth (.irq ⟨false, false⟩) ∧
      Ready x d txDepth rxDepth (t + (txDepth - s.txFifo.length)) (min s.received x.rxBuffLen)
        (s.irq txDepth ⟨false, false⟩) ∧
      (s.irq txDepth ⟨false, false⟩).txFifo.length = txDepth := by
  have hrx : x.rxBuffLen < 2 ^ 16 := by
    rw [rxBuffLen_of_write hx hm]
    decide
  have hnext : x.next (txDepth - s.txFifo.length) t = t + (txDepth - s.txFifo.length) := by
    rw [next_of_write hx htx hm]
    omega
  have hfits := h.core.fifos
  refine ⟨⟨h.core.enable, ?_, by rw [h.txAbrt, h.going.stopDet]⟩, ?_⟩
  · rw [pending, h.txEmptyMask, decide_eq_true hlen]
    simp
  · obtain ⟨y, cs, heq, hcs, hout⟩ := h.core.irq hx htx hrx ⟨false, false⟩
    cases hout with
    | goesOn habrt hstop hgoes =>
      have hcore := h.core.goesOn hx htx hcs hgoes
      rw [hnext] at hcore hcs heq
      have hadded := congrArg length hcs
      rw [length_append, h.core.written, length_cmds, length_cmds] at hadded
      rw [heq]
      refine ⟨⟨hcore, h.going.leave (moved_mode_ne hx _ _ _), ?_, ?_⟩, ?_⟩
      · rw [leave_of_ne _ (moved_mode_ne hx _ _ _)]
      · rw [leave_of_ne _ (moved_mode_ne hx _ _ _)]
        have htotal : s.xfer.txTotal = x.txBuffLen := by
          rw [h.core.xfer]
          simp only [txTotal, moved, hm]
        change (s.txEmptyMask && decide ((t + (txDepth - s.txFifo.length)) % 2 ^ 16 <
          s.xfer.txTotal)) = true
        rw [h.txEmptyMask, htotal, mod_eq_of_lt (by omega), decide_eq_true hmore]
        rfl
      · rw [leave_of_ne _ (moved_mode_ne hx _ _ _)]
        change (s.txFifo ++ cs).length = txDepth
        rw [length_append]
        omega
    | aborted habrt => exact absurd habrt Bool.false_ne_true
    | split _ hstop => exact absurd hstop Bool.false_ne_true
    | completed _ _ hstop => exact absurd (hstop hm) Bool.false_ne_true

/-- The controller runs dry when the rest fits into the FIFO : the result says that all bytes have
been sent. -/
theorem Ready.fails (h : Ready x d txDepth rxDepth t r s) (hone : s.txFifo.length = 1)
    (hlt : t < x.txBuffLen) (hrest : x.txBuffLen ≤ t + txDepth) :
    Each (step txDepth rxDepth d) (Occurs rxDepth) s [.exec, .irq ⟨false, true⟩] ∧
      ¬Reported x ([IcStep.exec, .irq ⟨false, true⟩].foldl (step txDepth rxDepth d) s) := by
  have hrx : x.rxBuffLen < 2 ^ 16 := by
    rw [rxBuffLen_of_write hx hm]
    decide
  obtain ⟨c, hfifo⟩ := length_eq_one_iff.1 hone
  have hdry : (s.exec rxDepth d).Dry := h.going.exec_last h.core.enable hfifo
  have hcore : Core x d txDepth rxDepth t r (s.exec rxDepth d) := h.core.exec
  have habrt : (s.exec rxDepth d).txAbrt = false := (txAbrt_exec s).trans h.txAbrt
  refine ⟨⟨trivial, ⟨hcore.enable, ?_, ?_⟩, trivial⟩, ?_⟩
  · change (s.exec rxDepth d).pending rxDepth = true
    rw [pending, hdry.stopDet, Bool.or_true]
    rfl
  · change _ = (⟨(s.exec rxDepth d).txAbrt, (s.exec rxDepth d).stopDet⟩ : IcEvent)
    rw [habrt, hdry.stopDet]
  · change ¬Reported x ((s.exec rxDepth d).irq txDepth ⟨false, true⟩)
    generalize s.exec rxDepth d = s' at hdry hcore
    have hnext : x.next (txDepth - s'.txFifo.length) t = x.txBuffLen := by
      rw [next_of_write hx htx hm, hdry.txFifo]
      exact Nat.min_eq_left hrest
    have hcount : x.count = x.txBuffLen := if_pos hm
    obtain ⟨y, cs, heq, hcs, hout⟩ := hcore.irq hx htx hrx ⟨false, true⟩
    rw [heq]
    cases hout with
    | goesOn _ hstop _ =>
      have := hstop rfl
      omega
    | aborted habrt => exact absurd habrt Bool.false_ne_true
    | split _ _ hcomplete =>
      rw [VenusI2cXfer.Complete, if_pos hm, hnext] at hcomplete
      exact absurd (Nat.le_refl _) hcomplete
    | completed =>
      intro hreported
      rw [leave_of_eq _ rfl] at hreported
      have hwhole : Whole x s'.stop.closed := (hreported rfl).1 (Int.natCast_nonneg _)
      obtain ⟨sent, hclosed, hdata, -⟩ := hwhole
      rw [stop_of_eq hdry.opened, hdry.closed, singleton_inj] at hclosed
      have hle := hdata.length_le
      rw [← hclosed, hcore.written, length_cmds, length_map, length_range] at hle
      omega

/-- A write that is longer than the FIFO can be split without notice. -/
theorem Ready.splits (hdepth : 2 ≤ txDepth ∨ x.txBuffLen ≤ 2) : ∀ (k : ℕ) {s : IcCtl} {t r : ℕ},
    Ready x d txDepth rxDepth t r s → s.txFifo ≠ [] → t < x.txBuffLen → x.txBuffLen ≤ t + k →
    0 < txDepth → ∃ steps : List IcStep,
      Each (step txDepth rxDepth d) (Occurs rxDepth) s steps ∧
        ¬Reported x (steps.foldl (step txDepth rxDepth d) s)
  | 0, _, _, _, _, _, hlt, hle, _ => absurd hlt (Nat.not_lt.2 hle)
  | k + 1, s, t, r, h, hne, hlt, hle, hpos => by
    obtain ⟨j, hj⟩ := exists_eq_succ_of_ne_zero (mt eq_nil_of_length_eq_zero hne)
    obtain ⟨steps, heach, hready, hone⟩ := h.execs j hj
    by_cases hrest : x.txBuffLen ≤ t + txDepth
    · obtain ⟨hlast, hfails⟩ := hready.fails hx htx hm hone hlt hrest
      refine ⟨steps ++ [.exec, .irq ⟨false, true⟩], heach.append hlast, ?_⟩
      rw [foldl_append]
      exact hfails
    · generalize hs' : steps.foldl (step txDepth rxDepth d) s = s' at hready hone
      have hwritten := congrArg length hready.going.written
      rw [hready.core.written, length_cmds, length_append, hone] at hwritten
      obtain ⟨hoccurs, hready', hlen⟩ := hready.irq hx htx hm (by rw [hone]; decide) (by omega)
      have hne' : (s'.irq txDepth ⟨false, false⟩).txFifo ≠ [] := fun hnil => by
        rw [hnil, length_nil] at hlen
        omega
      obtain ⟨more, hmore, hnot⟩ := Ready.splits hdepth k hready' hne' (by omega) (by omega) hpos
      refine ⟨steps ++ .irq ⟨false, false⟩ :: more, heach.append ?_, ?_⟩
      · rw [hs']
        exact ⟨hoccurs, hmore⟩
      · rw [foldl_append, hs']
        exact hnot

end Write

/-- For all lengths and interrupt latencies, a transfer that is completed with a count had all its
bytes between one START and STOP, and another one returns `-ECMDSPLIT` or `-ETXABORT`, if and only
if it is no write, or a write that fits into the FIFO. With a FIFO of one place, a write of three
bytes or more is always found to be split. -/
theorem venusI2cSplit_iff (hx : x.Loaded) (htx : x.txBuffLen < 2 ^ 16) (hrx : x.rxBuffLen < 2 ^ 16)
    (hpos : 0 < txDepth) :
    (∀ (d : ℕ → BitVec 8) (steps : List IcStep),
      Each (step txDepth rxDepth d) (Occurs rxDepth) (venusI2cStartXfer x) steps →
        Reported x (steps.foldl (step txDepth rxDepth d) (venusI2cStartXfer x))) ↔
      (x.mode = .masterWrite → x.txBuffLen ≤ txDepth ∨ txDepth = 1 ∧ 3 ≤ x.txBuffLen) := by
  constructor
  · intro hall hm
    by_contra hlong
    have hready : Ready x (fun _ => 0) txDepth rxDepth 0 0 (venusI2cStartXfer x) :=
      ⟨core_start hx _ _ _, ⟨rfl, rfl, rfl, fun _ => rfl, Nat.le_refl 0⟩, rfl, rfl⟩
    have hmore : 0 + (txDepth - (venusI2cStartXfer x).txFifo.length) < x.txBuffLen := by
      change 0 + (txDepth - 0) < _
      omega
    obtain ⟨hoccurs, hready', hlen⟩ := hready.irq hx htx hm (zero_le _) hmore
    have hne : ((venusI2cStartXfer x).irq txDepth ⟨false, false⟩).txFifo ≠ [] := fun hnil => by
      rw [hnil, length_nil] at hlen
      omega
    obtain ⟨steps, heach, hnot⟩ := hready'.splits hx htx hm (by omega) x.txBuffLen hne hmore
      (le_add_left _ _) hpos
    exact hnot (hall (fun _ => 0) (.irq ⟨false, false⟩ :: steps) ⟨hoccurs, heach⟩)
  · intro hsafe d steps heach
    have hstep (s : IcCtl) (a : IcStep) (h : SplitInv x d txDepth rxDepth s)
        (ha : s.Occurs rxDepth a) : SplitInv x d txDepth rxDepth (step txDepth rxDepth d s a) :=
      h.step hx htx hrx hsafe ha
    exact (heach.foldl hstep (splitInv_start hx d txDepth rxDepth)).reported hx

/-- Writes of 8 and of 9 bytes, with a FIFO of 8 places. -/
theorem venusI2cSplit_iff_eight :
    (∀ (d : ℕ → BitVec 8) (steps : List IcStep),
      Each (step 8 8 d) (Occurs 8) (venusI2cStartXfer (loaded .masterWrite 8 0)) steps →
        Reported (loaded .masterWrite 8 0)
          (steps.foldl (step 8 8 d) (venusI2cStartXfer (loaded .masterWrite 8 0)))) ∧
    ¬∀ (d : ℕ → BitVec 8) (steps : List IcStep),
      Each (step 8 8 d) (Occurs 8) (venusI2cStartXfer (loaded .masterWrite 9 0)) steps →
        Reported (loaded .masterWrite 9 0)
          (steps.foldl (step 8 8 d) (venusI2cStartXfer (loaded .masterWrite 9 0))) := by
  have hx (n : ℕ) : (loaded .masterWrite n 0).Loaded := ⟨.inl ⟨rfl, rfl⟩, rfl, rfl, rfl⟩
  constructor
  · exact (venusI2cSplit_iff (hx 8) (by decide) (by decide) (by decide)).2 fun _ =>
      .inl (Nat.le_refl 8)
  · intro h
    have hsafe := (venusI2cSplit_iff (hx 9) (by decide) (by decide) (by decide)).1 h rfl
    exact absurd hsafe (by decide)

/-- A write of 9 bytes, with a FIFO of 8 places. The controller sends 8 bytes and STOP before the
second interrupt, and the result is 9. -/
theorem venusI2cSplit_nine :
    let steps := IcStep.irq ⟨false, false⟩ :: replicate 8 .exec ++ [.irq ⟨false, true⟩]
    let s := steps.foldl (step 8 8 fun _ => 0) (venusI2cStartXfer (loaded .masterWrite 9 0))
    Each (step 8 8 fun _ => 0) (Occurs 8) (venusI2cStartXfer (loaded .masterWrite 9 0)) steps ∧
      s.xfer.mode = .idel ∧ s.xfer.ret = 9 ∧
      s.closed = [(range 8).map fun i => .data (BitVec.ofNat 8 i)] := by
  refine ⟨⟨⟨rfl, rfl, rfl⟩, ?_⟩, rfl, rfl, rfl⟩
  exact ⟨trivial, trivial, trivial, trivial, trivial, trivial, trivial, trivial, ⟨rfl, rfl, rfl⟩,
    trivial⟩

end IcCtl

end OpenHMR
