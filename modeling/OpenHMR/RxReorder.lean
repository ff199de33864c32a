import Mathlib.Algebra.BigOperators.Fin
import Mathlib.Logic.Function.Basic
import OpenHMR.Reorder

/-!
# Reordering of received packets (`rtllib_rx.c`, `rtl819x_TSProc.c`)

The frames of a traffic stream may arrive out of order. `RxReorderIndicatePacket` passes a packet on
if it has the number `RxIndicateSeq` that is due, and keeps it in the pending list of the stream if
it comes too early, in one of 128 entries that all streams share. A number beyond the window moves
the window, a timer gives up waiting (`RxPktPendingTimeout`), and `RemoveTsEntry` frees what is
pending. Numbers have 12 bits, and are compared by bit 11 of their difference (`SnLess`).

A call is a function from the unused entries and the stream to an `RxResult`; `RxSys` is the device
with its 16 streams. Packets are named in the order in which they arrive. `RxTrace` adds what the
code does not have : the numbers without wrap around, counted from `RxIndicateSeq` at the arrival.
-/

namespace OpenHMR

open Function

/-- `REORDER_WIN_SIZE`, the length of the array of packets to indicate. -/
def reorderWinSize : ℕ :=
  128

/-- `REORDER_ENTRY_NUM`. -/
def reorderEntryNum : ℕ :=
  128

/-- `RxReorderWinSize`. -/
def rxReorderWinSize : ℕ :=
  64

/-- `TOTAL_TS_NUM`. -/
def totalTsNum : ℕ :=
  16

/-- `SN_LESS(a, b)`, in `int`. -/
def SnLess (a b : ℕ) : Prop :=
  (a + 2 ^ 32 - b) % 2 ^ 32 &&& 0x800 ≠ 0

instance (a b : ℕ) : Decidable (SnLess a b) :=
  inferInstanceAs (Decidable (_ ≠ _))

/-- `RX_REORDER_ENTRY` in a pending list, with its place `num` in `RxReorderEntry`. -/
structure RxReorderEntry where
  num : ℕ
  seqNum : ℕ
  prxb : ℕ
  deriving DecidableEq

/-- What the calls use of `RX_TS_RECORD`. -/
structure RxTs where
  /-- The number that is due, or 0xffff. -/
  rxIndicateSeq : ℕ
  rxTimeoutIndicateSeq : ℕ
  /-- From `RxPendingPktList.next` on. -/
  pending : List RxReorderEntry
  /-- `RxPktPendingTimer` is pending. -/
  armed : Bool
  deriving DecidableEq

/-- What a call leaves : the unused entries, the stream, and the packets that it indicated and
freed. -/
structure RxResult where
  unused : List ℕ
  ts : RxTs
  indicated : List ℕ
  freed : List ℕ
  deriving DecidableEq

/-! ## The calls -/

/-- `AddReorderEntry`. It is `none` if the number is in the list. -/
def addReorderEntry (entry : RxReorderEntry) : List RxReorderEntry → Option (List RxReorderEntry)
  | [] => some [entry]
  | e :: l =>
    if SnLess entry.seqNum e.seqNum then (addReorderEntry entry l).map (e :: ·)
    else if entry.seqNum = e.seqNum then none
    else some (entry :: e :: l)

/-- What the loop over the pending list leaves. -/
structure Collected where
  /-- The entries that it took. -/
  out : List RxReorderEntry
  /-- `RxIndicateSeq`. -/
  seq : ℕ
  rest : List RxReorderEntry
  bPktInBuf : Bool
  deriving DecidableEq

/-- The loop over the pending list, from `RxPendingPktList.prev` on, with `index` packets in the
array. `RxPktPendingTimeout` does not look whether the array is full. -/
def collect (bounded : Bool) : ℕ → ℕ → List RxReorderEntry → Collected
  | seq, _, [] => ⟨[], seq, [], false⟩
  | seq, index, e :: l =>
    if SnLess e.seqNum seq ∨ e.seqNum = seq then
      if bounded = true ∧ reorderWinSize ≤ index then ⟨[], seq, e :: l, true⟩
      else
        let c := collect bounded (if e.seqNum = seq then (seq + 1) % 4096 else seq) (index + 1) l
        { c with out := e :: c.out }
    else ⟨[], seq, e :: l, true⟩

/-- The end of both calls, after the loop : the timer and `rtllib_indicate_packets`. The array
begins with the packets `first`. -/
def indicate (unused : List ℕ) (ts : RxTs) (first freed : List ℕ) (c : Collected) : RxResult :=
  let ts := { ts with rxIndicateSeq := c.seq, pending := c.rest.reverse }
  let unused := unused ++ c.out.map (·.num)
  let array := first ++ c.out.map (·.prxb)
  if 0 < array.length then
    let ts := { ts with armed := false, rxTimeoutIndicateSeq := 0xffff }
    if reorderWinSize < array.length then ⟨unused, ts, [], freed⟩
    else ⟨unused, ts, array, freed⟩
  else if c.bPktInBuf = true ∧ ts.rxTimeoutIndicateSeq = 0xffff then
    ⟨unused, { ts with armed := true, rxTimeoutIndicateSeq := ts.rxIndicateSeq }, [], freed⟩
  else ⟨unused, ts, [], freed⟩

/-- The loop of `RxReorderIndicatePacket` and what follows it. -/
def RxTs.indicateFrom (ts : RxTs) (unused first freed : List ℕ) : RxResult :=
  indicate unused ts first freed (collect true ts.rxIndicateSeq first.length ts.pending.reverse)

/-- `RxReorderIndicatePacket`. -/
def rxReorderIndicatePacket (unused : List ℕ) (ts : RxTs) (prxb seqNum : ℕ) : RxResult :=
  let winEnd := (ts.rxIndicateSeq + rxReorderWinSize - 1) % 4096
  let start := if ts.rxIndicateSeq = 0xffff then seqNum else ts.rxIndicateSeq
  if SnLess seqNum start then ⟨unused, { ts with rxIndicateSeq := start }, [], [prxb]⟩
  else if seqNum = start then
    { ts with rxIndicateSeq := (start + 1) % 4096 }.indicateFrom unused [prxb] []
  else
    let start :=
      if SnLess winEnd seqNum then
        if rxReorderWinSize - 1 ≤ seqNum then seqNum + 1 - rxReorderWinSize
        else 4095 - (rxReorderWinSize - (seqNum + 1)) + 1
      else start
    let ts := { ts with rxIndicateSeq := start }
    match unused with
    | [] => ts.indicateFrom [] [] [prxb]
    | num :: unused =>
      match addReorderEntry ⟨num, seqNum, prxb⟩ ts.pending with
      | none => ts.indicateFrom (unused ++ [num]) [] [prxb]
      | some pending => { ts with pending }.indicateFrom unused [] []

/-- `RxPktPendingTimeout`, when the timer has expired. The loop sets `RxIndicateSeq` to the number
of the first entry that it meets. -/
def rxPktPendingTimeout (unused : List ℕ) (ts : RxTs) : RxResult :=
  let ts := { ts with armed := false }
  if ts.rxTimeoutIndicateSeq ≠ 0xffff then
    match ts.pending.reverse with
    | [] => indicate unused ts [] [] ⟨[], ts.rxIndicateSeq, [], false⟩
    | e :: l => indicate unused ts [] [] (collect false e.seqNum 0 (e :: l))
  else ⟨unused, ts, [], []⟩

/-- `RemoveTsEntry`, for a stream of received packets. -/
def removeTsEntry (unused : List ℕ) (ts : RxTs) : RxResult :=
  ⟨unused ++ ts.pending.reverse.map (·.num), { ts with armed := false, pending := [] }, [],
    ts.pending.reverse.map (·.prxb)⟩

/-! ## The device -/

/-- The device, with what became of the packets. -/
structure RxSys where
  /-- `RxReorder_Unused_List`. -/
  unused : List ℕ
  rxTs : Fin totalTsNum → RxTs
  /-- The number of packets that were handed in. -/
  handed : ℕ
  /-- The packets of each stream that were indicated, in their order. -/
  indicated : Fin totalTsNum → List ℕ
  freed : List ℕ

/-- The calls. -/
inductive RxEvent where
  | receive (i : Fin totalTsNum) (seqNum : Fin 4096)
  | timeout (i : Fin totalTsNum)
  | remove (i : Fin totalTsNum)

/-- The stream of a call. -/
def RxEvent.stream : RxEvent → Fin totalTsNum
  | receive i _ => i
  | timeout i => i
  | remove i => i

namespace RxSys

/-- The device after `TSInitialize`, with streams as `ResetRxTsEntry` leaves them. -/
def init : RxSys :=
  ⟨List.range reorderEntryNum, fun _ => ⟨0xffff, 0xffff, [], false⟩, 0, fun _ => [], []⟩

/-- What a call does. -/
def result (s : RxSys) : RxEvent → RxResult
  | .receive i seqNum => rxReorderIndicatePacket s.unused (s.rxTs i) s.handed seqNum
  | .timeout i => rxPktPendingTimeout s.unused (s.rxTs i)
  | .remove i => removeTsEntry s.unused (s.rxTs i)

/-- The device after a call. -/
def step (s : RxSys) (e : RxEvent) : RxSys :=
  let r := s.result e
  { unused := r.unused
    rxTs := update s.rxTs e.stream r.ts
    handed := match e with
      | .receive _ _ => s.handed + 1
      | _ => s.handed
    indicated := update s.indicated e.stream (s.indicated e.stream ++ r.indicated)
    freed := s.freed ++ r.freed }

end RxSys

/-! ## Numbers without wrap around -/

/-- A run with the number `base` that belongs to `RxIndicateSeq` of each stream, and the numbers of
the packets. -/
structure RxTrace where
  sys : RxSys
  base : Fin totalTsNum → ℕ
  number : ℕ → ℕ

namespace RxTrace

def init : RxTrace :=
  ⟨.init, fun _ => 0, fun _ => 0⟩

/-- `RxIndicateSeq` with which a packet is compared, and its number. -/
def start (t : RxTrace) (i : Fin totalTsNum) (seqNum : ℕ) : ℕ × ℕ :=
  if (t.sys.rxTs i).rxIndicateSeq = 0xffff then (seqNum, seqNum)
  else ((t.sys.rxTs i).rxIndicateSeq, t.base i)

/-- The next state. A packet has the number of `RxIndicateSeq` and its distance from there, and
`base` moves as far as `RxIndicateSeq`. -/
def step (t : RxTrace) : RxEvent → RxTrace
  | .receive i seqNum =>
    let (start, base) := t.start i seqNum
    let sys := t.sys.step (.receive i seqNum)
    { sys
      base := update t.base i
        (base + ((sys.rxTs i).rxIndicateSeq + 4096 - start) % 4096)
      number := update t.number t.sys.handed (base + (seqNum + 4096 - start) % 4096) }
  | e =>
    let sys := t.sys.step e
    { t with
      sys
      base := update t.base e.stream (t.base e.stream +
        ((sys.rxTs e.stream).rxIndicateSeq + 4096 - (t.sys.rxTs e.stream).rxIndicateSeq) %
          4096) }

/-- The state after the calls. -/
def run (events : List RxEvent) : RxTrace :=
  events.foldl step init

end RxTrace

end OpenHMR
