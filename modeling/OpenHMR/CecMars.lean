import Mathlib.Data.List.Basic
import Mathlib.Data.Int.Notation

/-!
# The CEC adapter (`drivers/cec/adapter/cec_mars.c`)

The adapter receives messages into buffers (`cm_buff`) of a ring of 8, and sends the messages of a
queue. A buffer for reception is in `rcv.cmb`, in the queue of received messages, in the queue of
free buffers, or with a reader who has taken it and has not yet put a new one into its place. A
message to send is in the transmit queue or in `xmit.cmb`, until it is completed.

The sections under `lock` are functions on `MarsCec` (`rxWork`, `txWork`, `rxStart` and so on), with
what the hardware says as an argument. `CecSys` is the adapter with the threads that read and that
send : `mars_cec_xmit_message` tests `xmit.enable` and puts its message into the queue in two steps,
and `mars_cec_read_message` takes a message and puts a new buffer into the free queue in two steps.
-/

namespace OpenHMR

/-! ## Message buffers -/

/-- `status` of a message to send. -/
inductive XmitStatus where
  | waitXmit | ok | fail | timeout | abort
  deriving DecidableEq

/-- `cm_buff`, where `id` is its place in the order of allocation, `room` is the number of bytes
before `data`, and `bytes` are those from `data` to `tail`. -/
structure CmBuff where
  id : ℕ
  size : ℕ
  room : ℕ
  bytes : List UInt8
  status : XmitStatus
  /-- `flags & NONBLOCK`. -/
  nonblock : Bool
  deriving DecidableEq

namespace CmBuff

/-- `alloc_cmb`. -/
def alloc (id size : ℕ) : CmBuff :=
  ⟨id, size, 0, [], .ok, false⟩

/-- `cmb_tailroom`. -/
def tailroom (cmb : CmBuff) : ℕ :=
  cmb.size - (cmb.room + cmb.bytes.length)

/-- `cmb_purge`. -/
def purge (cmb : CmBuff) : CmBuff :=
  { cmb with room := 0, bytes := [] }

/-- `cmb_reserve`, of an empty buffer. -/
def reserve (cmb : CmBuff) (len : ℕ) : CmBuff :=
  { cmb with room := cmb.room + len }

/-- `cmb_put`, with the bytes that are then written. -/
def put (cmb : CmBuff) (l : List UInt8) : CmBuff :=
  { cmb with bytes := cmb.bytes ++ l }

/-- `cmb_push` of one byte. -/
def push (cmb : CmBuff) (b : UInt8) : CmBuff :=
  { cmb with room := cmb.room - 1, bytes := b :: cmb.bytes }

/-- `cmb_pull`. -/
def pull (cmb : CmBuff) (len : ℕ) : CmBuff :=
  if len ≤ cmb.bytes.length then
    { cmb with room := cmb.room + len, bytes := cmb.bytes.drop len }
  else cmb

/-- `_read_rx_fifo`, which is `none` if there is no room. -/
def readRxFifo (cmb : CmBuff) (fifo : List UInt8) : Option CmBuff :=
  if fifo.length ≤ cmb.tailroom then some (cmb.put fifo) else none

/-- `_write_tx_fifo`, with `level` bytes in the FIFO. -/
def writeTxFifo (cmb : CmBuff) (level : ℕ) : CmBuff :=
  cmb.pull (min cmb.bytes.length (0x0F - level))

/-- `_cmb_tx_complete`. -/
def txComplete (cmb : CmBuff) : CmBuff :=
  if cmb.nonblock = false ∧ cmb.status = .waitXmit then { cmb with status := .abort } else cmb

end CmBuff

/-! ## The adapter -/

/-- `RX_RING_LENGTH`. -/
def rxRingLength : ℕ :=
  8

/-- `RX_BUFFER_SIZE`. -/
def rxBufferSize : ℕ :=
  64

/-- The states of `xmit` and of `rcv`. -/
inductive CecState where
  | idel | xmit | rcv
  deriving DecidableEq

/-- `mars_cec_xmit` and `mars_cec_rcv`. -/
structure CecPort where
  enable : Bool
  state : CecState
  cmb : Option CmBuff
  deriving DecidableEq

/-- `mars_cec`. -/
structure MarsCec where
  xmit : CecPort
  rcv : CecPort
  txQueue : List CmBuff
  rxQueue : List CmBuff
  rxFreeQueue : List CmBuff
  deriving DecidableEq

/-- What the registers say to `mars_cec_rx_work`. -/
structure RxHw where
  /-- `MIS_CEC_RX0 & RX_EN`. -/
  rxEn : Bool
  /-- `MIS_CEC_RX1 & RX_INT`. -/
  rxInt : Bool
  /-- `MIS_CEC_RX1 & RX_EOM`. -/
  rxEom : Bool
  /-- The bytes in the FIFO, as many as `MIS_CEC_RX1 & 0x0F`. -/
  fifo : List UInt8
  /-- `MIS_CEC_RX0 & 0xF`. -/
  initiator : UInt8
  /-- `MIS_CEC_CR0 & 0xF`. -/
  logicalAddr : UInt8
  /-- `MIS_CEC_TX_DATA2`. -/
  txData2 : ℕ

/-- What the registers and the clock say to `mars_cec_tx_work`. -/
structure TxHw where
  /-- `MIS_CEC_TX0 & TX_EN`. -/
  txEn : Bool
  /-- `MIS_CEC_TX1 & TX_INT`. -/
  txInt : Bool
  /-- `MIS_CEC_TX1 & TX_EOM`. -/
  txEom : Bool
  /-- `MIS_CEC_TX1 & 0x0F`. -/
  level : ℕ
  /-- `MIS_CEC_TX1 & 0x0F` after the FIFO is reset. -/
  levelReset : ℕ
  /-- `time_after(jiffies, p_xmit->timeout)`. -/
  late : Bool

namespace MarsCec

/-- `mars_cec_rx_reset`. -/
def rxReset (s : MarsCec) : MarsCec :=
  { s with rcv := { s.rcv with state := .idel } }

/-! ### Reception -/

/-- A frame in progress, or at its end. -/
def rxReceive (hw : RxHw) (cmb : CmBuff) (s : MarsCec) : MarsCec :=
  if hw.rxEn then
    if hw.rxInt then
      match cmb.readRxFifo hw.fifo with
      | none => { s with rcv := { s.rcv with state := .idel } }
      | some cmb => { s with rcv := { s.rcv with cmb := some cmb } }
    else s
  else
    let idel := { s with rcv := { s.rcv with state := .idel } }
    let header := hw.initiator <<< 4 ||| hw.logicalAddr
    -- `_read_rx_fifo` is 0 for an empty FIFO, and also not 0 if there is no room
    if hw.rxEom = true ∧ hw.fifo ≠ [] then
      let cmb := (cmb.readRxFifo hw.fifo).getD cmb
      { idel with
        rcv := { idel.rcv with cmb := none }
        rxQueue := s.rxQueue ++ [cmb.push header] }
    else idel

/-- The part of `mars_cec_rx_work` for the state `RCV`. -/
def rxProgress (hw : RxHw) (s : MarsCec) : MarsCec :=
  match s.rcv.state, s.rcv.cmb with
  | .rcv, some cmb => s.rxReceive hw cmb
  | _, _ => s

/-- The buffer for the next frame, and the queues without it. -/
def rxTake (s : MarsCec) : Option (CmBuff × MarsCec) :=
  match s.rcv.cmb, s.rxFreeQueue, s.rxQueue with
  | some cmb, _, _ => some (cmb, s)
  | none, cmb :: q, _ => some (cmb, { s with rxFreeQueue := q })
  | none, [], cmb :: q => some (cmb, { s with rxQueue := q })
  | none, [], [] => none

/-- The next frame. It says whether no buffer is left. -/
def rxRestart (hw : RxHw) (s : MarsCec) : MarsCec × Bool :=
  if hw.txData2 ≠ 1 then (s, false)
  else
    match s.rxTake with
    | none => (s, true)
    | some (cmb, s) =>
      ({ s with rcv := { s.rcv with state := .rcv, cmb := some (cmb.purge.reserve 1) } }, false)

/-- `mars_cec_rx_work`. It says whether no buffer is left. -/
def rxWork (hw : RxHw) (s : MarsCec) : MarsCec × Bool :=
  if s.rcv.enable = false then
    if s.rcv.state = .rcv then
      ({ s with rcv := { s.rcv with state := .idel, cmb := none } }, false)
    else (s, false)
  else
    let s := s.rxProgress hw
    if s.rcv.state = .idel then s.rxRestart hw else (s, false)

/-- `mars_cec_rx_start`. -/
def rxStart (s : MarsCec) : MarsCec :=
  if s.rcv.enable then s else { s with rcv := ⟨true, .idel, none⟩ }

/-- `mars_cec_rx_stop`. -/
def rxStop (s : MarsCec) : MarsCec :=
  if s.rcv.enable then
    { s with
      rcv := ⟨false, .idel, none⟩
      rxQueue := []
      rxFreeQueue := s.rxFreeQueue ++ (s.rcv.cmb.toList ++ s.rxQueue).map (·.purge.reserve 1) }
  else s

/-! ### Transmission -/

/-- The end of a message, with the message that is completed. -/
def txDone (cmb : CmBuff) (status : XmitStatus) (s : MarsCec) : MarsCec × List CmBuff :=
  (rxReset { s with xmit := { s.xmit with state := .idel, cmb := none } },
    [{ cmb with status }.txComplete])

/-- A message in progress, or at its end. -/
def txTransmit (hw : TxHw) (cmb : CmBuff) (s : MarsCec) : MarsCec × List CmBuff :=
  if hw.txEn then
    let cmb := if hw.txInt = true ∧ cmb.bytes ≠ [] then cmb.writeTxFifo hw.level else cmb
    if hw.late then s.txDone cmb .timeout
    else ({ s with xmit := { s.xmit with cmb := some cmb } }, [])
  else s.txDone cmb (if hw.txEom then .ok else .fail)

/-- The part of `mars_cec_tx_work` for the state `XMIT`. -/
def txProgress (hw : TxHw) (s : MarsCec) : MarsCec × List CmBuff :=
  match s.xmit.state, s.xmit.cmb with
  | .xmit, some cmb => s.txTransmit hw cmb
  | _, _ => (s, [])

/-- The next message of the queue. -/
def txNext (hw : TxHw) (s : MarsCec) : MarsCec :=
  if s.xmit.enable then
    match s.txQueue with
    | [] => { s with xmit := { s.xmit with cmb := none } }
    | cmb :: q =>
      rxReset { s with
        txQueue := q
        xmit :=
          { s.xmit with state := .xmit, cmb := some ((cmb.pull 1).writeTxFifo hw.levelReset) } }
  else s

/-- `mars_cec_tx_work`, with the message that it completes. -/
def txWork (hw : TxHw) (s : MarsCec) : MarsCec × List CmBuff :=
  let (s, completed) := s.txProgress hw
  (if s.xmit.state = .idel then s.txNext hw else s, completed)

/-- `mars_cec_tx_start`. -/
def txStart (s : MarsCec) : MarsCec :=
  if s.xmit.enable then s else { s with xmit := ⟨true, .idel, none⟩ }

/-- `mars_cec_tx_stop`, with the messages that it completes. -/
def txStop (s : MarsCec) : MarsCec × List CmBuff :=
  if s.xmit.enable then
    ({ s.rxReset with xmit := ⟨false, .idel, none⟩, txQueue := [] },
      (s.xmit.cmb.toList ++ s.txQueue).map (·.txComplete))
  else (s, [])

end MarsCec

/-! ## The threads -/

/-- The adapter and its threads. -/
structure CecSys where
  cec : MarsCec
  /-- The number of buffers that were allocated. -/
  allocs : ℕ
  /-- The number of readers that have a message and did not refill the free queue yet. -/
  readers : ℕ
  /-- The messages of the threads that have found `xmit.enable`, and did not queue them yet. -/
  submitting : List CmBuff
  /-- The messages that were completed, in their order. -/
  completed : List CmBuff
  deriving DecidableEq

/-- The steps of the interrupt, the work queue and the threads. -/
inductive CecEvent where
  | rxStart
  | rxStop
  | rxWork (hw : RxHw)
  | txStart
  | txStop
  | txWork (hw : TxHw)
  /-- `mars_cec_read_message` takes a message. -/
  | read
  /-- `mars_cec_read_message` puts a new buffer into the free queue. -/
  | refill
  /-- `mars_cec_xmit_message` tests `xmit.enable`. -/
  | xmitMessage (bytes : List UInt8) (nonblock : Bool)
  /-- `mars_cec_xmit_message` puts its message into the queue. -/
  | queue (cmb : CmBuff)

namespace CecSys

/-- The adapter after `mars_cec_init`. -/
def init : CecSys where
  cec :=
    { xmit := ⟨false, .idel, none⟩
      rcv := ⟨false, .idel, none⟩
      txQueue := []
      rxQueue := []
      rxFreeQueue := (List.range rxRingLength).map (CmBuff.alloc · rxBufferSize) }
  allocs := rxRingLength
  readers := 0
  submitting := []
  completed := []

/-- A section of the transmit side. -/
def complete (s : CecSys) (r : MarsCec × List CmBuff) : CecSys :=
  { s with cec := r.1, completed := s.completed ++ r.2 }

/-- `mars_cec_read_message`, up to `cmb_dequeue`. -/
def read (s : CecSys) : CecSys :=
  match s.cec.rxQueue with
  | [] => s
  | _ :: q => { s with cec := { s.cec with rxQueue := q }, readers := s.readers + 1 }

/-- `mars_cec_read_message`, after `cmb_dequeue`. -/
def refill (s : CecSys) : CecSys :=
  if s.readers = 0 then s
  else
    { s with
      cec := { s.cec with
        rxFreeQueue := s.cec.rxFreeQueue ++ [CmBuff.alloc s.allocs rxBufferSize] }
      allocs := s.allocs + 1
      readers := s.readers - 1 }

/-- `mars_cec_xmit_message`, up to `cmb_queue_tail`, with a new message. -/
def xmitMessage (s : CecSys) (bytes : List UInt8) (nonblock : Bool) : CecSys :=
  if s.cec.xmit.enable then
    { s with
      allocs := s.allocs + 1
      submitting := s.submitting ++ [⟨s.allocs, bytes.length, 0, bytes, .waitXmit, nonblock⟩] }
  else { s with allocs := s.allocs + 1 }

/-- `cmb_queue_tail` in `mars_cec_xmit_message`. -/
def queue (s : CecSys) (cmb : CmBuff) : CecSys :=
  if cmb ∈ s.submitting then
    { s with
      cec := { s.cec with txQueue := s.cec.txQueue ++ [cmb] }
      submitting := s.submitting.erase cmb }
  else s

/-- One step. -/
def step (s : CecSys) : CecEvent → CecSys
  | .rxStart => { s with cec := s.cec.rxStart }
  | .rxStop => { s with cec := s.cec.rxStop }
  | .rxWork hw => { s with cec := (s.cec.rxWork hw).1 }
  | .txStart => { s with cec := s.cec.txStart }
  | .txStop => s.complete s.cec.txStop
  | .txWork hw => s.complete (s.cec.txWork hw)
  | .read => s.read
  | .refill => s.refill
  | .xmitMessage bytes nonblock => s.xmitMessage bytes nonblock
  | .queue cmb => s.queue cmb

/-- The steps of a run. -/
def run (events : List CecEvent) : CecSys :=
  events.foldl step init

end CecSys

end OpenHMR
