import Mathlib.Order.Nat
import OpenHMR.CecMars
import OpenHMR.Runs

/-!
# Completion of the messages of the CEC transmitter

Every section of the adapter moves messages from the queue to `xmit.cmb` and from there to the
completed ones (`MarsCec.TxMoves`), so that a message is completed once at most. `tx_stop` completes
all messages of the queue and turns the transmitter off. But `mars_cec_xmit_message` tests
`xmit.enable` before it puts its message into the queue : a message that is queued after `tx_stop`
is never completed (`not_cecTransmits`). All is well if and only if each message is queued while the
transmitter is on (`cecTransmits_iff`).
-/

namespace OpenHMR

open Runs List CecSys

namespace MarsCec

variable {s s' : MarsCec} {cmb : CmBuff}

/-- The transmitter has a message exactly while it sends, and none while it is off. -/
structure TxOk (s : MarsCec) : Prop where
  off : s.xmit.enable = false → s.xmit.cmb = none
  state : s.xmit.state = .idel ∧ s.xmit.cmb = none ∨ s.xmit.state = .xmit ∧ s.xmit.cmb.isSome

/-- The messages that are queued and sent, by their names. -/
def txMessages (s : MarsCec) : List ℕ :=
  (s.txQueue ++ s.xmit.cmb.toList).map (·.id)

/-- The section of a call that leads from `s` to `s'` and completes the messages `l`. It turns the
transmitter off with an empty queue only. -/
structure TxMoves (s s' : MarsCec) (l : List CmBuff) : Prop where
  ok : s'.TxOk
  perm : (s'.txMessages ++ l.map (·.id)).Perm s.txMessages
  off : s'.xmit.enable = false → (s.xmit.enable = false → s.txQueue = []) → s'.txQueue = []

theorem TxOk.moves (h : s.TxOk) : s.TxMoves s [] :=
  ⟨h, by simp, fun henable hoff => hoff henable⟩

theorem id_pull (cmb : CmBuff) (len : ℕ) : (cmb.pull len).id = cmb.id := by
  unfold CmBuff.pull
  split_ifs <;> rfl

theorem id_txComplete (cmb : CmBuff) : cmb.txComplete.id = cmb.id := by
  unfold CmBuff.txComplete
  split_ifs <;> rfl

theorem txDone_moves {cmb' : CmBuff} (status : XmitStatus) (hcmb : s.xmit.cmb = some cmb)
    (hid : cmb'.id = cmb.id) : s.TxMoves (s.txDone cmb' status).1 (s.txDone cmb' status).2 := by
  refine ⟨⟨fun _ => rfl, .inl ⟨rfl, rfl⟩⟩, ?_, fun henable hoff => hoff henable⟩
  simp [txDone, rxReset, txMessages, hcmb, id_txComplete, hid]

/-- The work in the state `xmit`. -/
theorem txTransmit_moves (hw : TxHw) (h : s.TxOk) (hstate : s.xmit.state = .xmit)
    (hcmb : s.xmit.cmb = some cmb) :
    s.TxMoves (s.txTransmit hw cmb).1 (s.txTransmit hw cmb).2 := by
  have hid : (if hw.txInt = true ∧ cmb.bytes ≠ [] then cmb.writeTxFifo hw.level else cmb).id =
      cmb.id := by
    split_ifs
    exacts [id_pull _ _, rfl]
  unfold txTransmit
  by_cases hen : hw.txEn
  · rw [if_pos hen]
    by_cases hlate : hw.late
    · simp only [if_pos hlate]
      exact txDone_moves _ hcmb hid
    · simp only [if_neg hlate]
      refine ⟨⟨fun henable => ?_, .inr ⟨hstate, rfl⟩⟩, ?_, fun henable hoff => hoff henable⟩
      · have := h.off henable
        simp [hcmb] at this
      · simp [txMessages, hcmb, hid]
  · rw [if_neg hen]
    exact txDone_moves _ hcmb rfl

theorem txProgress_moves (hw : TxHw) (h : s.TxOk) :
    s.TxMoves (s.txProgress hw).1 (s.txProgress hw).2 := by
  unfold txProgress
  split
  · exact txTransmit_moves hw h ‹_› ‹_›
  · exact h.moves

/-- The next message is taken. -/
theorem txNext_moves (hw : TxHw) (h : s.TxOk) (hidel : s.xmit.state = .idel) :
    s.TxMoves (s.txNext hw) [] := by
  have hnone : s.xmit.cmb = none := by
    rcases h.state with ⟨-, hnone⟩ | ⟨hstate, -⟩
    · exact hnone
    · simp [hidel] at hstate
  unfold txNext
  split_ifs with henable
  · split
    · exact ⟨⟨fun _ => rfl, .inl ⟨hidel, rfl⟩⟩, by simp [txMessages, hnone],
        fun h => by simp [henable] at h⟩
    · rename_i cmb q hqueue
      refine ⟨⟨fun h => ?_, .inr ⟨rfl, rfl⟩⟩, ?_, fun h => ?_⟩
      · simp [rxReset, henable] at h
      · simp [rxReset, txMessages, hnone, hqueue, CmBuff.writeTxFifo, id_pull]
      · simp [rxReset, henable] at h
  · exact h.moves

theorem TxMoves.trans {s'' : MarsCec} {l l' : List CmBuff} (h : s.TxMoves s' l)
    (h' : s'.TxMoves s'' l') : s.TxMoves s'' (l ++ l') := by
  refine ⟨h'.ok, ?_, fun henable hoff => h'.off henable fun h1 => h.off h1 hoff⟩
  have hswap : (s''.txMessages ++ (l ++ l').map (·.id)).Perm
      (s''.txMessages ++ l'.map (·.id) ++ l.map (·.id)) := by
    rw [map_append, append_assoc]
    exact perm_append_comm.append_left _
  exact hswap.trans ((h'.perm.append_right _).trans h.perm)

theorem txWork_moves (hw : TxHw) (h : s.TxOk) : s.TxMoves (s.txWork hw).1 (s.txWork hw).2 := by
  have hmoves := txProgress_moves hw h
  unfold txWork
  simp only []
  split_ifs with hidel
  · have := hmoves.trans (txNext_moves hw hmoves.ok hidel)
    rwa [append_nil] at this
  · exact hmoves

theorem txStart_moves (h : s.TxOk) : s.TxMoves s.txStart [] := by
  unfold txStart
  split_ifs with henable
  · exact h.moves
  · have hnone := h.off (by simpa using henable)
    exact ⟨⟨fun _ => rfl, .inl ⟨rfl, rfl⟩⟩, by simp [txMessages, hnone], fun h => nomatch h⟩

theorem txStop_moves (h : s.TxOk) : s.TxMoves s.txStop.1 s.txStop.2 := by
  unfold txStop
  split_ifs with henable
  · refine ⟨⟨fun _ => rfl, .inl ⟨rfl, rfl⟩⟩, ?_, fun _ _ => rfl⟩
    have hid : ∀ l : List CmBuff, (l.map (·.txComplete)).map (·.id) = l.map (·.id) := fun l => by
      simp [id_txComplete]
    simp only [txMessages, Option.toList_none, append_nil, map_nil, nil_append, hid, map_append]
    exact perm_append_comm
  · exact h.moves

end MarsCec

/-! ### The receive side -/

namespace MarsCec

variable {s s' : MarsCec}

/-- A section that does not touch the transmitter. -/
def SameTx (s s' : MarsCec) : Prop :=
  s'.xmit = s.xmit ∧ s'.txQueue = s.txQueue

theorem TxOk.moves_of_sameTx (h : s.TxOk) (hs : s.SameTx s') : s.TxMoves s' [] := by
  obtain ⟨hxmit, hqueue⟩ := hs
  refine ⟨⟨?_, ?_⟩, ?_, ?_⟩
  · rw [hxmit]
    exact h.off
  · rw [hxmit]
    exact h.state
  · simp [txMessages, hxmit, hqueue]
  · rw [hxmit, hqueue]
    exact fun henable hoff => hoff henable

theorem rxReceive_sameTx (hw : RxHw) (cmb : CmBuff) (s : MarsCec) :
    s.SameTx (s.rxReceive hw cmb) := by
  unfold rxReceive
  split_ifs
  · cases cmb.readRxFifo hw.fifo <;> exact ⟨rfl, rfl⟩
  all_goals exact ⟨rfl, rfl⟩

theorem rxRestart_sameTx (hw : RxHw) (s : MarsCec) : s.SameTx (s.rxRestart hw).1 := by
  unfold rxRestart rxTake
  split_ifs
  · exact ⟨rfl, rfl⟩
  · split <;> rename_i htake
    · exact ⟨rfl, rfl⟩
    · split at htake <;> cases htake <;> exact ⟨rfl, rfl⟩

theorem rxWork_sameTx (hw : RxHw) (s : MarsCec) : s.SameTx (s.rxWork hw).1 := by
  have hprogress : s.SameTx (s.rxProgress hw) := by
    unfold rxProgress
    split
    · exact rxReceive_sameTx hw _ s
    · exact ⟨rfl, rfl⟩
  have hrestart := rxRestart_sameTx hw (s.rxProgress hw)
  unfold rxWork
  split_ifs
  · exact ⟨rfl, rfl⟩
  · exact ⟨rfl, rfl⟩
  · simp only []
    split_ifs
    · exact ⟨hrestart.1.trans hprogress.1, hrestart.2.trans hprogress.2⟩
    · exact hprogress

theorem rxStart_sameTx (s : MarsCec) : s.SameTx s.rxStart := by
  unfold rxStart
  split_ifs <;> exact ⟨rfl, rfl⟩

theorem rxStop_sameTx (s : MarsCec) : s.SameTx s.rxStop := by
  unfold rxStop
  split_ifs <;> exact ⟨rfl, rfl⟩

end MarsCec

/-! ## Runs -/

namespace CecSys

/-- All messages of the threads, the adapter and those that are completed. -/
def messages (s : CecSys) : List ℕ :=
  s.submitting.map (·.id) ++ s.cec.txMessages ++ s.completed.map (·.id)

structure TxInv (s : CecSys) : Prop where
  ok : s.cec.TxOk
  nodup : s.messages.Nodup
  lt : ∀ i ∈ s.messages, i < s.allocs

/-- What is expected of the transmitter : no message is completed twice, the transmitter has a
message exactly while it sends, and when it is off there is no message left. -/
structure Transmits (s : CecSys) : Prop where
  once : (s.completed.map (·.id)).Nodup
  state : s.cec.xmit.state = .xmit ↔ s.cec.xmit.cmb ≠ none
  off : s.cec.xmit.enable = false → s.cec.txQueue = [] ∧ s.cec.xmit.cmb = none

/-- A message is queued while the transmitter is on. -/
def QueuesOn (s : CecSys) : CecEvent → Prop
  | .queue cmb => cmb ∈ s.submitting → s.cec.xmit.enable = true
  | _ => True

variable {s : CecSys}

theorem txInv_init : init.TxInv :=
  ⟨⟨fun _ => rfl, .inl ⟨rfl, rfl⟩⟩, nodup_nil, fun _ h => nomatch h⟩

variable (h : s.TxInv)

include h

theorem TxInv.transmits (hoff : s.cec.xmit.enable = false → s.cec.txQueue = []) :
    s.Transmits := by
  refine ⟨h.nodup.sublist (sublist_append_right _ _), ?_, fun henable =>
    ⟨hoff henable, h.ok.off henable⟩⟩
  rcases h.ok.state with ⟨hstate, hcmb⟩ | ⟨hstate, hcmb⟩
  · simp [hstate, hcmb]
  · simpa [hstate, Option.isSome_iff_ne_none] using hcmb

variable {cec : MarsCec} {l : List CmBuff} {allocs : ℕ}

/-- A section of the adapter. -/
theorem TxInv.of_moves (hm : s.cec.TxMoves cec l) (hallocs : s.allocs ≤ allocs) (readers : ℕ) :
    TxInv ⟨cec, allocs, readers, s.submitting, s.completed ++ l⟩ := by
  have hperm :
      (messages ⟨cec, allocs, readers, s.submitting, s.completed ++ l⟩).Perm s.messages := by
    simp only [messages, map_append]
    have hswap : (s.completed.map (·.id) ++ l.map (·.id)).Perm
        (l.map (·.id) ++ s.completed.map (·.id)) := perm_append_comm
    refine (hswap.append_left _).trans ?_
    rw [← append_assoc, append_assoc (s.submitting.map (·.id))]
    exact (hm.perm.append_left _).append_right _
  exact ⟨hm.ok, hperm.nodup_iff.2 h.nodup, fun i hi =>
    (h.lt i (hperm.mem_iff.1 hi)).trans_le hallocs⟩

variable (ht : s.Transmits)

include ht

/-- A step of the adapter keeps what is expected. -/
theorem transmits_of_moves (hm : s.cec.TxMoves cec l) (hallocs : s.allocs ≤ allocs) (readers : ℕ) :
    TxInv ⟨cec, allocs, readers, s.submitting, s.completed ++ l⟩ ∧
      Transmits ⟨cec, allocs, readers, s.submitting, s.completed ++ l⟩ := by
  have hinv := h.of_moves hm hallocs readers
  exact ⟨hinv, hinv.transmits fun henable => hm.off henable fun h => (ht.off h).1⟩

theorem transmits_of_sameTx (cec : MarsCec) (hs : s.cec.SameTx cec) (hallocs : s.allocs ≤ allocs)
    (readers : ℕ) :
    TxInv ⟨cec, allocs, readers, s.submitting, s.completed⟩ ∧
      Transmits ⟨cec, allocs, readers, s.submitting, s.completed⟩ := by
  have hmoves := transmits_of_moves h ht (h.ok.moves_of_sameTx hs) hallocs readers
  rwa [append_nil] at hmoves

theorem transmits_read : s.read.TxInv ∧ s.read.Transmits := by
  unfold read
  split
  · exact ⟨h, ht⟩
  · rename_i q _
    exact transmits_of_sameTx h ht { s.cec with rxQueue := q } ⟨rfl, rfl⟩ le_rfl _

theorem transmits_refill :
    s.refill.TxInv ∧ s.refill.Transmits := by
  unfold refill
  split_ifs
  · exact ⟨h, ht⟩
  · exact transmits_of_sameTx h ht
      { s.cec with rxFreeQueue := s.cec.rxFreeQueue ++ [CmBuff.alloc s.allocs rxBufferSize] }
      ⟨rfl, rfl⟩ (Nat.le_succ _) _

/-- A new message. -/
theorem transmits_xmitMessage (bytes : List UInt8) (nonblock : Bool) :
    (s.xmitMessage bytes nonblock).TxInv ∧ (s.xmitMessage bytes nonblock).Transmits := by
  unfold xmitMessage
  split_ifs
  · obtain ⟨cmb, hcmb⟩ : ∃ cmb : CmBuff, cmb = ⟨s.allocs, bytes.length, 0, bytes, .waitXmit,
      nonblock⟩ := ⟨_, rfl⟩
    have hid : cmb.id = s.allocs := by rw [hcmb]
    rw [← hcmb]
    have hperm : (messages
        { s with allocs := s.allocs + 1, submitting := s.submitting ++ [cmb] }).Perm
          (s.allocs :: s.messages) := by
      simp [messages, hid]
    have hnew : s.allocs ∉ s.messages := fun hmem => lt_irrefl _ (h.lt _ hmem)
    have hinv : TxInv { s with allocs := s.allocs + 1, submitting := s.submitting ++ [cmb] } := by
      refine ⟨h.ok, hperm.nodup_iff.2 (nodup_cons.2 ⟨hnew, h.nodup⟩), fun i hi => ?_⟩
      rcases mem_cons.1 (hperm.mem_iff.1 hi) with rfl | hi
      exacts [Nat.lt_succ_self _, Nat.lt_succ_of_lt (h.lt i hi)]
    exact ⟨hinv, hinv.transmits fun henable => (ht.off henable).1⟩
  · exact transmits_of_sameTx h ht _ ⟨rfl, rfl⟩ (Nat.le_succ _) _

/-- A message is put into the queue. -/
theorem transmits_queue (cmb : CmBuff) :
    (s.queue cmb).TxInv ∧ ((s.queue cmb).Transmits ↔ s.QueuesOn (.queue cmb)) := by
  unfold queue QueuesOn
  split_ifs with hmem
  · have hperm : (messages { s with
        cec := { s.cec with txQueue := s.cec.txQueue ++ [cmb] }
        submitting := s.submitting.erase cmb }).Perm s.messages := by
      have herase : (cmb.id :: (s.submitting.erase cmb).map (·.id)).Perm
          (s.submitting.map (·.id)) := ((perm_cons_erase hmem).map CmBuff.id).symm
      refine List.Perm.append_right _ ?_
      refine List.Perm.trans ?_ (herase.append_right _)
      simp only [MarsCec.txMessages, map_append, map_cons, map_nil, append_assoc, cons_append]
      exact (perm_middle.append_left _).trans perm_middle
    have hinv : TxInv { s with
        cec := { s.cec with txQueue := s.cec.txQueue ++ [cmb] }
        submitting := s.submitting.erase cmb } :=
      ⟨⟨h.ok.off, h.ok.state⟩, hperm.nodup_iff.2 h.nodup, fun i hi => h.lt i (hperm.mem_iff.1 hi)⟩
    refine ⟨hinv, fun htransmits _ => ?_, fun hon => ?_⟩
    · by_contra hoff
      have hnil := (htransmits.off (by simpa using hoff)).1
      simp at hnil
    · refine hinv.transmits fun henable => ?_
      have := hon hmem
      simp [this] at henable
  · exact ⟨h, iff_of_true ht fun hmem' => absurd hmem' hmem⟩

/-- Any event : a message is stuck only if it is queued while the transmitter is off. -/
theorem transmits_step (e : CecEvent) :
    (s.step e).TxInv ∧ ((s.step e).Transmits ↔ s.QueuesOn e) := by
  -- a step that queues nothing
  have hkeep : ∀ {s' : CecSys}, s'.TxInv ∧ s'.Transmits → s'.TxInv ∧ (s'.Transmits ↔ True) :=
    fun ⟨h1, h2⟩ => ⟨h1, iff_of_true h2 trivial⟩
  cases e with
  | rxStart => exact hkeep (transmits_of_sameTx h ht _ s.cec.rxStart_sameTx le_rfl _)
  | rxStop => exact hkeep (transmits_of_sameTx h ht _ s.cec.rxStop_sameTx le_rfl _)
  | rxWork hw => exact hkeep (transmits_of_sameTx h ht _ (s.cec.rxWork_sameTx hw) le_rfl _)
  | txStart =>
    have hmoves := transmits_of_moves h ht (MarsCec.txStart_moves h.ok) le_rfl s.readers
    rw [append_nil] at hmoves
    exact hkeep hmoves
  | txStop => exact hkeep (transmits_of_moves h ht (MarsCec.txStop_moves h.ok) le_rfl _)
  | txWork hw => exact hkeep (transmits_of_moves h ht (MarsCec.txWork_moves hw h.ok) le_rfl _)
  | read => exact hkeep (transmits_read h ht)
  | refill => exact hkeep (transmits_refill h ht)
  | xmitMessage bytes nonblock => exact hkeep (transmits_xmitMessage h ht bytes nonblock)
  | queue cmb => exact transmits_queue h ht cmb

end CecSys

/-- In each state of a run the transmitter is as expected, if and only if each message of the run is
queued while the transmitter is on. -/
theorem cecTransmits_iff (events : List CecEvent) :
    Always step CecSys.Transmits .init events ↔
      Each step CecSys.QueuesOn .init events :=
  always_iff_each (a := fun _ _ => True) (fun _ e h ht _ => transmits_step h ht e)
    txInv_init (txInv_init.transmits fun _ => rfl) (.of_forall fun _ _ => trivial)

/-- A thread finds the transmitter on, it is stopped, and then the message is queued. -/
theorem not_cecTransmits :
    ¬ Always step CecSys.Transmits .init [.txStart, .xmitMessage [0x0F] false, .txStop,
      .queue ⟨8, 1, 0, [0x0F], .waitXmit, false⟩] := by
  rintro ⟨-, -, -, -, h⟩
  have hnil := (h.off (by decide)).1
  revert hnil
  decide

end OpenHMR
