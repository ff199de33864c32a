import Mathlib.Order.Nat
import OpenHMR.CecMars
import OpenHMR.Runs

/-!
# The buffers of the CEC receiver

Every section of the adapter only moves the buffers for reception among `rcv.cmb`, the queue of
messages and the queue of free buffers (`MarsCec.RxKeeps`). A reader takes one away and brings a new
one, so that 8 buffers are always in the three places or owed by readers (`cec_buffers`), and as
long as not all are owed the receiver finds one.
-/

namespace OpenHMR

open List Option MarsCec CecSys CmBuff

namespace MarsCec

variable {s s' : MarsCec} {hw : RxHw} {cmb : CmBuff}

/-- The buffers for reception, by their names. -/
def rxBuffers (s : MarsCec) : List ℕ :=
  (s.rcv.cmb.toList ++ s.rxQueue ++ s.rxFreeQueue).map (·.id)

/-- The receiver has a buffer while it receives, and none while it is off. -/
structure RxOk (s : MarsCec) : Prop where
  off : s.rcv.enable = false → s.rcv.state = .idel ∧ s.rcv.cmb = none
  state : s.rcv.state = .idel ∨ s.rcv.state = .rcv ∧ s.rcv.cmb.isSome

/-- The section of a call that leads from `s` to `s'` moves buffers only. -/
structure RxKeeps (s s' : MarsCec) : Prop where
  ok : s'.RxOk
  perm : s'.rxBuffers.Perm s.rxBuffers

theorem RxOk.keeps (h : s.RxOk) : s.RxKeeps s :=
  ⟨h, .refl _⟩

theorem RxKeeps.trans {s'' : MarsCec} (h : s.RxKeeps s') (h' : s'.RxKeeps s'') : s.RxKeeps s'' :=
  ⟨h'.ok, h'.perm.trans h.perm⟩

theorem readRxFifo_id {fifo : List UInt8} {cmb' : CmBuff} (h : cmb.readRxFifo fifo = some cmb') :
    cmb'.id = cmb.id := by
  unfold readRxFifo at h
  split_ifs at h
  obtain rfl := some.inj h
  rfl

theorem rxReceive_keeps (henable : s.rcv.enable = true) (hstate : s.rcv.state = .rcv)
    (hcmb : s.rcv.cmb = some cmb) : s.RxKeeps (s.rxReceive hw cmb) := by
  have hon : ∀ {p : Prop}, s.rcv.enable = false → p := fun h => by simp [henable] at h
  unfold rxReceive
  split_ifs with hen hint heom
  · cases hread : cmb.readRxFifo hw.fifo with
    | none => exact ⟨⟨hon, .inl rfl⟩, .refl _⟩
    | some cmb' =>
      refine ⟨⟨hon, .inr ⟨hstate, rfl⟩⟩, ?_⟩
      simp [rxBuffers, hcmb, readRxFifo_id hread]
  · exact ⟨⟨hon, .inr ⟨hstate, by rw [hcmb]; rfl⟩⟩, .refl _⟩
  · refine ⟨⟨hon, .inl rfl⟩, ?_⟩
    have hid : ((cmb.readRxFifo hw.fifo).getD cmb).id = cmb.id := by
      cases hread : cmb.readRxFifo hw.fifo with
      | none => rfl
      | some cmb' => exact readRxFifo_id hread
    simp [rxBuffers, hcmb, push, hid]
  · exact ⟨⟨hon, .inl rfl⟩, .refl _⟩

theorem rxReceive_enable (hw : RxHw) (cmb : CmBuff) (s : MarsCec) :
    (s.rxReceive hw cmb).rcv.enable = s.rcv.enable := by
  unfold rxReceive
  split_ifs
  · cases cmb.readRxFifo hw.fifo <;> rfl
  all_goals rfl

theorem rxProgress_keeps (hw : RxHw) (henable : s.rcv.enable = true) (h : s.RxOk) :
    s.RxKeeps (s.rxProgress hw) ∧ (s.rxProgress hw).rcv.enable = true := by
  unfold rxProgress
  split
  · exact ⟨rxReceive_keeps henable ‹_› ‹_›, (rxReceive_enable ..).trans henable⟩
  · exact ⟨h.keeps, henable⟩

/-- The buffer for the next frame is one of them. -/
theorem rxTake_eq_some (h : s.rxTake = some (cmb, s')) :
    s'.rcv = s.rcv ∧ (cmb.id :: (s'.rxQueue ++ s'.rxFreeQueue).map (·.id)).Perm s.rxBuffers := by
  unfold rxTake at h
  split at h
  · obtain ⟨rfl, rfl⟩ := Prod.mk.inj (some.inj h)
    simp_all [rxBuffers]
  · obtain ⟨rfl, rfl⟩ := Prod.mk.inj (some.inj h)
    refine ⟨rfl, ?_⟩
    simp_all only [rxBuffers]
    simpa using perm_middle.symm
  · obtain ⟨rfl, rfl⟩ := Prod.mk.inj (some.inj h)
    simp_all [rxBuffers]
  · cases h

theorem rxTake_eq_none (h : s.rxTake = none) : s.rxBuffers = [] := by
  unfold rxTake at h
  split at h
  all_goals simp_all [rxBuffers]

theorem rxRestart_keeps (hw : RxHw) (henable : s.rcv.enable = true) (hstate : s.rcv.state = .idel) :
    s.RxKeeps (s.rxRestart hw).1 ∧ ((s.rxRestart hw).2 = true → s.rxBuffers = []) := by
  have hok : s.RxOk := ⟨fun h => by simp [henable] at h, .inl hstate⟩
  unfold rxRestart
  split_ifs
  · exact ⟨hok.keeps, fun h => nomatch h⟩
  · cases htake : s.rxTake with
    | none => exact ⟨hok.keeps, fun _ => rxTake_eq_none htake⟩
    | some r =>
      obtain ⟨cmb, s'⟩ := r
      obtain ⟨hrcv, hperm⟩ := rxTake_eq_some htake
      refine ⟨⟨⟨fun h => ?_, .inr ⟨rfl, rfl⟩⟩, ?_⟩, fun h => nomatch h⟩
      · simp [hrcv, henable] at h
      · simpa [rxBuffers, purge, reserve] using hperm

/-- The work of the receiver. -/
theorem rxWork_keeps (h : s.RxOk) :
    s.RxKeeps (s.rxWork hw).1 ∧ ((s.rxWork hw).2 = true → s.rxBuffers = []) := by
  unfold rxWork
  split_ifs with henable hrcv
  · rw [(h.off henable).1] at hrcv
    cases hrcv
  · exact ⟨h.keeps, fun h => nomatch h⟩
  · have henable' : s.rcv.enable = true := by simpa using henable
    obtain ⟨hkeeps, henable1⟩ := rxProgress_keeps hw henable' h
    simp only []
    split_ifs with hidel
    · obtain ⟨hrestart, hnone⟩ := rxRestart_keeps hw henable1 hidel
      refine ⟨hkeeps.trans hrestart, fun hlost => ?_⟩
      have hnil := hkeeps.perm
      rw [hnone hlost] at hnil
      exact hnil.nil_eq.symm
    · exact ⟨hkeeps, fun h => nomatch h⟩

theorem rxStart_keeps (h : s.RxOk) : s.RxKeeps s.rxStart := by
  unfold rxStart
  split_ifs with henable
  · exact h.keeps
  · have hoff := h.off (by simpa using henable)
    refine ⟨⟨(fun h => nomatch h), .inl rfl⟩, ?_⟩
    simp [rxBuffers, hoff.2]

theorem rxStop_keeps (h : s.RxOk) : s.RxKeeps s.rxStop := by
  unfold rxStop
  split_ifs with henable
  · refine ⟨⟨fun _ => ⟨rfl, rfl⟩, .inl rfl⟩, ?_⟩
    have hid (l : List CmBuff) : (l.map (·.purge.reserve 1)).map (·.id) = l.map (·.id) := by
      simp [purge, reserve]
    simp only [rxBuffers, toList_none, nil_append, map_append, hid]
    exact perm_append_comm
  · exact h.keeps

/-! ### The transmit side -/

theorem txDone_keeps (status : XmitStatus) (h : s.RxOk) : s.RxKeeps (s.txDone cmb status).1 :=
  ⟨⟨fun henable => ⟨rfl, (h.off henable).2⟩, .inl rfl⟩, .refl _⟩

theorem txProgress_keeps (hw : TxHw) (h : s.RxOk) : s.RxKeeps (s.txProgress hw).1 := by
  unfold txProgress txTransmit
  split
  · by_cases hen : hw.txEn
    · rw [if_pos hen]
      by_cases hlate : hw.late
      · rw [if_pos hlate]
        exact txDone_keeps _ h
      · rw [if_neg hlate]
        exact ⟨⟨h.off, h.state⟩, .refl _⟩
    · rw [if_neg hen]
      exact txDone_keeps _ h
  · exact h.keeps

theorem txNext_keeps (hw : TxHw) (h : s.RxOk) : s.RxKeeps (s.txNext hw) := by
  unfold txNext
  split_ifs
  · split
    · exact ⟨⟨h.off, h.state⟩, .refl _⟩
    · exact ⟨⟨fun henable => ⟨rfl, (h.off henable).2⟩, .inl rfl⟩, .refl _⟩
  · exact h.keeps

theorem txWork_keeps (hw : TxHw) (h : s.RxOk) : s.RxKeeps (s.txWork hw).1 := by
  have hkeeps := txProgress_keeps hw h
  unfold txWork
  simp only []
  split_ifs
  · exact hkeeps.trans (txNext_keeps hw hkeeps.ok)
  · exact hkeeps

theorem txStart_keeps (h : s.RxOk) : s.RxKeeps s.txStart := by
  unfold txStart
  split_ifs
  · exact h.keeps
  · exact ⟨⟨h.off, h.state⟩, .refl _⟩

theorem txStop_keeps (h : s.RxOk) : s.RxKeeps s.txStop.1 := by
  unfold txStop
  split_ifs
  · exact ⟨⟨fun henable => ⟨rfl, (h.off henable).2⟩, .inl rfl⟩, .refl _⟩
  · exact h.keeps

end MarsCec

/-! ## Runs -/

namespace CecSys

/-- The buffers for reception are different, and 8 with those that readers owe. -/
structure RxInv (s : CecSys) : Prop where
  ok : s.cec.RxOk
  nodup : s.cec.rxBuffers.Nodup
  lt : ∀ i ∈ s.cec.rxBuffers, i < s.allocs
  length : s.cec.rxBuffers.length + s.readers = rxRingLength

variable {s : CecSys}

theorem rxInv_init : init.RxInv :=
  ⟨⟨fun _ => ⟨rfl, rfl⟩, .inl rfl⟩, by decide, by decide, by decide⟩

theorem RxInv.of_keeps (h : s.RxInv) {cec : MarsCec} (hk : s.cec.RxKeeps cec) {allocs : ℕ}
    (hallocs : s.allocs ≤ allocs) (submitting completed : List CmBuff) :
    RxInv ⟨cec, allocs, s.readers, submitting, completed⟩ :=
  ⟨hk.ok, hk.perm.nodup_iff.2 h.nodup,
    fun i hi => (h.lt i (hk.perm.mem_iff.1 hi)).trans_le hallocs,
    by rw [hk.perm.length_eq, h.length]⟩

/-- A buffer is read. -/
theorem RxInv.read (h : s.RxInv) : s.read.RxInv := by
  unfold CecSys.read
  split
  · exact h
  · rename_i cmb q hqueue
    have hperm : (s.cec.rxBuffers).Perm
        (cmb.id :: rxBuffers { s.cec with rxQueue := q }) := by
      simp only [rxBuffers, hqueue, map_append, map_cons, append_assoc, cons_append]
      exact perm_middle
    have hnodup := nodup_cons.1 (hperm.nodup_iff.1 h.nodup)
    refine ⟨⟨h.ok.off, h.ok.state⟩, hnodup.2, fun i hi => ?_, ?_⟩
    · exact h.lt i (hperm.mem_iff.2 (mem_cons_of_mem _ hi))
    · have hlength := h.length
      rw [hperm.length_eq, length_cons] at hlength
      change (rxBuffers { s.cec with rxQueue := q }).length + (s.readers + 1) = _
      omega

/-- A reader puts a new buffer. -/
theorem RxInv.refill (h : s.RxInv) : s.refill.RxInv := by
  unfold CecSys.refill
  split_ifs with hreaders
  · exact h
  · have heq : rxBuffers { s.cec with
        rxFreeQueue := s.cec.rxFreeQueue ++ [alloc s.allocs rxBufferSize] } =
        s.cec.rxBuffers ++ [s.allocs] := by
      simp [rxBuffers, alloc]
    have hnew : s.allocs ∉ s.cec.rxBuffers := fun hmem => lt_irrefl _ (h.lt _ hmem)
    refine ⟨⟨h.ok.off, h.ok.state⟩, ?_, ?_, ?_⟩ <;> rw [heq]
    · exact (perm_append_singleton _ _).nodup_iff.2 (nodup_cons.2 ⟨hnew, h.nodup⟩)
    · intro i hi
      rcases mem_append.1 hi with hi | hi
      · exact Nat.lt_succ_of_lt (h.lt i hi)
      · rw [mem_singleton.1 hi]
        exact Nat.lt_succ_self _
    · have hlength := h.length
      rw [length_append, length_singleton]
      simp only []
      omega

/-- Every event keeps the invariant. -/
theorem RxInv.step (h : s.RxInv) : ∀ e : CecEvent, (s.step e).RxInv
  | .rxStart => h.of_keeps (rxStart_keeps h.ok) le_rfl _ _
  | .rxStop => h.of_keeps (rxStop_keeps h.ok) le_rfl _ _
  | .rxWork _ => h.of_keeps (rxWork_keeps h.ok).1 le_rfl _ _
  | .txStart => h.of_keeps (txStart_keeps h.ok) le_rfl _ _
  | .txStop => h.of_keeps (txStop_keeps h.ok) le_rfl _ _
  | .txWork hw => h.of_keeps (txWork_keeps hw h.ok) le_rfl _ _
  | .read => h.read
  | .refill => h.refill
  | .xmitMessage bytes nonblock => by
    change (s.xmitMessage bytes nonblock).RxInv
    unfold xmitMessage
    split_ifs
    all_goals exact h.of_keeps h.ok.keeps (Nat.le_succ _) _ _
  | .queue cmb => by
    change (s.queue cmb).RxInv
    unfold queue
    split_ifs
    · have hkeeps : s.cec.RxKeeps { s.cec with txQueue := s.cec.txQueue ++ [cmb] } :=
        ⟨⟨h.ok.off, h.ok.state⟩, .refl _⟩
      exact h.of_keeps hkeeps le_rfl _ _
    · exact h

end CecSys

/-- In each state of a run, no buffer for reception is in two places or twice in one, there are 8 of
them with those that readers owe, and if readers owe less than 8 the receiver finds a buffer. -/
theorem cec_buffers (events : List CecEvent) :
    (run events).cec.rxBuffers.Nodup ∧
      (run events).cec.rxBuffers.length + (run events).readers = rxRingLength ∧
      ∀ hw, (run events).readers ≤ 7 → ((run events).cec.rxWork hw).2 = false := by
  have h : (run events).RxInv :=
    Runs.foldl_of_step (fun _ e h => h.step e) events rxInv_init
  refine ⟨h.nodup, h.length, fun hw hle => ?_⟩
  by_contra hlost
  have hnil := (rxWork_keeps h.ok).2 (by simpa using hlost)
  have hlength := h.length
  rw [hnil, length_nil, rxRingLength] at hlength
  omega

end OpenHMR
