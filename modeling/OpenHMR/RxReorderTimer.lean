import OpenHMR.Runs
import OpenHMR.RxReorderRuns

/-!
# The timer of pending packets

`RxReorderIndicatePacket` and `RxPktPendingTimeout` start the timer of a stream only if they
indicate nothing, and stop it if they do. A call that indicates packets and leaves others behind a
gap leaves them without a timer (`not_timed`). So all pending packets are waited for if and only if
no call indicates packets while there is a gap behind them : this can be seen from the stream and
the packet before each call (`RxSys.Closes`, `timed_iff`).
-/

namespace OpenHMR

open Reorder Runs List RxSys

/-- Pending packets have a timer. -/
def RxTs.Timed (ts : RxTs) : Prop :=
  ts.pending ≠ [] → ts.armed = true ∧ ts.rxTimeoutIndicateSeq ≠ 0xffff

instance (ts : RxTs) : Decidable ts.Timed :=
  inferInstanceAs (Decidable (_ → _))

/-- Each number from `n` on up to one in the list is in the list; numbers are taken to be before `n`
as `SN_LESS` does. -/
def NoHole (n : ℕ) (seqs : List ℕ) : Prop :=
  ∀ s ∈ seqs, (s + 4096 - n) % 4096 < 2048 → ∀ k < (s + 4096 - n) % 4096, (n + k) % 4096 ∈ seqs

instance (n : ℕ) (seqs : List ℕ) : Decidable (NoHole n seqs) :=
  inferInstanceAs (Decidable (∀ s ∈ seqs, _))

namespace RxTs

/-- A packet arrives. Packets are indicated if its number is due, or if the window moves over
pending packets. -/
def ClosesReceive (ts : RxTs) (unused : List ℕ) (seqNum : ℕ) : Prop :=
  let seqs := ts.pending.map (·.seqNum)
  let d := (seqNum + 4096 - ts.rxIndicateSeq) % 4096
  if ts.rxIndicateSeq = 0xffff ∨ d = 0 then NoHole ((seqNum + 1) % 4096) seqs
  else if 64 ≤ d ∧ d < 2048 then
    (∃ e ∈ ts.pending, ts.dist e ≤ d - 63) →
      NoHole ((seqNum + 4096 - 63) % 4096) (if unused = [] then seqs else seqNum :: seqs)
  else True

instance (ts : RxTs) (unused : List ℕ) (seqNum : ℕ) : Decidable (ts.ClosesReceive unused seqNum) :=
  inferInstanceAs (Decidable (ite _ _ (ite _ (_ → _) _)))

/-- The timer expires. -/
def ClosesTimeout (ts : RxTs) : Prop :=
  ∀ e ∈ ts.pending.getLast?, NoHole e.seqNum (ts.pending.map (·.seqNum))

instance (ts : RxTs) : Decidable ts.ClosesTimeout :=
  inferInstanceAs (Decidable (∀ e ∈ ts.pending.getLast?, _))

end RxTs

namespace RxSys

/-- The calls on streams in use. The timer calls `RxPktPendingTimeout` only if it was started. -/
def Allows (s : RxSys) : RxEvent → Prop
  | .receive _ _ => True
  | .timeout i => (s.rxTs i).armed = true
  | .remove _ => False

/-- Before a call : there is no gap between the packets that it will indicate and those that will be
pending then. -/
def Closes (s : RxSys) : RxEvent → Prop
  | .receive i seqNum => (s.rxTs i).ClosesReceive s.unused seqNum
  | .timeout i => (s.rxTs i).ClosesTimeout
  | .remove _ => True

instance (s : RxSys) : ∀ e : RxEvent, Decidable (s.Closes e)
  | .receive _ _ => inferInstanceAs (Decidable (RxTs.ClosesReceive _ _ _))
  | .timeout _ => inferInstanceAs (Decidable (RxTs.ClosesTimeout _))
  | .remove _ => inferInstanceAs (Decidable True)

/-- Pending packets of all streams have a timer. -/
def Timed (s : RxSys) : Prop :=
  ∀ i, (s.rxTs i).Timed

end RxSys

/-! ## The timer after a call -/

/-- The timer runs if `RxTimeoutIndicateSeq` is set, and then there are pending packets. -/
structure RxTs.TimerInv (ts : RxTs) : Prop where
  armed_iff : ts.armed = true ↔ ts.rxTimeoutIndicateSeq ≠ 0xffff
  pending : ts.armed = true → ts.pending ≠ []

section Calls

variable {number : ℕ → ℕ} {base w : ℕ} {unused unused0 first freed new : List ℕ} {ts ts0 : RxTs}

/-- Holes in the numbers modulo 4096. -/
theorem noHole_iff {l : List RxReorderEntry} (hseq : ∀ e ∈ l, e.seqNum = number e.prxb % 4096)
    (hnear : ∀ e ∈ l, number e.prxb < w + 2048 ∧ w < number e.prxb + 2048) :
    NoHole (w % 4096) (l.map (·.seqNum)) ↔ NoGap (fun e => number e.prxb) w l := by
  change _ ↔ ∀ e ∈ l, ∀ m, w ≤ m → m < number e.prxb → ∃ x ∈ l, number x.prxb = m
  constructor
  · intro h e he m hwm hme
    obtain ⟨h1, h2⟩ := hnear e he
    have hmem := h e.seqNum (mem_map_of_mem he) (by rw [hseq e he]; omega) (m - w)
      (by rw [hseq e he]; omega)
    obtain ⟨x, hx, hxm⟩ := mem_map.1 hmem
    have := hnear x hx
    rw [hseq x hx] at hxm
    exact ⟨x, hx, by omega⟩
  · intro h s hs hlt k hk
    obtain ⟨e, he, rfl⟩ := mem_map.1 hs
    obtain ⟨h1, h2⟩ := hnear e he
    rw [hseq e he] at hlt hk
    obtain ⟨x, hx, hxm⟩ := h e he (w + k) (Nat.le_add_right _ _) (by omega)
    refine mem_map.2 ⟨x, hx, ?_⟩
    rw [hseq x hx]
    omega

theorem array_pos_iff (first : List ℕ) (c : Collected) :
    0 < (first ++ c.out.map (·.prxb)).length ↔ first ≠ [] ∨ c.out ≠ [] := by
  simp [Nat.pos_iff_ne_zero, ← not_and_or]

/-- The timer is lost if packets are indicated and others stay. -/
theorem timed_indicate_iff {c : Collected} (hlen : first.length + c.out.length ≤ reorderWinSize)
    (hbuf : c.bPktInBuf = decide (c.rest ≠ [])) (hseq : c.seq ≠ 0xffff)
    (ht : ¬ (first ≠ [] ∨ c.out ≠ []) → ts.TimerInv) :
    (indicate unused ts first freed c).ts.Timed ↔ (first ≠ [] ∨ c.out ≠ [] → c.rest = []) := by
  have hlength := length_array first c
  unfold indicate RxTs.Timed
  simp only [array_pos_iff]
  split_ifs with hind hover htimer
  · omega
  · simp [hind]
  · exact iff_of_true (fun _ => ⟨rfl, hseq⟩) fun h => absurd h hind
  · refine iff_of_true (fun hrest => ?_) fun h => absurd h hind
    have hset : ts.rxTimeoutIndicateSeq ≠ 0xffff := fun h => htimer ⟨by simpa [hbuf] using hrest, h⟩
    exact ⟨(ht hind).armed_iff.2 hset, hset⟩

theorem timerInv_indicate {c : Collected} (hlen : first.length + c.out.length ≤ reorderWinSize)
    (hbuf : c.bPktInBuf = decide (c.rest ≠ [])) (hseq : c.seq ≠ 0xffff)
    (happend : c.out ++ c.rest = ts.pending.reverse)
    (ht : ¬ (first ≠ [] ∨ c.out ≠ []) → ts.TimerInv) :
    (indicate unused ts first freed c).ts.TimerInv := by
  have hlength := length_array first c
  unfold indicate
  simp only [array_pos_iff]
  split_ifs with hind hover htimer
  · omega
  · exact ⟨by simp, by simp⟩
  · have hrest : c.rest ≠ [] := by simpa [hbuf] using htimer.1
    exact ⟨by simp [hseq], fun _ => by simpa using hrest⟩
  · have hnil : c.out = [] := not_not.1 fun h => hind (.inr h)
    rw [hnil, nil_append] at happend
    refine ⟨(ht hind).armed_iff, fun harmed => ?_⟩
    simpa [happend] using (ht hind).pending harmed

/-- The timer after the loop, from the stream before it. -/
theorem Ready.timed_iff_closes (h : Ready number base w unused0 ts0 new unused ts first freed)
    (ht : ¬ (first ≠ [] ∨ ∃ e ∈ ts.pending, number e.prxb ≤ w) → ts.TimerInv) (bounded : Bool) :
    ((indicate unused ts first freed
        (collect bounded (w % 4096) first.length ts.pending.reverse)).ts.Timed ↔
      (first ≠ [] ∨ (∃ e ∈ ts.pending, number e.prxb ≤ w) →
        NoHole (w % 4096) (ts.pending.map (·.seqNum)))) ∧
    (indicate unused ts first freed
        (collect bounded (w % 4096) first.length ts.pending.reverse)).ts.TimerInv := by
  have hrising := pairwise_reverse.2 h.sorted
  have hsize : rxReorderWinSize = 64 := rfl
  have hgap : NoHole (w % 4096) (ts.pending.map (·.seqNum)) ↔
      (drain (fun e => number e.prxb) w ts.pending.reverse).2.2 = [] := by
    rw [drain_rest_eq_nil_iff hrising, noHole_iff h.seqNum fun e he => ?_]
    · simp only [NoGap, mem_reverse]
    · have h1 := h.above e he
      have h2 := h.below e he
      have h3 := h.lt
      omega
  have hout : (∃ e ∈ ts.pending, number e.prxb ≤ w) ↔
      (drain (fun e => number e.prxb) w ts.pending.reverse).1 ≠ [] := by
    rw [Ne, drain_out_eq_nil_iff hrising]
    simp
  have happend := drain_append (fun e : RxReorderEntry => number e.prxb) w ts.pending.reverse
  have hlen : first.length + (drain (fun e => number e.prxb) w ts.pending.reverse).1.length ≤
      reorderWinSize := by
    have happend := congrArg length happend
    have hle := h.length_le
    rw [length_append, length_reverse] at happend
    rw [reorderWinSize]
    omega
  have hseq : (drain (fun e : RxReorderEntry => number e.prxb) w ts.pending.reverse).2.1 % 4096 ≠
      0xffff := by
    omega
  rw [hout] at ht
  rw [h.collect_eq, hgap, hout]
  exact ⟨timed_indicate_iff hlen rfl hseq ht, timerInv_indicate hlen rfl hseq happend ht⟩

variable {prxb seqNum : ℕ}

theorem Ready.timed_indicateFrom
    (h : Ready number base w unused0 ts0 new unused ts first freed) (ht : ts.TimerInv)
    (hseq : ts.rxIndicateSeq = w % 4096) :
    ((ts.indicateFrom unused first freed).ts.Timed ↔
      (first ≠ [] ∨ (∃ e ∈ ts.pending, number e.prxb ≤ w) →
        NoHole (w % 4096) (ts.pending.map (·.seqNum)))) ∧
    (ts.indicateFrom unused first freed).ts.TimerInv := by
  rw [RxTs.indicateFrom, hseq]
  exact h.timed_iff_closes (fun _ => ht) true

/-- The window moves over pending packets, as the code can see. -/
theorem RxTs.Window.exists_dist_iff (h : ts.Window number base) {d : ℕ} (hd : 64 ≤ d) :
    (∃ e ∈ ts.pending, ts.dist e ≤ d - 63) ↔ ∃ e ∈ ts.pending, number e.prxb ≤ base + d - 63 := by
  refine exists_congr fun e => and_congr_right fun he => ?_
  have := h.above e he
  rw [h.dist_eq he]
  omega

/-- When the pending packets still have a timer after a packet arrives. -/
theorem Received.timed_iff_closes {d : ℕ} {r : RxResult} (hw : ts.Window number base)
    (ht : ts.TimerInv)
    (hts : ts.Timed) (hd : d = (seqNum + 4096 - ts.rxIndicateSeq) % 4096) (hseq : seqNum < 4096)
    (hp : number prxb = base + d) (h : Received number base d unused ts prxb seqNum r) :
    (r.ts.Timed ↔ ts.ClosesReceive unused seqNum) ∧ r.ts.TimerInv := by
  have hne : ts.rxIndicateSeq ≠ 0xffff := by
    rw [hw.seq]
    omega
  have hsize : rxReorderWinSize = 64 := rfl
  have hmod := hw.seq
  rw [RxTs.ClosesReceive]
  simp only [hne, false_or, ← hd]
  cases h with
  | late hd' =>
    rw [if_neg (by omega), if_neg (by omega)]
    exact ⟨iff_of_true hts trivial, ht⟩
  | due hd' h =>
    obtain ⟨h1, h2⟩ := h.timed_indicateFrom ⟨ht.armed_iff, ht.pending⟩ rfl
    rw [if_pos hd', h1, show (seqNum + 1) % 4096 = (base + 1) % 4096 by omega]
    exact ⟨by simp, h2⟩
  | refused h0 hlt w hw' unused' hwhy h =>
    obtain ⟨h1, h2⟩ := h.timed_indicateFrom ⟨ht.armed_iff, ht.pending⟩ rfl
    refine ⟨?_, h2⟩
    rw [h1, if_neg (by omega)]
    by_cases hge : 64 ≤ d
    · have hnil : unused = [] := hwhy.resolve_right fun ⟨e, he, hep⟩ => by
        have := hw.below e he
        omega
      rw [if_pos hge] at hw'
      rw [if_pos ⟨hge, hlt⟩, hw.exists_dist_iff hge, if_pos hnil, hw',
        show (seqNum + 4096 - 63) % 4096 = (base + d - 63) % 4096 by omega]
      simp
    · rw [if_neg hge] at hw'
      rw [if_neg (by omega), hw']
      refine iff_of_true ?_ trivial
      rintro (hnil | ⟨e, he, hle⟩)
      · exact absurd rfl hnil
      · exact absurd hle (Nat.not_le.2 (hw.above e he))
  | inserted h0 hlt w hw' num unused' hunused l hl h =>
    have hne : l ≠ [] := fun hnil => by simpa [hnil] using (insertDesc_perm hl).length_eq
    obtain ⟨h1, h2⟩ := h.timed_indicateFrom ⟨ht.armed_iff, fun _ => hne⟩ rfl
    refine ⟨?_, h2⟩
    rw [h1, if_neg (by omega)]
    by_cases hge : 64 ≤ d
    · have hlast : ∀ e ∈ ts.pending, number e.prxb < number prxb := fun e he => by
        have := hw.below e he
        omega
      have hl' := insertDesc_of_lt (fun e : RxReorderEntry => number e.prxb) ⟨num, seqNum, prxb⟩
        hlast
      obtain rfl := Option.some.inj (hl'.symm.trans hl)
      rw [if_pos hge] at hw'
      rw [if_pos ⟨hge, hlt⟩, hw.exists_dist_iff hge, hunused, if_neg (cons_ne_nil _ _), hw',
        show (seqNum + 4096 - 63) % 4096 = (base + d - 63) % 4096 by omega]
      have hnew : ¬ number prxb ≤ base + d - 63 := by omega
      simp [hnew]
    · rw [if_neg hge] at hw'
      rw [if_neg (by omega), hw']
      refine iff_of_true ?_ trivial
      rintro (hnil | ⟨e, he, hle⟩)
      · exact absurd rfl hnil
      · exact absurd hle (Nat.not_le.2 (h.above e he))

/-- The same after a timeout. -/
theorem rxPktPendingTimeout_timed_iff (unused : List ℕ) (hw : ts.Window number base)
    (ht : ts.TimerInv) (harmed : ts.armed = true) :
    ((rxPktPendingTimeout unused ts).ts.Timed ↔ ts.ClosesTimeout) ∧
      (rxPktPendingTimeout unused ts).ts.TimerInv := by
  cases hl : ts.pending.reverse with
  | nil => exact absurd (reverse_eq_nil_iff.1 hl) (ht.pending harmed)
  | cons e l =>
    have he : e ∈ ts.pending := mem_reverse.1 (hl ▸ mem_cons_self)
    have hlast : ts.pending.getLast? = some e := by
      rw [getLast?_eq_head?_reverse, hl, head?_cons]
    have hindicates : ∃ a ∈ ts.pending, number a.prxb ≤ number e.prxb := ⟨e, he, le_rfl⟩
    obtain ⟨h1, h2⟩ := (ready_timeout unused hw he).timed_iff_closes
      (fun hnone => absurd (.inr hindicates) hnone) false
    rw [rxPktPendingTimeout_of_cons (ht.armed_iff.1 harmed) hl, RxTs.ClosesTimeout, hlast,
      hw.seqNum e he]
    refine ⟨h1.trans ?_, h2⟩
    simp only [hindicates, or_true, true_imp_iff, Option.mem_some_iff, forall_eq', hw.seqNum e he]

end Calls

/-! ## Runs -/

namespace RxTrace

variable {t : RxTrace}

/-- One call. -/
theorem Inv.timed_step_iff (h : t.Inv) (ht : ∀ i, (t.sys.rxTs i).TimerInv)
    (htimed : ∀ i, (t.sys.rxTs i).Timed) {e : RxEvent} (he : t.sys.Allows e) :
    ((t.sys.result e).ts.Timed ↔ t.sys.Closes e) ∧ (t.sys.result e).ts.TimerInv := by
  cases e with
  | remove i => exact he.elim
  | timeout i =>
    rcases h.streams i with ⟨-, hnil, -⟩ | hw
    · exact absurd hnil ((ht i).pending he)
    · exact rxPktPendingTimeout_timed_iff _ hw (ht i) he
  | receive i seqNum =>
    rcases h.streams i with ⟨hseq, hnil, -⟩ | hw
    · obtain ⟨hready, hresult⟩ : Ready (fun _ => (seqNum : ℕ)) seqNum (seqNum + 1) t.sys.unused
            (t.sys.rxTs i) [t.sys.handed] t.sys.unused
            { t.sys.rxTs i with rxIndicateSeq := (seqNum + 1) % 4096 } [t.sys.handed] [] ∧ _ :=
        received_first t.sys.unused hseq hnil seqNum.2 rfl
      obtain ⟨h1, h2⟩ := hready.timed_indicateFrom ⟨(ht i).armed_iff, (ht i).pending⟩ rfl
      rw [result, hresult, h1, RxSys.Closes, RxTs.ClosesReceive]
      exact ⟨by simp [hseq], h2⟩
    · obtain ⟨number, hw', hp, hreceived⟩ := h.received hw seqNum rfl
      exact hreceived.timed_iff_closes hw' (ht i) (htimed i) rfl seqNum.2 hp

theorem step_sys (t : RxTrace) (e : RxEvent) : (t.step e).sys = t.sys.step e := by
  cases e <;> rfl

/-- Only the stream of the call changes. -/
theorem forall_step_iff {s : RxSys} {e : RxEvent} {p : RxTs → Prop} (h : ∀ i, p (s.rxTs i)) :
    (∀ i, p ((s.step e).rxTs i)) ↔ p (s.result e).ts := by
  refine ⟨fun hp => by simpa [RxSys.step] using hp e.stream, fun hp i => ?_⟩
  by_cases hi : i = e.stream
  · subst hi
    simpa [RxSys.step] using hp
  · simpa [RxSys.step, Function.update_of_ne hi] using h i

end RxTrace

/-- Pending packets have a timer after each call, if and only if no call leaves a gap behind packets
that it indicates. -/
theorem timed_iff (events : List RxEvent) (hallows : Each step RxSys.Allows .init events) :
    Always step RxSys.Timed .init events ↔ Each step RxSys.Closes .init events := by
  -- a state of a run, with the invariants of the streams
  have hstep : ∀ s e, (∃ t : RxTrace, t.sys = s ∧ t.Inv ∧ ∀ i, (s.rxTs i).TimerInv) → s.Timed →
      s.Allows e → (∃ t : RxTrace, t.sys = s.step e ∧ t.Inv ∧ ∀ i, ((s.step e).rxTs i).TimerInv) ∧
        ((s.step e).Timed ↔ s.Closes e) := by
    rintro _ e ⟨t, rfl, h, ht⟩ htimed he
    obtain ⟨hiff, htimer⟩ := h.timed_step_iff ht htimed he
    exact ⟨⟨t.step e, t.step_sys e, h.step e, (RxTrace.forall_step_iff ht).2 htimer⟩,
      (RxTrace.forall_step_iff htimed).trans hiff⟩
  have hinit : ∀ i, (init.rxTs i).TimerInv := fun _ =>
    ⟨by simp [init], fun h => nomatch h⟩
  exact always_iff_each hstep ⟨.init, rfl, RxTrace.inv_init, hinit⟩ (fun _ h => absurd rfl h)
    hallows

/-- The numbers 0, 2, 3 and 1 : packets 2 and 3 wait for 1. -/
theorem timed_iff_four : Always step RxSys.Timed .init
    [.receive ⟨0, by decide⟩ 0, .receive ⟨0, by decide⟩ 2, .receive ⟨0, by decide⟩ 3,
      .receive ⟨0, by decide⟩ 1] :=
  (timed_iff [.receive ⟨0, by decide⟩ 0, .receive ⟨0, by decide⟩ 2, .receive ⟨0, by decide⟩ 3,
      .receive ⟨0, by decide⟩ 1] ⟨trivial, trivial, trivial, trivial, trivial⟩).2
    ⟨by decide +kernel, by decide +kernel, by decide +kernel, by decide +kernel, trivial⟩

/-- The numbers 0, 2, 4 and 1 : packets 1 and 2 are indicated, and packet 4 is left without a timer.
The same happens when the timer expires while 2 and 4 are pending. -/
theorem not_timed :
    ¬ Always step RxSys.Timed .init [.receive ⟨0, by decide⟩ 0, .receive ⟨0, by decide⟩ 2,
        .receive ⟨0, by decide⟩ 4, .receive ⟨0, by decide⟩ 1] ∧
      ¬ Always step RxSys.Timed .init [.receive ⟨0, by decide⟩ 0, .receive ⟨0, by decide⟩ 2,
        .receive ⟨0, by decide⟩ 4, .timeout ⟨0, by decide⟩] := by
  constructor
  · rintro ⟨-, -, -, -, h⟩
    exact absurd (h ⟨0, by decide⟩) (by decide +kernel)
  · rintro ⟨-, -, -, -, h⟩
    exact absurd (h ⟨0, by decide⟩) (by decide +kernel)

end OpenHMR
