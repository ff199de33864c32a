import Mathlib.Data.List.Basic
import Mathlib.Tactic.Common
import OpenHMR.Runs

/-!
# The move-data engine

The driver `md.c` counts the commands it has given to the move-data engine in `sw_counter`, and the
count is the handle of the command. The engine counts the commands it has completed in a register
of which the driver uses 16 bits, and `md_checkfinish` compares the two. `MdEngine` is the engine
with the commands it was given, which it completes in their order. `mdCheckfinish_iff` says for
which handles the answer of `md_checkfinish` is right : the commands completed after the one of the
handle, counted modulo `0x10000`, have to be less than `0x8000`.
-/

open Runs List

namespace OpenHMR

open Nat

/-! ## Handles -/

/-- `md_cmd_counter`. -/
structure MdCmdCounter where
  low : UInt32
  high : UInt32
  deriving DecidableEq

namespace MdCmdCounter

/-- The count of the next command. -/
def next (c : MdCmdCounter) : MdCmdCounter :=
  let low := c.low + 1
  ⟨low, if low = 0 then c.high + 1 else c.high⟩

/-- The handle that `WriteCmd` returns. -/
def counter64 (c : MdCmdCounter) : UInt64 :=
  c.high.toUInt64 <<< 32 ||| c.low.toUInt64

theorem toNat_counter64 (c : MdCmdCounter) :
    c.counter64.toNat = c.high.toNat * 0x100000000 + c.low.toNat := by
  have hlow : c.low.toNat < 2 ^ 32 := c.low.toNat_lt
  have hhigh : c.high.toNat < 2 ^ 32 := c.high.toNat_lt
  have hshift : (c.high.toUInt64 <<< 32).toNat = c.high.toNat <<< 32 := by
    rw [UInt64.toNat_shiftLeft, UInt32.toNat_toUInt64]
    refine mod_eq_of_lt ?_
    rw [shiftLeft_eq]
    exact Nat.mul_lt_mul_of_pos_right hhigh (Nat.two_pow_pos 32)
  rw [counter64, UInt64.toNat_or, hshift, UInt32.toNat_toUInt64,
    ← shiftLeft_add_eq_or_of_lt hlow, shiftLeft_eq]

/-- The counter wraps at 64 bits. -/
theorem toNat_counter64_next (c : MdCmdCounter) :
    c.next.counter64.toNat = (c.counter64.toNat + 1) % 0x10000000000000000 := by
  have hlow : c.low.toNat < 2 ^ 32 := c.low.toNat_lt
  have hhigh : c.high.toNat < 2 ^ 32 := c.high.toNat_lt
  have hadd : (c.low + 1).toNat = (c.low.toNat + 1) % 2 ^ 32 := UInt32.toNat_add _ _
  have hadd' : (c.high + 1).toNat = (c.high.toNat + 1) % 2 ^ 32 := UInt32.toNat_add _ _
  rw [toNat_counter64, toNat_counter64, next]
  by_cases h : c.low + 1 = 0
  · have hzero : (c.low + 1).toNat = 0 := congrArg UInt32.toNat h
    rw [if_pos h]
    simp only [hzero, hadd']
    omega
  · have hne : (c.low + 1).toNat ≠ 0 := fun h' => h (UInt32.toNat_inj.1 h')
    rw [if_neg h]
    simp only [hadd] at hne ⊢
    omega

end MdCmdCounter

/-- `md_checkfinish(handle)`, for the value of `IOA_SMQ_INST_CNT`. -/
def mdCheckfinish (instCnt : UInt32) (handle : UInt64) : Bool :=
  let swCounter := handle.toUInt32 &&& 0xFFFF
  if handle = 0 then true
  else
    let hwCounter := instCnt &&& 0xFFFF
    if swCounter ≤ hwCounter then decide (hwCounter - swCounter < 0x8000)
    else decide (hwCounter + 0x10000 - swCounter < 0x8000)

theorem toNat_and_ffff (x : UInt32) : (x &&& 0xFFFF).toNat = x.toNat % 0x10000 := by
  rw [UInt32.toNat_and]
  exact and_two_pow_sub_one_eq_mod x.toNat 16

variable {handle : UInt64} {e : MdEngine}

/-- The test as a comparison of numbers. -/
theorem mdCheckfinish_eq (instCnt : UInt32) (h : handle ≠ 0) :
    mdCheckfinish instCnt handle =
      decide ((instCnt.toNat + 0x10000 - handle.toNat % 0x10000) % 0x10000 < 0x8000) := by
  have hsw : (handle.toUInt32 &&& 0xFFFF).toNat = handle.toNat % 0x10000 := by
    rw [toNat_and_ffff, UInt64.toNat_toUInt32]
    omega
  have hhw := toNat_and_ffff instCnt
  unfold mdCheckfinish
  simp only [if_neg h]
  generalize handle.toUInt32 &&& 0xFFFF = sw at *
  generalize instCnt &&& 0xFFFF = hw at *
  by_cases hle : sw ≤ hw
  · have hle' : sw.toNat ≤ hw.toNat := hle
    rw [if_pos hle, decide_eq_decide, UInt32.lt_iff_toNat_lt, UInt32.toNat_sub_of_le _ _ hle,
      show (0x8000 : UInt32).toNat = 0x8000 from rfl]
    omega
  · have hlt : hw.toNat < sw.toNat := Nat.lt_of_not_ge hle
    have hadd : (hw + 0x10000).toNat = hw.toNat + 0x10000 := by
      rw [UInt32.toNat_add, show (0x10000 : UInt32).toNat = 0x10000 from rfl]
      omega
    have hle' : sw ≤ hw + 0x10000 := by
      rw [UInt32.le_iff_toNat_le]
      omega
    rw [if_neg hle, decide_eq_decide, UInt32.lt_iff_toNat_lt, UInt32.toNat_sub_of_le _ _ hle',
      hadd, show (0x8000 : UInt32).toNat = 0x8000 from rfl]
    omega

/-! ## The engine -/

/-- The engine, with the handles of the commands it was given. -/
structure MdEngine where
  /-- `dev->sw_counter`. -/
  swCounter : MdCmdCounter
  /-- `IOA_SMQ_INST_CNT`. -/
  instCnt : UInt32
  /-- The handles that `WriteCmd` returned. -/
  handles : List UInt64
  /-- The commands that are completed. -/
  completed : ℕ

/-- What happens to the engine. -/
inductive MdEvent where
  /-- `WriteCmd` gives it a command. -/
  | write
  /-- It completes a command. -/
  | complete
  deriving DecidableEq

namespace MdEngine

/-- The engine after `md_open`. -/
def start : MdEngine :=
  ⟨⟨0, 0⟩, 0, [], 0⟩

/-- `WriteCmd` counts the command and returns its handle. -/
def writeCmd (e : MdEngine) : MdEngine :=
  { e with swCounter := e.swCounter.next, handles := e.handles ++ [e.swCounter.next.counter64] }

/-- The engine completes a command. -/
def complete (e : MdEngine) : MdEngine :=
  { e with instCnt := e.instCnt + 1, completed := e.completed + 1 }

def step (e : MdEngine) : MdEvent → MdEngine
  | .write => e.writeCmd
  | .complete => e.complete

/-- A command is completed only after it was given, and less than `0x8000` are outstanding. -/
def Allowed (e : MdEngine) : MdEvent → Prop
  | .write => e.handles.length + 1 < e.completed + 0x8000
  | .complete => e.completed < e.handles.length

instance (e : MdEngine) : (ev : MdEvent) → Decidable (e.Allowed ev)
  | .write => inferInstanceAs (Decidable (_ < _))
  | .complete => inferInstanceAs (Decidable (_ < _))

/-- The counters count the commands. -/
structure Counts (e : MdEngine) : Prop where
  sw : e.swCounter.counter64.toNat = e.handles.length % 0x10000000000000000
  hw : e.instCnt.toNat = e.completed % 0x100000000
  handles : ∀ (k : ℕ) (h : UInt64), e.handles[k]? = some h →
    h.toNat = (k + 1) % 0x10000000000000000
  outstanding : e.handles.length < e.completed + 0x8000

theorem Counts.start : start.Counts :=
  ⟨rfl, rfl, fun k h hk => absurd hk (by simp [MdEngine.start]), by decide⟩

/-- Every event keeps the counters. -/
theorem Counts.step {e : MdEngine} (h : e.Counts) (ev : MdEvent) (ha : e.Allowed ev) :
    (e.step ev).Counts := by
  cases ev with
  | write =>
    have hsw : e.swCounter.next.counter64.toNat =
        (e.handles.length + 1) % 0x10000000000000000 := by
      rw [MdCmdCounter.toNat_counter64_next, h.sw]
      omega
    refine ⟨?_, h.hw, fun k x hk => ?_, ?_⟩
    · exact hsw.trans (by rw [MdEngine.step, writeCmd, length_append, length_singleton])
    · rcases Nat.lt_trichotomy k e.handles.length with hlt | rfl | hgt
      · exact h.handles k x ((List.getElem?_append_left hlt).symm.trans hk)
      · obtain rfl := Option.some.inj (List.getElem?_concat_length.symm.trans hk)
        exact hsw
      · have hnone : (e.handles ++ [e.swCounter.next.counter64])[k]? = none :=
          List.getElem?_eq_none (by rw [length_append, length_singleton]; omega)
        exact absurd (hnone.symm.trans hk) (by simp)
    · rw [MdEngine.step, writeCmd, length_append, length_singleton]
      exact ha
  | complete =>
    refine ⟨h.sw, ?_, h.handles, ?_⟩
    · rw [MdEngine.step, complete, UInt32.toNat_add, h.hw]
      exact mod_add_mod _ _ _
    · exact Nat.lt_of_lt_of_le h.outstanding (Nat.add_le_add_right (Nat.le_succ _) _)

theorem Counts.run : ∀ (evs : List MdEvent) {e : MdEngine}, e.Counts →
    Each MdEngine.step Allowed e evs → (evs.foldl MdEngine.step e).Counts
  | [], _, h, _ => h
  | ev :: evs, _, h, hall => Counts.run evs (h.step ev hall.1) hall.2

end MdEngine

/-- The answer for command number `k` is right if fewer than `0x8000` commands, modulo `0x10000`,
were completed after it. The answer for the handle 0 is always that the command is completed. -/
def MdCurrent (k completed : ℕ) : Prop :=
  if k % 0x10000000000000000 = 0 then k ≤ completed else (completed - k) % 0x10000 < 0x8000

/-- When `md_checkfinish` is right. -/
theorem MdEngine.Counts.checkfinish_iff (hc : e.Counts) {k : ℕ} (hk : e.handles[k]? = some handle) :
    (mdCheckfinish e.instCnt handle = true ↔ k + 1 ≤ e.completed) ↔
      MdCurrent (k + 1) e.completed := by
  have hn := hc.handles k handle hk
  have hlt := (List.getElem?_eq_some_iff.1 hk).1
  have hout := hc.outstanding
  unfold MdCurrent
  by_cases h : (k + 1) % 0x10000000000000000 = 0
  · obtain rfl : handle = 0 := UInt64.toNat_inj.1 (hn.trans h)
    rw [if_pos h]
    exact ⟨fun hiff => hiff.1 rfl, fun hle => ⟨fun _ => hle, fun _ => rfl⟩⟩
  · have hne : handle ≠ 0 := fun h' => h (hn.symm.trans (congrArg UInt64.toNat h'))
    rw [if_neg h, mdCheckfinish_eq _ hne, decide_eq_true_iff, hn, hc.hw]
    omega

/-- A command that is said to be completed is completed, apart from one with the handle 0. -/
theorem MdEngine.Counts.completed_of_checkfinish (hc : e.Counts)
    (hlen : handle.toNat ≤ e.handles.length) (hpos : 0 < handle.toNat)
    (h : mdCheckfinish e.instCnt handle = true) : handle.toNat ≤ e.completed := by
  have hne : handle ≠ 0 := fun h' => Nat.ne_of_gt hpos (congrArg UInt64.toNat h')
  have hout := hc.outstanding
  rw [mdCheckfinish_eq _ hne, decide_eq_true_iff, hc.hw] at h
  omega

/-- A command that is completed is said to be completed for as long as its handle is current. -/
theorem MdEngine.Counts.checkfinish_of_completed (hc : e.Counts)
    (hpos : 0 < handle.toNat) (hle : handle.toNat ≤ e.completed)
    (hnear : e.completed < handle.toNat + 0x8000) : mdCheckfinish e.instCnt handle = true := by
  have hne : handle ≠ 0 := fun h' => Nat.ne_of_gt hpos (congrArg UInt64.toNat h')
  rw [mdCheckfinish_eq _ hne, decide_eq_true_iff, hc.hw]
  omega

/-- In every run, at every moment and for every handle that was returned, `md_checkfinish` is right
if and only if the handle is current. -/
theorem mdCheckfinish_iff (evs : List MdEvent)
    (hall : Each MdEngine.step MdEngine.Allowed .start evs) {k : ℕ} {handle : UInt64}
    (hk : (evs.foldl MdEngine.step .start).handles[k]? = some handle) :
    (mdCheckfinish (evs.foldl MdEngine.step .start).instCnt handle = true ↔
        k + 1 ≤ (evs.foldl MdEngine.step .start).completed) ↔
      MdCurrent (k + 1) (evs.foldl MdEngine.step .start).completed :=
  (MdEngine.Counts.run evs .start hall).checkfinish_iff hk

/-- `n` commands, each completed before the next one. -/
def inTurn : ℕ → List MdEvent
  | 0 => []
  | n + 1 => .write :: .complete :: inTurn n

theorem inTurn_run : ∀ (n : ℕ) {e : MdEngine}, e.completed = e.handles.length →
    Each MdEngine.step MdEngine.Allowed e (inTurn n) ∧
      ((inTurn n).foldl MdEngine.step e).completed = e.completed + n ∧
      ((inTurn n).foldl MdEngine.step e).completed =
        ((inTurn n).foldl MdEngine.step e).handles.length ∧
      e.handles <+: ((inTurn n).foldl MdEngine.step e).handles
  | 0, _, he => ⟨trivial, rfl, he, prefix_rfl⟩
  | n + 1, e, he => by
    have hlen : (e.handles ++ [e.swCounter.next.counter64]).length = e.handles.length + 1 := by
      rw [length_append, length_singleton]
    obtain ⟨hall, hcompleted, hequal, hhandles⟩ :=
      inTurn_run n (e := (e.step .write).step .complete) (by
        change e.completed + 1 = (e.handles ++ [e.swCounter.next.counter64]).length
        rw [hlen, he])
    refine ⟨⟨?_, ?_, hall⟩, ?_, hequal, (prefix_append _ _).trans hhandles⟩
    · change e.handles.length + 1 < e.completed + 0x8000
      omega
    · change e.completed < (e.handles ++ [e.swCounter.next.counter64]).length
      omega
    · rw [inTurn, foldl_cons, foldl_cons, hcompleted]
      change e.completed + 1 + n = _
      omega

theorem exists_inTurn_handle (n : ℕ) :
    ∃ handle, ((inTurn (n + 1)).foldl MdEngine.step .start).handles[n]? = some handle := by
  obtain ⟨-, hcompleted, hequal, -⟩ := inTurn_run (n + 1) (e := .start) rfl
  have hstart : MdEngine.start.completed = 0 := rfl
  exact ⟨_, getElem?_eq_getElem (by omega)⟩

/-- The newest of `0x10002` commands in turn, when the lower half of the counter has wrapped. -/
theorem mdCheckfinish_wrapped : ∃ handle : UInt64,
    ((inTurn 0x10002).foldl MdEngine.step .start).handles[0x10001]? = some handle ∧
      mdCheckfinish ((inTurn 0x10002).foldl MdEngine.step .start).instCnt handle = true := by
  obtain ⟨hall, hcompleted, -, -⟩ := inTurn_run 0x10002 (e := .start) rfl
  obtain ⟨handle, hk⟩ := exists_inTurn_handle 0x10001
  have hiff := mdCheckfinish_iff _ hall hk
  rw [hcompleted] at hiff
  exact ⟨handle, hk, (hiff.2 (by unfold MdCurrent; decide)).2 (by decide)⟩

/-- After `0x8001` commands in turn, the first one is said not to be completed. -/
theorem mdCheckfinish_stale :
    Each MdEngine.step MdEngine.Allowed .start (inTurn 0x8001) ∧
      ((inTurn 0x8001).foldl MdEngine.step .start).handles[0]? = some 1 ∧
      ((inTurn 0x8001).foldl MdEngine.step .start).completed = 0x8001 ∧
      mdCheckfinish ((inTurn 0x8001).foldl MdEngine.step .start).instCnt 1 = false := by
  obtain ⟨hall, hcompleted, -, -⟩ := inTurn_run 0x8001 (e := .start) rfl
  have hfirst : ((inTurn 0x8001).foldl MdEngine.step .start).handles[0]? = some 1 := by
    obtain ⟨-, -, -, t, ht⟩ :=
      inTurn_run 0x8000 (e := (MdEngine.start.step .write).step .complete) rfl
    rw [inTurn, foldl_cons, foldl_cons, ← ht]
    rfl
  refine ⟨hall, hfirst, hcompleted.trans rfl, ?_⟩
  have hiff := (MdEngine.Counts.run _ .start hall).checkfinish_iff hfirst
  rw [hcompleted] at hiff
  rw [← Bool.not_eq_true]
  intro htrue
  exact absurd (hiff.1 ⟨fun _ => by decide, fun _ => htrue⟩) (by unfold MdCurrent; decide)

end OpenHMR
