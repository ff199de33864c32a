import OpenHMR.MdThreads

/-!
# The lifetime of a copy

`Lifetime` says that copies are counted as finished, their entries cleared and calls of
`md_copy_sync` for them returned only when they are done, and that every entry with a handle
belongs to a copy that is not finished. It holds in every exclusive run (`lifetime_of_exclusive`).
A thread alone runs exclusively. As soon as there are two, one of them can clear the entry that the
other one has claimed but not yet filled in, as its handle is still 0, which `md_checkfinish` takes
for a completed command. So the calls of `n` threads keep `Lifetime` in all their runs if and only
if there is at most one (`copyTasks_iff`).
-/

open Runs

namespace OpenHMR

open MdCopy

/-- What holds of the copies in every state. -/
structure Lifetime (s : MdCopy) : Prop where
  passed : ∀ id < s.dev.finishedCopyCounter, s.dev.Done id
  released : ∀ r ∈ s.dev.released, s.dev.Done r.copyId
  synced : ∀ handle ∈ s.synced, s.dev.Done handle
  slots : ∀ j, (s.dev.copyTask j).requestId ≠ 0 →
    s.dev.finishedCopyCounter ≤ (s.dev.copyTask j).copyId ∧
      (s.dev.copyTask j).copyId < s.dev.copyCounter

/-- The thread is before the section of `md_check_copy_tasks`. -/
def MdThread.Checks : MdThread → Prop
  | .checkLock _ => True
  | _ => False

/-- If all copies are done, a section of `md_check_copy_tasks` leaves all entries free. -/
def Checked (s : MdCopy) : MdCopyEvent → Prop
  | .cpu i => (s.threads i).Checks → (∀ id < s.dev.copyCounter, s.dev.Done id) →
    ∀ j, ((s.cpu i).dev.copyTask j).requestId = 0
  | _ => True

/-- The lifetime of the copies of a run. -/
def KeepsLifetime (evs : List MdCopyEvent) : Prop :=
  Always step Lifetime .start evs ∧ Each step Checked .start evs

/-! ## Exclusive runs -/

namespace MdCopy

variable {t : ℕ} {s : MdCopy} {who : Option (ℕ × MdOpen)} {i : ℕ}

theorem dev_next (s : MdCopy) (i : ℕ) (next : MdNext) : (s.next i next).dev = s.dev := by
  cases next with
  | leave | alloc => rfl
  | sync caller handle => cases caller <;> rfl

theorem Inv.lifetime (h : s.Inv t who) : Lifetime s := by
  refine ⟨h.dev.done, fun r hr => h.dev.done _ (h.dev.released r hr),
    fun x hx => (h.synced x hx).done, fun j hj => ?_⟩
  obtain ⟨id, hid, hlt, hmod⟩ := h.dev.free j hj
  have hcopy : (s.dev.copyTask j).copyId = id := by
    have hreq : s.dev.copyTask j = s.dev.req id := by rw [MdCopyDev.req, hmod]
    rw [hreq]
    cases ho : who.map Prod.snd with
    | none =>
      refine (h.dev.live id hid ?_).copyId
      rw [ho]
      exact hlt
    | some x =>
      rcases lt_or_ge id (s.dev.copyCounter - 1) with hclosed | hopen
      · refine (h.dev.live id hid ?_).copyId
        rw [ho]
        exact hclosed
      · obtain rfl : id = s.dev.copyCounter - 1 := by omega
        exact (h.dev.opened x ho).copyId
  rw [hcopy]
  exact ⟨hid, hlt⟩

/-- The entries that a check leaves. -/
theorem Inv.checked (h : s.Inv t who) (ht : t < 0x10000000000000000) {ev : MdCopyEvent}
    (hex : Exclusive s ev) : Checked s ev := by
  cases ev with
  | cpu i =>
    intro hchecks hdone j
    cases hth : s.threads i with
    | checkLock next =>
      obtain rfl := h.who_eq_none (hex (by rw [hth]; trivial))
      obtain ⟨hdev, hsame, hall⟩ := h.dev.check ht
      have hcpu : (s.cpu i).dev = s.dev.checkCopyTasks := by
        unfold MdCopy.cpu
        rw [hth]
        exact dev_next _ _ _
      rw [hcpu]
      by_contra hne
      obtain ⟨id, hid, hlt, -⟩ := hdev.free j hne
      rw [hall hdone, hsame.copyCounter] at *
      exact absurd hlt (not_lt.2 hid)
    | _ =>
      rw [hth] at hchecks
      exact hchecks.elim
  | _ => trivial

theorem Inv.run : ∀ (evs : List MdCopyEvent) {t : ℕ} {s : MdCopy} {who : Option (ℕ × MdOpen)},
    s.Inv t who → t + evs.length < 0x10000000000000000 → Each MdCopy.step Allowed s evs →
    Each MdCopy.step Exclusive s evs →
    Always MdCopy.step Lifetime s evs ∧ Each MdCopy.step Checked s evs
  | [], _, _, _, h, _, _, _ => ⟨h.lifetime, trivial⟩
  | ev :: evs, t, s, who, h, hlen, ha, hex => by
    rw [List.length_cons] at hlen
    obtain ⟨who', h'⟩ := h.step (by omega) ha.1 hex.1
    obtain ⟨hlife, hchecked⟩ := Inv.run evs h' (by omega) ha.2 hex.2
    exact ⟨⟨h.lifetime, hlife⟩, h.checked (by omega) hex.1, hchecked⟩

end MdCopy

/-- Exclusive runs keep the lifetime of the copies, for any number of threads. -/
theorem lifetime_of_exclusive {evs : List MdCopyEvent} (hlen : evs.length < 0x10000000000000000)
    (ha : Each MdCopy.step MdCopy.Allowed .start evs)
    (hex : Each MdCopy.step Exclusive .start evs) : KeepsLifetime evs :=
  MdCopy.Inv.run evs .start (by rwa [Nat.zero_add]) ha hex

/-! ## A single thread -/

/-- The event is one of the first `n` threads, or of the engine. -/
def MdCopyEvent.By (n : ℕ) : MdCopyEvent → Prop
  | .start i _ | .check i | .sync i _ | .memcpy i _ | .cpu i => i < n
  | .complete => True

instance (n : ℕ) : (ev : MdCopyEvent) → Decidable (ev.By n)
  | .start i _ | .check i | .sync i _ | .memcpy i _ | .cpu i => inferInstanceAs (Decidable (i < n))
  | .complete => inferInstanceAs (Decidable True)

namespace MdCopy

theorem threads_goto {i j : ℕ} (h : j ≠ i) (s : MdCopy) (th : MdThread) :
    (s.goto i th).threads j = s.threads j :=
  Function.update_of_ne h _ _

theorem threads_goto_self (s : MdCopy) (i : ℕ) (th : MdThread) : (s.goto i th).threads i = th :=
  @Function.update_self ℕ (fun _ => MdThread) _ i th s.threads

/-- A thread moves only itself. -/
theorem threads_cpu {i j : ℕ} (h : j ≠ i) (s : MdCopy) : (s.cpu i).threads j = s.threads j := by
  unfold cpu
  split <;> simp only [next, started, syncDone, finish, goto] <;> (repeat' split) <;>
    simp only [Function.update_of_ne h]

/-- The other threads are idle. -/
def Alone (s : MdCopy) : Prop :=
  ∀ j, j ≠ 0 → s.threads j = .idle

theorem Alone.step {s : MdCopy} (h : s.Alone) {ev : MdCopyEvent} (hby : ev.By 1) :
    (s.step ev).Alone := by
  intro j hj
  have hne {i : ℕ} (hi : i < 1) : j ≠ i := fun heq => hj (by omega)
  cases ev with
  | start i | check i | sync i | memcpy i => exact (threads_goto (hne hby) _ _).trans (h j hj)
  | cpu i => exact (threads_cpu (hne hby) s).trans (h j hj)
  | complete => exact h j hj

/-- A thread alone is exclusive. -/
theorem Alone.exclusive {s : MdCopy} (h : s.Alone) {ev : MdCopyEvent} (hby : ev.By 1) :
    Exclusive s ev := by
  cases ev with
  | cpu i =>
    obtain rfl : i = 0 := Nat.lt_one_iff.1 hby
    intro hmeets j hin
    by_cases hj : j = 0
    · rw [hj] at hin
      cases hth : s.threads 0
      all_goals rw [hth] at hmeets hin
      case checkLock => exact hin
      case alloc => exact hin
      all_goals exact hmeets
    · rw [h j hj] at hin
      exact hin
  | _ => trivial

theorem Alone.run : ∀ (evs : List MdCopyEvent) {s : MdCopy}, s.Alone → (∀ ev ∈ evs, ev.By 1) →
    Each MdCopy.step Exclusive s evs
  | [], _, _, _ => trivial
  | ev :: evs, _, h, hby => by
    obtain ⟨hev, hevs⟩ := List.forall_mem_cons.1 hby
    exact ⟨h.exclusive hev, Alone.run evs (h.step hev) hevs⟩

end MdCopy

/-! ## Two threads -/

/-- Thread 0 claims an entry, thread 1 clears it, and thread 0 fills it in. -/
def claimAndClear : List MdCopyEvent :=
  [.start 0 ⟨0x80100000, 0x80200000, 64, 1⟩, .cpu 0, .cpu 0, .check 1, .cpu 1, .cpu 1, .cpu 0,
    .cpu 0, .cpu 0, .cpu 0, .cpu 0]

theorem claimAndClear_allowed : Each step MdCopy.Allowed .start claimAndClear :=
  ⟨⟨rfl, by decide⟩, trivial, trivial, rfl, trivial, trivial, trivial, trivial, trivial,
    show (0 : ℕ) + 1 < 0 + 0x8000 by decide, trivial, trivial⟩

theorem claimAndClear_end :
    (claimAndClear.foldl step .start).dev.finishedCopyCounter = 1 ∧
      (claimAndClear.foldl step .start).dev.copyCounter = 1 ∧
      ((claimAndClear.foldl step .start).dev.copyTask 0).requestId = 1 ∧
      ((claimAndClear.foldl step .start).dev.copyTask 0).copyId = 0 := by
  decide +kernel

theorem not_lifetime_claimAndClear : ¬Always step Lifetime .start claimAndClear := by
  intro h
  have hend : Lifetime (claimAndClear.foldl step .start) := h.last
  obtain ⟨hfin, -, hreq, hid⟩ := claimAndClear_end
  have hslot := (hend.slots 0 (by rw [hreq]; decide)).1
  rw [hfin, hid] at hslot
  exact absurd hslot (by decide)

/-- The calls of `n` threads keep the lifetime of the copies in all runs if and only if `n ≤ 1`. -/
theorem copyTasks_iff (n : ℕ) :
    (∀ evs : List MdCopyEvent, evs.length < 0x10000000000000000 → (∀ ev ∈ evs, ev.By n) →
      Each MdCopy.step MdCopy.Allowed .start evs → KeepsLifetime evs) ↔ n ≤ 1 := by
  constructor
  · intro h
    by_contra hn
    have hby : ∀ ev ∈ claimAndClear, ev.By n := by
      intro ev hev
      have htwo : ev.By 2 := by
        revert ev
        decide
      cases ev with
      | complete => trivial
      | _ => exact lt_of_lt_of_le htwo (by omega)
    exact not_lifetime_claimAndClear (h _ (by decide) hby claimAndClear_allowed).1
  · intro hn evs hlen hby ha
    refine lifetime_of_exclusive hlen ha (MdCopy.Alone.run evs (fun _ _ => rfl) fun ev hev => ?_)
    have hev' := hby ev hev
    cases ev with
    | complete => trivial
    | _ => exact lt_of_lt_of_le hev' hn

/-- The counterexample as a run of two threads. -/
theorem copyTasks_race :
    claimAndClear.length < 0x10000000000000000 ∧ (∀ ev ∈ claimAndClear, ev.By 2) ∧
      Each step MdCopy.Allowed .start claimAndClear ∧ ¬KeepsLifetime claimAndClear :=
  ⟨by decide, by decide, claimAndClear_allowed, fun h => not_lifetime_claimAndClear h.1⟩

end OpenHMR
