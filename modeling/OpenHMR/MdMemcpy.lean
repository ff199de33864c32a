import OpenHMR.MdLifetime

/-!
# Results of `md_memcpy`

`md_memcpy` calls `md_copy_start` and takes the handle 0 for a failure. The handles count the copies
from 0 on, so the first call gives its commands to the engine, does not wait for them and returns
an error. `memcpyRun` is a run of calls that are made one at a time, with an engine that completes
commands at any time. Every call returns, and its result is right if and only if it is not the
first one (`mdMemcpy_iff`).
-/

open Runs List

namespace OpenHMR

open Nat MdThread MdCopy MdCopyDev

/-- The result is 0 if commands were given to the engine, which are then completed, and `-1` if
not. -/
structure MdResult.Right (r : MdResult) : Prop where
  zero : r.rc = 0 ↔ r.since < r.upto
  completed : r.rc = 0 → r.upto ≤ r.completed
  minusOne : r.rc = -1 ↔ r.since = r.upto

/-- A tick of the processor, or of the engine, with the calls `calls` to make. -/
def memcpyStep (calls : ℕ → MdArgs) (s : MdCopy) (processor : Bool) : MdCopy :=
  if processor then
    if s.threads 0 = .idle then s.step (.memcpy 0 (calls s.results.length)) else s.cpu 0
  else if s.dev.engine.completed < s.dev.engine.handles.length then s.step .complete
  else s

/-- The run from `md_open` on. -/
def memcpyRun (calls : ℕ → MdArgs) (ticks : ℕ → Bool) : ℕ → MdCopy
  | 0 => .start
  | n + 1 => memcpyStep calls (memcpyRun calls ticks n) (ticks n)

/-- There are always further ticks of both kinds. -/
def FairTicks (ticks : ℕ → Bool) : Prop :=
  ∀ b n, ∃ m ≥ n, ticks m = b

/-! ## The invariant -/

/-- Between two calls, after `k` of them. -/
structure AtRest (d : MdCopyDev) (k : ℕ) : Prop where
  counter : d.copyCounter = k
  window : d.copyCounter ≤ d.finishedCopyCounter + 1
  outstanding : d.cmds.length ≤ d.engine.completed + 2

/-- In call number `k`, behind the claim, with `left` commands to give. -/
structure AtWork (d : MdCopyDev) (k left : ℕ) : Prop where
  counter : d.copyCounter = k + 1
  window : d.copyCounter ≤ d.finishedCopyCounter + 2
  outstanding : d.cmds.length + left ≤ d.engine.completed + 4

/-- Waiting for copy `handle` of call number `k`. -/
structure AtSync (d : MdCopyDev) (k since handle : ℕ) : Prop where
  counter : d.copyCounter = k + 1
  since : since < d.cmds.length
  isCall : handle = k
  notFirst : k ≠ 0
  last : d.tasks.getLast? = some handle

/-- What holds of the thread. -/
def MdThread.InCall (d : MdCopyDev) (k : ℕ) : MdThread → Prop
  | .idle => AtRest d k
  | .checkTest (.alloc (.memcpy since) _) => AtRest d k ∧ since = d.cmds.length
  | .checkLock (.alloc (.memcpy since) _) => AtRest d k ∧ since = d.cmds.length
  | .alloc (.memcpy since) _ => AtRest d k ∧ since = d.cmds.length
  | .dst (.memcpy since) id len =>
    AtWork d k (mdLeft len (d.req id).dmaSrc) ∧ since ≤ d.cmds.length
  | .src (.memcpy since) id len _ =>
    AtWork d k (mdLeft len (d.req id).dmaSrc) ∧ since ≤ d.cmds.length
  | .dir (.memcpy since) _ len _ addrSrc => AtWork d k (mdLeft len addrSrc) ∧ since ≤ d.cmds.length
  | .write (.memcpy since) _ len _ addrSrc _ =>
    AtWork d k (mdLeft len addrSrc + 1) ∧ since ≤ d.cmds.length
  | .record (.memcpy since) _ len _ addrSrc _ =>
    AtWork d k (mdLeft len addrSrc) ∧ since < d.cmds.length
  | .ret (.memcpy since) _ => AtWork d k 0 ∧ since < d.cmds.length
  | .syncTest (.memcpy since) handle => AtSync d k since handle
  | .syncRead (.memcpy since) handle =>
    AtSync d k since handle ∧ d.finishedCopyCounter ≤ handle
  | .syncWait (.memcpy since) handle requestId =>
    AtSync d k since handle ∧ requestId.toNat = d.cmds.length
  | .checkTest (.sync (.memcpy since) handle) => AtSync d k since handle
  | .checkLock (.sync (.memcpy since) handle) => AtSync d k since handle
  | _ => False

/-- The invariant of a run of calls. -/
structure MemInv (s : MdCopy) : Prop where
  alone : s.Alone
  inv : ∃ t who, s.Inv t who
  call : (s.threads 0).InCall s.dev s.results.length
  results : ∀ (j : ℕ) (r : MdResult), s.results[j]? = some r → (r.Right ↔ j ≠ 0)

/-- How far a call is from its end. -/
def MdThread.rank : MdThread → ℕ
  | .idle => 31
  | .checkTest (.sync ..) => 5
  | .checkLock (.sync ..) => 4
  | .checkTest _ => 30
  | .checkLock _ => 29
  | .alloc .. => 28
  | .dst .. => 27
  | .src .. => 26
  | .dir _ _ len _ addrSrc => 10 + 3 * mdLeft len addrSrc
  | .write _ _ len _ addrSrc _ => 12 + 3 * mdLeft len addrSrc
  | .record _ _ len _ addrSrc _ => 11 + 3 * mdLeft len addrSrc
  | .ret .. => 9
  | .syncTest .. => 8
  | .syncRead .. => 7
  | .syncWait .. => 6

/-- From `s` to `s'`, the call has gone on, or it has returned. -/
structure GoesOn (s s' : MdCopy) : Prop where
  call : (s'.threads 0).InCall s'.dev s'.results.length
  results : ∀ (j : ℕ) (r : MdResult), s'.results[j]? = some r → (r.Right ↔ j ≠ 0)
  less : s'.results.length = s.results.length ∧ s'.threads 0 ≠ .idle ∧
      (s'.threads 0).rank < (s.threads 0).rank ∨
    s'.results.length = s.results.length + 1

namespace MemInv

variable {s : MdCopy}

theorem start : MemInv .start :=
  ⟨fun _ _ => rfl, ⟨0, none, .start⟩, ⟨rfl, by decide, by decide⟩,
    fun _ _ h => absurd h (by simp [MdCopy.start])⟩

theorem counter_le (h : MemInv s) : s.dev.copyCounter ≤ s.results.length + 1 := by
  have hcall := h.call
  unfold MdThread.InCall at hcall
  split at hcall
  all_goals first
    | exact hcall.elim
    | exact hcall.counter.le.trans (by omega)
    | exact hcall.1.counter.le.trans (by omega)

/-- The number of copies and commands is bounded by the number of calls. -/
theorem bounded (h : MemInv s) :
    ∃ who, s.Inv (3 * s.results.length + 3) who := by
  obtain ⟨t, who, hinv⟩ := h.inv
  have hcounter := h.counter_le
  have htotal := hinv.dev.total
  exact ⟨who, hinv.dev.tight.le_size (by omega), hinv.threads, hinv.returned, hinv.synced⟩

/-- Outside of `md_copy_start`, no copy is open. -/
theorem closed (h : MemInv s) (hth : ¬(s.threads 0).Inside) :
    s.Inv (3 * s.results.length + 3) none := by
  obtain ⟨who, hinv⟩ := h.bounded
  have hno : ∀ j, ¬(s.threads j).Inside := by
    intro j
    by_cases hj : j = 0
    · rw [hj]
      exact hth
    · rw [h.alone j hj]
      exact fun hin => hin
  obtain rfl := hinv.who_eq_none hno
  exact hinv

/-- The thread may go on. -/
theorem allowed (h : MemInv s) : s.Allowed (.cpu 0) := by
  unfold MdCopy.Allowed
  simp only []
  split
  · rename_i caller id len addrDst addrSrc words hth
    have hcall := h.call
    rw [hth] at hcall
    cases caller with
    | direct => exact hcall.elim
    | memcpy since =>
      obtain ⟨t, who, hinv⟩ := h.inv
      have hout := hcall.1.outstanding
      rw [hinv.dev.length]
      omega
  · trivial

end MemInv

/-! ## A step of a call -/

namespace GoesOn

variable {s s' : MdCopy}

/-- The thread goes on in its call. -/
theorem goto {th : MdThread} (hth0 : s.threads 0 = th)
    (hresults : ∀ (j : ℕ) (r : MdResult), s.results[j]? = some r → (r.Right ↔ j ≠ 0))
    (hsame : s'.results = s.results) {th' : MdThread} (hidle : th' ≠ .idle)
    (hrank : th'.rank < th.rank) (hcall : th'.InCall s'.dev s.results.length) :
    GoesOn s (s'.goto 0 th') := by
  have hth : (s'.goto 0 th').threads 0 = th' := threads_goto_self s' 0 th'
  have hlist : (s'.goto 0 th').results = s.results := hsame
  refine ⟨?_, ?_, .inl ?_⟩
  · rw [hth, hlist]
    exact hcall
  · rw [hlist]
    exact hresults
  · rw [hth, hlist, hth0]
    exact ⟨rfl, hidle, hrank⟩

theorem finish (hresults : ∀ (j : ℕ) (r : MdResult), s.results[j]? = some r → (r.Right ↔ j ≠ 0))
    (hsame : s'.results = s.results) (hrest : AtRest s'.dev (s.results.length + 1)) {rc : ℤ}
    {since : ℕ} (hright : MdResult.Right ⟨rc, since, s'.dev.cmds.length, s'.dev.engine.completed⟩ ↔
      s.results.length ≠ 0) : GoesOn s (s'.finish 0 rc since) := by
  have hth : (s'.finish 0 rc since).threads 0 = .idle := threads_goto_self s' 0 .idle
  have hlist : (s'.finish 0 rc since).results =
      s.results ++ [⟨rc, since, s'.dev.cmds.length, s'.dev.engine.completed⟩] := by
    rw [← hsame]
    rfl
  have hlength : (s'.finish 0 rc since).results.length = s.results.length + 1 := by
    rw [hlist, length_append, length_singleton]
  refine ⟨?_, fun j r hj => ?_, .inr hlength⟩
  · rw [hth, hlength]
    exact hrest
  · rw [hlist, List.getElem?_append] at hj
    split_ifs at hj with hlt
    · exact hresults j r hj
    · obtain ⟨hzero, hr⟩ := List.getElem?_eq_some_iff.1 hj
      rw [length_singleton] at hzero
      obtain rfl : j = s.results.length := by omega
      rw [getElem_singleton] at hr
      rw [← hr]
      exact hright

end GoesOn

/-- If the copy is done, which is the last one, all commands are completed. -/
theorem AtSync.completed {d : MdCopyDev} {k since handle : ℕ} (h : AtSync d k since handle)
    (hdone : d.Done handle) : d.cmds.length ≤ d.engine.completed := by
  have hlast := h.last
  rw [getLast?_eq_getElem?] at hlast
  have hlt := hdone.completed _ hlast
  rw [length_tasks] at hlt
  omega

/-- The result of a call that has waited is right. -/
theorem right_of_completed {since upto completed : ℕ} (hsince : since < upto)
    (hcompleted : upto ≤ completed) : MdResult.Right ⟨0, since, upto, completed⟩ :=
  ⟨iff_of_true rfl hsince, fun _ => hcompleted, iff_of_false Int.noConfusion hsince.ne⟩

namespace MemInv

variable {s : MdCopy} {since handle id len addrDst addrSrc : ℕ} {args : MdArgs}

variable (h : MemInv s)

include h

section

variable {caller : MdCaller}

/-- `md_copy_sync` returns, and so does the call. -/
theorem syncDone {s' : MdCopy} (hsame : s'.results = s.results)
    (hsync : AtSync s'.dev s.results.length since handle) (hdone : s'.dev.Done handle)
    (hfinished : s'.dev.copyCounter ≤ s'.dev.finishedCopyCounter) :
    GoesOn s (s'.syncDone 0 (.memcpy since) handle) := by
  have hcompleted := hsync.completed hdone
  have hrest : AtRest s'.dev (s.results.length + 1) :=
    ⟨hsync.counter, hfinished.trans (le_succ _), hcompleted.trans (le_add_right _ 2)⟩
  change GoesOn s (finish { s' with synced := s'.synced ++ [handle] } 0 0 since)
  refine .finish h.results ?_ ?_ ?_
  · exact hsame
  · exact hrest
  · exact iff_of_true (right_of_completed hsync.since hcompleted) hsync.notFirst

/-- The section of `md_check_copy_tasks`. -/
theorem cpu_checkLock (hk : 3 * s.results.length + 4 < 0x10000000000000000)
    {next : MdNext} (hth : s.threads 0 = .checkLock next) : GoesOn s (s.cpu 0) := by
  have hcall := h.call
  have hinv := h.closed (by rw [hth]; exact fun hin => hin)
  have hknows := hinv.threads 0
  rw [hth] at hcall hknows
  obtain ⟨hdev, hsame, hall⟩ := hinv.dev.check (by omega)
  have hfinished := hsame.finished
  unfold cpu
  rw [hth]
  cases next with
  | leave => exact hcall.elim
  | alloc caller args =>
    cases caller with
    | direct => exact hcall.elim
    | memcpy since =>
      obtain ⟨hrest, hsince⟩ := hcall
      have hwindow := hrest.window
      change GoesOn s (goto _ 0 (.alloc (.memcpy since) args))
      refine .goto hth h.results (by rfl) (by simp) (by simp [rank]) ⟨⟨?_, ?_, ?_⟩, ?_⟩
      · exact hsame.copyCounter.trans hrest.counter
      · rw [hsame.copyCounter]
        exact hwindow.trans (succ_le_succ hfinished)
      · rw [hsame.tasks, hsame.engine]
        exact hrest.outstanding
      · rw [hsame.tasks]
        exact hsince
  | sync caller handle =>
    cases caller with
    | direct => exact hcall.elim
    | memcpy since =>
      have hsync : AtSync s.dev s.results.length since handle := hcall
      have hcompleted := hsync.completed hknows.2.done
      have hdone : ∀ id < s.dev.copyCounter, s.dev.Done id := by
        intro id hid
        refine ⟨hid, hinv.dev.issued id hid, fun k hk => ?_⟩
        have hlt := (List.getElem?_eq_some_iff.1 hk).1
        rw [length_tasks] at hlt
        omega
      refine h.syncDone rfl ⟨hsame.copyCounter.trans hsync.counter, ?_, hsync.isCall,
        hsync.notFirst, ?_⟩ (hsame.done hknows.2.done) ?_
      · rw [hsame.tasks]
        exact hsync.since
      · rw [tasks, hsame.tasks]
        exact hsync.last
      · rw [hsame.copyCounter, hall hdone]

/-- The test of `md_check_copy_tasks`. -/
theorem cpu_checkTest {next : MdNext} (hth : s.threads 0 = .checkTest next) :
    GoesOn s (s.cpu 0) := by
  have hcall := h.call
  have hinv := h.closed (by rw [hth]; exact fun hin => hin)
  have hknows := hinv.threads 0
  rw [hth] at hcall hknows
  unfold cpu
  rw [hth]
  simp only []
  cases next with
  | leave => exact hcall.elim
  | alloc caller args =>
    cases caller with
    | direct => exact hcall.elim
    | memcpy since =>
      split_ifs
      · exact .goto hth h.results (by rfl) (by simp) (by simp [rank]) hcall
      · change GoesOn s (s.goto 0 (.alloc (.memcpy since) args))
        exact .goto hth h.results (by rfl) (by simp) (by simp [rank]) hcall
  | sync caller handle =>
    cases caller with
    | direct => exact hcall.elim
    | memcpy since =>
      split_ifs with hlt
      · exact .goto hth h.results (by rfl) (by simp) (by simp [rank]) hcall
      · exact h.syncDone rfl hcall hknows.2.done (Nat.le_of_not_lt hlt)

/-- There is a free entry for the copy. -/
theorem cpu_alloc (hk : 3 * s.results.length + 4 < 0x10000000000000000)
    (hth : s.threads 0 = .alloc caller args) : GoesOn s (s.cpu 0) := by
  have hcall := h.call
  have hinv := h.closed (by rw [hth]; exact fun hin => hin)
  rw [hth] at hcall
  cases caller with
  | direct => exact hcall.elim
  | memcpy since =>
    obtain ⟨hrest, hsince⟩ := hcall
    have hwindow := hrest.window
    have hout := hrest.outstanding
    have hsize := hinv.dev.size
    have hfree : (s.dev.req s.dev.copyCounter).requestId = 0 := by
      by_contra hne
      obtain ⟨id, hle, hlt, hid⟩ := hinv.dev.free _ hne
      unfold maxCopyTask at hid
      omega
    have hcounter := copyCounter_claim (d := s.dev) (by omega) args
    have hleft := mdLeft_le_two args.len ((s.dev.claim args).req s.dev.copyCounter).dmaSrc
    unfold cpu
    rw [hth]
    simp only []
    rw [allocCopyRequest, if_neg hinv.dev.state, if_pos hfree]
    refine .goto hth h.results (by rfl) (by simp) (by simp [rank])
      ⟨⟨?_, ?_, ?_⟩, hsince.le⟩
    · exact hcounter.trans (by rw [hrest.counter])
    · refine hcounter.le.trans ?_
      exact succ_le_succ hwindow
    · exact (Nat.add_le_add hout hleft).trans (le_refl _)

/-- The commands of the copy are given to the engine. -/
theorem cpu_inside (hin : (s.threads 0).Inside)
    (hret : ∀ caller id, s.threads 0 ≠ .ret caller id) : GoesOn s (s.cpu 0) := by
  obtain ⟨t, who, hinv⟩ := h.inv
  have hknows := hinv.threads 0
  have hcall := h.call
  unfold cpu
  cases hth : s.threads 0
  all_goals rw [hth] at hknows hcall hin
  case dst caller id len =>
    cases caller with
    | direct => exact hcall.elim
    | memcpy since => exact .goto hth h.results (by rfl) (by simp) (by simp [rank]) hcall
  case src caller id len addrDst =>
    cases caller with
    | direct => exact hcall.elim
    | memcpy since =>
      have hleft := mdLeft_le_two len (s.dev.req id).dmaSrc
      simp only []
      rw [copyLoop, if_neg hknows.2.1.ne']
      exact .goto hth h.results (by rfl) (by simp) (by simp only [rank]; omega) hcall
  case dir caller id len addrDst addrSrc =>
    cases caller with
    | direct => exact hcall.elim
    | memcpy since =>
      obtain ⟨hwork, hsince⟩ := hcall
      have hlen : 0 < len := hknows.2.1
      rw [mdLeft_chunk hlen] at hwork
      refine .goto hth h.results (by rfl) (by simp) ?_ ⟨hwork, hsince⟩
      simp only [rank]
      rw [mdLeft_chunk hlen]
      omega
  case write caller id len addrDst addrSrc words =>
    cases caller with
    | direct => exact hcall.elim
    | memcpy since =>
      obtain ⟨hwork, hsince⟩ := hcall
      have hlength : (s.dev.writeCmd id words).cmds.length = s.dev.cmds.length + 1 :=
        length_append
      have hout := hwork.outstanding
      refine .goto hth h.results (by rfl) (by simp) (by simp only [rank]; omega)
        ⟨⟨hwork.counter, hwork.window, ?_⟩, ?_⟩
      · change (s.dev.writeCmd id words).cmds.length + _ ≤ s.dev.engine.completed + 4
        omega
      · change since < (s.dev.writeCmd id words).cmds.length
        omega
  case record caller id len addrDst addrSrc handle =>
    cases caller with
    | direct => exact hcall.elim
    | memcpy since =>
      obtain ⟨hwork, hsince⟩ := hcall
      simp only []
      unfold copyLoop
      split_ifs with hlen
      · refine .goto hth h.results (by rfl) (by simp) (by simp only [rank]; omega)
          ⟨⟨hwork.counter, hwork.window, ?_⟩, hsince⟩
        exact (le_add_right _ _).trans hwork.outstanding
      · exact .goto hth h.results (by rfl) (by simp) (by simp only [rank]; omega)
          ⟨{ hwork with }, hsince.le⟩
  case ret caller id => exact absurd hth (hret caller id)
  all_goals exact hin.elim

/-- `md_copy_start` returns, and `md_memcpy` takes the handle 0 for a failure. -/
theorem cpu_ret (hth : s.threads 0 = .ret caller id) :
    GoesOn s (s.cpu 0) := by
  obtain ⟨t, who, hinv⟩ := h.inv
  have hknows := hinv.threads 0
  have hcall := h.call
  rw [hth] at hcall hknows
  cases caller with
  | direct => exact hcall.elim
  | memcpy since =>
    obtain ⟨hwork, hsince⟩ := hcall
    obtain ⟨hid, hwho⟩ := hknows
    obtain rfl := eq_of_openOf hwho
    have hopen := hinv.dev.opened _ rfl
    have htotal := hinv.dev.total
    have hcounter := hwork.counter
    obtain rfl : id = s.results.length := by omega
    have hlast : s.dev.copyCounter - 1 = s.results.length := by omega
    have hcopyId := hopen.copyId
    rw [hlast] at hcopyId
    unfold cpu
    rw [hth]
    simp only []
    rw [hcopyId]
    unfold started
    simp only []
    split_ifs with hk
    · refine .goto hth h.results (by rfl) (by simp) (by simp [rank])
        ⟨hcounter, hsince, rfl, hk, ?_⟩
      rw [← hlast]
      exact hopen.stage.2
    · have hk : s.results.length = 0 := not_not.1 hk
      have hrest : AtRest s.dev (s.results.length + 1) :=
        ⟨hcounter, by omega, htotal.trans (by omega)⟩
      refine .finish h.results (by rfl) ?_ (iff_of_false (fun hright => ?_) (not_not.2 hk))
      · exact hrest
      · exact hsince.ne (hright.minusOne.1 rfl)

/-- `md_copy_sync`, up to the wait. -/
theorem cpu_syncTest (hth : s.threads 0 = .syncTest caller handle) : GoesOn s (s.cpu 0) := by
  have hinv := h.closed (by rw [hth]; exact fun hin => hin)
  have hcall := h.call
  rw [hth] at hcall
  cases caller with
  | direct => exact hcall.elim
  | memcpy since =>
    have hsync : AtSync s.dev s.results.length since handle := hcall
    have hcounter := hsync.counter
    have hisCall := hsync.isCall
    unfold cpu
    rw [hth]
    simp only []
    split_ifs with hle
    · exact .goto hth h.results (by rfl) (by simp) (by simp [rank]) ⟨hsync, hle⟩
    · exact h.syncDone rfl hsync (hinv.dev.done handle (lt_of_not_ge hle)) (by omega)

/-- The handle of the last command is read. -/
theorem cpu_syncRead (hth : s.threads 0 = .syncRead caller handle) : GoesOn s (s.cpu 0) := by
  have hinv := h.closed (by rw [hth]; exact fun hin => hin)
  have hcall := h.call
  rw [hth] at hcall
  cases caller with
  | direct => exact hcall.elim
  | memcpy since =>
    obtain ⟨hsync, hle⟩ := hcall
    have hcounter := hsync.counter
    have hisCall := hsync.isCall
    have hlive := hinv.dev.live handle hle (by change handle < s.dev.copyCounter; omega)
    have hlast := hsync.last
    rw [getLast?_eq_getElem?] at hlast
    have hlt := hlive.last _ hlast
    have hlength := hlive.le_length
    rw [length_tasks] at hlt
    unfold cpu
    rw [hth]
    refine .goto hth h.results (by rfl) (by simp) (by simp [rank]) ⟨hsync, ?_⟩
    change s.dev.requestOf handle = _
    omega

/-- The wait is over as soon as all commands are completed. -/
theorem cpu_syncWait {requestId : UInt64} (hth : s.threads 0 = .syncWait caller handle requestId) :
    GoesOn s (s.cpu 0) ∨ s.cpu 0 = s ∧ s.dev.engine.completed < s.dev.engine.handles.length := by
  have hinv := h.closed (by rw [hth]; exact fun hin => hin)
  have hcall := h.call
  rw [hth] at hcall
  cases caller with
  | direct => exact hcall.elim
  | memcpy since =>
    obtain ⟨hsync, hrequest⟩ := hcall
    unfold cpu
    rw [hth]
    simp only []
    split_ifs with hfin
    · exact .inl (.goto hth h.results (by rfl) (by simp) (by simp [rank]) hsync)
    · refine .inr ⟨rfl, lt_of_not_ge fun hge => hfin ?_⟩
      have hsince := hsync.since
      have hbehind := hinv.dev.behind
      rw [hinv.dev.length] at hge
      exact hinv.dev.counts.checkfinish_of_completed (by omega) (by omega) (by omega)

end

/-- A tick of the processor in a call. -/
theorem cpu (hk : 3 * s.results.length + 4 < 0x10000000000000000) (hbusy : s.threads 0 ≠ .idle) :
    GoesOn s (s.cpu 0) ∨ s.cpu 0 = s ∧ s.dev.engine.completed < s.dev.engine.handles.length := by
  cases hth : s.threads 0 with
  | idle => exact absurd hth hbusy
  | checkTest next => exact .inl (h.cpu_checkTest hth)
  | checkLock next => exact .inl (h.cpu_checkLock hk hth)
  | alloc caller args => exact .inl (h.cpu_alloc hk hth)
  | ret caller id => exact .inl (h.cpu_ret hth)
  | syncTest caller handle => exact .inl (h.cpu_syncTest hth)
  | syncRead caller handle => exact .inl (h.cpu_syncRead hth)
  | syncWait caller handle requestId => exact h.cpu_syncWait hth
  | _ => exact .inl (h.cpu_inside (by rw [hth]; trivial) (by simp [hth]))

/-- A tick of the processor. -/
theorem tick (hk : 3 * s.results.length + 4 < 0x10000000000000000)
    {calls : ℕ → MdArgs} (hcalls : ∀ k, 0 < (calls k).len) :
    MemInv (memcpyStep calls s true) ∧
      ((memcpyStep calls s true).results.length = s.results.length ∧
          ((memcpyStep calls s true).threads 0).rank < (s.threads 0).rank ∨
        (memcpyStep calls s true).results.length = s.results.length + 1 ∨
        memcpyStep calls s true = s ∧ s.dev.engine.completed < s.dev.engine.handles.length) := by
  obtain ⟨who, hinv⟩ := h.bounded
  rw [memcpyStep, if_pos rfl]
  by_cases hidle : s.threads 0 = .idle
  · rw [if_pos hidle]
    have hby : (MdCopyEvent.memcpy 0 (calls s.results.length)).By 1 := Nat.one_pos
    have hself : (s.step (.memcpy 0 (calls s.results.length))).threads 0 =
        .checkTest (.alloc (.memcpy s.dev.cmds.length) (calls s.results.length)) :=
      threads_goto_self _ _ _
    have hcall := h.call
    rw [hidle] at hcall ⊢
    refine ⟨⟨h.alone.step hby, ⟨_, hinv.step (by omega) ⟨hidle, hcalls _⟩ (h.alone.exclusive hby)⟩,
      ?_, h.results⟩, .inl ⟨rfl, ?_⟩⟩
    · rw [hself]
      exact ⟨hcall, rfl⟩
    · rw [hself]
      simp [rank]
  · rw [if_neg hidle]
    have hby : (MdCopyEvent.cpu 0).By 1 := Nat.one_pos
    rcases h.cpu hk hidle with hgoes | ⟨hsame, hout⟩
    · refine ⟨⟨h.alone.step hby, ⟨_, hinv.cpu (by omega) h.allowed (h.alone.exclusive hby)⟩,
        hgoes.call, hgoes.results⟩, ?_⟩
      exact hgoes.less.imp (fun hless => ⟨hless.1, hless.2.2⟩) .inl
    · rw [hsame]
      exact ⟨h, .inr (.inr ⟨rfl, hout⟩)⟩

/-- Completed commands leave a call where it is. -/
theorem complete (hlt : s.dev.engine.completed < s.dev.engine.handles.length) :
    MemInv (s.step .complete) := by
  obtain ⟨t, who, hinv⟩ := h.inv
  refine ⟨h.alone, ⟨t, who, hinv.complete hlt⟩, ?_, h.results⟩
  have hrest {k : ℕ} (hr : AtRest s.dev k) : AtRest s.dev.complete k :=
    ⟨hr.counter, hr.window, hr.outstanding.trans (Nat.add_le_add_right (Nat.le_succ _) 2)⟩
  have hwork {k left : ℕ} (hw : AtWork s.dev k left) : AtWork s.dev.complete k left :=
    ⟨hw.counter, hw.window, hw.outstanding.trans (Nat.add_le_add_right (Nat.le_succ _) 4)⟩
  have hsync {k since handle : ℕ} (hs : AtSync s.dev k since handle) :
      AtSync s.dev.complete k since handle := { hs with }
  have hcall := h.call
  change (s.threads 0).InCall s.dev.complete s.results.length
  revert hcall
  unfold MdThread.InCall
  split
  all_goals intro hcall
  all_goals first
    | exact hcall.elim
    | exact hrest hcall
    | exact hsync hcall
    | exact ⟨hrest hcall.1, hcall.2⟩
    | exact ⟨hwork hcall.1, hcall.2⟩
    | exact ⟨hsync hcall.1, hcall.2⟩

end MemInv

/-! ## The run -/

/-- The number of commands that are not completed. -/
def MdCopy.outstanding (s : MdCopy) : ℕ :=
  s.dev.engine.handles.length - s.dev.engine.completed

/-- In the run, after `k` calls. -/
def AfterCalls (k : ℕ) (s : MdCopy) : Prop :=
  MemInv s ∧ s.results.length = k

section Run

variable {calls : ℕ → MdArgs} {ticks : ℕ → Bool} {k l : ℕ}

/-- A tick of the processor. -/
theorem AfterCalls.processor (hl : AfterCalls k (memcpyRun calls ticks l))
    (hk : k < 0x4000000000000000) (hcalls : ∀ k, 0 < (calls k).len) (hb : ticks l = true) :
    AfterCalls (k + 1) (memcpyRun calls ticks (l + 1)) ∨
      AfterCalls k (memcpyRun calls ticks (l + 1)) ∧
        ((memcpyRun calls ticks (l + 1)).threads 0).rank <
          ((memcpyRun calls ticks l).threads 0).rank ∨
      memcpyRun calls ticks (l + 1) = memcpyRun calls ticks l ∧
        (memcpyRun calls ticks l).outstanding ≠ 0 := by
  obtain ⟨hinv, hlength⟩ := hl
  obtain ⟨hinv', hless⟩ := hinv.tick (by omega) hcalls
  rw [memcpyRun, hb]
  rcases hless with ⟨hsame, hrank⟩ | hnext | ⟨hwait, hout⟩
  · exact .inr (.inl ⟨⟨hinv', hsame.trans hlength⟩, hrank⟩)
  · exact .inl ⟨hinv', hnext.trans (congrArg _ hlength)⟩
  · exact .inr (.inr ⟨hwait, sub_ne_zero_of_lt hout⟩)

/-- A tick of the engine. -/
theorem AfterCalls.engine (hl : AfterCalls k (memcpyRun calls ticks l)) (hb : ticks l = false) :
    AfterCalls k (memcpyRun calls ticks (l + 1)) ∧
      (memcpyRun calls ticks (l + 1)).threads = (memcpyRun calls ticks l).threads ∧
      (memcpyRun calls ticks (l + 1)).outstanding = (memcpyRun calls ticks l).outstanding - 1 := by
  rw [memcpyRun, memcpyStep, hb, if_neg Bool.false_ne_true]
  split_ifs with hlt
  · exact ⟨⟨hl.1.complete hlt, hl.2⟩, rfl, (Nat.sub_sub _ _ _).symm⟩
  · have hnone : (memcpyRun calls ticks l).outstanding = 0 :=
      Nat.sub_eq_zero_of_le (Nat.le_of_not_lt hlt)
    exact ⟨hl, rfl, by rw [hnone]⟩

/-- A call returns. -/
theorem leadsTo_return (hcalls : ∀ k, 0 < (calls k).len) (hfair : FairTicks ticks)
    (hk : k < 0x4000000000000000) :
    LeadsTo (memcpyRun calls ticks) (fun _ => True) (AfterCalls k) (AfterCalls (k + 1)) := by
  -- A tick of the processor is progress, unless the call waits for a command. A tick of the engine
  -- then completes one.
  refine .of_measure (f := fun s => (s.threads 0).rank) fun n => ?_
  refine .of_measure (f := outstanding) fun m => ?_
  refine .of_step (fun _ _ => trivial) (fun l hp => ?_) fun l => ?_
  · obtain ⟨⟨hl, hn⟩, hm⟩ := hp
    cases hb : ticks l with
    | true =>
      rcases hl.processor hk hcalls hb with hnext | ⟨hsame, hrank⟩ | ⟨hwait, -⟩
      · exact .inr (.inl (.inl hnext))
      · exact .inr (.inl (.inr ⟨hsame, hn ▸ hrank⟩))
      · rw [hwait]
        exact .inl ⟨⟨hl, hn⟩, hm⟩
    | false =>
      obtain ⟨hl', hthreads, hout⟩ := hl.engine hb
      rw [hm] at hout
      rcases Nat.eq_zero_or_pos m with hzero | hpos
      · exact .inl ⟨⟨hl', by rw [hthreads]; exact hn⟩, by omega⟩
      · exact .inr (.inr ⟨⟨hl', by rw [hthreads]; exact hn⟩, by omega⟩)
  · rcases Nat.eq_zero_or_pos m with hzero | hpos
    · obtain ⟨j, hj, hb⟩ := hfair true l
      refine ⟨j, hj, fun ⟨⟨hl, hn⟩, hm⟩ => ?_⟩
      rcases hl.processor hk hcalls hb with hnext | ⟨hsame, hrank⟩ | ⟨-, hout⟩
      · exact .inl (.inl hnext)
      · exact .inl (.inr ⟨hsame, hn ▸ hrank⟩)
      · exact absurd (hm.trans hzero) hout
    · obtain ⟨j, hj, hb⟩ := hfair false l
      refine ⟨j, hj, fun ⟨⟨hl, hn⟩, hm⟩ => ?_⟩
      obtain ⟨hl', hthreads, hout⟩ := hl.engine hb
      exact .inr ⟨⟨hl', by rw [hthreads]; exact hn⟩, by omega⟩

/-- All calls are made. -/
theorem exists_afterCalls (hcalls : ∀ k, 0 < (calls k).len) (hfair : FairTicks ticks) :
    ∀ k, k ≤ 0x4000000000000000 → ∃ l, AfterCalls k (memcpyRun calls ticks l)
  | 0, _ => ⟨0, .start, rfl⟩
  | k + 1, hk => by
    obtain ⟨l, hl⟩ := exists_afterCalls hcalls hfair k (by omega)
    obtain ⟨l', -, hl', -⟩ := leadsTo_return hcalls hfair (by omega) l hl
    exact ⟨l', hl'⟩

end Run

/-! ## Results stay -/

namespace MdCopy

variable (s : MdCopy) (i : ℕ)

theorem results_started (caller : MdCaller) (handle : ℕ) :
    s.results <+: (s.started i caller handle).results := by
  cases caller with
  | direct => exact prefix_rfl
  | memcpy since =>
    unfold started
    simp only []
    split_ifs
    · exact prefix_rfl
    · exact prefix_append _ _

theorem results_next (next : MdNext) : s.results <+: (s.next i next).results := by
  cases next with
  | leave | alloc => exact prefix_rfl
  | sync caller handle =>
    cases caller with
    | direct => exact prefix_rfl
    | memcpy since => exact prefix_append _ _

/-- A result is never taken back. -/
theorem results_cpu : s.results <+: (s.cpu i).results := by
  unfold cpu
  cases s.threads i with
  | checkTest next =>
    simp only []
    split_ifs
    · exact prefix_rfl
    · exact results_next _ _ _
  | checkLock next => exact results_next { s with dev := s.dev.checkCopyTasks } i next
  | alloc caller args =>
    simp only []
    cases s.dev.allocCopyRequest args with
    | none => exact results_started _ _ _ _
    | some r => exact prefix_rfl
  | ret caller id => exact results_started _ _ _ _
  | syncTest caller handle =>
    simp only []
    split_ifs
    · exact prefix_rfl
    · exact results_next s i (.sync caller handle)
  | syncWait caller handle requestId =>
    simp only []
    split_ifs
    · exact prefix_rfl
    · exact prefix_rfl
  | _ => exact prefix_rfl

end MdCopy

theorem results_memcpyRun (calls : ℕ → MdArgs) (ticks : ℕ → Bool) {l l' : ℕ} (h : l ≤ l') :
    (memcpyRun calls ticks l).results <+: (memcpyRun calls ticks l').results := by
  induction l', h using le_induction with
  | base => exact prefix_rfl
  | succ l' _ ih =>
    refine ih.trans ?_
    rw [memcpyRun, memcpyStep]
    split_ifs
    · exact prefix_rfl
    · exact results_cpu _ _
    · exact prefix_rfl
    · exact prefix_rfl

/-- Every call returns a result, which is right if and only if it is not the first one. -/
theorem mdMemcpy_iff {calls : ℕ → MdArgs} (hcalls : ∀ k, 0 < (calls k).len) {ticks : ℕ → Bool}
    (hfair : FairTicks ticks) {k : ℕ} (hk : k < 0x4000000000000000) :
    ∃ r T, (∀ l ≥ T, (memcpyRun calls ticks l).results[k]? = some r) ∧ (r.Right ↔ k ≠ 0) := by
  obtain ⟨T, hinv, hlength⟩ := exists_afterCalls hcalls hfair (k + 1) hk
  have hget := List.getElem?_eq_getElem (l := (memcpyRun calls ticks T).results) (i := k) (by omega)
  refine ⟨_, T, fun l hl => ?_, hinv.results k _ hget⟩
  obtain ⟨later, hlater⟩ := results_memcpyRun calls ticks hl
  rw [← hlater, List.getElem?_append_left (by omega)]
  exact hget

/-- A call that copies 64 bytes. -/
def copy64 : MdArgs :=
  ⟨0x80001000, 0x80002000, 64, 1⟩

/-- An engine that completes at most one command in 16 ticks. -/
def lateTicks (n : ℕ) : Bool :=
  n % 16 ≠ 15

theorem fairTicks_lateTicks : FairTicks lateTicks := by
  intro b n
  cases b with
  | true => exact ⟨16 * n, by omega, by simp [lateTicks]⟩
  | false => exact ⟨16 * n + 15, by omega, by simp [lateTicks]⟩

/-- The second of the calls for 64 bytes, with an engine that is late. -/
theorem mdMemcpy_iff_second :
    (∀ _ : ℕ, 0 < copy64.len) ∧ FairTicks lateTicks ∧ 1 < 0x4000000000000000 ∧
      ∃ r T, (∀ l ≥ T, (memcpyRun (fun _ => copy64) lateTicks l).results[1]? = some r) ∧
        (r.Right ↔ 1 ≠ 0) := by
  have hcalls : ∀ _ : ℕ, 0 < copy64.len := fun _ => by decide
  exact ⟨hcalls, fairTicks_lateTicks, by decide,
    mdMemcpy_iff hcalls fairTicks_lateTicks (by decide)⟩

/-- The first call returns `-1`, after it has given a command to the engine, which is not yet
completed. -/
theorem mdMemcpy_first_fails :
    FairTicks lateTicks ∧
      (memcpyRun (fun _ => copy64) lateTicks 9).results = [⟨-1, 0, 1, 0⟩] ∧
      ¬MdResult.Right ⟨-1, 0, 1, 0⟩ := by
  refine ⟨fairTicks_lateTicks, by decide +kernel, fun h => ?_⟩
  exact absurd (h.minusOne.1 rfl) (by decide)

end OpenHMR
