import Mathlib.Data.List.Count
import Mathlib.Order.Nat
import OpenHMR.MdCopy

/-!
# The table of copies

What the sections of `md.c` under `md_lock` keep of the table `copy_task`, as long as at most one
copy is open, that is claimed and not yet returned. `DevInv` says that the entries of the copies
from `finished_copy_counter` on hold the handle of their last command, that the copies before it
are done, and how far the open copy is (`MdOpen`). There is a lemma for each section : the loop of
`md_check_copy_tasks` (`DevInv.check`), the claim (`DevInv.alloc`), a command (`DevInv.write`),
the store of its handle (`DevInv.record`) and the return (`DevInv.close`).
-/

namespace OpenHMR

open List Function Nat MdCopyDev

/-! ## Commands -/

theorem mdChunk_eq (len addrSrc : ℕ) : mdChunk len addrSrc =
    if (len + 0x100 - (8 - addrSrc % 8) % 8) % 0x100 = 8 then 8 else len := by
  have hand (a : ℕ) : a &&& 0x7 = a % 8 := and_two_pow_sub_one_eq_mod a 3
  simp only [mdChunk, hand]

/-- The number of commands for the rest of a copy. -/
def mdLeft (len addrSrc : ℕ) : ℕ :=
  if len = 0 then 0 else if mdChunk len addrSrc = len then 1 else 2

theorem mdLeft_le_two (len addrSrc : ℕ) : mdLeft len addrSrc ≤ 2 := by
  unfold mdLeft
  split_ifs <;> omega

/-- A command is the first of those that are left. -/
theorem mdLeft_chunk {len addrSrc : ℕ} (hlen : 0 < len) :
    mdLeft len addrSrc = mdLeft (len - mdChunk len addrSrc)
      ((addrSrc + mdChunk len addrSrc) % 0x100000000) + 1 := by
  unfold mdLeft
  by_cases h : mdChunk len addrSrc = len
  · rw [if_neg hlen.ne', if_pos h, h, Nat.sub_self, if_pos rfl]
  · have height : mdChunk len addrSrc = 8 ∧
        (len + 0x100 - (8 - addrSrc % 8) % 8) % 0x100 = 8 := by
      rw [mdChunk_eq] at h ⊢
      split_ifs at h ⊢ with hc
      · exact ⟨rfl, hc⟩
      · exact absurd rfl h
    obtain ⟨hchunk, hmod⟩ := height
    rw [hchunk] at h ⊢
    have hnext : mdChunk (len - 8) ((addrSrc + 8) % 0x100000000) = len - 8 := by
      rw [mdChunk_eq, if_neg]
      omega
    rw [if_neg hlen.ne', if_neg h, if_neg (by omega), if_pos hnext]

/-! ## Copies that are done -/

namespace MdCopyDev

variable {d d' : MdCopyDev} {id : ℕ}

@[simp]
theorem length_tasks (d : MdCopyDev) : d.tasks.length = d.cmds.length :=
  length_map _

theorem tasks_writeCmd (d : MdCopyDev) (id : ℕ) (words : List UInt32) :
    (d.writeCmd id words).tasks = d.tasks ++ [id] :=
  map_append

theorem req_setReq_self (d : MdCopyDev) (id : ℕ) (r : MdCopyReq) : (d.setReq id r).req id = r :=
  update_self _ _ _

theorem req_setReq_of_ne {id' : ℕ} (h : id' % maxCopyTask ≠ id % maxCopyTask) (d : MdCopyDev)
    (r : MdCopyReq) : (d.setReq id r).req id' = d.req id' :=
  update_of_ne h _ _

theorem req_claim (d : MdCopyDev) (args : MdArgs) :
    (d.claim args).req d.copyCounter = d.newReq args :=
  req_setReq_self d d.copyCounter _

theorem copyCounter_claim (h : d.copyCounter + 1 < 0x10000000000000000) (args : MdArgs) :
    (d.claim args).copyCounter = d.copyCounter + 1 :=
  mod_eq_of_lt h

/-- A copy that is done stays done if it gets no further command. -/
theorem Done.mono (h : d.Done id) {l : List ℕ} (hcounter : d.copyCounter ≤ d'.copyCounter)
    (hcommands : d'.commands id = d.commands id) (htasks : d'.tasks = d.tasks ++ l)
    (hl : id ∉ l) (hcompleted : d.engine.completed ≤ d'.engine.completed) : d'.Done id := by
  refine ⟨h.claimed.trans_le hcounter, ?_, fun k hk => ?_⟩
  · rw [htasks, count_append, count_eq_zero_of_not_mem hl, hcommands]
    exact h.issued
  · rw [htasks] at hk
    rcases lt_or_ge k d.tasks.length with hlt | hge
    · rw [List.getElem?_append_left hlt] at hk
      exact (h.completed k hk).trans_le hcompleted
    · rw [List.getElem?_append_right hge] at hk
      exact absurd (mem_of_getElem? hk) hl

theorem Done.claim (ht : d.copyCounter + 1 < 0x10000000000000000) (h : d.Done id)
    (args : MdArgs) : (d.claim args).Done id := by
  have hcounter := copyCounter_claim ht args
  refine h.mono (l := []) ?_ ?_ (append_nil _).symm not_mem_nil (le_refl _)
  · rw [hcounter]
    exact le_succ _
  · exact update_of_ne h.claimed.ne _ _

/-- Copies other than the open one stay done when it gets a command. -/
theorem Done.writeCmd (h : d.Done id) {id' : ℕ} (hne : id ≠ id') (words : List UInt32) :
    (d.writeCmd id' words).Done id :=
  h.mono (le_refl _) rfl (tasks_writeCmd d id' words)
    (fun hm => hne (mem_singleton.1 hm)) (le_refl _)

end MdCopyDev

/-! ## The invariant -/

/-- How far the open copy is. There are `left` commands to be given. -/
inductive MdOpen where
  /-- No command was given, -/
  | fresh (left : ℕ)
  /-- the handle of the last one is not yet stored, -/
  | pending (left : ℕ) (handle : UInt64)
  /-- or it is. -/
  | recorded (left : ℕ)

def MdOpen.left : MdOpen → ℕ
  | fresh left => left
  | pending left _ => left
  | recorded left => left

/-- The number of copies that are not open. -/
def MdCopyDev.closed (d : MdCopyDev) : Option MdOpen → ℕ
  | none => d.copyCounter
  | some _ => d.copyCounter - 1

/-- The commands that the open copy has left. -/
def openLeft : Option MdOpen → ℕ
  | none => 0
  | some x => x.left

/-- The handle in the entry of a copy. -/
def MdCopyDev.requestOf (d : MdCopyDev) (id : ℕ) : ℕ :=
  (d.req id).requestId.toNat

/-- The entry of a copy that is neither open nor counted as finished. -/
structure MdLive (d : MdCopyDev) (left id : ℕ) : Prop where
  copyId : (d.req id).copyId = id
  pos : 0 < d.requestOf id
  own : d.tasks[d.requestOf id - 1]? = some id
  last : ∀ k, d.tasks[k]? = some id → k < d.requestOf id
  near : d.cmds.length + left ≤ d.requestOf id + 2 * (d.copyCounter - 1 - id)

theorem MdLive.le_length {d : MdCopyDev} {left id : ℕ} (h : MdLive d left id) :
    d.requestOf id ≤ d.cmds.length := by
  have hlt := (List.getElem?_eq_some_iff.1 h.own).1
  rw [length_tasks] at hlt
  omega

/-- What holds of the entry of the open copy `id`. -/
def MdOpen.Stage (d : MdCopyDev) (id : ℕ) : MdOpen → Prop
  | fresh left => left ≠ 0 ∧ (d.req id).requestId = 0
  | pending _ handle => handle.toNat = d.cmds.length ∧ d.tasks.getLast? = some id
  | recorded _ => d.requestOf id = d.cmds.length ∧ d.tasks.getLast? = some id

/-- The open copy, which is the last one that was claimed. -/
structure MdOpenAt (d : MdCopyDev) (x : MdOpen) : Prop where
  pos : 0 < d.copyCounter
  copyId : (d.req (d.copyCounter - 1)).copyId = d.copyCounter - 1
  count : d.tasks.count (d.copyCounter - 1) + x.left = d.commands (d.copyCounter - 1)
  few : x.left ≤ 2
  stage : x.Stage d (d.copyCounter - 1)

/-- The table after at most `t` steps, with the open copy `o`, if there is one. -/
structure DevInv (t : ℕ) (d : MdCopyDev) (o : Option MdOpen) : Prop where
  state : d.state ≠ 1
  counts : d.engine.Counts
  length : d.engine.handles.length = d.cmds.length
  behind : d.engine.completed ≤ d.cmds.length
  size : d.copyCounter + d.cmds.length ≤ t
  total : d.cmds.length + openLeft o ≤ 2 * d.copyCounter
  finished : d.finishedCopyCounter ≤ d.closed o
  window : d.copyCounter ≤ d.finishedCopyCounter + maxCopyTask
  known : ∀ id ∈ d.tasks, id < d.copyCounter
  issued : ∀ id < d.closed o, d.tasks.count id = d.commands id
  live : ∀ id, d.finishedCopyCounter ≤ id → id < d.closed o → MdLive d (openLeft o) id
  opened : ∀ x, o = some x → MdOpenAt d x
  free : ∀ j, (d.copyTask j).requestId ≠ 0 → ∃ id, d.finishedCopyCounter ≤ id ∧
    id < d.copyCounter ∧ id % maxCopyTask = j
  done : ∀ id < d.finishedCopyCounter, d.Done id
  released : ∀ r ∈ d.released, r.copyId < d.finishedCopyCounter

namespace DevInv

variable {t : ℕ} {d : MdCopyDev} {o : Option MdOpen} {x : MdOpen}

theorem start : DevInv 0 .start none := by
  refine ⟨by decide, .start, rfl, le_refl 0, le_refl 0, le_refl 0, le_refl 0,
    zero_le _,
    fun id h => ?_, fun id h => ?_, fun id _ h => ?_, fun x h => ?_, fun j h => ?_, fun id h => ?_,
    fun r h => ?_⟩
  · exact absurd h not_mem_nil
  · exact absurd h (not_lt_zero id)
  · exact absurd h (not_lt_zero id)
  · exact absurd h (by simp)
  · exact absurd rfl h
  · exact absurd h (not_lt_zero id)
  · exact absurd h not_mem_nil

/-- Copies that share an entry. -/
theorem slot_ne (h : DevInv t d o) {id id' : ℕ} (hid : d.finishedCopyCounter ≤ id)
    (hid' : d.finishedCopyCounter ≤ id') (hlt : id < d.copyCounter) (hlt' : id' < d.copyCounter)
    (hne : id ≠ id') : id % maxCopyTask ≠ id' % maxCopyTask := by
  have := h.window
  unfold maxCopyTask at *
  omega

theorem closed_le (h : DevInv t d o) : d.closed o ≤ d.copyCounter := by
  cases o with
  | none => exact le_refl _
  | some x => exact sub_le _ _

theorem le_size (h : DevInv t d o) {t' : ℕ} (ht : t ≤ t') : DevInv t' d o :=
  { h with size := h.size.trans ht }

theorem tight (h : DevInv t d o) : DevInv (d.copyCounter + d.cmds.length) d o :=
  { h with size := le_refl _ }

/-! ### `md_check_copy_tasks` -/

/-- The first unfinished copy is done if its last command is completed. -/
theorem done_of_checkfinish (h : DevInv t d o) {id : ℕ} (hid : d.finishedCopyCounter ≤ id)
    (hlt : id < d.closed o) (hfin : mdCheckfinish d.engine.instCnt (d.req id).requestId = true) :
    d.Done id := by
  have hlive := h.live id hid hlt
  have hle := h.counts.completed_of_checkfinish (h.length ▸ hlive.le_length) hlive.pos hfin
  exact ⟨hlt.trans_le h.closed_le, h.issued id hlt, fun k hk => (hlive.last k hk).trans_le hle⟩

/-- A round of the loop. -/
theorem release (h : DevInv t d none) (ht : t < 0x10000000000000000)
    (hlt : d.finishedCopyCounter < d.copyCounter) (hdone : d.Done d.finishedCopyCounter) :
    DevInv t d.release none ∧ d.release.finishedCopyCounter = d.finishedCopyCounter + 1 := by
  have hsize := h.size
  have hsucc : d.release.finishedCopyCounter = d.finishedCopyCounter + 1 :=
    mod_eq_of_lt (by omega)
  have hmono {id : ℕ} (hid : d.Done id) : d.release.Done id :=
    { hid with }
  refine ⟨⟨h.state, h.counts, h.length, h.behind, h.size, h.total, ?_, ?_, h.known, h.issued,
    fun id hid hid' => ?_, fun x hx => ?_, fun j hj => ?_, fun id hid => ?_, fun r hr => ?_⟩, hsucc⟩
  · rw [hsucc]
    exact hlt
  · rw [hsucc]
    exact h.window.trans (by omega)
  · rw [hsucc] at hid
    have hlive := h.live id (by omega) hid'
    have hreq : d.release.req id = d.req id := req_setReq_of_ne
      (h.slot_ne (by omega) (le_refl _) hid' hlt (by omega)) d _
    have hrequest : d.release.requestOf id = d.requestOf id := by
      rw [requestOf, hreq, requestOf]
    exact ⟨hreq ▸ hlive.copyId, hrequest ▸ hlive.pos, hrequest ▸ hlive.own, hrequest ▸ hlive.last,
      hrequest ▸ hlive.near⟩
  · exact absurd hx (by simp)
  · by_cases hslot : j = d.finishedCopyCounter % maxCopyTask
    · have hclear : d.release.copyTask j = .clear := by
        rw [hslot]
        exact update_self _ _ _
      rw [hclear] at hj
      exact absurd rfl hj
    · have hsame : d.release.copyTask j = d.copyTask j := update_of_ne hslot _ _
      rw [hsame] at hj
      obtain ⟨id, hid, hid', hmod⟩ := h.free j hj
      have hne : id ≠ d.finishedCopyCounter := fun he => hslot (he ▸ hmod.symm)
      exact ⟨id, by omega, hid', hmod⟩
  · rw [hsucc] at hid
    rcases lt_or_ge id d.finishedCopyCounter with hid | hid
    · exact hmono (h.done id hid)
    · obtain rfl : id = d.finishedCopyCounter := by omega
      exact hmono hdone
  · rw [hsucc]
    rcases mem_append.1 hr with hr | hr
    · exact (h.released r hr).trans (lt_succ_self _)
    · rw [mem_singleton.1 hr, (h.live _ (le_refl _) hlt).copyId]
      exact lt_succ_self _

/-- What the loop leaves as it is. -/
structure Same (d d' : MdCopyDev) : Prop where
  copyCounter : d'.copyCounter = d.copyCounter
  tasks : d'.cmds = d.cmds
  commands : d'.commands = d.commands
  engine : d'.engine = d.engine
  finished : d.finishedCopyCounter ≤ d'.finishedCopyCounter

theorem Same.done {d d' : MdCopyDev} (h : Same d d') {id : ℕ} (hid : d.Done id) : d'.Done id := by
  obtain ⟨h1, h2, h3, h4, -⟩ := h
  refine hid.mono (l := []) h1.ge (by rw [h3]) ?_ not_mem_nil (by rw [h4])
  rw [MdCopyDev.tasks, h2, append_nil]
  rfl

/-- The loop. If all copies are done, then all are counted as finished. -/
theorem checkLoop (ht : t < 0x10000000000000000) : ∀ (n : ℕ) {d : MdCopyDev}, DevInv t d none →
    d.finishedCopyCounter + n = d.copyCounter → DevInv t (d.checkLoop n) none ∧
      Same d (d.checkLoop n) ∧ ((∀ id < d.copyCounter, d.Done id) →
        (d.checkLoop n).finishedCopyCounter = d.copyCounter)
  | 0, d, h, hn => ⟨h, ⟨rfl, rfl, rfl, rfl, le_refl _⟩, fun _ => hn⟩
  | n + 1, d, h, hn => by
    have hlt : d.finishedCopyCounter < d.copyCounter := by omega
    unfold MdCopyDev.checkLoop
    split_ifs with hfin
    · obtain ⟨hrel, hsucc⟩ := h.release ht hlt (h.done_of_checkfinish (le_refl _) hlt hfin)
      have hsame : Same d d.release := ⟨rfl, rfl, rfl, rfl, hsucc ▸ le_succ _⟩
      obtain ⟨h', hsame', hall⟩ := checkLoop ht n hrel (by
        rw [hsucc]
        exact (Nat.add_right_comm _ _ _).trans hn)
      exact ⟨h', { hsame' with finished := hsame.finished.trans hsame'.finished },
        fun hdone => hall fun id hid => hsame.done (hdone id hid)⟩
    · refine ⟨h, ⟨rfl, rfl, rfl, rfl, le_refl _⟩, fun hdone => absurd ?_ hfin⟩
      have hlive := h.live _ (le_refl _) hlt
      have hown := (hdone _ hlt).completed _ hlive.own
      have hpos := hlive.pos
      have hnear := hlive.near
      have hwindow := h.window
      have hbehind := h.behind
      unfold maxCopyTask at hwindow
      refine h.counts.checkfinish_of_completed hpos ?_ ?_
      · change d.requestOf d.finishedCopyCounter ≤ _
        omega
      · change _ < d.requestOf d.finishedCopyCounter + _
        omega

/-- The section of `md_check_copy_tasks`. -/
theorem check (h : DevInv t d none) (ht : t < 0x10000000000000000) :
    DevInv t d.checkCopyTasks none ∧ Same d d.checkCopyTasks ∧
      ((∀ id < d.copyCounter, d.Done id) → d.checkCopyTasks.finishedCopyCounter = d.copyCounter) :=
  checkLoop ht _ h (Nat.add_sub_cancel' h.finished)

/-! ### `md_copy_start` -/

/-- If the next entry is free, the window is not full. -/
theorem room_of_free (h : DevInv t d none) (hfree : (d.req d.copyCounter).requestId = 0) :
    d.copyCounter < d.finishedCopyCounter + maxCopyTask := by
  refine h.window.lt_of_ne fun heq => ?_
  have hlive := h.live d.finishedCopyCounter (le_refl _) (by
    change _ < d.copyCounter
    rw [heq]
    exact Nat.lt_add_of_pos_right (by decide))
  have hreq : d.req d.copyCounter = d.req d.finishedCopyCounter := by
    rw [req, heq, add_mod_right]
    rfl
  have hpos := hlive.pos
  rw [requestOf, ← hreq, hfree] at hpos
  exact absurd hpos (by decide)

/-- A claim. -/
theorem claim (h : DevInv t d none) (ht : t + 1 < 0x10000000000000000) {args : MdArgs}
    (hlen : 0 < args.len) (hfree : (d.req d.copyCounter).requestId = 0) :
    DevInv (t + 1) (d.claim args) (some (.fresh (mdLeft args.len (virtToPhys args.src)))) := by
  have hsize := h.size
  have hcounter := copyCounter_claim (d := d) (by omega) args
  have hclosed (x : MdOpen) : (d.claim args).closed (some x) = d.copyCounter := by
    rw [closed, hcounter, Nat.add_sub_cancel]
  have hself := d.req_claim args
  have hroom := h.room_of_free hfree
  have hreq {id : ℕ} (hid : d.finishedCopyCounter ≤ id) (hid' : id < d.copyCounter) :
      (d.claim args).req id = d.req id := by
    refine req_setReq_of_ne ?_ d _
    unfold maxCopyTask at *
    omega
  have hcommands : (d.claim args).commands d.copyCounter =
      mdLeft args.len (virtToPhys args.src) := by
    rw [mdLeft, if_neg hlen.ne']
    exact update_self _ _ _
  have hcount : d.tasks.count d.copyCounter = 0 :=
    count_eq_zero_of_not_mem fun hm => lt_irrefl _ (h.known _ hm)
  refine ⟨h.state, h.counts, h.length, h.behind, ?_, ?_, ?_, ?_, fun id hid => ?_,
    fun id hid => ?_, fun id hid hid' => ?_, ?_, fun j hj => ?_, fun id hid => ?_, h.released⟩
  · rw [hcounter]
    change _ + d.cmds.length ≤ _
    omega
  · have htotal : d.cmds.length + 0 ≤ 2 * d.copyCounter := h.total
    have htwo := mdLeft_le_two args.len (virtToPhys args.src)
    rw [hcounter]
    change d.cmds.length + mdLeft _ _ ≤ _
    omega
  · rw [hclosed]
    exact h.finished
  · rw [hcounter]
    exact hroom
  · rw [hcounter]
    exact (h.known id hid).trans (lt_succ_self _)
  · rw [hclosed] at hid
    exact (h.issued id hid).trans (update_of_ne hid.ne _ _).symm
  · rw [hclosed] at hid'
    have hlive := h.live id hid hid'
    have hrequest : (d.claim args).requestOf id = d.requestOf id := by
      rw [requestOf, hreq hid hid', requestOf]
    have hnear : d.cmds.length + 0 ≤ d.requestOf id + 2 * (d.copyCounter - 1 - id) := hlive.near
    have htwo := mdLeft_le_two args.len (virtToPhys args.src)
    refine ⟨hreq hid hid' ▸ hlive.copyId, hrequest ▸ hlive.pos, hrequest ▸ hlive.own,
      hrequest ▸ hlive.last, ?_⟩
    rw [hrequest, hcounter]
    change d.cmds.length + mdLeft _ _ ≤ _
    omega
  · rintro x ⟨⟩
    refine ⟨by rw [hcounter]; exact succ_pos _, ?_, ?_, mdLeft_le_two _ _, ?_⟩
    · rw [hcounter, Nat.add_sub_cancel, hself]
      rfl
    · rw [hcounter, Nat.add_sub_cancel, hcommands]
      exact (congrArg (· + mdLeft _ _) hcount).trans (Nat.zero_add _)
    · refine ⟨?_, ?_⟩
      · rw [mdLeft, if_neg hlen.ne']
        split_ifs <;> decide
      · rw [hcounter, Nat.add_sub_cancel, hself]
        exact hfree
  · rw [hcounter]
    by_cases hslot : j = d.copyCounter % maxCopyTask
    · exact ⟨d.copyCounter, h.finished, lt_succ_self _, hslot.symm⟩
    · have hsame : (d.claim args).copyTask j = d.copyTask j := update_of_ne hslot _ _
      rw [hsame] at hj
      obtain ⟨id, hid, hid', hmod⟩ := h.free j hj
      exact ⟨id, hid, hid'.trans (lt_succ_self _), hmod⟩
  · exact (h.done id hid).claim (by omega) args

/-- A command of the open copy. -/
theorem write {left : ℕ} (h : DevInv t d (some x)) (hleft : x.left = left + 1)
    (ht : t + 1 < 0x10000000000000000)
    (hout : d.engine.handles.length + 1 < d.engine.completed + 0x8000) (words : List UInt32) :
    DevInv (t + 1) (d.writeCmd (d.copyCounter - 1) words)
      (some (.pending left (d.writeCmd (d.copyCounter - 1) words).handle)) := by
  have hopen := h.opened x rfl
  have hpos := hopen.pos
  have hsize := h.size
  have hlen : (d.writeCmd (d.copyCounter - 1) words).cmds.length = d.cmds.length + 1 := by
    rw [writeCmd, length_append, length_singleton]
  have htasks := tasks_writeCmd d (d.copyCounter - 1) words
  have hne {id : ℕ} (hid : id < d.copyCounter - 1) : id ≠ d.copyCounter - 1 := hid.ne
  have hcounts : d.engine.writeCmd.Counts := h.counts.step .write hout
  have hhandles : d.engine.writeCmd.handles.length = d.cmds.length + 1 := by
    rw [MdEngine.writeCmd, length_append, length_singleton, h.length]
  have hclosed : d.closed (some x) = d.copyCounter - 1 := rfl
  have hfin := h.finished
  rw [hclosed] at hfin
  refine ⟨h.state, hcounts, hhandles.trans hlen.symm, ?_, ?_, ?_, h.finished, h.window,
    fun id hid => ?_, fun id hid => ?_, fun id hid hid' => ?_, ?_, h.free, fun id hid => ?_,
    h.released⟩
  · rw [hlen]
    exact h.behind.trans (le_succ _)
  · rw [hlen]
    change d.copyCounter + _ ≤ _
    omega
  · have htotal := h.total
    rw [openLeft, hleft] at htotal
    rw [hlen]
    change _ + left ≤ 2 * d.copyCounter
    omega
  · rw [htasks, mem_append, mem_singleton] at hid
    rcases hid with hid | rfl
    · exact h.known id hid
    · exact sub_lt hpos Nat.one_pos
  · rw [htasks, count_append, count_singleton, if_neg, Nat.add_zero]
    · exact h.issued id hid
    · exact fun heq => hne hid (beq_iff_eq.1 heq).symm
  · have hlive := h.live id hid hid'
    have hown : d.tasks[d.requestOf id - 1]? = some id := hlive.own
    refine ⟨hlive.copyId, hlive.pos, ?_, fun k hk => ?_, ?_⟩
    · rw [htasks]
      exact (List.getElem?_append_left (List.getElem?_eq_some_iff.1 hown).1).trans hown
    · rw [htasks] at hk
      rcases lt_or_ge k d.tasks.length with hlt | hge
      · rw [List.getElem?_append_left hlt] at hk
        exact hlive.last k hk
      · rw [List.getElem?_append_right hge] at hk
        exact absurd (mem_singleton.1 (mem_of_getElem? hk)) (hne hid')
    · have hnear := hlive.near
      rw [openLeft, hleft] at hnear
      rw [hlen]
      change _ + left ≤ d.requestOf id + 2 * (d.copyCounter - 1 - id)
      omega
  · rintro y ⟨⟩
    refine ⟨hpos, hopen.copyId, ?_, ?_, ?_, ?_⟩
    · have hcount := hopen.count
      change count (d.copyCounter - 1) _ + left = d.commands (d.copyCounter - 1)
      rw [htasks, count_append, count_singleton_self]
      omega
    · have := hopen.few
      change left ≤ 2
      omega
    · rw [hlen]
      refine hcounts.sw.trans ?_
      rw [hhandles, mod_eq_of_lt (by omega)]
    · rw [htasks, getLast?_append, getLast?_singleton]
      rfl
  · exact (h.done id hid).writeCmd (hne (hid.trans_le hfin)) words

/-- The handle is stored. -/
theorem record {left : ℕ} {handle : UInt64} (h : DevInv t d (some (.pending left handle))) :
    DevInv t (d.record (d.copyCounter - 1) handle) (some (.recorded left)) := by
  have hopen := h.opened _ rfl
  have hlast : d.copyCounter - 1 < d.copyCounter := sub_lt hopen.pos Nat.one_pos
  have hfin : d.finishedCopyCounter ≤ d.copyCounter - 1 := h.finished
  have hself := req_setReq_self d (d.copyCounter - 1)
    { d.req (d.copyCounter - 1) with requestId := handle }
  refine { h with
    live := fun id hid hid' => ?_
    opened := ?_
    free := fun j hj => ?_
    done := fun id hid => { h.done id hid with } }
  · have hlive := h.live id hid hid'
    have hlt : id < d.copyCounter - 1 := hid'
    have hreq : (d.record (d.copyCounter - 1) handle).req id = d.req id :=
      req_setReq_of_ne (h.slot_ne hid hfin (hlt.trans hlast) hlast hlt.ne) d _
    have hrequest : (d.record (d.copyCounter - 1) handle).requestOf id = d.requestOf id := by
      rw [requestOf, hreq, requestOf]
    exact ⟨hreq ▸ hlive.copyId, hrequest ▸ hlive.pos, hrequest ▸ hlive.own, hrequest ▸ hlive.last,
      hrequest ▸ hlive.near⟩
  · rintro y ⟨⟩
    refine ⟨hopen.pos, ?_, hopen.count, hopen.few, ?_, hopen.stage.2⟩
    · exact (congrArg MdCopyReq.copyId hself).trans hopen.copyId
    · refine (congrArg (fun r => r.requestId.toNat) hself).trans ?_
      exact hopen.stage.1
  · by_cases hslot : j = (d.copyCounter - 1) % maxCopyTask
    · exact ⟨d.copyCounter - 1, hfin, hlast, hslot.symm⟩
    · have hsame : (d.record (d.copyCounter - 1) handle).copyTask j = d.copyTask j :=
        update_of_ne hslot _ _
      rw [hsame] at hj
      exact h.free j hj

/-- The open copy is returned. -/
theorem close (h : DevInv t d (some (.recorded 0))) : DevInv t d none := by
  have hopen := h.opened _ rfl
  obtain ⟨hlen, hlast⟩ := hopen.stage
  have hpos := hopen.pos
  have hlength : d.tasks.length = d.cmds.length := d.length_tasks
  have hclosed {id : ℕ} (hid : id < d.copyCounter) (hne : id ≠ d.copyCounter - 1) :
      id < d.closed (some (.recorded 0)) := by
    change id < d.copyCounter - 1
    omega
  refine { h with
    finished := h.finished.trans h.closed_le
    issued := fun id hid => ?_
    live := fun id hid hid' => ?_
    opened := fun x hx => absurd hx (by simp) }
  · by_cases heq : id = d.copyCounter - 1
    · rw [heq]
      exact hopen.count
    · exact h.issued id (hclosed hid heq)
  · by_cases heq : id = d.copyCounter - 1
    · rw [getLast?_eq_getElem?, hlength] at hlast
      subst heq
      refine ⟨hopen.copyId, ?_, ?_, fun k hk => ?_, ?_⟩
      · rw [hlen]
        have := (List.getElem?_eq_some_iff.1 hlast).1
        omega
      · rw [hlen]
        exact hlast
      · rw [hlen, ← hlength]
        exact (List.getElem?_eq_some_iff.1 hk).1
      · rw [hlen]
        exact le_add_right _ _
    · exact h.live id hid (hclosed hid' heq)

/-- The engine completes a command. -/
theorem complete (h : DevInv t d o) (hlt : d.engine.completed < d.engine.handles.length) :
    DevInv t d.complete o ∧ ∀ id, d.Done id → d.complete.Done id := by
  have hmono (id : ℕ) (hid : d.Done id) : d.complete.Done id :=
    ⟨hid.claimed, hid.issued, fun k hk => (hid.completed k hk).trans (lt_succ_self _)⟩
  refine ⟨{ h with
    counts := h.counts.step .complete hlt
    behind := (succ_le_of_lt hlt).trans h.length.le
    live := fun id hid hid' => { h.live id hid hid' with }
    opened := fun x hx => ?_
    done := fun id hid => hmono id (h.done id hid) }, hmono⟩
  · have hopen := h.opened x hx
    have hstage := hopen.stage
    exact { hopen with stage := by cases x <;> exact hstage }

end DevInv

end OpenHMR
