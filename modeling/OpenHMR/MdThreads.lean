import OpenHMR.MdTasks
import OpenHMR.Runs

/-!
# Threads that copy

The invariant of a run of `MdCopy` in which no thread enters a section of `md_check_copy_tasks` or
`md_alloc_copy_request` while another one is in `md_copy_start` behind its claim (`Exclusive`).
There is then at most one open copy, and the table is as `DevInv` says. `ThreadInv` is what a thread
knows, and `Later` what the others may change of it. `Inv.step` is the step lemma.
-/

open Runs List Prod

namespace OpenHMR

open Nat

/-! ## What a thread knows -/

/-- Copy `id` is one of the `c` copies that are not open, and done. -/
structure Settled (d : MdCopyDev) (c id : ℕ) : Prop where
  lt : id < c
  done : d.Done id

/-- The handle `requestId` was read from the entry of copy `id`, which is done when the command of
the handle is completed. -/
def Awaits (d : MdCopyDev) (c id : ℕ) (requestId : UInt64) : Prop :=
  id < c ∧ (d.Done id ∨ 0 < requestId.toNat ∧ requestId.toNat ≤ d.cmds.length ∧
    ∀ k, d.tasks[k]? = some id → k < requestId.toNat)

/-- What a thread in `md_check_copy_tasks` knows. -/
def MdNext.Knows (d : MdCopyDev) (c : ℕ) : MdNext → Prop
  | .leave => True
  | .alloc _ args => 0 < args.len
  | .sync _ handle => Settled d c handle

/-- What a thread knows, when `c` copies are not open and `x` is its open copy, if it has one. -/
def ThreadInv (d : MdCopyDev) (c : ℕ) (x : Option MdOpen) : MdThread → Prop
  | .idle => x = none
  | .checkTest next => x = none ∧ next.Knows d c
  | .checkLock next => x = none ∧ next.Knows d c
  | .alloc _ args => x = none ∧ 0 < args.len
  | .dst _ id len => id + 1 = d.copyCounter ∧ 0 < len ∧
    x = some (.fresh (mdLeft len (d.req id).dmaSrc))
  | .src _ id len _ => id + 1 = d.copyCounter ∧ 0 < len ∧
    x = some (.fresh (mdLeft len (d.req id).dmaSrc))
  | .dir _ id len _ addrSrc => id + 1 = d.copyCounter ∧ 0 < len ∧
    ∃ y, x = some y ∧ y.left = mdLeft len addrSrc
  | .write _ id len _ addrSrc _ => id + 1 = d.copyCounter ∧
    ∃ y, x = some y ∧ y.left = mdLeft len addrSrc + 1
  | .record _ id len _ addrSrc handle => id + 1 = d.copyCounter ∧
    x = some (.pending (mdLeft len addrSrc) handle)
  | .ret _ id => id + 1 = d.copyCounter ∧ x = some (.recorded 0)
  | .syncTest _ handle => x = none ∧ handle < c
  | .syncRead _ handle => x = none ∧ handle < c
  | .syncWait _ handle requestId => x = none ∧ Awaits d c handle requestId

/-- The thread is in `md_copy_start`, behind its claim. -/
def MdThread.Inside : MdThread → Prop
  | .dst .. | .src .. | .dir .. | .write .. | .record .. | .ret .. => True
  | _ => False

instance : DecidablePred MdThread.Inside := fun t => by
  cases t <;> unfold MdThread.Inside <;> infer_instance

theorem ThreadInv.inside {d : MdCopyDev} {c : ℕ} {x : MdOpen} {th : MdThread}
    (h : ThreadInv d c (some x) th) : th.Inside := by
  cases th
  case idle => exact absurd h (by simp [ThreadInv])
  case dst => exact trivial
  case src => exact trivial
  case dir => exact trivial
  case write => exact trivial
  case record => exact trivial
  case ret => exact trivial
  all_goals exact absurd h.1 (by simp)

/-! ## What others may change -/

/-- The table, as the threads without an open copy see it, has gone on. -/
structure Later (d : MdCopyDev) (c : ℕ) (d' : MdCopyDev) (c' : ℕ) : Prop where
  le : c ≤ c'
  done : ∀ id < c, d.Done id → d'.Done id
  length : d.cmds.length ≤ d'.cmds.length
  tasks : ∀ id < c, ∀ k : ℕ, d'.tasks[k]? = some id → d.tasks[k]? = some id

section Later

variable {d d' : MdCopyDev} {c c' id : ℕ}

theorem Settled.later (h : Settled d c id) (hl : Later d c d' c') : Settled d' c' id :=
  ⟨h.lt.trans_le hl.le, hl.done id h.lt h.done⟩

theorem Awaits.later {requestId : UInt64} (h : Awaits d c id requestId) (hl : Later d c d' c') :
    Awaits d' c' id requestId := by
  obtain ⟨hlt, h⟩ := h
  refine ⟨hlt.trans_le hl.le, h.imp (hl.done id hlt) ?_⟩
  rintro ⟨hpos, hlen, hlast⟩
  exact ⟨hpos, hlen.trans hl.length, fun k hk => hlast k (hl.tasks id hlt k hk)⟩

/-- What a thread knows stays. -/
theorem ThreadInv.later {th : MdThread} (h : ThreadInv d c none th) (hl : Later d c d' c') :
    ThreadInv d' c' none th := by
  have hnext {next : MdNext} (hk : next.Knows d c) : next.Knows d' c' := by
    cases next with
    | leave | alloc => exact hk
    | sync caller handle => exact Settled.later hk hl
  cases th with
  | idle => exact h
  | checkTest | checkLock => exact ⟨rfl, hnext h.2⟩
  | alloc caller args => exact h
  | syncTest | syncRead => exact ⟨rfl, h.2.trans_le hl.le⟩
  | syncWait caller handle requestId => exact ⟨rfl, Awaits.later h.2 hl⟩
  | dst | src => exact absurd h.2.2 (by simp)
  | dir =>
    obtain ⟨-, -, y, hy, -⟩ := h
    exact absurd hy (by simp)
  | write =>
    obtain ⟨-, y, hy, -⟩ := h
    exact absurd hy (by simp)
  | record | ret => exact absurd h.2 (by simp)

/-- Completed commands disturb no thread. -/
theorem ThreadInv.complete {x : Option MdOpen} {th : MdThread} (h : ThreadInv d c x th)
    (hl : Later d c d.complete c) : ThreadInv d.complete c x th := by
  cases x with
  | none => exact h.later hl
  | some x =>
    have hin := h.inside
    cases th
    case dst => exact h
    case src => exact h
    case dir => exact h
    case write => exact h
    case record => exact h
    case ret => exact h
    all_goals exact hin.elim

theorem Later.of_same (h : DevInv.Same d d') : Later d d.copyCounter d' d'.copyCounter := by
  refine ⟨h.copyCounter.ge, fun id _ hid => h.done hid, by rw [h.tasks], fun id _ k hk => ?_⟩
  rw [MdCopyDev.tasks, h.tasks] at hk
  exact hk

theorem Later.claim (ht : d.copyCounter + 1 < 0x10000000000000000) (args : MdArgs) (x : MdOpen) :
    Later d d.copyCounter (d.claim args) ((d.claim args).closed (some x)) := by
  have hcounter := MdCopyDev.copyCounter_claim ht args
  refine ⟨?_, fun id _ hid => hid.claim ht args, le_refl _, fun id _ k hk => hk⟩
  rw [MdCopyDev.closed, hcounter, Nat.add_sub_cancel]

theorem Later.writeCmd (words : List UInt32) (x y : MdOpen) :
    Later d (d.closed (some x)) (d.writeCmd (d.copyCounter - 1) words)
      ((d.writeCmd (d.copyCounter - 1) words).closed (some y)) := by
  refine ⟨le_refl _, fun id hid h => h.writeCmd hid.ne words, ?_, fun id hid k hk => ?_⟩
  · rw [MdCopyDev.writeCmd, length_append]
    exact le_add_right _ _
  · rw [MdCopyDev.tasks_writeCmd] at hk
    rcases lt_or_ge k d.tasks.length with hlt | hge
    · rwa [List.getElem?_append_left hlt] at hk
    · rw [List.getElem?_append_right hge] at hk
      exact absurd (mem_singleton.1 (mem_of_getElem? hk)) hid.ne

theorem Later.record (handle : UInt64) (x y : MdOpen) :
    Later d (d.closed (some x)) (d.record (d.copyCounter - 1) handle)
      ((d.record (d.copyCounter - 1) handle).closed (some y)) :=
  ⟨le_refl _, fun _ _ h => { h with }, le_refl _, fun _ _ _ hk => hk⟩

theorem Later.close (d : MdCopyDev) (x : MdOpen) : Later d (d.closed (some x)) d (d.closed none) :=
  ⟨sub_le _ _, fun _ _ h => h, le_refl _, fun _ _ _ hk => hk⟩

end Later

/-! ## The invariant -/

/-- The open copy of thread `i`, when `who` is the thread that has one, with its copy. -/
def openOf (who : Option (ℕ × MdOpen)) (i : ℕ) : Option MdOpen :=
  match who with
  | none => none
  | some (j, x) => if i = j then some x else none

theorem openOf_self (i : ℕ) (x : MdOpen) : openOf (some (i, x)) i = some x := if_pos rfl

theorem openOf_of_ne {i j : ℕ} (h : i ≠ j) (x : MdOpen) : openOf (some (j, x)) i = none := if_neg h

theorem eq_of_openOf {who : Option (ℕ × MdOpen)} {i : ℕ} {x : MdOpen}
    (h : openOf who i = some x) : who = some (i, x) := by
  unfold openOf at h
  cases who with
  | none => exact absurd h (by simp)
  | some w =>
    simp only [] at h
    split_ifs at h with heq
    rw [heq, ← Option.some.inj h]

/-- The number of copies that are not open. -/
def MdCopy.closed (s : MdCopy) (who : Option (ℕ × MdOpen)) : ℕ :=
  s.dev.closed (who.map snd)

/-- The invariant, apart from what thread `i` knows. -/
structure Others (t : ℕ) (s : MdCopy) (who : Option (ℕ × MdOpen)) (i : ℕ) : Prop where
  dev : DevInv t s.dev (who.map snd)
  threads : ∀ j, j ≠ i → ThreadInv s.dev (s.closed who) (openOf who j) (s.threads j)
  returned : ∀ h ∈ s.returned, h < s.closed who
  synced : ∀ h ∈ s.synced, Settled s.dev (s.closed who) h

/-- The invariant after at most `t` steps. -/
structure MdCopy.Inv (t : ℕ) (s : MdCopy) (who : Option (ℕ × MdOpen)) : Prop where
  dev : DevInv t s.dev (who.map snd)
  threads : ∀ j, ThreadInv s.dev (s.closed who) (openOf who j) (s.threads j)
  returned : ∀ h ∈ s.returned, h < s.closed who
  synced : ∀ h ∈ s.synced, Settled s.dev (s.closed who) h

section Steps

variable {t t' : ℕ} {s : MdCopy} {who : Option (ℕ × MdOpen)} {i : ℕ}

theorem MdCopy.Inv.start : MdCopy.Inv 0 .start none :=
  ⟨.start, fun _ => rfl, fun _ h => absurd h not_mem_nil, fun _ h => absurd h not_mem_nil⟩

theorem MdCopy.Inv.others (h : s.Inv t who) (i : ℕ) : Others t s who i :=
  ⟨h.dev, fun j _ => h.threads j, h.returned, h.synced⟩

variable (h : Others t s who i)

include h

/-- Thread `i` goes somewhere else. -/
theorem Others.goto {th : MdThread}
    (hth : ThreadInv s.dev (s.closed who) (openOf who i) th) : (s.goto i th).Inv t who := by
  refine ⟨h.dev, fun j => ?_, h.returned, h.synced⟩
  by_cases hj : j = i
  · have hself : (s.goto i th).threads i = th := Function.update_self _ _ _
    rw [hj, hself]
    exact hth
  · have hother : (s.goto i th).threads j = s.threads j := Function.update_of_ne hj _ _
    rw [hother]
    exact h.threads j hj

/-- The table goes on, by thread `i`. -/
theorem Others.later (who' : Option (ℕ × MdOpen)) {d' : MdCopyDev}
    (hdev : DevInv t' d' (who'.map snd))
    (hlater : Later s.dev (s.closed who) d' (d'.closed (who'.map snd)))
    (hwho : ∀ j, j ≠ i → openOf who j = none ∧ openOf who' j = none) :
    Others t' { s with dev := d' } who' i := by
  refine ⟨hdev, fun j hj => ?_, fun x hx => (h.returned x hx).trans_le hlater.le,
    fun x hx => (h.synced x hx).later hlater⟩
  have hth := h.threads j hj
  rw [(hwho j hj).1] at hth
  rw [(hwho j hj).2]
  exact hth.later hlater

/-- `md_copy_start` returns. -/
theorem Others.started (hwho : openOf who i = none) {handle : ℕ}
    (hh : handle < s.closed who) (caller : MdCaller) : (s.started i caller handle).Inv t who := by
  have h' : Others t { s with returned := s.returned ++ [handle] } who i := by
    refine ⟨h.dev, h.threads, fun x hx => ?_, h.synced⟩
    rcases mem_append.1 hx with hx | hx
    · exact h.returned x hx
    · rw [mem_singleton.1 hx]
      exact hh
  cases caller with
  | direct => exact h'.goto hwho
  | memcpy since =>
    unfold MdCopy.started
    split_ifs
    · exact h'.goto ⟨hwho, hh⟩
    · have hidle := (h'.goto hwho : (MdCopy.goto _ i .idle).Inv t who)
      exact { hidle with }

/-- `md_copy_sync` returns. -/
theorem Others.syncDone (hwho : openOf who i = none) {handle : ℕ}
    (hh : Settled s.dev (s.closed who) handle) (caller : MdCaller) :
    (s.syncDone i caller handle).Inv t who := by
  have h' : Others t { s with synced := s.synced ++ [handle] } who i := by
    refine ⟨h.dev, h.threads, h.returned, fun x hx => ?_⟩
    rcases mem_append.1 hx with hx | hx
    · exact h.synced x hx
    · rw [mem_singleton.1 hx]
      exact hh
  have hidle := (h'.goto hwho : (MdCopy.goto _ i .idle).Inv t who)
  cases caller with
  | direct => exact hidle
  | memcpy since => exact { hidle with }

/-- `md_check_copy_tasks` returns. -/
theorem Others.next (hwho : openOf who i = none) {next : MdNext}
    (hk : next.Knows s.dev (s.closed who)) : (s.next i next).Inv t who := by
  cases next with
  | leave => exact h.goto hwho
  | alloc caller args => exact h.goto ⟨hwho, hk⟩
  | sync caller handle => exact h.syncDone hwho hk caller

end Steps

/-! ## The step lemma -/

/-- The thread is before a section in which it must not meet an open copy. -/
def MdThread.Meets : MdThread → Prop
  | .checkLock _ | .alloc .. => True
  | _ => False

instance : DecidablePred MdThread.Meets := fun t => by
  cases t <;> unfold MdThread.Meets <;> infer_instance

/-- No thread is in `md_copy_start` behind its claim when another one enters a section of
`md_check_copy_tasks` or `md_alloc_copy_request`. -/
def Exclusive (s : MdCopy) : MdCopyEvent → Prop
  | .cpu i => (s.threads i).Meets → ∀ j, ¬(s.threads j).Inside
  | _ => True

namespace MdCopy

variable {t : ℕ} {s : MdCopy} {who : Option (ℕ × MdOpen)} {i : ℕ}

variable (h : s.Inv t who)

include h

/-- No copy is open if no thread is inside. -/
theorem Inv.who_eq_none (hno : ∀ j, ¬(s.threads j).Inside) : who = none := by
  cases who with
  | none => rfl
  | some w =>
    have hth := h.threads w.1
    rw [openOf_self] at hth
    exact absurd hth.inside (hno w.1)

theorem Inv.le_size {t' : ℕ} (ht : t ≤ t') : s.Inv t' who :=
  ⟨h.dev.le_size ht, h.threads, h.returned, h.synced⟩

omit h in
/-- The section of `md_check_copy_tasks`. -/
theorem Inv.checkLock (h : s.Inv t none) (ht : t < 0x10000000000000000) {next : MdNext}
    (hth : s.threads i = .checkLock next) : (s.cpu i).Inv t none := by
  have hi := h.threads i
  rw [hth] at hi
  obtain ⟨hdev, hsame, -⟩ := h.dev.check ht
  have hlater := Later.of_same hsame
  have ho : Others t { s with dev := s.dev.checkCopyTasks } none i :=
    (h.others i).later none hdev hlater fun _ _ => ⟨rfl, rfl⟩
  have hknows : next.Knows s.dev.checkCopyTasks s.dev.checkCopyTasks.copyCounter := by
    cases next with
    | leave => trivial
    | alloc caller args => exact hi.2
    | sync caller handle => exact Settled.later hi.2 hlater
  unfold cpu
  rw [hth]
  exact ho.next rfl hknows

omit h in
/-- The section of `md_alloc_copy_request`. -/
theorem Inv.alloc (h : s.Inv t none) (ht : t + 1 < 0x10000000000000000) {caller : MdCaller}
    {args : MdArgs} (hth : s.threads i = .alloc caller args) :
    ∃ who', (s.cpu i).Inv (t + 1) who' := by
  have hi := h.threads i
  rw [hth] at hi
  have hsize := h.dev.size
  unfold cpu
  rw [hth]
  simp only []
  rw [MdCopyDev.allocCopyRequest, if_neg h.dev.state]
  by_cases hfree : (s.dev.req s.dev.copyCounter).requestId = 0
  · rw [if_pos hfree]
    have hdev := h.dev.claim ht hi.2 hfree
    have hcounter := MdCopyDev.copyCounter_claim (d := s.dev) (by omega) args
    have hreq : ((s.dev.claim args).req s.dev.copyCounter).dmaSrc = virtToPhys args.src := by
      rw [MdCopyDev.req_claim]
      rfl
    have ho := (h.others i).later (some (i, .fresh (mdLeft args.len (virtToPhys args.src)))) hdev
      (Later.claim (by omega) args _) fun j hj => ⟨rfl, openOf_of_ne hj _⟩
    refine ⟨_, ho.goto ⟨hcounter.symm, hi.2, ?_⟩⟩
    rw [openOf_self]
    exact congrArg (fun a => some (MdOpen.fresh (mdLeft args.len a))) hreq.symm
  · rw [if_neg hfree]
    -- The entry belongs to a copy, so some copy was claimed before.
    obtain ⟨id, -, hid, -⟩ := h.dev.free _ hfree
    exact ⟨none, ((h.le_size (le_succ t)).others i).started rfl (zero_lt_of_lt hid) caller⟩

/-- `md_write`. -/
theorem Inv.write (ht : t + 1 < 0x10000000000000000) {caller : MdCaller}
    {id len addrDst addrSrc : ℕ} {words : List UInt32}
    (hth : s.threads i = .write caller id len addrDst addrSrc words)
    (hout : s.dev.engine.handles.length + 1 < s.dev.engine.completed + 0x8000) :
    ∃ who', (s.cpu i).Inv (t + 1) who' := by
  have hi := h.threads i
  rw [hth] at hi
  obtain ⟨hid, y, hy, hleft⟩ := hi
  obtain rfl := eq_of_openOf hy
  obtain rfl : id = s.dev.copyCounter - 1 := by omega
  have hdev := h.dev.write hleft ht hout words
  have ho := (h.others i).later (some (i, .pending (mdLeft len addrSrc)
    (s.dev.writeCmd (s.dev.copyCounter - 1) words).handle)) hdev (Later.writeCmd words y _)
    fun j hj => ⟨openOf_of_ne hj _, openOf_of_ne hj _⟩
  unfold cpu
  rw [hth]
  exact ⟨_, ho.goto ⟨hid, openOf_self i _⟩⟩

/-- The handle is stored. -/
theorem Inv.record {caller : MdCaller} {id len addrDst addrSrc : ℕ}
    {handle : UInt64} (hth : s.threads i = .record caller id len addrDst addrSrc handle) :
    ∃ who', (s.cpu i).Inv t who' := by
  have hi := h.threads i
  rw [hth] at hi
  obtain ⟨hid, hy⟩ := hi
  obtain rfl := eq_of_openOf hy
  obtain rfl : id = s.dev.copyCounter - 1 := by omega
  have ho := (h.others i).later (some (i, .recorded (mdLeft len addrSrc))) h.dev.record
    (Later.record handle _ _) fun j hj => ⟨openOf_of_ne hj _, openOf_of_ne hj _⟩
  unfold cpu
  rw [hth]
  refine ⟨_, ho.goto ?_⟩
  unfold copyLoop
  split_ifs with hlen
  · rw [hlen]
    exact ⟨hid, openOf_self i _⟩
  · exact ⟨hid, Nat.pos_of_ne_zero hlen, _, openOf_self i _, rfl⟩

/-- `md_copy_start` returns. -/
theorem Inv.ret {caller : MdCaller} {id : ℕ}
    (hth : s.threads i = .ret caller id) : (s.cpu i).Inv t none := by
  have hi := h.threads i
  rw [hth] at hi
  obtain ⟨hid, hy⟩ := hi
  obtain rfl := eq_of_openOf hy
  obtain rfl : id = s.dev.copyCounter - 1 := by omega
  have ho := (h.others i).later none h.dev.close (Later.close _ _)
    fun j hj => ⟨openOf_of_ne hj _, rfl⟩
  unfold cpu
  rw [hth]
  refine ho.started rfl ?_ caller
  rw [(h.dev.opened _ rfl).copyId]
  exact Nat.sub_lt (h.dev.opened _ rfl).pos Nat.one_pos

/-- The handle that `md_copy_sync` reads. -/
theorem Inv.awaits {id : ℕ} (hid : id < s.closed who) :
    Awaits s.dev (s.closed who) id (s.dev.req id).requestId := by
  refine ⟨hid, ?_⟩
  rcases lt_or_ge id s.dev.finishedCopyCounter with hlt | hge
  · exact Or.inl (h.dev.done id hlt)
  · have hlive := h.dev.live id hge hid
    exact Or.inr ⟨hlive.pos, hlive.le_length, hlive.last⟩

theorem Inv.settled {id : ℕ} {requestId : UInt64} (ha : Awaits s.dev (s.closed who) id requestId)
    (hfin : mdCheckfinish s.dev.engine.instCnt requestId = true) :
    Settled s.dev (s.closed who) id := by
  obtain ⟨hid, hdone | ⟨hpos, hlen, hlast⟩⟩ := ha
  · exact ⟨hid, hdone⟩
  · have hle := h.dev.counts.completed_of_checkfinish (h.dev.length ▸ hlen) hpos hfin
    exact ⟨hid, hid.trans_le h.dev.closed_le, h.dev.issued id hid,
      fun k hk => (hlast k hk).trans_le hle⟩

/-- A thread goes on. -/
theorem Inv.cpu (ht : t + 1 < 0x10000000000000000)
    (ha : s.Allowed (.cpu i)) (hex : Exclusive s (.cpu i)) :
    ∃ who', (s.cpu i).Inv (t + 1) who' := by
  have hi := h.threads i
  have h' := h.le_size (le_succ t)
  have ho := h'.others i
  cases hth : s.threads i with
  | checkLock next =>
    obtain rfl := h.who_eq_none (hex (by rw [hth]; trivial))
    exact ⟨none, (h.checkLock (by omega) hth).le_size (le_succ t)⟩
  | alloc caller args =>
    obtain rfl := h.who_eq_none (hex (by rw [hth]; trivial))
    exact h.alloc ht hth
  | write caller id len addrDst addrSrc words =>
    rw [Allowed, hth] at ha
    exact h.write ht hth ha
  | record caller id len addrDst addrSrc handle => exact h'.record hth
  | ret caller id => exact ⟨none, h'.ret hth⟩
  | idle =>
    unfold MdCopy.cpu
    rw [hth]
    exact ⟨who, h'⟩
  | checkTest next =>
    rw [hth] at hi
    unfold MdCopy.cpu
    rw [hth]
    split_ifs
    · exact ⟨who, ho.goto hi⟩
    · exact ⟨who, ho.next hi.1 hi.2⟩
  | dst caller id len =>
    rw [hth] at hi
    unfold MdCopy.cpu
    rw [hth]
    exact ⟨who, ho.goto hi⟩
  | src caller id len addrDst =>
    rw [hth] at hi
    obtain ⟨hid, hlen, hy⟩ := hi
    unfold MdCopy.cpu
    rw [hth]
    refine ⟨who, ho.goto ?_⟩
    rw [copyLoop, if_neg hlen.ne']
    exact ⟨hid, hlen, _, hy, rfl⟩
  | dir caller id len addrDst addrSrc =>
    rw [hth] at hi
    obtain ⟨hid, hlen, y, hy, hleft⟩ := hi
    unfold MdCopy.cpu
    rw [hth]
    exact ⟨who, ho.goto ⟨hid, y, hy, hleft.trans (mdLeft_chunk hlen)⟩⟩
  | syncTest caller handle =>
    rw [hth] at hi
    unfold MdCopy.cpu
    rw [hth]
    simp only []
    split_ifs with hfin
    · exact ⟨who, ho.goto hi⟩
    · exact ⟨who, ho.syncDone hi.1 ⟨hi.2, h.dev.done handle (lt_of_not_ge hfin)⟩ caller⟩
  | syncRead caller handle =>
    rw [hth] at hi
    unfold MdCopy.cpu
    rw [hth]
    exact ⟨who, ho.goto ⟨hi.1, h.awaits hi.2⟩⟩
  | syncWait caller handle requestId =>
    rw [hth] at hi
    unfold MdCopy.cpu
    rw [hth]
    simp only []
    split_ifs with hfin
    · exact ⟨who, ho.goto ⟨hi.1, h.settled hi.2 hfin⟩⟩
    · exact ⟨who, h'⟩

/-- The engine completes a command. -/
theorem Inv.complete (hlt : s.dev.engine.completed < s.dev.engine.handles.length) :
    MdCopy.Inv t { s with dev := s.dev.complete } who := by
  obtain ⟨hdev, hdone⟩ := h.dev.complete hlt
  have hlater : Later s.dev (s.closed who) s.dev.complete (s.closed who) :=
    ⟨le_refl _, fun id _ => hdone id, le_refl _, fun _ _ _ hk => hk⟩
  have hclosed : MdCopy.closed { s with dev := s.dev.complete } who = s.closed who := by
    cases who.map snd <;> rfl
  refine ⟨hdev, fun j => ?_, fun x hx => hclosed ▸ h.returned x hx, fun x hx => ?_⟩
  · rw [hclosed]
    exact (h.threads j).complete hlater
  · rw [hclosed]
    exact (h.synced x hx).later hlater

/-- A step keeps the invariant. -/
theorem Inv.step (ht : t + 1 < 0x10000000000000000) {ev : MdCopyEvent}
    (ha : s.Allowed ev) (hex : Exclusive s ev) : ∃ who', (s.step ev).Inv (t + 1) who' := by
  have h' := h.le_size (le_succ t)
  have hidle {i : ℕ} (hi : s.threads i = .idle) : openOf who i = none := by
    have hth := h.threads i
    rw [hi] at hth
    exact hth
  cases ev with
  | start i args => exact ⟨who, (h'.others i).goto ⟨hidle ha.1, ha.2⟩⟩
  | check i => exact ⟨who, (h'.others i).goto ⟨hidle ha, trivial⟩⟩
  | sync i handle => exact ⟨who, (h'.others i).goto ⟨hidle ha.1, h.returned handle ha.2⟩⟩
  | memcpy i args => exact ⟨who, (h'.others i).goto ⟨hidle ha.1, ha.2⟩⟩
  | cpu i => exact h.cpu ht ha hex
  | complete => exact ⟨who, h'.complete ha⟩

end MdCopy

end OpenHMR
