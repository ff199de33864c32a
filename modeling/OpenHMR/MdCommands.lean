import Mathlib.Data.UInt
import OpenHMR.MdLifetime

/-!
# The commands of a copy

`md_copy_start` gives the engine the commands of a copy in a loop, between which other threads run
and commands are completed. Whatever they do, the loop is left after at most two commands, the
commands copy each byte once, in order (`mdCopyStart_covers`), and none of more than 8 bytes leaves
8 bytes behind the last multiple of 256. What a thread gives is what the engine gets from it
(`givenAll_sublist`).
-/

namespace OpenHMR

open List Function Nat

/-- The parameters of `n` commands of the loop of `md_copy_start`. -/
def mdParams : ℕ → ℕ → ℕ → ℕ → List (List UInt32)
  | 0, _, _, _ => []
  | n + 1, len, addrDst, addrSrc =>
    let tmp := mdChunk len addrSrc
    (mdCommand 0 addrDst addrSrc tmp).tail ::
      mdParams n (len - tmp) ((addrDst + tmp) % 0x100000000) ((addrSrc + tmp) % 0x100000000)

/-- The bytes that a command with these parameters copies : where to, and where from. -/
def mdBytes : List UInt32 → List (UInt32 × UInt32)
  | [addrDst, addrSrc, n] =>
    (range n.toNat).map fun k => (addrDst + .ofNat k, addrSrc + .ofNat k)
  | _ => []

/-- The command is not one that the engine fails for. -/
def MdSafe : List UInt32 → Prop
  | [_, addrSrc, n] =>
    8 < n.toNat → (n.toNat - (8 - addrSrc.toNat % 8) % 8) % 256 ≠ 8
  | _ => True

theorem mdChunk_le (len addrSrc : ℕ) : mdChunk len addrSrc ≤ len := by
  rw [mdChunk_eq]
  split_ifs <;> omega

theorem length_mdParams : ∀ n len addrDst addrSrc : ℕ, (mdParams n len addrDst addrSrc).length = n
  | 0, _, _, _ => rfl
  | n + 1, _, _, _ => congrArg (· + 1) (length_mdParams n _ _ _)

/-- The commands that are left copy the bytes that are left. -/
theorem flatMap_mdParams : ∀ {n len addrDst addrSrc : ℕ}, n = mdLeft len addrSrc →
    len < 0x100000000 → (mdParams n len addrDst addrSrc).flatMap mdBytes =
      (range len).map fun k => (.ofNat addrDst + .ofNat k, .ofNat addrSrc + .ofNat k)
  | 0, len, addrDst, addrSrc, hn, _ => by
    have hzero : len = 0 := by
      unfold mdLeft at hn
      split_ifs at hn with h
      exact h
    rw [hzero]
    rfl
  | n + 1, len, addrDst, addrSrc, hn, hlen => by
    have hpos : 0 < len := Nat.pos_of_ne_zero fun h => by simp [h, mdLeft] at hn
    have hle := mdChunk_le len addrSrc
    rw [mdLeft_chunk hpos, succ_inj] at hn
    have ih := @flatMap_mdParams _ _ ((addrDst + mdChunk len addrSrc) % 0x100000000) _ hn (by omega)
    obtain ⟨rest, hrest⟩ := Nat.exists_eq_add_of_le hle
    rw [mdParams, flatMap_cons, ih]
    generalize mdChunk len addrSrc = tmp at *
    subst hrest
    have htmp : (UInt32.ofNat tmp).toNat = tmp := UInt32.toNat_ofNat_of_lt'
      (lt_of_le_of_lt hle hlen)
    have hmod (a : ℕ) : UInt32.ofNat (a % 0x100000000) = .ofNat a := by
      simp [← UInt32.toNat_inj]
    rw [range_add, map_append, map_map, Nat.add_sub_cancel_left]
    refine congrArg₂ _ (by simp only [mdCommand, tail_cons, mdBytes, htmp]) ?_
    refine map_congr_left fun k _ => ?_
    simp only [hmod, comp_apply, UInt32.ofNat_add, UInt32.add_assoc]

theorem mdSafe_of_mem : ∀ {n len addrDst addrSrc : ℕ}, len < 0x100000000 →
    ∀ p ∈ mdParams n len addrDst addrSrc, MdSafe p
  | n + 1, len, addrDst, addrSrc, hlen, p, hp => by
    have hle := mdChunk_le len addrSrc
    rcases mem_cons.1 hp with rfl | hp
    · simp only [mdCommand, tail_cons, MdSafe, UInt32.toNat_ofNat']
      rw [mdChunk_eq] at hle ⊢
      split_ifs at hle ⊢ <;> omega
    · exact mdSafe_of_mem (by omega) p hp

namespace MdCopy

variable {caller : MdCaller} {id i k : ℕ} {ps : List (List UInt32)} {s : MdCopy}

/-- A thread in the loop of `md_copy_start` has `k` steps to its end, and the commands with the
parameters `ps` to give. -/
def Giving (caller : MdCaller) (id k : ℕ) (ps : List (List UInt32)) : MdThread → Prop
  | .dir c j len addrDst addrSrc => c = caller ∧ j = id ∧ 0 < len ∧ k = 3 * mdLeft len addrSrc ∧
    ps = mdParams (mdLeft len addrSrc) len addrDst addrSrc
  | .write c j len addrDst addrSrc words => c = caller ∧ j = id ∧
    k = 3 * mdLeft len addrSrc + 2 ∧
    ps = words.tail :: mdParams (mdLeft len addrSrc) len addrDst addrSrc
  | .record c j len addrDst addrSrc _ => c = caller ∧ j = id ∧ k = 3 * mdLeft len addrSrc + 1 ∧
    ps = mdParams (mdLeft len addrSrc) len addrDst addrSrc
  | .ret c j => c = caller ∧ j = id ∧ k = 0 ∧ ps = []
  | _ => False

/-- The parameters of the command that thread `i` gives with an event. -/
def given (s : MdCopy) (i : ℕ) (e : MdCopyEvent) : List (List UInt32) :=
  match s.threads i with
  | .write _ _ _ _ _ words => if e = .cpu i then [words.tail] else []
  | _ => []

/-- The parameters of the commands that thread `i` gives in a run. -/
def givenAll (i : ℕ) : MdCopy → List MdCopyEvent → List (List UInt32)
  | _, [] => []
  | s, e :: es => s.given i e ++ givenAll i (s.step e) es

theorem cmds_checkLoop : ∀ (n : ℕ) (d : MdCopyDev), (MdCopyDev.checkLoop n d).cmds = d.cmds
  | 0, _ => rfl
  | n + 1, d => by
    rw [MdCopyDev.checkLoop]
    split_ifs
    · exact cmds_checkLoop n d.release
    · rfl

/-- The command that a thread gives is the next one that the engine gets. -/
theorem cmds_cpu (s : MdCopy) (i : ℕ) : (s.cpu i).dev.cmds.map (·.2.tail) =
    s.dev.cmds.map (·.2.tail) ++ s.given i (.cpu i) := by
  have hsync (caller : MdCaller) (handle : ℕ) : (s.syncDone i caller handle).dev = s.dev :=
    s.dev_next i (.sync caller handle)
  have hstarted (caller : MdCaller) (handle : ℕ) : (s.started i caller handle).dev = s.dev := by
    unfold started
    cases caller with
    | direct => rfl
    | memcpy => dsimp only; split_ifs <;> rfl
  unfold cpu given
  cases s.threads i with
  | write c id len addrDst addrSrc words => simp [goto, MdCopyDev.writeCmd]
  | checkTest next =>
    dsimp only
    split_ifs
    · exact (append_nil _).symm
    · rw [dev_next, append_nil]
  | checkLock next => rw [dev_next, MdCopyDev.checkCopyTasks, cmds_checkLoop, append_nil]
  | alloc c args =>
    dsimp only
    rw [append_nil, MdCopyDev.allocCopyRequest]
    split_ifs
    · rw [hstarted]
    · rfl
    · rw [hstarted]
  | ret c id => rw [hstarted, append_nil]
  | syncTest c handle =>
    dsimp only
    split_ifs
    · exact (append_nil _).symm
    · rw [hsync, append_nil]
  | syncWait c handle requestId =>
    dsimp only
    split_ifs <;> exact (append_nil _).symm
  | _ => exact (append_nil _).symm

/-- The commands that a thread gives in a run are among those that the engine gets in it, in the
same order. -/
theorem givenAll_sublist (i : ℕ) : ∀ (es : List MdCopyEvent) (s : MdCopy),
    ∃ new, (es.foldl step s).dev.cmds.map (·.2.tail) = s.dev.cmds.map (·.2.tail) ++ new ∧
      givenAll i s es <+ new
  | [], s => ⟨[], (append_nil _).symm, .slnil⟩
  | e :: es, s => by
    obtain ⟨new, hnew, hsub⟩ := givenAll_sublist i es (s.step e)
    rw [foldl_cons, hnew, givenAll]
    cases e with
    | cpu j =>
      refine ⟨s.given j (.cpu j) ++ new, ?_, Sublist.append ?_ hsub⟩
      · rw [step, cmds_cpu, append_assoc]
      · by_cases hij : j = i
        · rw [hij]
        · unfold given
          split <;> simp [hij]
    | _ =>
      refine ⟨new, rfl, ?_⟩
      unfold given
      split <;> simpa using hsub

/-- The thread that makes a call. -/
def calls : MdCopyEvent → Option ℕ
  | .start i _ | .check i | .sync i _ | .memcpy i _ => some i
  | _ => none

theorem giving_copyLoop (caller : MdCaller) (id len addrDst addrSrc : ℕ) :
    Giving caller id (3 * mdLeft len addrSrc) (mdParams (mdLeft len addrSrc) len addrDst addrSrc)
      (copyLoop caller id len addrDst addrSrc) := by
  unfold copyLoop
  split_ifs with h
  · simp [Giving, h, mdLeft, mdParams]
  · exact ⟨rfl, rfl, Nat.pos_of_ne_zero h, rfl, rfl⟩

theorem giving_zero {th : MdThread} (h : Giving caller id 0 ps th) :
    th = .ret caller id ∧ ps = [] := by
  cases th <;> simp only [Giving] at h
  case dir len _ addrSrc =>
    have hleft : mdLeft len addrSrc = _ + 1 := mdLeft_chunk h.2.2.1
    omega
  case ret =>
    obtain ⟨rfl, rfl, -, rfl⟩ := h
    exact ⟨rfl, rfl⟩
  all_goals omega

/-- A step of the thread. -/
theorem giving_cpu (h : Giving caller id (k + 1) ps (s.threads i)) :
    ∃ ps', ps = s.given i (.cpu i) ++ ps' ∧ Giving caller id k ps' ((s.cpu i).threads i) := by
  unfold given cpu goto
  cases hth : s.threads i <;> rw [hth] at h <;> try exact h.elim
  case dir c j len addrDst addrSrc =>
    obtain ⟨rfl, rfl, hlen, hk, rfl⟩ := h
    have hleft : mdLeft len addrSrc = _ + 1 := mdLeft_chunk hlen
    refine ⟨_, rfl, ?_⟩
    rw [hleft]
    simp only [update_self, Giving]
    exact ⟨trivial, trivial, by omega, rfl⟩
  case write c j len addrDst addrSrc words =>
    obtain ⟨rfl, rfl, hk, rfl⟩ := h
    refine ⟨mdParams (mdLeft len addrSrc) len addrDst addrSrc, by simp, ?_⟩
    simp only [update_self, Giving]
    exact ⟨trivial, trivial, by omega, trivial⟩
  case record c j len addrDst addrSrc handle =>
    obtain ⟨rfl, rfl, hk, rfl⟩ := h
    obtain rfl : k = _ := succ_inj.1 hk
    refine ⟨_, rfl, ?_⟩
    simp only [update_self]
    exact giving_copyLoop _ _ len addrDst addrSrc
  case ret c j => exact absurd h.2.2.1 (succ_ne_zero k)

/-- What others do leaves the thread where it is. -/
theorem threads_step {e : MdCopyEvent} (he : e ≠ .cpu i) (hcall : calls e ≠ some i) :
    (s.step e).threads i = s.threads i := by
  cases e with
  | complete => rfl
  | cpu j => exact threads_cpu (fun h : i = j => he (h ▸ rfl)) s
  | start j | check j | sync j | memcpy j =>
    exact threads_goto (fun h : i = j => hcall (h ▸ rfl)) _ _

/-- A whole run of the loop. -/
theorem giving_run : ∀ {es : List MdCopyEvent} {s : MdCopy} {ps : List (List UInt32)},
    (∀ e ∈ es, calls e ≠ some i) → Giving caller id (es.count (.cpu i)) ps (s.threads i) →
    (es.foldl step s).threads i = .ret caller id ∧ givenAll i s es = ps
  | [], s, ps, _, h => by
    obtain ⟨hret, rfl⟩ := giving_zero h
    exact ⟨hret, rfl⟩
  | e :: es, s, ps, hcalls, h => by
    have hrest := fun e' he' => hcalls e' (mem_cons_of_mem e he')
    by_cases he : e = .cpu i
    · subst he
      rw [count_cons_self] at h
      obtain ⟨ps', rfl, h'⟩ := giving_cpu h
      obtain ⟨hret, hgiven⟩ := giving_run hrest h'
      exact ⟨hret, congrArg _ hgiven⟩
    · rw [count_cons_of_ne he, ← threads_step he (hcalls e mem_cons_self)] at h
      obtain ⟨hret, hgiven⟩ := giving_run hrest h
      refine ⟨hret, ?_⟩
      rw [givenAll, hgiven, given]
      split <;> simp [he]

end MdCopy

/-- The loop of `md_copy_start` ends after at most two commands, whatever others do between them.
The commands copy each byte once, in order and to the offset it has, and are safe. -/
def MdCopy.Covers (s : MdCopy) (i : ℕ) (caller : MdCaller) (id len addrDst addrSrc : ℕ) : Prop :=
  ∃ n, 1 ≤ n ∧ n ≤ 2 ∧ ∀ es : List MdCopyEvent, (∀ e ∈ es, calls e ≠ some i) →
    es.count (.cpu i) = 3 * n →
    (es.foldl step s).threads i = .ret caller id ∧ (givenAll i s es).length = n ∧
    (givenAll i s es).flatMap mdBytes =
      (range len).map (fun k => (.ofNat addrDst + .ofNat k, .ofNat addrSrc + .ofNat k)) ∧
    ∀ p ∈ givenAll i s es, MdSafe p

/-- `md_copy_start` copies what it is told to, from any state at the head of its loop. -/
theorem mdCopyStart_covers {s : MdCopy} {i id len addrDst addrSrc : ℕ} {caller : MdCaller}
    (hlen : 0 < len) (hint : len < 0x80000000)
    (h : s.threads i = MdCopy.copyLoop caller id len addrDst addrSrc) :
    s.Covers i caller id len addrDst addrSrc := by
  have hpos : 1 ≤ mdLeft len addrSrc := by
    rw [mdLeft_chunk hlen]
    exact le_add_left 1 _
  refine ⟨mdLeft len addrSrc, hpos, mdLeft_le_two len addrSrc, fun es hcalls hcount => ?_⟩
  obtain ⟨hret, hgiven⟩ := MdCopy.giving_run hcalls
    (hcount ▸ h ▸ MdCopy.giving_copyLoop caller id len addrDst addrSrc)
  rw [hgiven]
  exact ⟨hret, length_mdParams _ _ _ _, flatMap_mdParams rfl (by omega), mdSafe_of_mem (by omega)⟩

/-- A call for 264 bytes, at the head of its loop. -/
theorem mdCopyStart_covers_two_commands :
    let s := [.start 0 ⟨0x80002000, 0x80001000, 264, 1⟩, .cpu 0, .cpu 0, .cpu 0, .cpu 0].foldl
      MdCopy.step .start
    s.threads 0 = MdCopy.copyLoop .direct 0 264 0x2000 0x1000 ∧
      s.Covers 0 .direct 0 264 0x2000 0x1000 :=
  ⟨rfl, mdCopyStart_covers (by decide) (by decide) rfl⟩

end OpenHMR
