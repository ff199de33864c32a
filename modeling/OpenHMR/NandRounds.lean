import OpenHMR.NandCalls

/-!
# Rounds and runs

Whatever the hardware does, a round of one of the loops accesses one block, may enter that block
in the table and goes on to the next page or block. `RoundStep` says this once, and
`pageBody_round` and `eraseBody_round` that every round is such a step. A run is a list of calls
of the five functions (`runNand`).
-/

open BoundedLoop

namespace OpenHMR

/-! ## Rounds -/

/-- What a round may do after it has found the address in `l` : the block is entered in the table
only if the operation failed. -/
structure RoundStep (g : Geometry) (failed : Prop) (l l' : Loop) :
    Prop extends FailStep g l l' where
  kept : ¬failed → l'.nand.bbt = l.nand.bbt

section Rounds

variable {g : Geometry} {failed : Prop} {l l₁ l' : Loop}

theorem FailStep.of_access (hcur : l₁.cur = l.cur) (hst : l.nand.Steady l₁.nand)
    (h : FailStep g l₁ l') : FailStep g l l' := by
  have herr : l₁.errDie = l.errDie := by rw [Loop.errDie, Loop.errDie, hcur]
  refine ⟨h.cur.trans hcur, h.cache.trans hst.cache, hst.log.trans h.log, ?_, fun hdie => ?_⟩
  · rw [← herr, ← hcur, ← hst.bbt]
    exact h.bbt
  · refine (h.activeChip ?_).trans hst.activeChip
    rwa [hst.bbt, herr]

/-- The operation did not fail. -/
theorem RoundStep.of_steady (hcur : l'.cur = l.cur) (hst : l.nand.Steady l'.nand) :
    RoundStep g failed l l' :=
  ⟨⟨hcur, hst.cache, hst.log, .inl hst.bbt, fun _ => hst.activeChip⟩, fun _ => hst.bbt⟩

variable {kind : FlashKind} {sel : Option CacheSel} {access : ℕ → Loop → ℤ × Loop}
  {fail : ℕ → Loop → Except Loop Loop}

/-- A round of a loop over pages. -/
theorem pageBody_round (ha : IsAccess kind access) (hf : IsFail g fail) (i n : ℕ) (l : Loop) :
    Post (fun l' => ∃ l₂, RoundStep g ((access i (locate g sel l)).1 = -1) (locate g sel l) l₂ ∧
        l' = advance g 1 (n ≠ 0) l₂)
      (RoundStep g ((access i (locate g sel l)).1 = -1) (locate g sel l))
      (pageBody g sel access fail i n l) := by
  obtain ⟨l₁, h1⟩ : ∃ l₁ : Loop, l₁ = { (access i (locate g sel l)).2 with
    rc := (access i (locate g sel l)).1 } := ⟨_, rfl⟩
  have hcur : l₁.cur = (locate g sel l).cur := h1 ▸ ha.cur i _
  have hst : (locate g sel l).nand.Steady l₁.nand := h1 ▸ ha.steady i _
  unfold pageBody
  simp only [← h1]
  split_ifs with hneg hrc
  · have hstep := hf i l₁
    cases hfail : fail i l₁ with
    | error l₂ =>
      rw [hfail] at hstep
      exact ⟨hstep.of_access hcur hst, fun h => absurd hrc h⟩
    | ok l₂ =>
      rw [hfail] at hstep
      exact ⟨l₂, ⟨hstep.of_access hcur hst, fun h => absurd hrc h⟩, rfl⟩
  · exact RoundStep.of_steady hcur hst
  · exact ⟨l₁, RoundStep.of_steady hcur hst, rfl⟩

/-- The address that a round of the erase loop finds. -/
def Loop.eraseAddr (g : Geometry) (l : Loop) : Loop :=
  let l := l.setWalk (l.walk none)
  { l with cur := { l.cur with page := l.cur.block * g.ppb } }

/-- The loop after the operation of a round of the erase loop. -/
def Loop.erased (env : Env) (g : Geometry) (l : Loop) : Loop :=
  let l := l.eraseAddr g
  let (rc, s) := eraseBlock env g l.nand.activeChip.toNat l.cur.page l.nand
  { l with nand := s, rc := rc }

theorem eraseBody_eq (env : Env) (g : Geometry) (i n : ℕ) (l : Loop) :
    eraseBody env g i n l =
      if (l.erased env g).rc ≠ 0 then
        match eraseFail env g { l.erased env g with
            failAddr := (l.erased env g).cur.page * g.pageSize } with
        | .error l => .error l
        | .ok l => .ok (eraseNext g n l)
      else .ok (eraseNext g n (l.erased env g)) :=
  rfl

/-- A round of the erase loop. -/
theorem eraseBody_round (env : Env) (i n : ℕ) (l : Loop) :
    Post (fun l' => ∃ l₂, RoundStep g ((l.erased env g).rc ≠ 0) (l.eraseAddr g) l₂ ∧
        l' = eraseNext g n l₂)
      (RoundStep g ((l.erased env g).rc ≠ 0) (l.eraseAddr g)) (eraseBody env g i n l) := by
  obtain ⟨l₁, h1⟩ : ∃ l₁ : Loop, l₁ = { l.erased env g with
    failAddr := (l.erased env g).cur.page * g.pageSize } := ⟨_, rfl⟩
  have hcur : l₁.cur = (l.eraseAddr g).cur := h1 ▸ rfl
  have hst : (l.eraseAddr g).nand.Steady l₁.nand := h1 ▸ eraseBlock_steady env g _ _ _
  rw [eraseBody_eq, ← h1]
  split_ifs with hrc
  · have hstep := eraseFail_step env g l₁
    cases hfail : eraseFail env g l₁ with
    | error l₂ =>
      rw [hfail] at hstep
      exact ⟨FailStep.of_access hcur hst hstep, fun h => absurd hrc h⟩
    | ok l₂ =>
      rw [hfail] at hstep
      exact ⟨l₂, ⟨FailStep.of_access hcur hst hstep, fun h => absurd hrc h⟩, rfl⟩
  · exact ⟨l.erased env g, RoundStep.of_steady rfl (eraseBlock_steady env g _ _ _), rfl⟩

end Rounds

/-! ## Runs -/

/-- A call of one of the five functions. -/
inductive NandCall where
  | page (c : PageCall)
  | erase (addr len : ℕ)

/-- The driver after the call. -/
def NandCall.run (env : Env) (g : Geometry) : NandCall → Nand → Nand
  | page c, s => c.run env g s
  | erase addr len, s => (nandEraseNand env g addr len s).nand

/-- The driver after a run. -/
def runNand (env : Env) (g : Geometry) (calls : List NandCall) (s : Nand) : Nand :=
  calls.foldl (fun s c => c.run env g s) s

section Runs

variable {env : Env} {g : Geometry}

/-- A call on pages that is refused leaves the driver as it is. -/
theorem PageCall.run_of_not_valid {c : PageCall} (hv : ¬c.Valid g) (s : Nand) :
    c.run env g s = s := by
  have hand (x : ℕ) : x &&& (g.pageSize - 1) = x % g.pageSize := g.and_pageSize x
  have hno : ¬(c.start + c.len ≤ g.mtdSize ∧ c.start % g.pageSize = 0 ∧
      (c.sel ≠ none → c.len % g.pageSize = 0)) := fun h => hv ⟨h.1, h.2.1, h.2.2⟩
  cases c <;>
  · simp only [start, len, sel] at hno
    simp only [run, result, nandReadEcc, nandReadOob, nandWriteEcc, nandWriteOob, hand]
    split_ifs with h1 h2
    · rfl
    · rfl
    · exact absurd (by simp_all) hno

/-- The loop of an erase call. -/
def eraseExec (env : Env) (g : Geometry) (addr len : ℕ) (s : Nand) : Except Loop Loop :=
  loop (eraseBody env g) ((len + g.erasesize - 1) / g.erasesize) 0
    (Loop.start g (g.eraseChip addr) (addr / g.pageSize) s)

/-- An erase call is refused, or it runs its loop. -/
theorem nandEraseNand_cases (addr len : ℕ) (s : Nand) :
    (nandEraseNand env g addr len s).nand = s ∨ addr % g.erasesize = 0 ∧
      (addr + len) % 2 ^ 32 ≤ g.mtdSize ∧
      (nandEraseNand env g addr len s).nand = endNand (eraseExec env g addr len s) := by
  unfold nandEraseNand
  split_ifs with h1 h2 h3
  · exact .inl rfl
  · exact .inl rfl
  · exact .inl rfl
  · have hal : addr % g.erasesize = 0 :=
      (Nat.and_two_pow_sub_one_eq_mod addr _).symm.trans (not_not.1 h3)
    refine .inr ⟨hal, not_lt.1 h2, ?_⟩
    change
      (match eraseExec env g addr len s with | .error l => _ | .ok l => _ : EraseResult).nand = _
    cases eraseExec env g addr len s <;> rfl

end Runs

end OpenHMR
