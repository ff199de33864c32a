import OpenHMR.AuthCalls

/-!
# Runs of the DVR memory calls

Two calls lose memory. `AUTH_IOCQFREE` does not look at the owner of a record, so a user program can
release what `dvr_malloc` lent to a driver. With `CONFIG_REALTEK_ADVANCED_RECLAIM` a request whose
block was cut and whose record cannot be inserted releases the whole block, and so its end for the
second time (`dvr_memory_lost`). In a run without these (`AuthCall.Safe`) every state has
`AuthState.RecordsOk`, and a user's call leaves the drivers' records alone (`dvr_records`).
-/

namespace OpenHMR

open AuthState

open Buddy (Block)

/-! ## Runs -/

/-- The call does not release a driver's record, and if it cuts a block, its record is inserted. -/
def AuthCall.Safe (cfg : AuthConfig) (s : AuthState) : AuthCall → Prop
  | .qalloc arg _ fails => maxCacheSize < arg → cfg.advancedReclaim = true → ∀ order,
      calOrder (toInt32 arg) = some order → 0x10000 ≤ excess arg order →
        arg < 2 ^ 31 ∧ fails = false
  | .qfree arg => ∀ r, s.tree.lookup (recordKey (s.kernelAddr arg)) = some r → r.owner ≠ driverId
  | _ => True

/-- The call does not cut a block. -/
def AuthCall.Whole (cfg : AuthConfig) : AuthCall → Prop
  | .qalloc arg _ _ => maxCacheSize < arg → cfg.advancedReclaim = true → ∀ order,
      calOrder (toInt32 arg) = some order → excess arg order < 0x10000
  | _ => True

/-- The states that calls with `C` lead to. -/
inductive AuthReach (cfg : AuthConfig) (mapStartAddr : ℕ) (C : AuthState → AuthCall → Prop) :
    AuthState → Prop
  | init : AuthReach cfg mapStartAddr C (.init mapStartAddr)
  | step {s : AuthState} {c : AuthCall} : AuthReach cfg mapStartAddr C s → s.Answers cfg c → C s c →
      AuthReach cfg mapStartAddr C (s.step cfg c)

namespace AuthState

variable {cfg : AuthConfig} {s : AuthState} {c : AuthCall}

/-- The drivers' records of `s` are in `s'`. -/
def KeepsDrivers (s s' : AuthState) : Prop :=
  ∀ e ∈ s.tree.entries, e.2.owner = driverId → e ∈ s'.tree.entries

variable {arg : ℕ} {mem : Option ℕ} {fails : Bool}

/-- A call of `qalloc`. -/
theorem Inv.qalloc (h : s.Inv cfg) (hans : s.Answers cfg (.qalloc arg mem fails))
    (hsafe : AuthCall.Safe cfg s (.qalloc arg mem fails)) :
    (s.qalloc cfg arg mem fails).2.Inv cfg ∧
      s.tree.entries ⊆ (s.qalloc cfg arg mem fails).2.tree.entries := by
  unfold AuthState.qalloc
  split_ifs with hsize
  · cases mem with
    | none => exact ⟨h, List.Subset.refl _⟩
    | some ret =>
      rw [Answers, if_pos hsize] at hans
      obtain ⟨hinv, htree, hins⟩ := h.qallocObject fails hans
      dsimp only
      split
      · refine ⟨hinv, fun e he => ?_⟩
        rwa [htree]
      · rename_i s' heq
        exact hins s' heq
  · refine h.qallocPages (not_le.1 hsize) (fun ret hret => ?_) (hsafe (not_le.1 hsize))
    obtain rfl := hret
    rwa [Answers, if_neg hsize] at hans

/-- A call keeps the invariant, and a user's call the drivers' records. -/
theorem Inv.step (h : s.Inv cfg) (hans : s.Answers cfg c) (hsafe : c.Safe cfg s) :
    (s.step cfg c).Inv cfg ∧ (c.FromUser → s.KeepsDrivers (s.step cfg c)) := by
  unfold AuthState.step
  split_ifs with hd
  · exact ⟨h, fun _ _ he _ => he⟩
  have hd : s.down = false := Bool.eq_false_iff.2 hd
  cases c with
  | qalloc arg mem fails =>
    obtain ⟨hinv, hsub⟩ := h.qalloc hans hsafe
    exact ⟨hinv, fun _ _ he _ => hsub he⟩
  | qfree arg =>
    obtain ⟨hinv, htree⟩ := h.qfree arg hd
    refine ⟨hinv, fun _ e he hown => ?_⟩
    dsimp only
    rcases htree with htree | htree <;> rw [htree]
    · exact he
    · refine Radix.Tree.mem_delete.2 ⟨he, fun hk => ?_⟩
      exact hsafe e.2 (Radix.Tree.lookup_eq_some.2 (hk ▸ he)) hown
  | qfreeAll =>
    obtain ⟨hinv, htree⟩ := h.freeAllMemoryAllocation hd
    exact ⟨hinv, fun _ e he hown => (htree e).2 ⟨he, hown⟩⟩
  | malloc size mem fails =>
    refine ⟨h.dvrMalloc fun ret hret => ?_, fun hu => hu.elim⟩
    obtain rfl := hret
    exact hans
  | free addr => exact ⟨h.dvrFree hd, fun hu => hu.elim⟩

theorem freePages_cut (addr order : ℕ) : (s.freePages cfg addr order).cut = s.cut := by
  unfold freePages
  split_ifs <;> rfl

theorem freePieces_cut {order : ℕ} : ∀ (n i addr : ℕ) (s : AuthState),
    (freePieces cfg order n i addr s).cut = s.cut
  | 0, _, _, _ => rfl
  | n + 1, i, addr, s => by
    rw [freePieces]
    split_ifs
    · rfl
    · rw [freePieces_cut n, freePages_cut]
      rfl
    · rw [freePieces_cut n, freePages_cut]

theorem freeRecordPages_cut (r : AuthRecord) (addr : ℕ) :
    (s.freeRecordPages cfg r addr).cut = s.cut := by
  unfold freeRecordPages
  split_ifs
  exacts [freePieces_cut .., freePages_cut ..]

theorem kfree_cut (addr : ℕ) : (s.kfree cfg addr).cut = s.cut := by
  unfold kfree
  split_ifs <;> rfl

theorem foldl_freeOne_cut : ∀ (records : List (ℕ × AuthRecord)) (s : AuthState),
    (records.foldl (freeOne cfg) s).cut = s.cut
  | [], _ => rfl
  | e :: records, s => by
    rw [List.foldl_cons, foldl_freeOne_cut records, freeOne]
    split_ifs
    · rfl
    · exact kfree_cut _
    · exact freeRecordPages_cut ..

theorem freeAllLoop_cut : ∀ (fuel startIndex : ℕ) (s : AuthState),
    (freeAllLoop cfg fuel startIndex s).cut = s.cut
  | 0, _, _ => rfl
  | fuel + 1, startIndex, s => by
    rw [freeAllLoop]
    split
    · split_ifs
      · exact foldl_freeOne_cut _ s
      · rw [freeAllLoop_cut fuel, foldl_freeOne_cut]
    · exact foldl_freeOne_cut _ s

theorem recordInsert_cut {s' : AuthState} {type addr : ℕ}
    (h : s.recordInsert type addr fails = some s') : s'.cut = s.cut := by
  obtain ⟨tree, -, rfl⟩ := recordInsert_eq_some h
  rfl

/-- Only a request with a block that is much larger cuts one. -/
theorem qallocPages_cut (h : ∀ order, calOrder (toInt32 arg) = some order →
      ¬(cfg.advancedReclaim = true ∧ 0x10000 ≤ excess arg order)) :
    (s.qallocPages cfg arg mem fails).2.cut = s.cut := by
  unfold qallocPages
  cases hcal : calOrder (toInt32 arg) with
  | none => rfl
  | some order =>
    cases mem with
    | none => rfl
    | some ret =>
      dsimp only
      rw [reclaim, if_neg (h order hcal)]
      dsimp only
      split
      · exact freePages_cut _ _
      · rename_i hins
        have hcut := recordInsert_cut hins
        exact hcut

/-- Such a call cuts no block. -/
theorem step_cut (h : c.Whole cfg) : (s.step cfg c).cut = s.cut := by
  unfold step
  split_ifs
  · rfl
  cases c with
  | qalloc arg mem fails =>
    dsimp only
    unfold qalloc
    split_ifs with hsize
    · cases mem with
      | none => rfl
      | some ret =>
        dsimp only
        split
        · exact kfree_cut _
        · rename_i hins
          have hcut := recordInsert_cut hins
          exact hcut
    · exact qallocPages_cut fun order hcal hcut =>
        not_lt.2 hcut.2 (h (not_le.1 hsize) hcut.1 order hcal)
  | qfree arg =>
    dsimp only
    unfold qfree
    dsimp only
    split_ifs
    · rfl
    · exact kfree_cut _
    · exact freeRecordPages_cut ..
  | qfreeAll => exact freeAllLoop_cut _ _ s
  | malloc size mem fails =>
    dsimp only
    unfold dvrMalloc
    split
    · rfl
    · cases mem with
      | none => rfl
      | some ret =>
        dsimp only
        split
        · exact freePages_cut _ _
        · rename_i hins
          have hcut := recordInsert_cut hins
          exact hcut
  | free addr =>
    dsimp only
    unfold dvrFree
    dsimp only
    split_ifs
    · rfl
    · rfl
    · exact freePages_cut _ _

variable (cfg) in
/-- No page is released twice; a block is released with its order, or in pieces if its end was given
back; every record names something that is lent, and no two of them the same; and every page that is
lent has a record. -/
structure RecordsOk (s : AuthState) : Prop where
  once : Ledger.Legal Block.span s.log
  order : ∀ b, .release b ∈ s.log → .acquire b ∈ s.log ∨ ∃ a ∈ s.cut, a.Piece b
  live : ∀ e ∈ s.tree.entries, e.2.Named cfg s
  apart : s.tree.entries.Pairwise fun e f => e.2.Apart f.2
  covered : s.down = false → ∀ x ∈ s.lent, ∃ e ∈ s.tree.entries, ¬e.2.IsObject ∧ x ∈ e.2.pages

theorem Inv.recordsOk (h : s.Inv cfg) : s.RecordsOk cfg where
  once := h.owns.legal
  order := h.owns.order
  live := fun _ he => h.owns.named _ (List.mem_map_of_mem he)
  apart := List.pairwise_map.1 h.owns.apart
  covered := fun hd x hx => by
    obtain ⟨r, hr, hp, hx⟩ := (h.owns.covered hd x hx).resolve_left id
    obtain ⟨e, he, rfl⟩ := List.mem_map.1 hr
    exact ⟨e, he, hp, hx⟩

end AuthState

variable {cfg : AuthConfig} {m : ℕ} {C : AuthState → AuthCall → Prop} {s : AuthState}

theorem AuthReach.inv (hC : ∀ s c, C s c → c.Safe cfg s) (h : AuthReach cfg m C s) : s.Inv cfg := by
  induction h with
  | init => exact inv_init m
  | step _ hans hc ih => exact (ih.step hans (hC _ _ hc)).1

theorem AuthReach.cut_eq_nil (hC : ∀ s c, C s c → c.Whole cfg) (h : AuthReach cfg m C s) :
    s.cut = [] := by
  induction h with
  | init => rfl
  | step _ _ hc ih => rw [step_cut (hC _ _ hc), ih]

/-- Runs of safe calls : the records and the ledger agree, and a user's call leaves the records of
`dvr_malloc` alone. If no block is cut, every block is released with the order it was obtained
with. -/
theorem dvr_records (cfg : AuthConfig) (m : ℕ) (s : AuthState)
    (h : AuthReach cfg m (fun s c => c.Safe cfg s) s) :
    s.RecordsOk cfg ∧
      (∀ c : AuthCall, s.Answers cfg c → c.Safe cfg s → c.FromUser →
        s.KeepsDrivers (s.step cfg c)) ∧
      (AuthReach cfg m (fun s c => c.Safe cfg s ∧ c.Whole cfg) s →
        ∀ b, .release b ∈ s.log → .acquire b ∈ s.log) := by
  have hinv := h.inv fun _ _ hc => hc
  refine ⟨hinv.recordsOk, fun c hans hsafe => (hinv.step hans hsafe).2, fun hwhole b hb => ?_⟩
  have hcut := hwhole.cut_eq_nil fun _ _ hc => hc.2
  refine (hinv.recordsOk.order b hb).resolve_right ?_
  rintro ⟨a, ha, -⟩
  rw [hcut] at ha
  cases ha

/-- 256 MB, with `CONFIG_REALTEK_ADVANCED_RECLAIM`. -/
def advancedConfig : AuthConfig :=
  ⟨true, 0x10000, le_rfl⟩

theorem freshPages_init {ret order : ℕ} (horder : order < maxOrder)
    (haddr : ret = 0x80000000 + 4096 * virtToPage ret)
    (hvalid : virtToPage ret + 2 ^ order ≤ cfg.maxMapnr) :
    (init m).FreshPages cfg ret order :=
  ⟨horder, haddr, hvalid, Set.disjoint_empty _, fun _ ho => nomatch ho⟩

theorem answers_cutCall (fails : Bool) :
    (init 0).Answers advancedConfig (.qalloc 0x101000 (some 0x80000000) fails) := by
  have hcal : calOrder (toInt32 0x101000) = some 9 := by decide
  rw [AuthState.Answers, if_neg (by decide), hcal]
  rintro _ ⟨⟩
  exact freshPages_init (by decide) (by decide) (by decide)

/-- A user program gets 1 MB and a page, out of a block whose end is given back, and gives it
back. -/
theorem dvr_records_cutThenFree :
    (((init 0).step advancedConfig (.qalloc 0x101000 (some 0x80000000) false)).step
      advancedConfig (.qfree 0)).RecordsOk advancedConfig := by
  refine (dvr_records advancedConfig 0 _ (.step (c := .qfree 0) (.step .init (answers_cutCall false)
    fun _ _ _ _ _ => ⟨by decide, rfl⟩) trivial fun r hr => ?_)).1
  have hown : ∀ r ∈ ((init 0).step advancedConfig
      (.qalloc 0x101000 (some 0x80000000) false)).tree.lookup (recordKey (kernelAddr
        ((init 0).step advancedConfig (.qalloc 0x101000 (some 0x80000000) false)) 0)),
      r.owner ≠ driverId := by decide +kernel
  exact hown r hr

/-- `AUTH_IOCQFREE` releases the record that `dvr_malloc` made, and the failed insertion of the
record of a block that was cut releases the end of the block twice. -/
theorem dvr_memory_lost :
    (∃ s : AuthState, AuthReach advancedConfig 0 (fun _ _ => True) s ∧
      (AuthCall.qfree 0).FromUser ∧ ¬s.KeepsDrivers (s.step advancedConfig (.qfree 0))) ∧
    ∃ s : AuthState, AuthReach advancedConfig 0 (fun _ _ => True) s ∧
      ¬Ledger.Legal Block.span s.log := by
  constructor
  · refine ⟨(init 0).step advancedConfig (.malloc 4096 (some 0x80000000) false),
      .step .init ?_ trivial, trivial, fun hkeep => ?_⟩
    · have hcal : calOrder (toInt32 4096) = some 0 := by decide
      rw [AuthState.Answers, hcal]
      rintro _ ⟨⟩
      exact freshPages_init (by decide) (by decide) (by decide)
    · have hgone := hkeep (recordKey 0x80000000, .ofDriver 0 0x80000000) (by decide +kernel)
        (by decide)
      revert hgone
      decide +kernel
  · refine ⟨_, .step .init (answers_cutCall true) trivial, fun hlegal => ?_⟩
    have hlog : ((init 0).step advancedConfig
        (.qalloc 0x101000 (some 0x80000000) true)).log =
          [.release ⟨0, 9⟩, .release ⟨384, 7⟩, .acquire ⟨0, 9⟩] := by decide +kernel
    rw [hlog] at hlegal
    exact (hlegal.1 (show 384 ∈ Block.span ⟨0, 9⟩ by simp [Block.span])).2 (by simp [Block.span])

end OpenHMR
