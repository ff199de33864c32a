import OpenHMR.NandBase

/-!
# What the operations leave alone

The flash operations, the update of the table in the flash and the marks of bad blocks keep
the table in memory, the cached translations, the active chip and the log of what was done
before (`Nand.Steady`). The backup of a block keeps all of these if the block and its remap
block are on one die, else all but the active chip (`Nand.Frame`).
-/

open BoundedLoop List

namespace OpenHMR

/-- From `s` to `s'` only the flash, the buffers and the chips changed, and operations were
added to the log. -/
structure Nand.Frame (s s' : Nand) : Prop where
  bbt : s'.bbt = s.bbt
  cache : s'.cache = s.cache
  log : s.log <+: s'.log

/-- The active chip is the same as well. -/
structure Nand.Steady (s s' : Nand) : Prop extends Nand.Frame s s' where
  activeChip : s'.activeChip = s.activeChip

namespace Nand

variable {s s' s'' : Nand}

theorem Frame.refl (s : Nand) : s.Frame s :=
  ⟨rfl, rfl, prefix_rfl⟩

theorem Frame.trans (h : s.Frame s') (h' : s'.Frame s'') : s.Frame s'' :=
  ⟨h'.bbt.trans h.bbt, h'.cache.trans h.cache, h.log.trans h'.log⟩

theorem Steady.refl (s : Nand) : s.Steady s :=
  ⟨Frame.refl s, rfl⟩

theorem Steady.trans (h : s.Steady s') (h' : s'.Steady s'') : s.Steady s'' :=
  ⟨h.toFrame.trans h'.toFrame, h'.activeChip.trans h.activeChip⟩

theorem steady_select (chip : ℤ) (s : Nand) : s.Steady (s.select chip) :=
  ⟨⟨rfl, rfl, prefix_rfl⟩, rfl⟩

/-- An operation is entered in the log, and the rest is kept. -/
theorem Steady.of_logged {op : FlashOp} (hb : s'.bbt = s.bbt) (hc : s'.cache = s.cache)
    (hl : s'.log = s.log ++ [op]) (ha : s'.activeChip = s.activeChip) : s.Steady s' :=
  ⟨⟨hb, hc, hl ▸ prefix_append _ _⟩, ha⟩

end Nand

section Operations

variable (env : Env) (g : Geometry)

section

variable (chipnr page : ℕ)

theorem readEccPage_steady (s : Nand) :
    s.Steady (readEccPage env g chipnr page s).2.2 :=
  .of_logged rfl rfl rfl rfl

theorem readEccPageBuf_steady (s : Nand) :
    s.Steady (readEccPageBuf env g chipnr page s).2 := by
  unfold readEccPageBuf
  simp only []
  split_ifs <;> exact .of_logged rfl rfl rfl rfl

theorem readOob_steady (chipnr page len : ℕ) (s : Nand) :
    s.Steady (readOob env g chipnr page len s).2.2 := by
  unfold readOob
  simp only []
  split_ifs <;> exact .of_logged rfl rfl rfl rfl

theorem writeOob_steady (chipnr page len : ℕ) (oobBuf : List UInt8) (s : Nand) :
    s.Steady (writeOob env g chipnr page len oobBuf s).2 := by
  unfold writeOob
  simp only []
  split_ifs <;> exact .of_logged rfl rfl rfl rfl

theorem writeEccPage_steady (data : List UInt8) (oobBuf : Option (List UInt8))
    (isBBT : Bool) (s : Nand) :
    s.Steady (writeEccPage env g chipnr page data oobBuf isBBT s).2 := by
  unfold writeEccPage
  simp only []
  split_ifs <;> exact .of_logged rfl rfl rfl rfl

theorem eraseBlock_steady (s : Nand) :
    s.Steady (eraseBlock env g chipnr page s).2 := by
  unfold eraseBlock
  simp only []
  split_ifs <;> exact .of_logged rfl rfl rfl rfl

/-- An erase is entered in the log, and the enabled chip stays. -/
theorem eraseBlock_log (s : Nand) :
    (eraseBlock env g chipnr page s).2.log = s.log ++
        [⟨.eraseBlock, chipnr, s.selected, page, (eraseBlock env g chipnr page s).1⟩] ∧
      (eraseBlock env g chipnr page s).2.selected = s.selected := by
  unfold eraseBlock
  simp only []
  split_ifs <;> exact ⟨rfl, rfl⟩

end

theorem writeOob_log (chipnr page len : ℕ) (oobBuf : List UInt8) (s : Nand) :
    (writeOob env g chipnr page len oobBuf s).2.log = s.log ++
        [⟨.writeOob, chipnr, s.selected, page, (writeOob env g chipnr page len oobBuf s).1⟩] ∧
      (writeOob env g chipnr page len oobBuf s).2.selected = s.selected := by
  unfold writeOob
  simp only []
  split_ifs <;> exact ⟨rfl, rfl⟩

theorem writeBbtPage_log (page : ℕ) (s : Nand) :
    (writeBbtPage env g page s).2.log = s.log ++
        [⟨.writeEccPage, 0, s.selected, page, (writeBbtPage env g page s).1⟩] ∧
      (writeBbtPage env g page s).2.selected = s.selected := by
  unfold writeBbtPage writeEccPageBuf writeEccPage
  simp only []
  split_ifs <;> exact ⟨rfl, rfl⟩

theorem writeEccPageBuf_steady (chipnr page : ℕ) (isBBT : Bool) (s : Nand) :
    s.Steady (writeEccPageBuf env g chipnr page isBBT s).2 := by
  have h := writeEccPage_steady env g chipnr page s.databuf (some s.oobbuf) isBBT s
  unfold writeEccPageBuf
  simp only []
  split_ifs
  · exact h
  · exact h.trans ⟨⟨rfl, rfl, prefix_rfl⟩, rfl⟩

theorem writeBbtPage_steady (page : ℕ) (s : Nand) : s.Steady (writeBbtPage env g page s).2 :=
  writeEccPageBuf_steady env g 0 page true s

theorem markBad_steady (chipnr block : ℕ) (s : Nand) : s.Steady (markBad env g chipnr block s) := by
  unfold markBad
  have h0 : s.Steady { s with oobbuf := s.oobbuf.set 0 0 } := ⟨⟨rfl, rfl, prefix_rfl⟩, rfl⟩
  exact (h0.trans (writeOob_steady env g _ _ _ _ _)).trans (writeOob_steady env g _ _ _ _ _)

theorem prepareBbt_steady (bytes : List UInt8) (s : Nand) : s.Steady (prepareBbt g bytes s) := by
  unfold prepareBbt
  simp only []
  split_ifs <;> exact ⟨⟨rfl, rfl, prefix_rfl⟩, rfl⟩

theorem steady_databuf (data : List UInt8) (s : Nand) : s.Steady { s with databuf := data } :=
  ⟨⟨rfl, rfl, prefix_rfl⟩, rfl⟩

theorem updateB0_steady (bytes : List UInt8) (s : Nand) :
    s.Steady (updateB0 env g bytes s) := by
  have h := (eraseBlock_steady env g 0 0 s).trans (writeBbtPage_steady env g 0 _)
  unfold updateB0
  simp only []
  split_ifs
  · exact (h.trans (steady_databuf _ _)).trans (writeBbtPage_steady env g 1 _)
  · exact h

theorem updateB1_steady (bytes : List UInt8) (s : Nand) :
    s.Steady (updateB1 env g bytes s).2 := by
  have h1 := eraseBlock_steady env g 1 g.ppb s
  have h2 := h1.trans (writeBbtPage_steady env g g.ppb _)
  have h3 := (h2.trans (steady_databuf (g.secondPage bytes) _)).trans
    (writeBbtPage_steady env g (g.ppb + 1) _)
  unfold updateB1
  simp only []
  split_ifs
  · exact h1
  · exact h2
  · exact h2
  · exact h3
  · exact h3

theorem prepareBbt_log (bytes : List UInt8) (s : Nand) :
    (prepareBbt g bytes s).log = s.log ∧ (prepareBbt g bytes s).selected = 0 := by
  unfold prepareBbt
  simp only []
  split_ifs <;> exact ⟨rfl, rfl⟩

theorem rtkUpdateBbt_steady (s : Nand) : s.Steady (rtkUpdateBbt env g s).2 := by
  have h := ((prepareBbt_steady g (bbtBytes s.bbt) s).trans
    (updateB0_steady env g (bbtBytes s.bbt) _)).trans (updateB1_steady env g (bbtBytes s.bbt) _)
  unfold rtkUpdateBbt
  simp only []
  split_ifs
  · exact h
  · exact h.trans (Nand.steady_select _ _)

/-! ## Backups -/

theorem switchDie_frame (errDie errDieRemap chip : ℤ) (s : Nand) :
    s.Frame (switchDie errDie errDieRemap chip s) := by
  unfold switchDie
  split_ifs <;> exact ⟨rfl, rfl, prefix_rfl⟩

theorem switchDie_self (die chip : ℤ) (s : Nand) : switchDie die die chip s = s :=
  if_neg (by simp)

theorem backupPage_frame (errDie errDieRemap : ℤ) (block blockRemap i : ℕ) (s : Nand) :
    s.Frame (backupPage env g errDie errDieRemap block blockRemap i s) := by
  unfold backupPage
  refine Nand.Frame.trans ?_ (writeEccPageBuf_steady env g _ _ _ _).toFrame
  refine Nand.Frame.trans ?_ (switchDie_frame _ _ _ _)
  refine (switchDie_frame errDie errDieRemap errDie s).trans ?_
  exact (readEccPageBuf_steady env g _ _ _).toFrame.trans ⟨rfl, rfl, prefix_rfl⟩

theorem backupPage_activeChip (die : ℤ) (block blockRemap i : ℕ) (s : Nand) :
    (backupPage env g die die block blockRemap i s).activeChip = s.activeChip := by
  unfold backupPage
  simp only [switchDie_self]
  rw [(writeEccPageBuf_steady env g _ _ _ _).activeChip]
  exact (readEccPageBuf_steady env g _ _ _).activeChip

/-- A property that every page of a backup keeps. -/
theorem foldl_backup {P : Nand → Prop} {f : Nand → ℕ → Nand} (h : ∀ s i, P s → P (f s i)) :
    ∀ (n : ℕ) (s : Nand), P s → P ((range n).foldl f s)
  | 0, _, hs => hs
  | n + 1, s, hs => by
    rw [range_succ, foldl_append]
    exact h _ n (foldl_backup h n s hs)

end Operations

/-! ## Rounds of the loops -/

/-- The driver when a loop ends or is left. -/
def endNand : Except Loop Loop → Nand
  | .ok l => l.nand
  | .error l => l.nand

theorem post_iff_endNand (P : Nand → Prop) {x : Except Loop Loop} :
    Post (fun l => P l.nand) (fun l => P l.nand) x ↔ P (endNand x) := by
  cases x <;> rfl

/-- What the accesses of the four calls on pages have in common : one operation of the kind
`kind` on the page of the cursor. -/
structure IsAccess (kind : FlashKind) (access : ℕ → Loop → ℤ × Loop) : Prop where
  cur : ∀ (i : ℕ) (l : Loop), (access i l).2.cur = l.cur
  steady : ∀ (i : ℕ) (l : Loop), l.nand.Steady (access i l).2.nand
  selected : ∀ (i : ℕ) (l : Loop), (access i l).2.nand.selected = l.nand.selected
  log : ∀ (i : ℕ) (l : Loop), (access i l).2.nand.log = l.nand.log ++
    [⟨kind, l.nand.activeChip.toNat, l.nand.selected, l.cur.page, (access i l).1⟩]

/-- The table is the same or has the block `block` of die `die` in a new entry. -/
def MayRecord (die : ℤ) (block : ℕ) (bbt bbt' : List BBt) : Prop :=
  bbt' = bbt ∨ ∃ r, recordBad die block bbt = some r ∧ bbt' = r.1

theorem mayRecord_enterBad (die : ℤ) (block : ℕ) (bbt : List BBt) :
    MayRecord die block bbt (enterBad die block bbt) := by
  unfold enterBad
  cases hrec : recordBad die block bbt with
  | none => exact .inl rfl
  | some r => exact .inr ⟨r, hrec, rfl⟩

/-- What the reactions to a failure have in common : the block of the failed access may be
entered in the table. -/
structure FailStep (g : Geometry) (l l' : Loop) : Prop where
  cur : l'.cur = l.cur
  cache : l'.nand.cache = l.nand.cache
  log : l.nand.log <+: l'.nand.log
  bbt : MayRecord l.errDie (l.cur.page / g.ppb) l.nand.bbt l'.nand.bbt
  activeChip : (∀ e ∈ l.nand.bbt, (e.rbDie.toNat : ℤ) = l.errDie) →
    l'.nand.activeChip = l.nand.activeChip

section Accesses

variable (env : Env) (g : Geometry)

theorem isAccess_readEcc : IsAccess .readEccPage (readEccAccess env g) :=
  ⟨fun _ _ => rfl, fun _ _ => readEccPage_steady env g _ _ _, fun _ _ => rfl, fun _ _ => rfl⟩

theorem isAccess_readOob (len : ℕ) : IsAccess .readOob (readOobAccess env g len) := by
  refine ⟨fun _ _ => rfl, fun _ _ => readOob_steady env g _ _ _ _, fun i l => ?_, fun i l => ?_⟩ <;>
  · simp only [readOobAccess, readOob]
    split_ifs <;> rfl

theorem isAccess_writeEcc (buf : ℕ → List UInt8) (oobBuf : Option (ℕ → List UInt8)) :
    IsAccess .writeEccPage (writeEccAccess env g buf oobBuf) := by
  refine ⟨fun _ _ => rfl, fun _ _ => writeEccPage_steady env g _ _ _ _ _ _, fun i l => ?_,
    fun i l => ?_⟩ <;>
  · simp only [writeEccAccess, writeEccUser, writeEccPage]
    split_ifs <;> rfl

theorem isAccess_writeOob (oobBuf : ℕ → List UInt8) (len : ℕ) :
    IsAccess .writeOob (writeOobAccess env g oobBuf len) := by
  refine ⟨fun _ _ => rfl, fun _ _ => writeOob_steady env g _ _ _ _ _, fun i l => ?_,
    fun i l => ?_⟩ <;>
  · simp only [writeOobAccess, writeOobUser, writeOob]
    split_ifs <;> rfl

theorem FailStep.of_steady {l l' : Loop} {bbt : List BBt} (hcur : l'.cur = l.cur)
    (hbbt : MayRecord l.errDie (l.cur.page / g.ppb) l.nand.bbt bbt)
    (h : (l.nand.setBbt bbt).Steady l'.nand) : FailStep g l l' :=
  ⟨hcur, h.cache, h.log, h.bbt ▸ hbbt, fun _ => h.activeChip⟩

theorem readFail_step (l : Loop) : Post (FailStep g l) (FailStep g l) (readFail env g l) := by
  have hbbt := mayRecord_enterBad l.errDie (l.cur.page / g.ppb) l.nand.bbt
  have hu := rtkUpdateBbt_steady env g
    (l.nand.setBbt (enterBad l.errDie (l.cur.page / g.ppb) l.nand.bbt))
  unfold readFail
  simp only []
  split_ifs
  · exact FailStep.of_steady g rfl hbbt hu
  · exact FailStep.of_steady g rfl hbbt (hu.trans (markBad_steady env g _ _ _))

theorem eraseFail_step (l : Loop) : Post (FailStep g l) (FailStep g l) (eraseFail env g l) := by
  unfold eraseFail
  cases hrec : recordBad l.errDie (l.cur.page / g.ppb) l.nand.bbt with
  | none => exact FailStep.of_steady g rfl (.inl rfl) (Nand.Steady.refl _)
  | some r =>
    have hbbt : MayRecord l.errDie (l.cur.page / g.ppb) l.nand.bbt r.1 := .inr ⟨r, hrec, rfl⟩
    have hu := rtkUpdateBbt_steady env g (l.nand.setBbt r.1)
    simp only []
    split_ifs
    · exact FailStep.of_steady g rfl hbbt hu
    · exact FailStep.of_steady g rfl hbbt
        ((hu.trans (markBad_steady env g _ _ _)).trans (eraseBlock_steady env g _ _ _))

variable {retry : ℕ → Nand → ℤ × Nand}

/-- A block is rescued. -/
theorem rescue_frame
    (hretry : ∀ (page : ℕ) (s : Nand), s.Steady (retry page s).2) (errDie : ℤ) (e : BBt)
    (block n : ℕ) (s : Nand) : s.Frame (rescue env g retry errDie e block n s) ∧
      (errDie = e.rbDie.toNat → (rescue env g retry errDie e block n s).activeChip =
        s.activeChip) := by
  have h0 := (Nand.steady_select e.rbDie.toNat s).trans
    (eraseBlock_steady env g e.rbDie.toNat (e.remapBlock.toNat * g.ppb) _)
  have hb := foldl_backup (P := fun s' => s.Frame s' ∧
      (errDie = e.rbDie.toNat → s'.activeChip = s.activeChip))
    (f := fun s i => backupPage env g errDie e.rbDie.toNat block e.remapBlock.toNat i s)
    (fun s' i hs => ⟨hs.1.trans (backupPage_frame env g _ _ _ _ _ _), fun he => by
      subst he
      rw [backupPage_activeChip, hs.2 rfl]⟩) n _ ⟨h0.toFrame, fun _ => h0.activeChip⟩
  unfold rescue
  refine ⟨(hb.1.trans (hretry _ _).toFrame).trans (switchDie_frame _ _ _ _), fun he => ?_⟩
  subst he
  rw [switchDie_self, (hretry _ _).activeChip, hb.2 rfl]

/-- The reaction to a failed write. -/
theorem writeFail_step (hretry : ∀ (page : ℕ) (s : Nand), s.Steady (retry page s).2) (l : Loop) :
    Post (FailStep g l) (FailStep g l) (writeFail env g retry l) := by
  unfold writeFail
  cases hrec : recordBad l.errDie (l.cur.page / g.ppb) l.nand.bbt with
  | none => exact FailStep.of_steady g rfl (.inl rfl) (Nand.Steady.refl _)
  | some r =>
    have hbbt : MayRecord l.errDie (l.cur.page / g.ppb) l.nand.bbt r.1 := .inr ⟨r, hrec, rfl⟩
    have hu := rtkUpdateBbt_steady env g (l.nand.setBbt r.1)
    simp only []
    split_ifs
    · exact FailStep.of_steady g rfl hbbt hu
    · obtain ⟨hf, ha⟩ := rescue_frame env g hretry l.errDie r.2 l.cur.block
        (l.cur.page &&& (g.ppb - 1)) (rtkUpdateBbt env g (l.nand.setBbt r.1)).2
      generalize rescue env g retry l.errDie r.2 l.cur.block (l.cur.page &&& (g.ppb - 1))
        (rtkUpdateBbt env g (l.nand.setBbt r.1)).2 = s at hf ha ⊢
      have hm := markBad_steady env g s.activeChip.toNat l.cur.block s
      have hall := (hu.toFrame.trans hf).trans hm.toFrame
      refine ⟨rfl, hall.cache, hall.log, hall.bbt ▸ hbbt, fun hdie => ?_⟩
      obtain ⟨pre, e, post, heq, -, -, -, hr⟩ := recordBad_eq_some hrec
      have he : e ∈ l.nand.bbt := by simp [heq]
      have hdie' : l.errDie = r.2.rbDie.toNat := by rw [hr, ← hdie e he]
      exact (hm.activeChip.trans (ha hdie')).trans hu.activeChip

end Accesses

/-! ## Whole loops -/

/-- The reaction to a failure is one of the above. -/
def IsFail (g : Geometry) (fail : ℕ → Loop → Except Loop Loop) : Prop :=
  ∀ i l, Post (FailStep g l) (FailStep g l) (fail i l)

section Loops

variable {g : Geometry} {kind : FlashKind} {sel : Option CacheSel}
  {access : ℕ → Loop → ℤ × Loop} {fail : ℕ → Loop → Except Loop Loop}

theorem locate_log (l : Loop) : (locate g sel l).nand.log = l.nand.log := by
  cases sel with
  | none => rfl
  | some sel =>
    simp only [locate, locateCached]
    split_ifs <;> rfl

theorem locate_bbt (sel : Option CacheSel) (l : Loop) :
    (locate g sel l).nand.bbt = l.nand.bbt := by
  cases sel with
  | none => rfl
  | some sel =>
    simp only [locate, locateCached]
    split_ifs <;> rfl

theorem advance_log (step : ℕ) (more : Bool) (l : Loop) :
    (advance g step more l).nand.log = l.nand.log := by
  unfold advance
  simp only []
  split_ifs <;> rfl

/-- The log after the access of a round is kept by the rest of the round. -/
theorem pageBody_log (hf : IsFail g fail) (i n : ℕ) (l : Loop) :
    (access i (locate g sel l)).2.nand.log <+:
      (endNand (pageBody g sel access fail i n l)).log := by
  unfold pageBody
  simp only []
  split_ifs
  · have h := hf i { (access i (locate g sel l)).2 with rc := (access i (locate g sel l)).1 }
    revert h
    cases fail i { (access i (locate g sel l)).2 with rc := (access i (locate g sel l)).1 } with
    | error l' => exact fun h => h.log
    | ok l' => exact fun h => (advance_log 1 _ l').symm ▸ h.log
  · exact prefix_rfl
  · exact (advance_log 1 _ _).symm ▸ prefix_rfl

variable (ha : IsAccess kind access)

include ha

/-- A round enters its operation in the log. -/
theorem pageBody_extends (hf : IsFail g fail) (i n : ℕ) (l : Loop) :
    l.nand.log <+: (endNand (pageBody g sel access fail i n l)).log := by
  refine List.IsPrefix.trans ?_ (pageBody_log hf i n l)
  rw [ha.log, locate_log]
  exact prefix_append _ _

theorem pageLoop_extends (hf : IsFail g fail) (n i : ℕ) (l : Loop) :
    l.nand.log <+: (endNand (loop (pageBody g sel access fail) n i l)).log := by
  refine (post_iff_endNand fun s => l.nand.log <+: s.log).1
    (loop_induct (P := fun _ l' => l.nand.log <+: l'.nand.log) (fun i n l' hl' => ?_) n i l
      prefix_rfl)
  exact (post_iff_endNand fun s => l.nand.log <+: s.log).2
    (hl'.trans (pageBody_extends ha hf i n l'))

/-- The log after the first access is kept by the rest of the loop. -/
theorem pageLoop_access_extends (hf : IsFail g fail) (n i : ℕ)
    (l : Loop) : (access i (locate g sel l)).2.nand.log <+:
      (endNand (loop (pageBody g sel access fail) (n + 1) i l)).log := by
  have hb : (access i (locate g sel l)).2.nand.log <+: _ := pageBody_log hf i n l
  cases hbody : pageBody g sel access fail i n l with
  | error l' =>
    rw [loop_succ_of_error hbody]
    rwa [hbody] at hb
  | ok l' =>
    rw [loop_succ_of_ok hbody]
    rw [hbody] at hb
    exact hb.trans (pageLoop_extends ha hf n (i + 1) l')

/-- Operations were added to the log, and all of them succeeded. -/
def Succeeded (s s' : Nand) : Prop :=
  ∃ ops, s'.log = s.log ++ ops ∧ ∀ op ∈ ops, op.rc = 0

omit ha in
theorem Succeeded.of_log_eq {s s1 s' : Nand} (hs : s1.log = s.log) (h : Succeeded s s') :
    Succeeded s1 s' := by
  rwa [Succeeded, hs]

/-- The state after a round whose access succeeded. -/
def nextRound (g : Geometry) (sel : Option CacheSel) (access : ℕ → Loop → ℤ × Loop) (i n : ℕ)
    (l : Loop) : Loop :=
  advance g 1 (n ≠ 0) { (access i (locate g sel l)).2 with rc := 0 }

theorem nextRound_log (i n : ℕ) (l : Loop) :
    (nextRound g sel access i n l).nand.log = l.nand.log ++
      [⟨kind, (locate g sel l).nand.activeChip.toNat, (locate g sel l).nand.selected,
        (locate g sel l).cur.page, (access i (locate g sel l)).1⟩] := by
  rw [nextRound, advance_log]
  exact (ha.log i _).trans (by rw [locate_log])

/-- In a loop without failures every round goes on to the next. -/
theorem pageLoop_succeeded (hf : IsFail g fail) {n i : ℕ} {l : Loop}
    (h : Succeeded l.nand (endNand (loop (pageBody g sel access fail) (n + 1) i l))) :
    (access i (locate g sel l)).1 = 0 ∧
      loop (pageBody g sel access fail) (n + 1) i l =
        loop (pageBody g sel access fail) n (i + 1) (nextRound g sel access i n l) ∧
      Succeeded (nextRound g sel access i n l).nand
        (endNand (loop (pageBody g sel access fail) n (i + 1) (nextRound g sel access i n l))) := by
  obtain ⟨ops, hlog, hops⟩ := h
  obtain ⟨rest, hrest⟩ : (access i (locate g sel l)).2.nand.log <+: _ :=
    pageLoop_access_extends ha hf n i l
  rw [← hrest, ha.log, locate_log, append_assoc] at hlog
  obtain rfl := append_cancel_left hlog
  have hrc : (access i (locate g sel l)).1 = 0 := hops _ mem_cons_self
  have hbody : pageBody g sel access fail i n l = .ok (nextRound g sel access i n l) := by
    simp only [pageBody, hrc, lt_irrefl, if_false, nextRound]
  have hloop := loop_succ_of_ok hbody
  refine ⟨hrc, hloop, rest, ?_, fun op hop => hops op (mem_append_right _ hop)⟩
  rw [← hloop, ← hrest, nextRound_log ha, ha.log, locate_log]

end Loops

end OpenHMR
