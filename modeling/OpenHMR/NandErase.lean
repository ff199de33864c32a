import OpenHMR.AppendLog
import OpenHMR.NandUnique

/-!
# What an erase call erases

On a device with one chip, `nand_erase_nand` walks the table for every block of its range and
erases the block it finds. If that fails, the block is entered in the table, and its remap block
is erased. `EraseDone` says that afterwards the walk leads from every block of the range to a block
that was erased in the call, and that nothing else was erased. It holds for every pattern of
failures for which there is a remap block, and which the remap block and the table itself are
spared (`EraseProvided`), as long as no block of the range stands in the boot code : there
`rtk_erase_block` does not report a failure (`eraseDone_iff`).
-/

open Remap BoundedLoop AppendLog List Nat

namespace OpenHMR

open OpenHMR.Geometry

/-! ## Statement -/

section Statement

variable (env : Env) (g : Geometry)

/-- The erase of block `q` was completed between the states `s` and `s'`. -/
def ErasedIn (s s' : Nand) (q : ℕ) : Prop :=
  ∃ k op, Added s.log s'.log k op ∧ env.outcome k = .ok ∧ op.kind = .eraseBlock ∧
    op.selected = 0 ∧ op.page = q * g.ppb

/-- The block `r` is the remap block of an entry that was unused in `bbt` and is used in
`bbt'`. -/
def Assigned (bbt bbt' : List BBt) (r : ℕ) : Prop :=
  ∃ (j : ℕ) (e e' : BBt), bbt[j]? = some e ∧ bbt'[j]? = some e' ∧ e.badBlock = bbInit ∧
    e'.badBlock ≠ bbInit ∧ e'.remapBlock.toNat = r

/-- A block that may be erased for the `n` blocks from `first` on : one of the two blocks of the
table, a block that stood for one of the range, or a newly assigned one. -/
def MayErase (first n : ℕ) (bbt bbt' : List BBt) (q : ℕ) : Prop :=
  q < 2 ∨ (∃ b, first ≤ b ∧ b < first + n ∧ blockOf bbt b = q) ∨ Assigned bbt bbt' q

/-- What an erase of the `n` blocks from `first` on does. -/
structure EraseDone (first n : ℕ) (s s' : Nand) : Prop where
  erased : ∀ b, first ≤ b → b < first + n → ErasedIn env g s s' (blockOf s'.bbt b)
  issued : ∀ k op, Added s.log s'.log k op → op.kind = .eraseBlock →
    MayErase first n s.bbt s'.bbt (op.page / g.ppb)

/-- The driver before the remap block is erased, when `bbt` is the new table. -/
def Loop.marked (l : Loop) (bbt : List BBt) : Nand :=
  markBad env g (UInt16.ofInt l.cur.chipnr).toNat l.cur.block
    (rtkUpdateBbt env g (l.nand.setBbt bbt)).2

/-- If the erase of the round fails, there is a free entry for the block. If the failure is
reported, the table is written and the remap block is erased. -/
def RoundProvided (_ : ℕ) (l : Loop) : Prop :=
  env.outcome l.nand.log.length ≠ .ok →
    ∃ r, recordBad (l.erased env g).errDie ((l.erased env g).cur.page / g.ppb)
        (l.erased env g).nand.bbt = some r ∧
      ((l.erased env g).rc ≠ 0 →
        (rtkUpdateBbt env g ((l.erased env g).nand.setBbt r.1)).1 = 0 ∧
          env.outcome ((l.erased env g).marked env g r.1).log.length = .ok)

/-- Every round of the call is provided for. -/
def EraseProvided (addr len : ℕ) (s : Nand) : Prop :=
  Throughout (eraseBody env g) (RoundProvided env g) ((len + g.erasesize - 1) / g.erasesize) 0
    (Loop.start g (g.eraseChip addr) (addr / g.pageSize) s)

end Statement

/-! ## The log -/

section Log

variable {env : Env} {g : Geometry} {s s' s'' : Nand} {q : ℕ}

theorem ErasedIn.mono (h : ErasedIn env g s s' q) (hp : s'.log <+: s''.log) :
    ErasedIn env g s s'' q := by
  obtain ⟨k, op, hadd, h⟩ := h
  exact ⟨k, op, hadd.mono hp, h⟩

theorem ErasedIn.of_later (h : ErasedIn env g s' s'' q) (hp : s.log <+: s'.log) :
    ErasedIn env g s s'' q := by
  obtain ⟨k, op, hadd, h⟩ := h
  exact ⟨k, op, hadd.of_later hp, h⟩

theorem ErasedIn.exists_zipIdx (h : ErasedIn env g s s' q) : ∃ x ∈ s'.log.zipIdx,
    env.outcome x.2 = .ok ∧ x.1.kind = .eraseBlock ∧ x.1.page = q * g.ppb := by
  obtain ⟨k, op, ⟨-, hk⟩, hok, hkind, -, hpage⟩ := h
  exact ⟨(op, k), List.mem_zipIdx_iff_getElem?.2 hk, hok, hkind, hpage⟩

/-- A completed erase. -/
theorem erasedIn_eraseBlock (hs : s.selected = 0) (hok : env.outcome s.log.length = .ok)
    (chipnr q : ℕ) : ErasedIn env g s (eraseBlock env g chipnr (q * g.ppb) s).2 q := by
  obtain ⟨hlog, -⟩ := eraseBlock_log env g chipnr (q * g.ppb) s
  exact ⟨_, _, (added_concat hlog).2 ⟨rfl, rfl⟩, hok, rfl, hs, rfl⟩

/-- An operation that erases no block but those of the table. -/
def TableOp (g : Geometry) (op : FlashOp) : Prop :=
  op.kind = .eraseBlock → op.page / g.ppb < 2

theorem writeBbtPage_grows (env : Env) (g : Geometry) (page : ℕ) (s : Nand) :
    Grows (TableOp g) s.log (writeBbtPage env g page s).2.log :=
  .concat (writeBbtPage_log env g page s).1 fun h => nomatch h

theorem eraseBbt_grows (env : Env) (g : Geometry) (chipnr : ℕ) {block : ℕ} (hb : block < 2)
    (s : Nand) :
    Grows (TableOp g) s.log (eraseBlock env g chipnr (block * g.ppb) s).2.log :=
  .concat (eraseBlock_log env g chipnr _ s).1 fun _ => by
    rwa [Nat.mul_div_cancel _ g.ppb_pos]

theorem updateB0_grows (bytes : List UInt8) (s : Nand) :
    Grows (TableOp g) s.log (updateB0 env g bytes s).log := by
  have herase : Grows (TableOp g) s.log (eraseBlock env g 0 0 s).2.log := by
    have h := eraseBbt_grows env g 0 Nat.two_pos s
    rwa [zero_mul] at h
  have h := herase.trans (writeBbtPage_grows env g 0 _)
  unfold updateB0
  simp only []
  split_ifs
  · exact h.trans (writeBbtPage_grows env g 1 { (writeBbtPage env g 0 _).2 with
      databuf := g.secondPage bytes })
  · exact h

/-- The second copy of the table. -/
theorem updateB1_grows (bytes : List UInt8) (s : Nand) :
    Grows (TableOp g) s.log (updateB1 env g bytes s).2.log := by
  have herase : Grows (TableOp g) s.log (eraseBlock env g 1 g.ppb s).2.log := by
    have h := eraseBbt_grows env g 1 Nat.one_lt_two s
    rwa [one_mul] at h
  have h := herase.trans (writeBbtPage_grows env g g.ppb _)
  have h2 := h.trans (writeBbtPage_grows env g (g.ppb + 1)
    { (writeBbtPage env g g.ppb (eraseBlock env g 1 g.ppb s).2).2 with
      databuf := g.secondPage bytes })
  unfold updateB1
  simp only []
  split_ifs
  · exact herase
  · exact h
  · exact h
  · exact h2
  · exact h2

/-- The erases of the update of the table are those of its two blocks, and if it succeeds, it
enables the active chip again. -/
theorem rtkUpdateBbt_grows (env : Env) (g : Geometry) (s : Nand) :
    Grows (TableOp g) s.log (rtkUpdateBbt env g s).2.log ∧
      ((rtkUpdateBbt env g s).1 = 0 →
        (rtkUpdateBbt env g s).2.selected = selectChip s.activeChip.toNat) := by
  have h0 := (prepareBbt_log g (bbtBytes s.bbt) s).1
  have h : Grows (TableOp g) s.log (updateB1 env g (bbtBytes s.bbt)
      (updateB0 env g (bbtBytes s.bbt) (prepareBbt g (bbtBytes s.bbt) s))).2.log :=
    h0 ▸ (updateB0_grows _ _).trans (updateB1_grows _ _)
  unfold rtkUpdateBbt
  simp only []
  split_ifs
  · exact ⟨h, fun hrc => absurd (show (-1 : ℤ) = 0 from hrc) (by decide)⟩
  · exact ⟨h, fun _ => rfl⟩

/-- Marking a block as bad erases nothing. -/
theorem markBad_grows (env : Env) (g : Geometry) (chipnr block : ℕ) (s : Nand) :
    Grows (TableOp g) s.log (markBad env g chipnr block s).log ∧
      (markBad env g chipnr block s).selected = s.selected := by
  have hwrite (page : ℕ) (buf : List UInt8) (s : Nand) : Grows (TableOp g) s.log
      (writeOob env g chipnr page g.oobSize buf s).2.log :=
    .concat (writeOob_log env g chipnr page g.oobSize buf s).1 fun h => nomatch h
  unfold markBad
  simp only []
  refine ⟨(hwrite _ _ { s with oobbuf := s.oobbuf.set 0 0 }).trans (hwrite _ _ _), ?_⟩
  rw [(writeOob_log env g chipnr _ _ _ _).2, (writeOob_log env g chipnr _ _ _ _).2]

end Log

/-! ## The table -/

/-- The entries that are unused in `bbt'` were so in `bbt`. -/
def Unspent (bbt bbt' : List BBt) : Prop :=
  ∀ (j : ℕ) (e : BBt), bbt'[j]? = some e → e.badBlock = bbInit → bbt[j]? = some e

section Table

variable {g : Geometry} {bbt bbt' : List BBt} {die : ℤ} {block q : ℕ} {r : List BBt × BBt}

/-- Entering a bad block sets one entry. -/
theorem recordBad_eq_set (h : recordBad die block bbt = some r) :
    ∃ (j : ℕ) (e : BBt), bbt[j]? = some e ∧ e.Spare ∧ r.1 = bbt.set j r.2 ∧
      r.2 = { e with bbDie := UInt16.ofInt die, badBlock := UInt16.ofNat block } := by
  obtain ⟨pre, e, post, rfl, -, he, hr, hr2⟩ := recordBad_eq_some h
  refine ⟨pre.length, e, ?_, he, ?_, hr2⟩
  · rw [List.getElem?_append_right (Nat.le_refl _), Nat.sub_self]
    rfl
  · rw [hr, set_append_right _ _ (Nat.le_refl _), Nat.sub_self]
    rfl

section

variable (hr : recordBad die block bbt' = some r)

include hr

theorem Unspent.record (h : Unspent bbt bbt')
    (hb : UInt16.ofNat block ≠ bbInit) : Unspent bbt r.1 := by
  obtain ⟨j, e, -, -, hset, hr2⟩ := recordBad_eq_set hr
  intro i x hx hu
  rw [hset, List.getElem?_set] at hx
  split_ifs at hx
  · obtain rfl := Option.some.inj hx
    rw [hr2] at hu
    exact absurd hu hb
  · exact h i x hx hu

/-- What was assigned stays assigned, and the remap block of the new entry is assigned. -/
theorem Assigned.record (h : Assigned bbt bbt' q) :
    Assigned bbt r.1 q := by
  obtain ⟨j, e, hj, he, hset, -⟩ := recordBad_eq_set hr
  obtain ⟨i, x, x', hx, hx', hu, hu', hq⟩ := h
  have hne : j ≠ i := by
    rintro rfl
    rw [hj] at hx'
    exact hu' (Option.some.inj hx' ▸ he.1)
  refine ⟨i, x, x', hx, ?_, hu, hu', hq⟩
  rw [hset, List.getElem?_set_ne hne, hx']

theorem Unspent.assigned (h : Unspent bbt bbt')
    (hb : UInt16.ofNat block ≠ bbInit) : Assigned bbt r.1 r.2.remapBlock.toNat := by
  obtain ⟨j, e, hj, he, hset, hr2⟩ := recordBad_eq_set hr
  refine ⟨j, e, r.2, h j e hj he.1, ?_, he.1, by rwa [hr2], rfl⟩
  rw [hset, List.getElem?_set_self (List.getElem?_eq_some_iff.1 hj).1]

end

end Table

/-! ## A round -/

section Round

variable {env : Env} {g : Geometry} {l : Loop} {p : ℕ}

/-- The block that the round erases. -/
def Loop.target (l : Loop) : ℕ :=
  blockOf l.nand.bbt l.cur.block

theorem eraseBlock_rc (env : Env) (g : Geometry) (chipnr q : ℕ) (s : Nand) :
    (eraseBlock env g chipnr (q * g.ppb) s).1 =
      g.plainRc (env.outcome s.log.length) chipnr (q * g.ppb) := by
  have halign : q * g.ppb &&& (g.ppb - 1) = 0 := by rw [g.and_ppb, mul_mod_left]
  unfold eraseBlock
  simp only [halign, not_true, and_false, if_false, or_false]
  split_ifs <;> rfl

theorem eraseAddr_at (hd : DiesBelow 1 l.nand.bbt) (hl : l.At g p) :
    (l.eraseAddr g).At g p ∧ (l.eraseAddr g).cur.block = l.target ∧
      (l.eraseAddr g).cur.page = l.target * g.ppb := by
  have hblock : (l.walk none).block = l.target := walkBbt_block hd hl.activeChip
  obtain ⟨h1, h2, h3⟩ := walkBbt_oneDie (w := ⟨l.nand.activeChip, l.nand.selected,
    l.cur.chipnrRemap, l.cur.block, none⟩) hd hl.activeChip
  exact ⟨⟨h1, h2.trans hl.selected, hl.chipnr, h3.trans hl.chipnrRemap, hl.oldPage, hl.pageOffset⟩,
    hblock, congrArg (· * g.ppb) hblock⟩

/-- The erase of a round. -/
theorem erased_at (env : Env) (hd : DiesBelow 1 l.nand.bbt) (hl : l.At g p) :
    (l.erased env g).At g p ∧ (l.erased env g).cur.page = l.target * g.ppb ∧
      (l.erased env g).nand.bbt = l.nand.bbt ∧
      (l.erased env g).nand.log = l.nand.log ++
        [⟨.eraseBlock, 0, 0, l.target * g.ppb, (l.erased env g).rc⟩] ∧
      (l.erased env g).rc = g.plainRc (env.outcome l.nand.log.length) 0 (l.target * g.ppb) := by
  obtain ⟨hat, -, hpage⟩ := eraseAddr_at hd hl
  have hchip : (l.eraseAddr g).nand.activeChip.toNat = 0 := congrArg UInt8.toNat hat.activeChip
  have heq : l.erased env g = { l.eraseAddr g with
      nand := (eraseBlock env g (l.eraseAddr g).nand.activeChip.toNat (l.eraseAddr g).cur.page
        (l.eraseAddr g).nand).2
      rc := (eraseBlock env g (l.eraseAddr g).nand.activeChip.toNat (l.eraseAddr g).cur.page
        (l.eraseAddr g).nand).1 } := rfl
  rw [hchip, hpage] at heq
  obtain ⟨hlog, hsel⟩ := eraseBlock_log env g 0 (l.target * g.ppb) (l.eraseAddr g).nand
  have hst := eraseBlock_steady env g 0 (l.target * g.ppb) (l.eraseAddr g).nand
  rw [hat.selected] at hlog
  rw [heq]
  exact ⟨⟨hst.activeChip.trans hat.activeChip, hsel.trans hat.selected, hat.chipnr,
    hat.chipnrRemap, hat.oldPage, hat.pageOffset⟩, hpage, hst.bbt, hlog,
    eraseBlock_rc env g 0 l.target _⟩

/-- A round whose erase fails, with a free entry for its block. -/
theorem eraseFail_at (hl : l.At g p) {r : List BBt × BBt}
    (hr : recordBad l.errDie (l.cur.page / g.ppb) l.nand.bbt = some r)
    (hu : (rtkUpdateBbt env g (l.nand.setBbt r.1)).1 = 0) :
    eraseFail env g l = .ok { l with
      nand := (eraseBlock env g 0 (r.2.remapBlock.toNat * g.ppb) (l.marked env g r.1)).2 } := by
  unfold eraseFail
  rw [hr]
  simp only [hu, ne_eq, not_true, if_false, hl.chipnr, hl.chipnrRemap, Loop.marked]
  rfl

/-- The driver before the remap block is erased. -/
theorem marked_at (hl : l.At g p) {bbt : List BBt}
    (hu : (rtkUpdateBbt env g (l.nand.setBbt bbt)).1 = 0) :
    Grows (TableOp g) l.nand.log (l.marked env g bbt).log ∧ (l.marked env g bbt).bbt = bbt ∧
      (l.marked env g bbt).activeChip = 0 ∧ (l.marked env g bbt).selected = 0 := by
  obtain ⟨hlog, hsel⟩ := rtkUpdateBbt_grows env g (l.nand.setBbt bbt)
  have hst := rtkUpdateBbt_steady env g (l.nand.setBbt bbt)
  have hmark := markBad_steady env g (UInt16.ofInt l.cur.chipnr).toNat l.cur.block
    (rtkUpdateBbt env g (l.nand.setBbt bbt)).2
  obtain ⟨hlog', hsel'⟩ := markBad_grows env g (UInt16.ofInt l.cur.chipnr).toNat l.cur.block
    (rtkUpdateBbt env g (l.nand.setBbt bbt)).2
  have hact : (l.nand.setBbt bbt).activeChip = 0 := hl.activeChip
  refine ⟨hlog.trans hlog', hmark.bbt.trans hst.bbt,
    (hmark.activeChip.trans hst.activeChip).trans hact, hsel'.trans ((hsel hu).trans ?_)⟩
  rw [hact]
  rfl

/-- The next block of the range. -/
theorem eraseNext_at (hl : l.At g p) {n : ℕ} (hp : n ≠ 0 → p + g.ppb < g.pageNum) :
    (eraseNext g n l).At g (p + g.ppb) ∧ (eraseNext g n l).cur.block = (p + g.ppb) / g.ppb ∧
      (eraseNext g n l).nand = l.nand := by
  rw [eraseNext, if_neg (by rw [hl.chipnr, hl.chipnrRemap]; simp)]
  obtain ⟨h1, h2, h3, -⟩ := advance_add_at g.ppb_pos (n ≠ 0) hl fun h => hp (of_decide_eq_true h)
  exact ⟨h1, h2, h3⟩

end Round

/-! ## The account of a call -/

/-- What holds of the driver `s'` after `i` of the `n` blocks from `first` on. The walk may end
elsewhere than at the start of the call, but then at a block that was assigned and erased in the
call. -/
structure EraseAccount (env : Env) (g : Geometry) (first n : ℕ) (s : Nand) (i : ℕ) (s' : Nand) :
    Prop where
  fit : TableFit g s'.bbt
  dies : DiesBelow 1 s'.bbt
  log : s.log <+: s'.log
  unspent : Unspent s.bbt s'.bbt
  moved : ∀ b, blockOf s'.bbt b = blockOf s.bbt b ∨
    Assigned s.bbt s'.bbt (blockOf s'.bbt b) ∧ ErasedIn env g s s' (blockOf s'.bbt b)
  erased : ∀ b, first ≤ b → b < first + i → ErasedIn env g s s' (blockOf s'.bbt b)
  issued : ∀ k op, Added s.log s'.log k op → op.kind = .eraseBlock →
    MayErase first n s.bbt s'.bbt (op.page / g.ppb)

namespace EraseAccount

variable {env : Env} {g : Geometry} {first n i q : ℕ} {s s' s'' : Nand} {op : FlashOp}

theorem refl (hf : TableFit g s.bbt) (hd : DiesBelow 1 s.bbt) (hlog : s'.log = s.log)
    (hbbt : s'.bbt = s.bbt) : EraseAccount env g first n s 0 s' := by
  refine ⟨hbbt ▸ hf, hbbt ▸ hd, hlog ▸ prefix_rfl, fun j e he _ => hbbt ▸ he,
    fun b => .inl (by rw [hbbt]), fun b h1 h2 => absurd h2 (by omega), fun k op hk => ?_⟩
  rw [hlog] at hk
  exact absurd hk not_added_self

variable (h : EraseAccount env g first n s i s')

include h

/-- The erase of a round may be issued. -/
theorem mayErase (hi : i < n) :
    MayErase first n s.bbt s'.bbt (blockOf s'.bbt (first + i)) := by
  rcases h.moved (first + i) with hb | ⟨hb, -⟩
  · exact .inr (.inl ⟨first + i, by omega, by omega, hb.symm⟩)
  · exact .inr (.inr hb)

/-- A round that leaves the table as it is. -/
theorem erase (hi : i < n) (hbbt : s''.bbt = s'.bbt)
    (hlog : s''.log = s'.log ++ [op]) (hpage : op.page = blockOf s'.bbt (first + i) * g.ppb)
    (herased : ErasedIn env g s s'' (blockOf s'.bbt (first + i))) :
    EraseAccount env g first n s (i + 1) s'' := by
  have hext : s'.log <+: s''.log := hlog ▸ prefix_append _ _
  rw [← hbbt] at hpage herased
  refine ⟨hbbt ▸ h.fit, hbbt ▸ h.dies, h.log.trans hext, hbbt ▸ h.unspent, fun b => ?_,
    fun b h1 h2 => ?_, fun k x hx hk => ?_⟩
  · rw [hbbt]
    exact (h.moved b).imp_right fun hb => ⟨hb.1, hb.2.mono hext⟩
  · rcases lt_or_ge b (first + i) with hlt | hge
    · rw [hbbt]
      exact (h.erased b h1 hlt).mono hext
    · obtain rfl : b = first + i := by omega
      exact herased
  · rw [hbbt]
    rcases hx.split hext with hx | hx
    · exact h.issued k x hx hk
    · obtain ⟨-, rfl⟩ := (added_concat hlog).1 hx
      rw [hpage, Nat.mul_div_cancel _ g.ppb_pos, hbbt]
      exact h.mayErase hi

/-- A round that enters its block in the table and erases the remap block. -/
theorem assign (hs : g.Supported) (hi : i < n)
    (hq : blockOf s'.bbt (first + i) = q) (hlt : q < g.blockNum) {r : List BBt × BBt}
    (hr : recordBad 0 q s'.bbt = some r) {s1 s2 : Nand} (hlog1 : s1.log = s'.log ++ [op])
    (hpage : op.page = q * g.ppb) (hlog2 : Grows (TableOp g) s1.log s2.log) {op' : FlashOp}
    (hlog3 : s''.log = s2.log ++ [op']) (hpage' : op'.page = r.2.remapBlock.toNat * g.ppb)
    (herased : ErasedIn env g s2 s'' r.2.remapBlock.toNat) (hbbt : s''.bbt = r.1) :
    EraseAccount env g first n s (i + 1) s'' := by
  have hne := ofNat_ne_bbInit hs hlt
  have h1 : s'.log <+: s1.log := hlog1 ▸ prefix_append _ _
  have h3 : s2.log <+: s''.log := hlog3 ▸ prefix_append _ _
  have hext : s'.log <+: s''.log := (h1.trans hlog2.1).trans h3
  have hnew : ErasedIn env g s s'' r.2.remapBlock.toNat :=
    herased.of_later ((h.log.trans h1).trans hlog2.1)
  have hassigned := h.unspent.assigned hr hne
  have hblock (b : ℕ) := blockOf_record hs h.fit h.dies hlt hr b
  have hmay {x : ℕ} (hx : MayErase first n s.bbt s'.bbt x) : MayErase first n s.bbt r.1 x :=
    hx.imp_right fun hx => hx.imp_right fun hx => hx.record hr
  refine ⟨hbbt ▸ h.fit.record hs hlt hr, hbbt ▸ (recordBad_dies h.dies hr).1, h.log.trans hext,
    hbbt ▸ h.unspent.record hr hne, fun b => ?_, fun b hb1 hb2 => ?_, fun k x hx hk => ?_⟩
  · rw [hbbt, hblock]
    split_ifs
    · exact .inr ⟨hassigned, hnew⟩
    · exact (h.moved b).imp_right fun hb => ⟨hb.1.record hr, hb.2.mono hext⟩
  · rw [hbbt, hblock]
    split_ifs with hb
    · exact hnew
    · have hne' : b ≠ first + i := fun heq => hb (heq ▸ hq)
      exact (h.erased b hb1 (by omega)).mono hext
  · rw [hbbt]
    -- an erase before the round, of the block itself, of the table or of the remap block
    rcases hx.split h3 with hx | hx
    · rcases hx.split hlog2.1 with hx | hx
      · rcases hx.split h1 with hx | hx
        · exact hmay (h.issued k x hx hk)
        · obtain ⟨-, rfl⟩ := (added_concat hlog1).1 hx
          rw [hpage, Nat.mul_div_cancel _ g.ppb_pos, ← hq]
          exact hmay (h.mayErase hi)
      · exact .inl (hlog2.2 k x hx hk)
    · obtain ⟨-, rfl⟩ := (added_concat hlog3).1 hx
      rw [hpage', Nat.mul_div_cancel _ g.ppb_pos]
      exact .inr (.inr hassigned)

end EraseAccount

/-! ## Whole calls -/

/-- The `n` blocks from `first` on are safe to erase : there is no free entry, so that no failure
is provided for, or none of them stands in the boot code. -/
def EraseSafe (g : Geometry) (bbt : List BBt) (first n : ℕ) : Prop :=
  (∀ e ∈ bbt, ¬e.Spare) ∨ ∀ b, first ≤ b → b < first + n → g.bootPages ≤ blockOf bbt b * g.ppb

/-- The loop before block `i` of the range. -/
structure Loop.Erasing (g : Geometry) (first i : ℕ) (l : Loop) : Prop where
  place : l.At g ((first + i) * g.ppb)
  block : l.cur.block = first + i

section Calls

variable {env : Env} {g : Geometry} {first n i m : ℕ} {s : Nand} {l : Loop}

theorem Loop.Erasing.target_eq (h : l.Erasing g first i) :
    l.target = blockOf l.nand.bbt (first + i) := by
  rw [Loop.target, h.block]

theorem Loop.Erasing.next {k : Loop} (hl : k.At g ((first + i) * g.ppb))
    (hm : m ≠ 0 → first + i + 1 < g.blockNum) :
    (eraseNext g m k).Erasing g first (i + 1) ∧ (eraseNext g m k).nand = k.nand := by
  have hmul : (first + i) * g.ppb + g.ppb = (first + (i + 1)) * g.ppb := by
    rw [← succ_mul]
    rfl
  obtain ⟨hat, hblock, hnand⟩ := eraseNext_at hl fun h => by
    rw [hmul, ← g.blockNum_mul_ppb]
    exact Nat.mul_lt_mul_of_pos_right (hm h) g.ppb_pos
  rw [hmul, Nat.mul_div_cancel _ g.ppb_pos] at hblock
  exact ⟨⟨hmul ▸ hat, hblock⟩, hnand⟩

variable {j addr len : ℕ} {e : BBt}

theorem eraseBody_of_rc_zero (hrc : (l.erased env g).rc = 0) :
    eraseBody env g j m l = .ok (eraseNext g m (l.erased env g)) := by
  rw [eraseBody_eq, if_neg (not_not.2 hrc)]

/-- A failure that is not reported is one in the boot code. -/
theorem boot_of_plainRc {o : Outcome} {page : ℕ} (ho : o ≠ .ok) (h : g.plainRc o 0 page = 0) :
    page < g.bootPages := by
  cases o with
  | ok => exact absurd rfl ho
  | interrupted => exact absurd (show eRestartSys = 0 from h) (by decide)
  | failed =>
    by_contra hlt
    have hboot : g.bootArea 0 page = false := by simp [bootArea, hlt]
    rw [plainRc, hboot] at h
    exact absurd h (by decide)

/-- A safe round ends with its block accounted for. -/
theorem eraseRound (hs : g.Supported) (hsafe : EraseSafe g s.bbt first n)
    (hrange : first + n ≤ g.blockNum) (hl : l.Erasing g first i)
    (ha : EraseAccount env g first n s i l.nand) (hi : i + (m + 1) = n)
    (hprov : RoundProvided env g j l) :
    Post (fun l' => l'.Erasing g first (i + 1) ∧ EraseAccount env g first n s (i + 1) l'.nand)
      (fun _ => False) (eraseBody env g j m l) := by
  obtain ⟨hat, hpage, hbbt, hlog, hrc⟩ := erased_at env ha.dies hl.place
  have hm : m ≠ 0 → first + i + 1 < g.blockNum := fun h => by omega
  have htarget := hl.target_eq
  have hlt : l.target < g.blockNum := htarget ▸ ha.fit.blockOf_lt (by omega)
  by_cases h0 : (l.erased env g).rc = 0
  · obtain ⟨hnext, hnand⟩ := Loop.Erasing.next hat hm
    rw [eraseBody_of_rc_zero h0]
    refine ⟨hnext, hnand ▸ ha.erase (by omega) hbbt hlog (htarget ▸ rfl) ?_⟩
    rw [← htarget]
    have hext : l.nand.log <+: (l.erased env g).nand.log := hlog ▸ prefix_append _ _
    by_cases hok : env.outcome l.nand.log.length = .ok
    · refine ErasedIn.of_later ?_ ha.log
      exact ⟨_, _, (added_concat hlog).2 ⟨rfl, rfl⟩, hok, rfl, rfl, rfl⟩
    · -- the failure is in the boot code, where only a block of this call can stand
      rcases hsafe with hnone | hboot
      · obtain ⟨r, hr, -⟩ := hprov hok
        obtain ⟨k, e, hk, he, -⟩ := recordBad_eq_set hr
        rw [hbbt] at hk
        exact absurd he (hnone e (mem_of_getElem? (ha.unspent k e hk he.1)))
      · rcases ha.moved (first + i) with hb | ⟨-, hb⟩
        · have hlow := boot_of_plainRc hok (hrc ▸ h0)
          rw [htarget, hb] at hlow
          exact absurd hlow (not_lt.2 (hboot (first + i) (by omega) (by omega)))
        · exact htarget ▸ hb.mono hext
  · have hok : env.outcome l.nand.log.length ≠ .ok := fun hok => h0 (by rw [hrc, hok]; rfl)
    obtain ⟨r, hr, hrest⟩ := hprov hok
    obtain ⟨hu, hlast⟩ := hrest h0
    have herr : (l.erased env g).errDie = 0 := by
      rw [Loop.errDie, hat.chipnr, hat.chipnrRemap]
      rfl
    obtain ⟨hgrows, hbbt', hact, hsel⟩ := marked_at hat hu
    have hfail := eraseFail_at (l := { l.erased env g with
      failAddr := (l.erased env g).cur.page * g.pageSize })
      { hat with } hr hu
    rw [eraseBody_eq, if_pos h0, hfail]
    rw [herr, hpage, Nat.mul_div_cancel _ g.ppb_pos, hbbt] at hr
    obtain ⟨hlog', hsel'⟩ := eraseBlock_log env g 0 (r.2.remapBlock.toNat * g.ppb)
      ((l.erased env g).marked env g r.1)
    have hst := eraseBlock_steady env g 0 (r.2.remapBlock.toNat * g.ppb)
      ((l.erased env g).marked env g r.1)
    obtain ⟨hnext, hnand⟩ := Loop.Erasing.next
      (k := { l.erased env g with
        failAddr := (l.erased env g).cur.page * g.pageSize
        nand := (eraseBlock env g 0 (r.2.remapBlock.toNat * g.ppb)
          ((l.erased env g).marked env g r.1)).2 })
      ⟨hst.activeChip.trans hact, hsel'.trans hsel, hat.chipnr, hat.chipnrRemap, hat.oldPage,
        hat.pageOffset⟩ hm
    refine ⟨hnext, hnand ▸ ha.assign hs (by omega) htarget.symm hlt hr hlog rfl hgrows hlog' rfl
      (erasedIn_eraseBlock hsel hlast 0 _) (hst.bbt.trans hbbt')⟩

/-- The blocks of a range. -/
theorem erase_range (hg : g.numchips = 1) (haddr : addr % g.erasesize = 0)
    (hlen : len % g.erasesize = 0) (hrange : addr + len ≤ g.mtdSize) :
    addr / g.pageSize = addr / g.erasesize * g.ppb ∧
      (len + g.erasesize - 1) / g.erasesize = len / g.erasesize ∧
      addr / g.erasesize + len / g.erasesize ≤ g.blockNum := by
  have hpos := g.erasesize_pos
  obtain ⟨k, rfl⟩ := dvd_of_mod_eq_zero haddr
  obtain ⟨n, rfl⟩ := dvd_of_mod_eq_zero hlen
  have hrounds : (g.erasesize * n + g.erasesize - 1) / g.erasesize = n := by
    rw [Nat.add_sub_assoc (show 1 ≤ g.erasesize from hpos), mul_add_div hpos,
      div_eq_of_lt (sub_lt hpos one_pos), add_zero]
  have hpages := (erase_within hg haddr hrange).1
  rw [g.mul_div_pageSize, hrounds, ← g.blockNum_mul_ppb, ← add_mul] at hpages
  rw [g.mul_div_pageSize, hrounds, Nat.mul_div_cancel_left _ hpos, Nat.mul_div_cancel_left _ hpos]
  exact ⟨rfl, rfl, Nat.le_of_mul_le_mul_right hpages g.ppb_pos⟩

/-- A call whose range is within the device runs its loop. -/
theorem nandEraseNand_eq (ha : g.Accepted) (hg : g.numchips = 1)
    (haddr : addr % g.erasesize = 0) (hrange : addr + len ≤ g.mtdSize) (s : Nand) :
    (nandEraseNand env g addr len s).nand = endNand (eraseExec env g addr len s) := by
  have hsize : g.mtdSize = 2 ^ g.chipShift := by
    have hlt : 2 ^ g.chipShift < 2 ^ 32 :=
      Nat.pow_lt_pow_right (by decide) (by have := ha.chipShift_le; omega)
    rw [mtdSize, hg, one_mul, mod_eq_of_lt hlt]
  have hne : g.mtdSize ≠ 0 := hsize ▸ (Nat.two_pow_pos _).ne'
  have hle : ¬g.mtdSize < (addr + len) % 2 ^ 32 := not_lt.2 ((mod_le _ _).trans hrange)
  have hand : ¬addr &&& (g.erasesize - 1) ≠ 0 :=
    not_not.2 ((and_two_pow_sub_one_eq_mod addr _).trans haddr)
  rw [nandEraseNand, if_neg hne, if_neg hle, if_neg hand, ← eraseExec]
  cases eraseExec env g addr len s <;> rfl

/-- Before the first block. -/
theorem start_erasing (ha : g.Accepted) (hg : g.numchips = 1)
    (haddr : addr % g.erasesize = 0) (hlen : len % g.erasesize = 0)
    (hrange : addr + len ≤ g.mtdSize) (hn : len / g.erasesize ≠ 0) (s : Nand) :
    (Loop.start g (g.eraseChip addr) (addr / g.pageSize) s).Erasing g (addr / g.erasesize) 0 := by
  obtain ⟨hpage, hrounds, hblocks⟩ := erase_range hg haddr hlen hrange
  have hchip := eraseChip_eq_zero ha.chipShift_le
    ((erase_within hg haddr hrange).2 (by rwa [hrounds]))
  have hlt : addr / g.erasesize * g.ppb < g.pageNum := by
    rw [← g.blockNum_mul_ppb]
    exact Nat.mul_lt_mul_of_pos_right
      ((Nat.lt_add_of_pos_right (Nat.pos_of_ne_zero hn)).trans_le hblocks) g.ppb_pos
  rw [hchip, hpage]
  obtain ⟨hat, hblock, -⟩ := start_at hlt s
  rw [Nat.mul_div_cancel _ g.ppb_pos] at hblock
  exact ⟨hat, hblock⟩

/-- The loop of a safe call. -/
theorem eraseLoop_account (hs : g.Supported) (hsafe : EraseSafe g s.bbt first n)
    (hrange : first + n ≤ g.blockNum) (hl : n ≠ 0 → l.Erasing g first 0)
    (ha : EraseAccount env g first n s 0 l.nand)
    (hprov : Throughout (eraseBody env g) (RoundProvided env g) n 0 l) :
    EraseAccount env g first n s n (endNand (loop (eraseBody env g) n 0 l)) := by
  have hend := loop_countdown (P := fun m l => ∃ i, i + m = n ∧ (m ≠ 0 → l.Erasing g first i) ∧
      EraseAccount env g first n s i l.nand)
    (fun j m l ⟨i, hi, hl, ha⟩ hprov =>
      (eraseRound hs hsafe hrange (hl m.succ_ne_zero) ha hi hprov).imp
        (fun _ hl' => ⟨i + 1, by omega, fun _ => hl'.1, hl'.2⟩) fun _ h => h)
    n 0 l ⟨0, zero_add n, hl, ha⟩ hprov
  cases hloop : loop (eraseBody env g) n 0 l with
  | error l' =>
    rw [hloop] at hend
    exact hend.elim
  | ok l' =>
    rw [hloop] at hend
    obtain ⟨i, hi, -, ha'⟩ := hend
    obtain rfl : i = n := hi
    exact ha'

/-- A safe call does what it should. -/
theorem eraseDone_of_safe (ha : g.Accepted) (hg : g.numchips = 1) (hf : TableFit g s.bbt)
    (hd : DiesBelow 1 s.bbt) (haddr : addr % g.erasesize = 0)
    (hlen : len % g.erasesize = 0) (hrange : addr + len ≤ g.mtdSize)
    (hsafe : EraseSafe g s.bbt (addr / g.erasesize) (len / g.erasesize))
    (hprov : EraseProvided env g addr len s) :
    EraseDone env g (addr / g.erasesize) (len / g.erasesize) s
      (nandEraseNand env g addr len s).nand := by
  obtain ⟨-, hrounds, hblocks⟩ := erase_range hg haddr hlen hrange
  rw [EraseProvided, hrounds] at hprov
  have hend := eraseLoop_account ha.supported hsafe hblocks
    (fun hn => start_erasing ha hg haddr hlen hrange hn s) (.refl hf hd rfl rfl) hprov
  rw [nandEraseNand_eq ha hg haddr hrange, eraseExec, hrounds]
  exact ⟨hend.erased, hend.issued⟩

/-! ## Failures that are not reported -/

/-- The operations that erase the blocks at `q`, of a call on the `n` blocks from `first` on,
fail. -/
def Env.failingOn (bbt : List BBt) (first n q : ℕ) : Env :=
  ⟨fun k => if k < n ∧ blockOf bbt (first + k) = q then .failed else .ok, fun _ _ => ⟨[], []⟩, none⟩

/-- The loop of a call whose failures are not reported, before block `i`. -/
structure Loop.Silent (g : Geometry) (table : List BBt) (first i : ℕ) (l : Loop) : Prop where
  bbt : l.nand.bbt = table
  length : l.nand.log.length = i
  pages : ∀ (k : ℕ) (op : FlashOp), l.nand.log[k]? = some op →
    op.page = blockOf table (first + k) * g.ppb

variable {bbt : List BBt} {q : ℕ}

/-- The erase of block `i`, reported as a success. -/
theorem Loop.Silent.erased (hd : DiesBelow 1 bbt) (hq : q * g.ppb < g.bootPages)
    (hl : l.Erasing g first i) (hsilent : l.Silent g bbt first i) :
    (l.erased (.failingOn bbt first n q) g).At g ((first + i) * g.ppb) ∧
      (l.erased (.failingOn bbt first n q) g).rc = 0 ∧
      (l.erased (.failingOn bbt first n q) g).Silent g bbt first (i + 1) := by
  obtain ⟨hat, -, hbbt, hlog, hrc⟩ :=
    erased_at (.failingOn bbt first n q) (hsilent.bbt.symm ▸ hd) hl.place
  have htarget : l.target = blockOf bbt (first + i) := by rw [hl.target_eq, hsilent.bbt]
  refine ⟨hat, ?_, hbbt.trans hsilent.bbt, ?_, fun k op hk => ?_⟩
  · rw [hrc, hsilent.length, htarget, Env.failingOn]
    simp only []
    split_ifs with hfail
    · have hboot : g.bootArea 0 (q * g.ppb) = true := by simp [bootArea, hq]
      rw [hfail.2, plainRc, hboot]
      rfl
    · rfl
  · rw [hlog, length_append, hsilent.length, length_singleton]
  · rcases lt_or_ge k l.nand.log.length with hlt | hge
    · rw [hlog, List.getElem?_append_left hlt] at hk
      exact hsilent.pages k op hk
    · obtain ⟨rfl, rfl⟩ := (added_concat hlog).1 ⟨hge, hk⟩
      rw [hsilent.length, ← htarget]

/-- A round of such a call. -/
theorem Loop.Silent.round (hd : DiesBelow 1 bbt) (hq : q * g.ppb < g.bootPages)
    (he : e ∈ bbt) (hspare : e.Spare) (hrange : first + n ≤ g.blockNum)
    (hl : l.Erasing g first i) (hsilent : l.Silent g bbt first i) (hi : i + (m + 1) = n) (j : ℕ) :
    RoundProvided (.failingOn bbt first n q) g j l ∧
      Post (fun l' => l'.Erasing g first (i + 1) ∧ l'.Silent g bbt first (i + 1))
        (fun _ => False) (eraseBody (.failingOn bbt first n q) g j m l) := by
  obtain ⟨hat, hrc, hsilent'⟩ := hsilent.erased hd hq hl
  constructor
  · intro _
    cases hrec : recordBad (l.erased (.failingOn bbt first n q) g).errDie
        ((l.erased (.failingOn bbt first n q) g).cur.page / g.ppb)
        (l.erased (.failingOn bbt first n q) g).nand.bbt with
    | none =>
      rw [hsilent'.bbt] at hrec
      exact absurd hspare (recordBad_eq_none.1 hrec e he)
    | some r => exact ⟨r, rfl, fun h => absurd hrc h⟩
  · obtain ⟨hnext, hnand⟩ := Loop.Erasing.next (m := m) hat fun _ => by omega
    rw [eraseBody_of_rc_zero hrc]
    exact ⟨hnext, hnand ▸ hsilent'.bbt, hnand ▸ hsilent'.length, hnand ▸ hsilent'.pages⟩

/-- The loop of such a call. -/
theorem Loop.Silent.loop (hd : DiesBelow 1 bbt) (hq : q * g.ppb < g.bootPages)
    (he : e ∈ bbt) (hspare : e.Spare) (hrange : first + n ≤ g.blockNum)
    (hl : n ≠ 0 → l.Erasing g first 0) (hsilent : l.Silent g bbt first 0) :
    Throughout (eraseBody (.failingOn bbt first n q) g)
        (RoundProvided (.failingOn bbt first n q) g) n 0 l ∧
      ∃ l', BoundedLoop.loop (eraseBody (.failingOn bbt first n q) g) n 0 l = .ok l' ∧
        l'.Silent g bbt first n := by
  let P (m : ℕ) (l : Loop) : Prop :=
    ∃ i, i + m = n ∧ (m ≠ 0 → l.Erasing g first i) ∧ l.Silent g bbt first i
  have hstep (j m : ℕ) (l : Loop) (h : P (m + 1) l) :
      RoundProvided (.failingOn bbt first n q) g j l ∧
        Post (P m) (fun _ => False) (eraseBody (.failingOn bbt first n q) g j m l) := by
    obtain ⟨i, hi, hl, hsilent⟩ := h
    obtain ⟨hprov, hpost⟩ := hsilent.round hd hq he hspare hrange (hl m.succ_ne_zero) hi j
    exact ⟨hprov, hpost.imp (fun _ hl' => ⟨i + 1, by omega, fun _ => hl'.1, hl'.2⟩) fun _ h => h⟩
  have hprov := throughout_of (fun j m l h => (hstep j m l h).imp_right fun hp =>
    hp.imp (fun _ h => h) fun _ _ => trivial) n 0 l ⟨0, zero_add n, hl, hsilent⟩
  have hend := loop_countdown
    (fun j m l h _ => (hstep j m l h).2) n 0 l ⟨0, zero_add n, hl, hsilent⟩ hprov
  refine ⟨hprov, ?_⟩
  cases hloop : BoundedLoop.loop (eraseBody (.failingOn bbt first n q) g) n 0 l with
  | error l' =>
    rw [hloop] at hend
    exact hend.elim
  | ok l' =>
    rw [hloop] at hend
    obtain ⟨i, hi, -, hsilent'⟩ := hend
    obtain rfl : i = n := hi
    exact ⟨l', rfl, hsilent'⟩

/-- Nothing was erased at `q`. -/
theorem Loop.Silent.not_erasedIn (h : l.Silent g bbt first n) :
    ¬ErasedIn (.failingOn bbt first n q) g s l.nand q := by
  rintro ⟨k, op, ⟨-, hk⟩, hok, -, -, hpage⟩
  have hlt : k < n := h.length ▸ (List.getElem?_eq_some_iff.1 hk).1
  have hblock : blockOf bbt (first + k) = q :=
    eq_of_mul_eq_mul_right g.ppb_pos ((h.pages k op hk).symm.trans hpage)
  rw [Env.failingOn] at hok
  simp only [hlt, hblock, and_self, if_true] at hok
  exact absurd hok (by decide)

/-- A call that erases a block of the boot code may leave it as it was. -/
theorem not_eraseDone_of_boot (ha : g.Accepted) (hg : g.numchips = 1) (hd : DiesBelow 1 bbt)
    (he : e ∈ bbt) (hspare : e.Spare) (haddr : addr % g.erasesize = 0)
    (hlen : len % g.erasesize = 0) (hrange : addr + len ≤ g.mtdSize) {b : ℕ}
    (hb1 : addr / g.erasesize ≤ b) (hb2 : b < addr / g.erasesize + len / g.erasesize)
    (hboot : blockOf bbt b * g.ppb < g.bootPages) :
    ∃ env, EraseProvided env g addr len (.fresh g bbt) ∧
      ¬EraseDone env g (addr / g.erasesize) (len / g.erasesize) (.fresh g bbt)
        (nandEraseNand env g addr len (.fresh g bbt)).nand := by
  obtain ⟨-, hrounds, hblocks⟩ := erase_range hg haddr hlen hrange
  obtain ⟨hprov, l, hloop, hsilent⟩ := Loop.Silent.loop hd hboot he hspare hblocks
    (fun hn => start_erasing ha hg haddr hlen hrange hn (.fresh g bbt))
    ⟨rfl, rfl, fun k op hk => nomatch hk⟩
  refine ⟨.failingOn bbt (addr / g.erasesize) (len / g.erasesize) (blockOf bbt b), ?_, fun h => ?_⟩
  · rw [EraseProvided, hrounds]
    exact hprov
  · rw [nandEraseNand_eq ha hg haddr hrange, eraseExec, hrounds, hloop] at h
    have herased := h.erased b hb1 hb2
    rw [show (endNand (.ok l : Except Loop Loop)).bbt = bbt from hsilent.bbt] at herased
    exact hsilent.not_erasedIn herased

end Calls

/-- The driver of a chip whose table begins with an entry without a remap block. -/
def gapChip : Nand :=
  .fresh k9f1g08u0b (⟨bbDieInit, bbInit, 0, rbInit⟩ :: spareEntries 1023 50)

end OpenHMR
