import OpenHMR.NandSound

/-!
# No block is entered twice

On a device with one chip, a failing round enters the block it accessed in the table. `bbt_unique`
says when no block is ever entered twice. The plain walk ends at a block that is not in the table,
as long as no block that waits in the reserve is entered itself (`TableUnique`). But the cached
translation may be older than the table : a second failure in a block that was entered by the same
call finds the cache of the first one. `Slot.Safe` is what a failing round has to meet.
-/

open Remap BoundedLoop List Nat

namespace OpenHMR

open OpenHMR.Geometry

/-- No two used entries name the same block. -/
def UniqueBad (bbt : List BBt) : Prop :=
  bbt.Pairwise fun x y => x.badBlock ≠ bbInit → y.badBlock ≠ bbInit →
    ¬(x.bbDie = y.bbDie ∧ x.badBlock = y.badBlock)

instance (bbt : List BBt) : Decidable (UniqueBad bbt) :=
  inferInstanceAs (Decidable (List.Pairwise _ _))

/-- The block waits in the reserve, as the remap block of an unused entry. -/
def Waiting (bbt : List BBt) (b : ℕ) : Prop :=
  ∃ e ∈ bbt, e.Spare ∧ e.remapBlock.toNat = b

instance (e : BBt) : Decidable e.Spare :=
  inferInstanceAs (Decidable (_ ∧ _))

instance (bbt : List BBt) (b : ℕ) : Decidable (Waiting bbt b) :=
  inferInstanceAs (Decidable (∃ e ∈ bbt, _))

/-- The table of a device with one chip. No block is entered twice, the remap block of an entry is
not entered before or with it, and no block that waits in the reserve is entered. -/
structure TableUnique (g : Geometry) (bbt : List BBt) : Prop extends TableFit g bbt where
  dies : DiesBelow 1 bbt
  nodup : (sources (links bbt)).Nodup
  forward : Forward (links bbt)
  waiting : ∀ b, Waiting bbt b → ¬Recorded bbt b

/-! ## The table -/

/-- A used entry is a link. -/
theorem bad_mem_sources {e : BBt} : ∀ {bbt : List BBt},
    (bbt.Pairwise fun x y => y.badBlock ≠ bbInit → x.badBlock ≠ bbInit) → e ∈ bbt →
      e.badBlock ≠ bbInit → e.bad ∈ sources (links bbt)
  | x :: bbt, h, he, hu => by
    obtain ⟨hx, hbbt⟩ := pairwise_cons.1 h
    rcases mem_cons.1 he with rfl | he
    · rw [links_cons_of_ne hu, sources_cons]
      exact mem_cons_self
    · rw [links_cons_of_ne (hx e he hu), sources_cons]
      exact mem_cons_of_mem _ (bad_mem_sources hbbt he hu)

theorem uniqueBad_of_nodup : ∀ {bbt : List BBt},
    (bbt.Pairwise fun x y => y.badBlock ≠ bbInit → x.badBlock ≠ bbInit) →
      (sources (links bbt)).Nodup → UniqueBad bbt
  | [], _, _ => .nil
  | e :: bbt, h, hnd => by
    obtain ⟨he, hbbt⟩ := pairwise_cons.1 h
    by_cases hu : e.badBlock = bbInit
    · have hall : ∀ x ∈ e :: bbt, x.badBlock = bbInit := by
        refine forall_mem_cons.2 ⟨hu, fun x hx => ?_⟩
        by_contra hne
        exact he x hx hne hu
      exact pairwise_of_forall_mem_list fun x hx y _ hne => absurd (hall x hx) hne
    · rw [links_cons_of_ne hu, sources_cons, nodup_cons] at hnd
      refine pairwise_cons.2 ⟨fun y hy _ hyu hsame => hnd.1 ?_, uniqueBad_of_nodup hbbt hnd.2⟩
      have hbad : e.bad = y.bad := by rw [BBt.bad, BBt.bad, hsame.1, hsame.2]
      exact hbad ▸ bad_mem_sources hbbt hy hyu

namespace TableUnique

variable {g : Geometry} {bbt : List BBt} {q : ℕ}

theorem uniqueBad (h : TableUnique g bbt) : UniqueBad bbt :=
  uniqueBad_of_nodup h.form.used h.nodup

/-- A block of the table leads to one that is neither entered nor waiting. -/
theorem blockOf_notMem (h : TableUnique g bbt) {b : ℕ} (hb : Recorded bbt b) :
    ¬Recorded bbt (blockOf bbt b) ∧ ¬Waiting bbt (blockOf bbt b) := by
  have hend := follow_notMem_sources h.forward (0, b)
  have hmem := follow_mem_targets hb
  rw [follow_zero h.dies] at hend hmem
  refine ⟨hend, fun ⟨e, he, hspare, heq⟩ => ?_⟩
  obtain ⟨x, hx, hu, hxr⟩ := mem_targets hmem
  have hremap : e.remapBlock = x.remapBlock :=
    UInt16.toNat_inj.1 (heq.trans (congrArg Prod.snd hxr).symm)
  exact hu (h.form.eq_of_remapBlock he hx hremap hspare.2 ▸ hspare.1)

/-- Entering a block that is neither entered nor waiting. -/
theorem record (h : TableUnique g bbt) (hg : g.Supported) (hq : q < g.blockNum)
    (hrec : ¬Recorded bbt q) (hwait : ¬Waiting bbt q) {r : List BBt × BBt}
    (hr : recordBad 0 q bbt = some r) : TableUnique g r.1 := by
  have hlinks := h.links_record hg h.dies hq hr
  obtain ⟨e, he, hspare, hmem, hr2⟩ := mem_recordBad hr
  have hnew : Waiting bbt r.2.remapBlock.toNat := ⟨e, he, hspare, by rw [hr2]⟩
  have hused : ¬r.2.Spare := fun hs => ofNat_ne_bbInit hg hq (by rw [← hs.1, hr2])
  have hsrc : sources (links r.1) = sources (links bbt) ++ [(0, q)] := by
    rw [hlinks, sources, map_append]
    rfl
  refine ⟨h.toTableFit.record hg hq hr, (recordBad_dies h.dies hr).1, ?_, ?_, fun b hb => ?_⟩
  · rw [hsrc]
    refine nodup_append.2 ⟨h.nodup, nodup_singleton _, fun x hx y hy heq => hrec ?_⟩
    rwa [heq, mem_singleton.1 hy] at hx
  · rw [hlinks, forward_concat]
    refine ⟨h.forward, fun heq => hwait ?_, h.waiting _ hnew⟩
    have hqe : q = r.2.remapBlock.toNat := congrArg Prod.snd heq
    exact hqe ▸ hnew
  · obtain ⟨x, hx, hspare, hxb⟩ := hb
    have hx' : x ∈ bbt := (hmem x hx).resolve_left fun heq => hused (heq ▸ hspare)
    have hb' : Waiting bbt b := ⟨x, hx', hspare, hxb⟩
    rw [Recorded, hsrc, mem_append, mem_singleton, not_or]
    refine ⟨h.waiting b hb', fun heq => hwait ?_⟩
    have hbq : b = q := congrArg Prod.snd heq
    exact hbq ▸ hb'

/-- A table with no duplicates that has data blocks replaced by reserve blocks. -/
theorem of_uniqueBad (h : TableFit g bbt) (hdies : DiesBelow 1 bbt) (huniq : UniqueBad bbt)
    (hdata : ∀ e ∈ bbt, e.badBlock ≠ bbInit → e.badBlock.toNat < g.dataBlocks)
    (hres : ∀ e ∈ bbt, e.remapBlock ≠ rbInit → g.dataBlocks ≤ e.remapBlock.toNat) :
    TableUnique g bbt := by
  have hsrc : ∀ x ∈ sources (links bbt), x.2 < g.dataBlocks := by
    simp only [sources, links, map_map, mem_map, forall_exists_index, and_imp]
    rintro _ e he rfl
    obtain ⟨hm, hu⟩ := mem_usedEntries he
    exact hdata e hm hu
  have hlink : ∀ l ∈ links bbt, l.1.2 < g.dataBlocks ∧ g.dataBlocks ≤ l.2.2 := by
    simp only [links, mem_map, forall_exists_index, and_imp]
    rintro _ e he rfl
    obtain ⟨hm, hu⟩ := mem_usedEntries he
    exact ⟨hdata e hm hu, hres e hm (h.real e hm hu)⟩
  refine ⟨h, hdies, ?_, ⟨fun l hl heq => ?_, ?_⟩, ?_⟩
  · have hmap : sources (links bbt) = (usedEntries bbt).map BBt.bad := by
      rw [sources, links, map_map]
      rfl
    have hsub := huniq.sublist (takeWhile_sublist fun e => e.badBlock ≠ bbInit)
    rw [hmap, List.Nodup, pairwise_map]
    refine List.Pairwise.imp_of_mem (fun {x y} hx hy hxy heq => ?_) hsub
    exact hxy (mem_usedEntries hx).2 (mem_usedEntries hy).2
      ⟨UInt16.toNat_inj.1 (congrArg Prod.fst heq), UInt16.toNat_inj.1 (congrArg Prod.snd heq)⟩
  · have := hlink l hl
    rw [heq] at this
    omega
  · refine pairwise_of_forall_mem_list fun l hl m hm heq => ?_
    have h1 := (hlink l hl).1
    have h2 := (hlink m hm).2
    rw [heq] at h1
    omega
  · rintro b ⟨e, he, hspare, rfl⟩ hrec
    exact absurd (hsrc _ hrec) (not_lt.2 (hres e he hspare.2))

theorem mayRecord (h : TableUnique g bbt) (hg : g.Supported) (hq : q < g.blockNum)
    (hrec : ¬Recorded bbt q) (hwait : ¬Waiting bbt q) {bbt' : List BBt}
    (hr : MayRecord 0 q bbt bbt') : TableUnique g bbt' := by
  rcases hr with rfl | ⟨r, hr, rfl⟩
  · exact h
  · exact h.record hg hq hrec hwait hr

end TableUnique

/-! ## Rounds -/

/-- The condition for a failure of an access to block `b`. If the walk is skipped or does not find
the block, the block that the cache gives is neither entered nor waiting. -/
def Slot.Safe (bbt : List BBt) (b : ℕ) (c : Slot) : Prop :=
  c.prev = b ∧ c.checked = true ∨ ¬Recorded bbt b →
    ¬Recorded bbt (c.remap.getD b) ∧ ¬Waiting bbt (c.remap.getD b)

instance (bbt : List BBt) (b : ℕ) (c : Slot) : Decidable (c.Safe bbt b) :=
  inferInstanceAs (Decidable (_ → _))

/-- The cache of a loop, which is empty in the calls that do not use it. -/
def Loop.slotOf (g : Geometry) (l : Loop) : Option CacheSel → Slot
  | some sel => l.slot g sel
  | none => ⟨0, false, none⟩

/-- The block that is accessed is neither entered nor waiting. -/
theorem Slot.Safe.step {g : Geometry} {bbt : List BBt} {b : ℕ} {c : Slot} (hc : c.Safe bbt b)
    (h : TableUnique g bbt) :
    ¬Recorded bbt (c.step bbt b).prev ∧ ¬Waiting bbt (c.step bbt b).prev := by
  by_cases hrec : Recorded bbt b
  · by_cases hskip : c.prev = b ∧ c.checked = true
    · rw [Slot.step, if_pos hskip]
      exact hc (.inl hskip)
    · rw [Slot.step, if_neg hskip, if_pos hrec]
      exact h.blockOf_notMem hrec
  · have hstep : (c.step bbt b).prev = c.remap.getD b := by
      rw [Slot.step, if_neg hrec, ite_self]
    rw [hstep]
    exact hc (.inr hrec)

/-- The loop is on the only chip. -/
structure Loop.OnChip (l : Loop) : Prop where
  activeChip : l.nand.activeChip = 0
  chipnr : l.cur.chipnr = 0
  chipnrRemap : l.cur.chipnrRemap = 0

section Rounds

variable {g : Geometry} {l l' : Loop} {failed : Prop}

theorem Loop.At.onChip {p : ℕ} (h : l.At g p) : l.OnChip :=
  { h with }

theorem Loop.OnChip.errDie (h : l.OnChip) : l.errDie = 0 := by
  rw [Loop.errDie, h.chipnr, h.chipnrRemap]
  rfl

theorem Loop.OnChip.setWalk (h : l.OnChip) (hd : DiesBelow 1 l.nand.bbt) (r : Option ℕ) :
    (l.setWalk (l.walk r)).OnChip := by
  obtain ⟨h1, -, h3⟩ := walkBbt_oneDie (w := ⟨l.nand.activeChip, l.nand.selected,
    l.cur.chipnrRemap, l.cur.block, r⟩) hd h.activeChip
  exact ⟨h1, h.chipnr, h3.trans h.chipnrRemap⟩

theorem locate_onChip (h : l.OnChip) (hd : DiesBelow 1 l.nand.bbt) (sel : Option CacheSel) :
    (locate g sel l).OnChip := by
  cases sel with
  | none =>
    have hw := h.setWalk hd none
    exact { hw with }
  | some sel =>
    simp only [locate, locateCached]
    split_ifs
    · exact { h with }
    all_goals
      have hw := h.setWalk hd (l.nand.cache sel).remapBlock
      exact { hw with }

/-- The plain walk is the machine with an empty cache. -/
theorem step_slotOf_none (hd : DiesBelow 1 l.nand.bbt) (b : ℕ) :
    ((l.slotOf g none).step l.nand.bbt b).prev = blockOf l.nand.bbt b := by
  have hskip : ¬((l.slotOf g none).prev = b ∧ (l.slotOf g none).checked = true) := fun h => by
    cases h.2
  rw [Slot.step, if_neg hskip]
  by_cases hrec : Recorded l.nand.bbt b
  · rw [if_pos hrec]
    rfl
  · rw [if_neg hrec, blockOf_of_not_recorded hd hrec]
    rfl

/-- The block of the address is that of the machine. -/
theorem locate_block (hg : g.numchips = 1) (h : l.OnChip) (hd : DiesBelow 1 l.nand.bbt)
    (hoff : l.cur.pageOffset < g.ppb) (sel : Option CacheSel) :
    (locate g sel l).cur.page / g.ppb =
      ((l.slotOf g sel).step l.nand.bbt l.cur.block).prev := by
  cases sel with
  | none =>
    rw [step_slotOf_none hd]
    exact (g.page_div _ hoff).trans (walkBbt_block hd h.activeChip)
  | some sel =>
    rw [locate, (locateCached_step sel hg hd h.activeChip hoff).2, g.page_div _ hoff]
    rfl

/-- A round of which a failure is safe. -/
theorem RoundStep.unique (hstep : RoundStep g failed l l') (hg : g.Supported) (hl : l.OnChip)
    (ht : TableUnique g l.nand.bbt) (hq : l.cur.page / g.ppb < g.blockNum)
    (hsafe : failed → ¬Recorded l.nand.bbt (l.cur.page / g.ppb) ∧
      ¬Waiting l.nand.bbt (l.cur.page / g.ppb)) : TableUnique g l'.nand.bbt ∧ l'.OnChip := by
  have hdie : ∀ e ∈ l.nand.bbt, (e.rbDie.toNat : ℤ) = l.errDie := fun e he => by
    rw [hl.errDie, lt_one_iff.1 (ht.dies e he)]
    rfl
  refine ⟨?_, (hstep.activeChip hdie).trans hl.activeChip, hstep.cur ▸ hl.chipnr,
    hstep.cur ▸ hl.chipnrRemap⟩
  by_cases hf : failed
  · have hmay := hstep.bbt
    rw [hl.errDie] at hmay
    exact ht.mayRecord hg hq (hsafe hf).1 (hsafe hf).2 hmay
  · rw [hstep.kept hf]
    exact ht

theorem advance_onChip {step : ℕ} (more : Bool) (h : l.OnChip) (hpos : 0 < step)
    (hp : more = true → l.cur.oldPage + step < g.pageNum) :
    (advance g step more l).OnChip ∧ (advance g step more l).cur.oldPage = l.cur.oldPage + step ∧
      (advance g step more l).nand.bbt = l.nand.bbt := by
  have hwrap : ¬(more = true ∧ (l.cur.oldPage + step) &&& g.pagemask = 0) := by
    rintro ⟨hm, hz⟩
    rw [g.and_pagemask, mod_eq_of_lt (hp hm)] at hz
    omega
  rw [advance, if_neg hwrap]
  exact ⟨{ h with }, rfl, rfl⟩

end Rounds

/-! ## Runs -/

/-- The state of the driver. -/
structure NandUnique (g : Geometry) (s : Nand) : Prop where
  table : TableUnique g s.bbt
  cache : CacheFit g s

/-- The state of a loop before `n` rounds over `step` pages each. -/
structure Loop.Unique (g : Geometry) (step n : ℕ) (l : Loop) : Prop where
  nand : NandUnique g l.nand
  fit : n ≠ 0 → l.Fit g
  onChip : n ≠ 0 → l.OnChip
  within : n ≠ 0 → l.cur.oldPage + n * step ≤ g.pageNum

section Safe

variable (env : Env) (g : Geometry)

/-- If the access to page `i` fails, the failure is safe. -/
def PageCall.RoundSafe (c : PageCall) (i : ℕ) (l : Loop) : Prop :=
  (c.access env g i (locate g c.sel l)).1 = -1 → (l.slotOf g c.sel).Safe l.nand.bbt l.cur.block

/-- If the erase of a round fails, the failure is safe. -/
def EraseRoundSafe (_ : ℕ) (l : Loop) : Prop :=
  (l.erased env g).rc ≠ 0 → (l.slotOf g none).Safe l.nand.bbt l.cur.block

/-- The call stays on the chip, and every failure in it is safe. -/
def NandCall.Safe : NandCall → Nand → Prop
  | page c, s => c.Valid g → c.firstPage g + c.pages g ≤ g.pageNum ∧
      Throughout (pageBody g c.sel (c.access env g) (c.fail env g)) (c.RoundSafe env g)
        (c.pages g) 0 (c.init g s)
  | erase addr len, s => addr % g.erasesize = 0 → addr + len ≤ g.mtdSize ∧
      Throughout (eraseBody env g) (EraseRoundSafe env g)
        ((len + g.erasesize - 1) / g.erasesize) 0
        (Loop.start g (g.eraseChip addr) (addr / g.pageSize) s)

/-- `P` holds of every call of a run and the state before it. -/
def AlongNand (P : NandCall → Nand → Prop) : List NandCall → Nand → Prop
  | [], _ => True
  | c :: calls, s => P c s ∧ AlongNand P calls (c.run env g s)

end Safe

section Runs

variable {env : Env} {g : Geometry} {s : Nand}

theorem NandUnique.nandFit (h : NandUnique g s) : NandFit g s :=
  ⟨h.table.toTableFit, h.cache⟩

/-- The end of a round of which a failure is safe. -/
theorem RoundStep.next {failed : Prop} {l₁ l₂ : Loop} (hstep : RoundStep g failed l₁ l₂)
    (hs : g.Supported) (hon : l₁.OnChip) (hl : NandUnique g l₁.nand)
    (hq : l₁.cur.page / g.ppb < g.blockNum)
    (hsafe : failed → ¬Recorded l₁.nand.bbt (l₁.cur.page / g.ppb) ∧
      ¬Waiting l₁.nand.bbt (l₁.cur.page / g.ppb)) {step n : ℕ} (hpos : 0 < step)
    (hp : l₁.cur.oldPage + (n + 1) * step ≤ g.pageNum) :
    NandUnique g l₂.nand ∧ l₂.OnChip ∧ (advance g step (n ≠ 0) l₂).Unique g step n := by
  obtain ⟨ht, hon2⟩ := hstep.unique hs hon hl.table hq hsafe
  have hfit2 := hstep.nandFit hs hl.nandFit hq
  rw [← hstep.cur, succ_mul] at hp
  have hstep2 : l₂.cur.oldPage + step ≤ g.pageNum := by omega
  obtain ⟨hfit, hmore, -⟩ := advance_fit (n ≠ 0) hfit2 hstep2
  obtain ⟨hon', hold, hbbt⟩ := advance_onChip (g := g) (n ≠ 0) hon2 hpos fun hn => by
    obtain ⟨m, rfl⟩ := exists_eq_succ_of_ne_zero (of_decide_eq_true hn)
    rw [succ_mul] at hp
    omega
  refine ⟨⟨ht, hfit2.cache⟩, hon2, ⟨hbbt ▸ ht, hfit.cache⟩, fun hn => hmore (decide_eq_true hn),
    fun _ => hon', fun _ => ?_⟩
  rw [hold]
  omega

/-- A call on pages enters no block twice. -/
theorem PageCall.run_unique (hs : g.Supported) (hg : g.numchips = 1) (h : NandUnique g s)
    (c : PageCall) (hsafe : (NandCall.page c).Safe env g s) : NandUnique g (c.run env g s) := by
  by_cases hv : c.Valid g
  · obtain ⟨hrange, hrounds⟩ := hsafe hv
    have hfit := c.init_fit h.nandFit
    have hinit : (c.init g s).Unique g 1 (c.pages g) := by
      have hbbt := (c.init_keeps (g := g) s).1
      have hat (hn : c.pages g ≠ 0) := (c.init_at hg (show c.firstPage g < g.pageNum by omega) s).2
      refine ⟨⟨hbbt ▸ h.table, hfit.nand.cache⟩, fun _ => hfit, fun hn => (hat hn).onChip,
        fun hn => ?_⟩
      rw [(hat hn).oldPage, mul_one]
      exact hrange
    rw [hv.run_eq]
    refine (post_iff_endNand (NandUnique g)).1 ((loop_countdown (P := Loop.Unique g 1)
      (fun i n l hl hround => ?_) _ _ _ hinit hrounds).imp (fun _ hl => hl.nand) fun _ hl => hl)
    have hl0 := hl.fit n.succ_ne_zero
    have hon := hl.onChip n.succ_ne_zero
    have hdies := hl.nand.table.dies
    obtain ⟨hnand, hold, hpage⟩ := locate_fit hl0 c.sel
    have hbbt : (locate g c.sel l).nand.bbt = l.nand.bbt := locate_bbt c.sel l
    have hround' := fun hf => Slot.Safe.step (hround hf) hl.nand.table
    rw [← locate_block hg hon hdies hl0.pageOffset c.sel, ← hbbt] at hround'
    have hnext (l₂ : Loop) (hstep : RoundStep g _ (locate g c.sel l) l₂) :=
      hstep.next hs (locate_onChip hon hdies c.sel) ⟨hbbt ▸ hl.nand.table, hnand.cache⟩ hpage
        hround' one_pos (hold ▸ hl.within n.succ_ne_zero)
    refine (pageBody_round c.isAccess c.isFail i n l).imp ?_ fun l' hstep => (hnext l' hstep).1
    rintro _ ⟨l₂, hstep, rfl⟩
    exact (hnext l₂ hstep).2.2
  · rw [PageCall.run_of_not_valid hv]
    exact h

theorem eraseChip_eq_zero {addr : ℕ} (ha : g.chipShift ≤ 30) (h : addr < 2 ^ g.chipShift) :
    g.eraseChip addr = 0 := by
  have hle : 2 ^ g.chipShift ≤ 2 ^ 30 := Nat.pow_le_pow_right Nat.zero_lt_two ha
  rw [eraseChip, if_pos (by omega)]
  exact Int.ediv_eq_zero_of_lt (Int.natCast_nonneg _) (by exact_mod_cast h)

/-- The blocks of an erase are on the chip. -/
theorem erase_within (hg : g.numchips = 1) {addr len : ℕ} (hal : addr % g.erasesize = 0)
    (hrange : addr + len ≤ g.mtdSize) :
    addr / g.pageSize + (len + g.erasesize - 1) / g.erasesize * g.ppb ≤ g.pageNum ∧
      ((len + g.erasesize - 1) / g.erasesize ≠ 0 → addr < 2 ^ g.chipShift) := by
  have hpos := g.erasesize_pos
  have hsize : g.mtdSize ≤ g.blockNum * g.erasesize := by
    rw [mtdSize, hg, one_mul, g.blockNum_mul_erasesize]
    exact mod_le _ _
  obtain ⟨k, rfl⟩ := dvd_of_mod_eq_zero hal
  have hrounds : k + (len + g.erasesize - 1) / g.erasesize ≤ g.blockNum := by
    rw [add_comm, ← add_mul_div_right _ _ hpos]
    refine le_of_lt_succ (Nat.div_lt_of_lt_mul ?_)
    rw [mul_succ, mul_comm g.erasesize, mul_comm k]
    omega
  refine ⟨?_, fun hn => ?_⟩
  · rw [g.mul_div_pageSize, ← add_mul, ← g.blockNum_mul_ppb]
    exact mul_le_mul_right _ hrounds
  · have hk : k < g.blockNum := by
      have := Nat.pos_of_ne_zero hn
      omega
    rw [← g.blockNum_mul_erasesize, mul_comm]
    exact Nat.mul_lt_mul_of_pos_right hk hpos

/-- An erase call enters no block twice. -/
theorem nandEraseNand_unique (ha : g.Accepted) (hg : g.numchips = 1) (h : NandUnique g s)
    (addr len : ℕ) (hsafe : (NandCall.erase addr len).Safe env g s) :
    NandUnique g (nandEraseNand env g addr len s).nand := by
  have hs := ha.supported
  rcases nandEraseNand_cases (g := g) addr len s with heq | ⟨hal, -, heq⟩
  · rw [heq]
    exact h
  obtain ⟨hrange, hrounds⟩ := hsafe hal
  have hfit := start_fit (g.eraseChip addr) (addr / g.pageSize) h.nandFit
  have hinit : (Loop.start g (g.eraseChip addr) (addr / g.pageSize) s).Unique g g.ppb
      ((len + g.erasesize - 1) / g.erasesize) := by
    obtain ⟨hpages, haddr⟩ := erase_within hg hal hrange
    have hstart (hn : (len + g.erasesize - 1) / g.erasesize ≠ 0) :
        (Loop.start g (g.eraseChip addr) (addr / g.pageSize) s).At g (addr / g.pageSize) := by
      have hpos := Nat.mul_pos (Nat.pos_of_ne_zero hn) g.ppb_pos
      rw [eraseChip_eq_zero ha.chipShift_le (haddr hn)]
      exact (start_at (by omega) s).1
    refine ⟨⟨h.table, hfit.nand.cache⟩, fun _ => hfit, fun hn => (hstart hn).onChip, fun hn => ?_⟩
    rw [(hstart hn).oldPage]
    exact hpages
  rw [heq]
  refine (post_iff_endNand (NandUnique g)).1 ((loop_countdown (P := Loop.Unique g g.ppb)
    (fun i n l hl hround => ?_) _ _ _ hinit hrounds).imp (fun _ hl => hl.nand) fun _ hl => hl)
  have hl0 := hl.fit n.succ_ne_zero
  have hdies := hl.nand.table.dies
  have hon := (hl.onChip n.succ_ne_zero).setWalk hdies none
  have hblock : (l.eraseAddr g).cur.page / g.ppb = blockOf l.nand.bbt l.cur.block :=
    (Nat.mul_div_cancel _ g.ppb_pos).trans
      (walkBbt_block hdies (hl.onChip n.succ_ne_zero).activeChip)
  have hround' := fun hf => Slot.Safe.step (hround hf) hl.nand.table
  rw [step_slotOf_none hdies, ← hblock] at hround'
  have hpage : (l.eraseAddr g).cur.page / g.ppb < g.blockNum :=
    (Nat.mul_div_cancel _ g.ppb_pos).trans_lt (hl0.walk (r := none) (by simp)).1
  have hnext (l₂ : Loop) (hstep : RoundStep g _ (l.eraseAddr g) l₂) :=
    hstep.next hs { hon with } ⟨hl.nand.table, hl.nand.cache⟩ hpage
      hround' g.ppb_pos (hl.within n.succ_ne_zero)
  refine (eraseBody_round env i n l).imp ?_ fun l' hstep => (hnext l' hstep).1
  rintro _ ⟨l₂, hstep, rfl⟩
  obtain ⟨-, hon2, hunique⟩ := hnext l₂ hstep
  rw [eraseNext, if_neg (by rw [hon2.chipnr, hon2.chipnrRemap]; simp)]
  exact hunique

theorem NandCall.run_unique (ha : g.Accepted) (hg : g.numchips = 1) (h : NandUnique g s)
    (c : NandCall) (hsafe : c.Safe env g s) : NandUnique g (c.run env g s) := by
  cases c with
  | page c => exact c.run_unique ha.supported hg h hsafe
  | erase addr len => exact nandEraseNand_unique ha hg h addr len hsafe

theorem runNand_unique (ha : g.Accepted) (hg : g.numchips = 1) : ∀ (calls : List NandCall)
    {s : Nand}, NandUnique g s → AlongNand env g (NandCall.Safe env g) calls s →
      NandUnique g (runNand env g calls s)
  | [], _, h, _ => h
  | c :: calls, _, h, hsafe => runNand_unique ha hg calls (c.run_unique ha hg h hsafe.1) hsafe.2

end Runs

theorem AlongNand.take {env : Env} {g : Geometry} {P : NandCall → Nand → Prop} :
    ∀ {calls : List NandCall} {s : Nand} (k : ℕ), AlongNand env g P calls s →
      AlongNand env g P (calls.take k) s
  | _, _, 0, _ => trivial
  | [], _, _ + 1, _ => trivial
  | _ :: _, _, k + 1, h => ⟨h.1, h.2.take k⟩

/-- On a device with one chip, in every run whose calls stay on the chip and whose failures are
safe, no block is entered in the table twice. -/
theorem bbt_unique {env : Env} {g : Geometry} {s : Nand} {calls : List NandCall} (ha : g.Accepted)
    (hone : g.numchips = 1) (ht : TableUnique g s.bbt) (hs : CacheFit g s)
    (hsafe : AlongNand env g (NandCall.Safe env g) calls s) (k : ℕ) :
    UniqueBad (runNand env g (calls.take k) s).bbt :=
  (runNand_unique ha hone (calls.take k) ⟨ht, hs⟩ (hsafe.take k)).table.uniqueBad

theorem newChip_unique : TableUnique k9f1g08u0b newChip.bbt :=
  .of_uniqueBad ⟨⟨by decide +kernel, by decide +kernel, by decide +kernel⟩, by decide +kernel,
    by decide +kernel⟩ (by decide +kernel) (by decide +kernel) (by decide +kernel)
    (by decide +kernel)

/-- Block 200 is erased, and then its first page is read. -/
def eraseThenRead : List NandCall :=
  [.erase (200 * 64 * 2048) (64 * 2048), .page (.readEcc (200 * 64 * 2048) 2048 false)]

/-- Block 200 cannot be erased, and then its remap block cannot be read. -/
theorem bbt_unique_of_eraseThenRead :
    UniqueBad (runNand (.failingAt [0, 8]) k9f1g08u0b (eraseThenRead.take 2) newChip).bbt ∧
      (runNand (.failingAt [0, 8]) k9f1g08u0b (eraseThenRead.take 2) newChip).bbt[1]? =
        some ⟨0, 1023, 0, 1022⟩ := by
  have hsafe : AlongNand (.failingAt [0, 8]) k9f1g08u0b
      (NandCall.Safe (.failingAt [0, 8]) k9f1g08u0b) eraseThenRead newChip := by
    refine ⟨fun _ => ⟨by decide, ?_⟩, fun _ => ⟨by decide, ?_⟩, trivial⟩
    · exact throughout_one fun _ => by decide +kernel
    · exact throughout_one fun _ => by decide +kernel
  exact ⟨bbt_unique k9f1g08u0b_accepted rfl newChip_unique (fun _ _ hr => nomatch hr) hsafe 2,
    by decide +kernel⟩

/-- Two pages of a block cannot be read in one call. The second read finds the cache of the first
one, and the block is entered again. -/
theorem bbt_not_unique :
    k9f1g08u0b.Accepted ∧ k9f1g08u0b.numchips = 1 ∧ TableUnique k9f1g08u0b newChip.bbt ∧
      (PageCall.readEcc (200 * 64 * 2048) (2 * 2048) false).Valid k9f1g08u0b ∧
      (runNand (.failingAt [0, 7]) k9f1g08u0b
        [.page (.readEcc (200 * 64 * 2048) (2 * 2048) false)] newChip).bbt.take 2 =
          [⟨0, 200, 0, 1023⟩, ⟨0, 200, 0, 1022⟩] ∧
      ¬UniqueBad (runNand (.failingAt [0, 7]) k9f1g08u0b
        [.page (.readEcc (200 * 64 * 2048) (2 * 2048) false)] newChip).bbt :=
  ⟨k9f1g08u0b_accepted, rfl, newChip_unique, by decide, by decide +kernel, by decide +kernel⟩

end OpenHMR
