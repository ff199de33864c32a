import OpenHMR.NandDevice
import OpenHMR.NandForm
import OpenHMR.NandRounds
import OpenHMR.NandScan

/-!
# The form of the table in every run

`rtk_create_bbt` makes a table of the form `PrefixForm` if the last die has at least as many good
reserve blocks as bad data blocks (`scanDies_fit`), and no run of the five calls breaks the form,
whatever fails on the way (`NandCall.run_fit`). The only danger is a block number that looks like
the mark of an unused entry; the remap blocks in the table and in the cached translations and the
blocks of a call are all numbers of blocks of a die (`NandFit`).
-/

open BoundedLoop List Function Nat UInt16

namespace OpenHMR

open OpenHMR.Geometry

/-! ## The invariant -/

/-- The form of the table, with remap blocks that exist. -/
structure TableFit (g : Geometry) (bbt : List BBt) : Prop where
  form : PrefixForm bbt
  real : ∀ e ∈ bbt, e.badBlock ≠ bbInit → e.remapBlock ≠ rbInit
  below : ∀ e ∈ bbt, e.remapBlock ≠ rbInit → e.remapBlock.toNat < g.blockNum

/-- The cached remap blocks exist. -/
def CacheFit (g : Geometry) (s : Nand) : Prop :=
  ∀ sel, ∀ r ∈ (s.cache sel).remapBlock, r < g.blockNum

/-- The invariant of the driver. -/
structure NandFit (g : Geometry) (s : Nand) : Prop where
  table : TableFit g s.bbt
  cache : CacheFit g s

/-- The invariant of the loops before a round. -/
structure Loop.Fit (g : Geometry) (l : Loop) : Prop where
  nand : NandFit g l.nand
  oldPage : l.cur.oldPage < g.pageNum
  block : l.cur.block < g.blockNum
  pageOffset : l.cur.pageOffset < g.ppb

section Table

variable {g : Geometry} {bbt : List BBt} {die : ℤ} {block : ℕ}

/-- Block numbers below the marks are kept by the conversion. -/
theorem toNat_ofNat_of_lt_marks {b : ℕ} (hb : b < 0xFFFD) :
    (ofNat b).toNat = b ∧ ofNat b ≠ rbInit ∧ ofNat b ≠ bbInit := by
  have hnat : (ofNat b).toNat = b := toNat_ofNat_of_lt' (hb.trans (by decide))
  have hne {mark : UInt16} (hm : 0xFFFD ≤ mark.toNat) : ofNat b ≠ mark := by
    rintro rfl
    omega
  exact ⟨hnat, hne (by decide), hne (by decide)⟩

theorem ofNat_ne_bbInit (hg : g.Supported) (hb : block < g.blockNum) :
    ofNat block ≠ bbInit :=
  (toNat_ofNat_of_lt_marks (hb.trans hg.blockNum_lt)).2.2

/-- A block number is kept by the conversion. -/
theorem toNat_ofNat_block (hg : g.Supported) (hb : block < g.blockNum) :
    (ofNat block).toNat = block :=
  (toNat_ofNat_of_lt_marks (hb.trans hg.blockNum_lt)).1

/-- Entering a block that exists. -/
theorem TableFit.record (h : TableFit g bbt) (hg : g.Supported) (hb : block < g.blockNum)
    {r : List BBt × BBt} (hr : recordBad die block bbt = some r) : TableFit g r.1 := by
  obtain ⟨hform, -⟩ := h.form.record hr (ofNat_ne_bbInit hg hb)
  obtain ⟨e, he, hspare, hmem, hr2⟩ := mem_recordBad hr
  refine ⟨hform, fun x hx hu => ?_, fun x hx hre => ?_⟩
  · rcases hmem x hx with rfl | hx
    · rw [hr2]
      exact hspare.2
    · exact h.real x hx hu
  · rcases hmem x hx with rfl | hx
    · rw [hr2]
      exact h.below e he hspare.2
    · exact h.below x hx hre

theorem recordBad_dies {n : ℕ} (h : DiesBelow n bbt) {r : List BBt × BBt}
    (hr : recordBad die block bbt = some r) : DiesBelow n r.1 ∧ r.2.rbDie.toNat < n := by
  obtain ⟨e, he, -, hmem, hr2⟩ := mem_recordBad hr
  have hdie : r.2.rbDie.toNat < n := by
    rw [hr2]
    exact h e he
  refine ⟨fun x hx => ?_, hdie⟩
  rcases hmem x hx with rfl | hx
  · exact hdie
  · exact h x hx

/-- The link of a new bad block on the only die. -/
theorem TableFit.links_record (h : TableFit g bbt) (hg : g.Supported) (hd : DiesBelow 1 bbt)
    (hb : block < g.blockNum) {r : List BBt × BBt} (hr : recordBad 0 block bbt = some r) :
    links r.1 = links bbt ++ [((0, block), (0, r.2.remapBlock.toNat))] := by
  obtain ⟨e, -, -, -, hr2⟩ := mem_recordBad hr
  have hbad : r.2.bad = (0, block) := by
    rw [hr2, BBt.bad, toNat_ofNat_block hg hb]
    rfl
  rw [(h.form.record hr (ofNat_ne_bbInit hg hb)).2, hbad, BBt.remap,
    lt_one_iff.1 (recordBad_dies hd hr).2]

theorem TableFit.mayRecord (h : TableFit g bbt) (hg : g.Supported) (hb : block < g.blockNum)
    {bbt' : List BBt} (hr : MayRecord die block bbt bbt') : TableFit g bbt' := by
  rcases hr with rfl | ⟨r, hr, rfl⟩
  · exact h
  · exact h.record hg hb hr

/-- The walk only leads to blocks that exist. -/
theorem walkBbt_below {n : ℕ} : ∀ {bbt : List BBt} {w : Walk},
    (∀ e ∈ bbt, e.badBlock ≠ bbInit → e.remapBlock.toNat < n) → w.block < n →
      (∀ r ∈ w.remapBlock, r < n) →
      (walkBbt bbt w).block < n ∧ ∀ r ∈ (walkBbt bbt w).remapBlock, r < n
  | [], _, _, hb, hr => ⟨hb, hr⟩
  | e :: bbt, w, h, hb, hr => by
    obtain ⟨he, hbbt⟩ := forall_mem_cons.1 h
    rw [walkBbt]
    split_ifs with hu
    · have hstep : (e.walkStep w).block < n ∧ ∀ r ∈ (e.walkStep w).remapBlock, r < n := by
        unfold BBt.walkStep
        simp only []
        split_ifs
        · exact ⟨he hu, by simpa using he hu⟩
        · exact ⟨he hu, by simpa using he hu⟩
        · exact ⟨hb, hr⟩
      exact walkBbt_below hbbt hstep.1 hstep.2
    · exact ⟨hb, hr⟩

theorem TableFit.used_below (h : TableFit g bbt) :
    ∀ e ∈ bbt, e.badBlock ≠ bbInit → e.remapBlock.toNat < g.blockNum :=
  fun e he hu => h.below e he (h.real e he hu)

end Table

/-! ## Rounds -/

section Rounds

variable {g : Geometry} {l l' : Loop} {failed : Prop}

theorem NandFit.of_eq {s s' : Nand} (h : NandFit g s) (hb : s'.bbt = s.bbt)
    (hc : s'.cache = s.cache) : NandFit g s' :=
  ⟨hb ▸ h.table, fun sel => hc ▸ h.cache sel⟩

theorem Loop.Fit.walk (h : l.Fit g) {r : Option ℕ} (hr : ∀ x ∈ r, x < g.blockNum) :
    (l.walk r).block < g.blockNum ∧ ∀ x ∈ (l.walk r).remapBlock, x < g.blockNum :=
  walkBbt_below h.nand.table.used_below h.block hr

/-- The address is that of a block that exists. -/
theorem locate_fit (h : l.Fit g) (sel : Option CacheSel) :
    NandFit g (locate g sel l).nand ∧ (locate g sel l).cur.oldPage = l.cur.oldPage ∧
      (locate g sel l).cur.page / g.ppb < g.blockNum := by
  cases sel with
  | none =>
    refine ⟨h.nand.of_eq rfl rfl, rfl, ?_⟩
    exact (g.page_div _ h.pageOffset).trans_lt (h.walk (r := none) (by simp)).1
  | some sel =>
    obtain ⟨hblock, hremap⟩ := h.walk (h.nand.cache sel)
    have hget {r : Option ℕ} {b : ℕ} (hr : ∀ x ∈ r, x < g.blockNum) (hb : b < g.blockNum) :
        r.getD b < g.blockNum := by
      cases r with
      | none => exact hb
      | some x => exact hr x rfl
    simp only [locate, locateCached]
    split_ifs
    · exact ⟨h.nand, rfl, (g.page_div _ h.pageOffset).trans_lt (hget (h.nand.cache sel) h.block)⟩
    all_goals
      refine ⟨⟨h.nand.table, fun sel' => ?_⟩, rfl, (g.page_div _ h.pageOffset).trans_lt ?_⟩
      · rcases eq_or_ne sel' sel with rfl | hne
        · simpa [Loop.setPage, Loop.setWalk] using hremap
        · simpa [Loop.setPage, Loop.setWalk, update_of_ne hne] using h.nand.cache sel'
    · exact hget hremap hblock
    · exact hblock

theorem RoundStep.nandFit (hg : g.Supported) (h : RoundStep g failed l l') (hl : NandFit g l.nand)
    (hb : l.cur.page / g.ppb < g.blockNum) : NandFit g l'.nand :=
  ⟨hl.table.mayRecord hg hb h.bbt, fun sel => h.cache ▸ hl.cache sel⟩

/-- The end of a round leads to a page of a die. -/
theorem advance_fit {step : ℕ} (more : Bool) (h : NandFit g l.nand)
    (hp : l.cur.oldPage + step ≤ g.pageNum) :
    NandFit g (advance g step more l).nand ∧ (more = true → (advance g step more l).Fit g) ∧
      ((advance g step more l).cur.oldPage % g.ppb = (l.cur.oldPage + step) % g.ppb) := by
  have hpos := g.pageNum_pos
  have hdvd : g.ppb ∣ g.pageNum := g.ppb_dvd_pageNum
  have hoff : (l.cur.oldPage + step) &&& (g.ppb - 1) < g.ppb := by
    rw [g.and_ppb]
    exact mod_lt _ g.ppb_pos
  have hblock {p : ℕ} (hlt : p < g.pageNum) : p / g.ppb < g.blockNum :=
    Nat.div_lt_of_lt_mul (by rwa [mul_comm, g.blockNum_mul_ppb])
  have hnand : NandFit g (advance g step more l).nand := by
    unfold advance
    simp only []
    split_ifs <;> exact h.of_eq rfl rfl
  refine ⟨hnand, fun hmore => ?_, ?_⟩
  · have hfit : (advance g step more l).cur.oldPage < g.pageNum ∧
        (advance g step more l).cur.block = (advance g step more l).cur.oldPage / g.ppb ∧
        (advance g step more l).cur.pageOffset < g.ppb := by
      unfold advance
      simp only [hmore, true_and, g.and_pagemask]
      split_ifs with hcross
      · exact ⟨mod_lt _ hpos, rfl, hoff⟩
      · have hne : l.cur.oldPage + step ≠ g.pageNum := fun heq => hcross (heq ▸ mod_self _)
        exact ⟨lt_of_le_of_ne hp hne, rfl, hoff⟩
    exact ⟨hnand, hfit.1, hfit.2.1 ▸ hblock hfit.1, hfit.2.2⟩
  · unfold advance
    simp only [g.and_pagemask]
    split_ifs
    · exact mod_mod_of_dvd _ hdvd
    · rfl

theorem start_fit (chipnr : ℤ) (realpage : ℕ) {s : Nand} (h : NandFit g s) :
    (Loop.start g chipnr realpage s).Fit g := by
  have hlt : realpage &&& g.pagemask < g.pageNum := by
    rw [g.and_pagemask]
    exact mod_lt _ (Nat.two_pow_pos _)
  refine ⟨h.of_eq rfl rfl, hlt, ?_, ?_⟩
  · exact Nat.div_lt_of_lt_mul (by rwa [mul_comm, g.blockNum_mul_ppb])
  · change (realpage &&& g.pagemask) &&& (g.ppb - 1) < g.ppb
    rw [g.and_ppb]
    exact mod_lt _ g.ppb_pos

end Rounds

/-! ## Runs -/

section Runs

variable {env : Env} {g : Geometry} {s : Nand}

theorem PageCall.init_fit (h : NandFit g s) (c : PageCall) : (c.init g s).Fit g := by
  have henter : NandFit g (c.enter s) := by
    cases c <;> exact h.of_eq rfl rfl
  have hstart := start_fit (c.start / 2 ^ g.chipShift : ℕ) (c.firstPage g) henter
  unfold init
  cases c.sel with
  | none => exact hstart
  | some sel =>
    simp only [Loop.resetCache]
    split_ifs
    · refine ⟨⟨hstart.nand.table, fun sel' => ?_⟩, hstart.oldPage, hstart.block, hstart.pageOffset⟩
      rcases eq_or_ne sel' sel with rfl | hne
      · simp
      · simpa [update_of_ne hne] using hstart.nand.cache sel'
    · exact hstart

/-- A call on pages keeps the invariant. -/
theorem PageCall.run_fit (hg : g.Supported) (h : NandFit g s) (c : PageCall) :
    NandFit g (c.run env g s) := by
  by_cases hv : c.Valid g
  · have hinit := c.init_fit h
    rw [hv.run_eq]
    refine (post_iff_endNand (NandFit g)).1 (loop_post (P := Loop.Fit g)
      (fun i n l hl _ => ?_) _ _ _ (fun _ => hinit) hinit.nand (throughout_true _ _ _))
    obtain ⟨hnand, hold, hpage⟩ := locate_fit hl c.sel
    refine (pageBody_round c.isAccess c.isFail i n l).imp ?_ fun l' hstep =>
      hstep.nandFit hg hnand hpage
    rintro _ ⟨l₂, hstep, rfl⟩
    have hp : l₂.cur.oldPage + 1 ≤ g.pageNum := by
      rw [hstep.cur, hold]
      exact hl.oldPage
    obtain ⟨hfit, hmore, -⟩ := advance_fit (n ≠ 0) (hstep.nandFit hg hnand hpage) hp
    exact ⟨hfit, fun hn => hmore (decide_eq_true hn)⟩
  · rw [PageCall.run_of_not_valid hv]
    exact h

/-- The first page of an erase is the first page of a block. -/
theorem erase_aligned {addr : ℕ} (h : addr % g.erasesize = 0) :
    (addr / g.pageSize &&& g.pagemask) % g.ppb = 0 := by
  obtain ⟨k, rfl⟩ := dvd_of_mod_eq_zero h
  rw [g.and_pagemask, mod_mod_of_dvd _ g.ppb_dvd_pageNum, g.mul_div_pageSize, mul_mod_left]

/-- An erase call keeps the invariant. -/
theorem nandEraseNand_fit (hg : g.Supported) (h : NandFit g s) (addr len : ℕ) :
    NandFit g (nandEraseNand env g addr len s).nand := by
  rcases nandEraseNand_cases (g := g) addr len s with heq | ⟨hal, -, heq⟩
  · rw [heq]
    exact h
  rw [heq]
  have hinit := start_fit (g.eraseChip addr) (addr / g.pageSize) h
  refine (post_iff_endNand (NandFit g)).1 (loop_post
    (P := fun l => l.Fit g ∧ l.cur.oldPage % g.ppb = 0) (fun i n l hl _ => ?_) _ _ _
    (fun _ => ⟨hinit, erase_aligned hal⟩) hinit.nand (throughout_true _ _ _))
  obtain ⟨hl, hmod⟩ := hl
  have hblock := (hl.walk (r := none) (by simp)).1
  have hpage : (l.eraseAddr g).cur.page / g.ppb < g.blockNum :=
    (Nat.mul_div_cancel _ g.ppb_pos).trans_lt hblock
  have hnand : NandFit g (l.eraseAddr g).nand := hl.nand.of_eq rfl rfl
  refine (eraseBody_round env i n l).imp ?_ fun l' hstep => hstep.nandFit hg hnand hpage
  rintro _ ⟨l₂, hstep, rfl⟩
  obtain ⟨l₃, h3⟩ : ∃ l₃ : Loop, l₃ = if l₂.cur.chipnr ≠ l₂.cur.chipnrRemap then
    { l₂ with nand := l₂.nand.select l₂.cur.chipnr } else l₂ := ⟨_, rfl⟩
  have hl3 : NandFit g l₃.nand ∧ l₃.cur.oldPage = l.cur.oldPage := by
    have hfit := hstep.nandFit hg hnand hpage
    have hold : l₂.cur.oldPage = l.cur.oldPage := by
      rw [hstep.cur]
      rfl
    rw [h3]
    split_ifs
    · exact ⟨hfit.of_eq rfl rfl, hold⟩
    · exact ⟨hfit, hold⟩
  have hp : l₃.cur.oldPage + g.ppb ≤ g.pageNum := by
    rw [hl3.2, ← g.blockNum_mul_ppb]
    obtain ⟨k, hk⟩ := dvd_of_mod_eq_zero hmod
    have hlt := hl.oldPage
    rw [← g.blockNum_mul_ppb, hk, mul_comm g.ppb] at hlt
    rw [hk, mul_comm g.ppb, ← succ_mul]
    exact mul_le_mul_right _ (Nat.lt_of_mul_lt_mul_right hlt)
  obtain ⟨hfit, hmore, hmod'⟩ := advance_fit (n ≠ 0) hl3.1 hp
  have hnext : eraseNext g n l₂ = advance g g.ppb (n ≠ 0) l₃ := by rw [eraseNext, h3]
  rw [hnext]
  refine ⟨hfit, fun hn => ⟨hmore (decide_eq_true hn), ?_⟩⟩
  rw [hmod', hl3.2, add_mod_right, hmod]

theorem NandCall.run_fit (hg : g.Supported) (h : NandFit g s) (c : NandCall) :
    NandFit g (c.run env g s) := by
  cases c with
  | page c => exact c.run_fit hg h
  | erase addr len => exact nandEraseNand_fit hg h addr len

theorem runNand_fit (hg : g.Supported) : ∀ (calls : List NandCall) {s : Nand}, NandFit g s →
    NandFit g (runNand env g calls s)
  | [], _, h => h
  | c :: calls, _, h => runNand_fit hg calls (c.run_fit hg h)

end Runs

/-! ## The table that is made -/

section LastDie

variable {g : Geometry} {status : ℕ → Bool}

variable {n r b : ℕ}

/-- The good blocks among the last `r` of `n` blocks. -/
theorem mem_reserve (status : ℕ → Bool) (hr : r ≤ n)
    (hb : b ∈ ((range r).map fun i => n - 1 - i).filter fun b => !status b) :
    n - r ≤ b ∧ b < n ∧ status b = false := by
  obtain ⟨hmem, hgood⟩ := mem_filter.1 hb
  obtain ⟨i, hi, rfl⟩ := mem_map.1 hmem
  have := mem_range.1 hi
  exact ⟨by omega, by omega, by simpa using hgood⟩

theorem reserve_nodup (hr : r ≤ n) :
    (((range r).map fun i => n - 1 - i).filter fun b => !status b).Nodup := by
  refine List.Nodup.filter _ (List.Nodup.map_on (fun i hi j hj heq => ?_) nodup_range)
  have hi' := mem_range.1 hi
  have hj' := mem_range.1 hj
  omega

theorem mem_goodReserve (hrba : g.rba ≤ g.blockNum) (hb : b ∈ g.goodReserve status) :
    b < g.blockNum :=
  (mem_reserve status hrba hb).2.1

theorem goodReserve_nodup (hrba : g.rba ≤ g.blockNum) : (g.goodReserve status).Nodup :=
  reserve_nodup hrba

theorem mem_badBlocks (hb : b ∈ g.badBlocks status) : b < g.blockNum :=
  (mem_range.1 (mem_filter.1 hb).1).trans_le (sub_le _ _)

theorem remapBlocks_getD (i : ℕ) : (g.remapBlocks status).getD i rbInit =
    ((g.goodReserve status)[i]?.map ofNat).getD rbInit := by
  rw [remapBlocks, getD_eq_getElem?_getD, List.getElem?_append, length_map]
  split_ifs with hi
  · rw [List.getElem?_map]
  · rw [List.getElem?_eq_none (not_lt.1 hi), List.getElem?_replicate]
    split_ifs <;> rfl

/-- The remap block of an entry. -/
theorem lastDieEntry_remapBlock (i : ℕ) : (g.lastDieEntry status i).remapBlock =
    ((g.goodReserve status)[i]?.map ofNat).getD rbInit := by
  rw [← remapBlocks_getD, lastDieEntry]
  cases (g.badBlocks status)[i]? <;> rfl

/-- The bad block of an entry. -/
theorem lastDieEntry_badBlock (i : ℕ) : (g.lastDieEntry status i).badBlock =
    ((g.badBlocks status)[i]?.map ofNat).getD bbInit := by
  rw [lastDieEntry]
  cases (g.badBlocks status)[i]? <;> rfl

theorem lastDieEntry_rbDie (i : ℕ) :
    (g.lastDieEntry status i).rbDie = ofNat (g.numchips - 1) := by
  rw [lastDieEntry]
  cases (g.badBlocks status)[i]? <;> rfl

theorem lastDieEntry_used (hg : g.Supported) (i : ℕ) :
    (g.lastDieEntry status i).badBlock ≠ bbInit ↔ i < (g.badBlocks status).length := by
  rw [lastDieEntry_badBlock]
  refine ⟨fun h => ?_, fun hi => ?_⟩
  · by_contra hi
    rw [List.getElem?_eq_none (not_lt.1 hi)] at h
    exact h rfl
  · rw [List.getElem?_eq_getElem hi]
    exact ofNat_ne_bbInit hg (mem_badBlocks (getElem_mem hi))

theorem lastDieEntry_real (hg : g.Supported) (hrba : g.rba ≤ g.blockNum) (i : ℕ) :
    (g.lastDieEntry status i).remapBlock ≠ rbInit ↔ i < (g.goodReserve status).length := by
  rw [lastDieEntry_remapBlock]
  refine ⟨fun h => ?_, fun hi heq => ?_⟩
  · by_contra hi
    rw [List.getElem?_eq_none (not_lt.1 hi)] at h
    exact h rfl
  · have hlt := mem_goodReserve hrba (getElem_mem hi)
    rw [List.getElem?_eq_getElem hi] at heq
    exact (toNat_ofNat_of_lt_marks (hlt.trans hg.blockNum_lt)).2.1 heq

/-- The table that `scan_last_die_BB` makes. -/
theorem lastDie_fit (hg : g.Supported) (hrba : g.rba ≤ g.blockNum)
    (hbad : (g.badBlocks status).length ≤ (g.goodReserve status).length) :
    TableFit g ((range g.rba).map (g.lastDieEntry status)) := by
  have hpair {R : ℕ → ℕ → Prop} (h : ∀ i j, i < j → R i j) : (range g.rba).Pairwise R :=
    pairwise_lt_range.imp (h _ _)
  refine ⟨⟨?_, ?_, ?_⟩, ?_, ?_⟩
  · refine pairwise_map.2 (hpair fun i j hij => ?_)
    rw [lastDieEntry_used hg, lastDieEntry_used hg]
    exact fun hj => hij.trans hj
  · refine pairwise_map.2 (hpair fun i j hij => ?_)
    rw [lastDieEntry_real hg hrba, lastDieEntry_real hg hrba]
    exact fun hj => hij.trans hj
  · refine pairwise_map.2 (hpair fun i j hij heq => ?_)
    by_contra hi
    have hj : (g.lastDieEntry status j).remapBlock ≠ rbInit := heq ▸ hi
    replace hi := (lastDieEntry_real hg hrba i).1 hi
    replace hj := (lastDieEntry_real hg hrba j).1 hj
    rw [lastDieEntry_remapBlock, lastDieEntry_remapBlock, List.getElem?_eq_getElem hi,
      List.getElem?_eq_getElem hj] at heq
    have hnat := congrArg toNat heq
    simp only [Option.map_some, Option.getD_some,
      toNat_ofNat_block hg (mem_goodReserve hrba (getElem_mem _))] at hnat
    exact hij.ne ((goodReserve_nodup hrba).getElem_inj_iff.1 hnat)
  · simp only [mem_map, forall_exists_index, and_imp]
    rintro _ i - rfl hu
    rw [lastDieEntry_used hg] at hu
    exact (lastDieEntry_real hg hrba i).2 (hu.trans_le hbad)
  · simp only [mem_map, forall_exists_index, and_imp]
    rintro _ i - rfl hr
    rw [lastDieEntry_real hg hrba] at hr
    have hlt := mem_goodReserve hrba (getElem_mem hr)
    rw [lastDieEntry_remapBlock, List.getElem?_eq_getElem hr, Option.map_some, Option.getD_some,
      toNat_ofNat_block hg hlt]
    exact hlt

end LastDie

section Scan

variable {env : Env} {g : Geometry} {s : Nand}

theorem rtkBlockIsbad_steady (chipnr ofs : ℕ) (s : Nand) :
    s.Steady (rtkBlockIsbad env g chipnr ofs s).2 :=
  readOob_steady env g _ _ _ s

theorem scanStatus_steady {chipnr : ℕ} : ∀ (n addr : ℕ) (status : ℕ → Bool) (s : Nand),
    s.Steady (scanStatus env g chipnr n addr status s).2
  | 0, _, _, s => .refl s
  | n + 1, addr, _, s =>
    (rtkBlockIsbad_steady chipnr addr s).trans (scanStatus_steady n (addr + g.erasesize) _ _)

/-- The state while the dies are scanned : all remap blocks are on the last die. -/
structure ScanFit (g : Geometry) (s : Nand) : Prop extends NandFit g s where
  rbDie : ∀ e ∈ s.bbt, e.rbDie = ofNat (g.numchips - 1)

theorem ScanFit.of_eq {s' : Nand} (h : ScanFit g s) (hb : s'.bbt = s.bbt)
    (hc : s'.cache = s.cache) : ScanFit g s' :=
  ⟨h.toNandFit.of_eq hb hc, hb ▸ h.rbDie⟩

theorem scanLastDieBB_fit (hg : g.Supported) (hrba : g.rba ≤ g.blockNum) (hs : CacheFit g s)
    (hbad : (g.badBlocks (lastDieStatus env g s)).length ≤
      (g.goodReserve (lastDieStatus env g s)).length) : ScanFit g (scanLastDieBB env g s) := by
  refine ⟨⟨lastDie_fit hg hrba hbad, fun sel => ?_⟩, ?_⟩
  · have hcache : (scanLastDieBB env g s).cache = s.cache := (scanStatus_steady _ _ _ _).cache
    exact hcache ▸ hs sel
  · intro e he
    obtain ⟨i, -, rfl⟩ := mem_map.1 he
    exact lastDieEntry_rbDie i

theorem enterBad_cons (die : ℤ) (block : ℕ) (e : BBt) (bbt : List BBt) :
    enterBad die block (e :: bbt) = if e.badBlock = bbInit ∧ e.remapBlock ≠ rbInit then
      { e with bbDie := ofInt die, badBlock := ofNat block } :: bbt
      else e :: enterBad die block bbt := by
  unfold enterBad
  rw [recordBad]
  split_ifs
  · rfl
  · cases recordBad die block bbt <;> rfl

theorem ofInt_natCast (k : ℕ) : ofInt k = ofNat k := by
  apply toNat.inj
  simp only [ofInt, toNat_ofNat']
  omega

/-- If all remap blocks are on the last die, `scan_other_die_BB` enters a bad block as the calls
do. -/
theorem enterOther_eq (k block : ℕ) : ∀ {bbt : List BBt},
    (∀ e ∈ bbt, e.rbDie = ofNat (g.numchips - 1)) →
      g.enterOther k block bbt = enterBad k block bbt
  | [], _ => rfl
  | e :: bbt, h => by
    obtain ⟨he, hbbt⟩ := forall_mem_cons.1 h
    rw [enterBad_cons, enterOther, enterOther_eq k block hbbt, ← he, ofInt_natCast]

theorem enterBad_rbDie {die : ℤ} {block : ℕ} {d : UInt16} : ∀ {bbt : List BBt},
    (∀ e ∈ bbt, e.rbDie = d) → ∀ e ∈ enterBad die block bbt, e.rbDie = d
  | [], h => h
  | e :: bbt, h => by
    obtain ⟨he, hbbt⟩ := forall_mem_cons.1 h
    rw [enterBad_cons]
    split_ifs
    · exact forall_mem_cons.2 ⟨he, hbbt⟩
    · exact forall_mem_cons.2 ⟨he, enterBad_rbDie hbbt⟩

theorem ScanFit.enter (h : ScanFit g s) (hg : g.Supported) (k : ℕ) {block : ℕ}
    (hb : block < g.blockNum) : ScanFit g (s.setBbt (g.enterOther k block s.bbt)) := by
  rw [enterOther_eq k block h.rbDie]
  exact ⟨⟨h.table.mayRecord hg hb (mayRecord_enterBad k block s.bbt), h.cache⟩,
    enterBad_rbDie h.rbDie⟩

theorem block_lt_of_addr_lt {addr : ℕ} (h : addr < 2 ^ g.chipShift) :
    addr / g.erasesize < g.blockNum := by
  refine Nat.div_lt_of_lt_mul ?_
  rwa [mul_comm, g.blockNum_mul_erasesize]

/-- The loop over the blocks of a die; its last round is still on the die. -/
theorem scanOther_fit (hg : g.Supported) {k : ℕ} : ∀ {n addr : ℕ} {s : Nand}, ScanFit g s →
    (n ≠ 0 → addr + (n - 1) * g.erasesize < 2 ^ g.chipShift) →
      ScanFit g (scanOther env g k n addr s)
  | 0, _, _, h, _ => h
  | n + 1, addr, s, h, haddr => by
    have hlast := haddr n.succ_ne_zero
    rw [Nat.add_sub_cancel] at hlast
    have hsteady : s.Steady (rtkBlockIsbad env g k addr s).2 := rtkBlockIsbad_steady k addr s
    have h1 : ScanFit g (rtkBlockIsbad env g k addr s).2 := h.of_eq hsteady.bbt hsteady.cache
    have hnext : n ≠ 0 → addr + g.erasesize + (n - 1) * g.erasesize < 2 ^ g.chipShift := by
      intro hn
      obtain ⟨m, rfl⟩ := exists_eq_succ_of_ne_zero hn
      rwa [succ_sub_one, add_assoc, add_comm g.erasesize, ← succ_mul]
    rw [scanOther]
    generalize rtkBlockIsbad env g k addr s = r at h1
    refine scanOther_fit hg ?_ hnext
    split_ifs
    · exact h1.enter hg k (block_lt_of_addr_lt ((le_add_right _ _).trans_lt hlast))
    · exact h1

theorem scanRounds_last (start : ℕ) (h : g.scanRounds start ≠ 0) :
    start + (g.scanRounds start - 1) * g.erasesize < 2 ^ g.chipShift := by
  obtain ⟨n, hn⟩ := exists_eq_succ_of_ne_zero h
  have hle : (n + 1) * g.erasesize ≤ 2 ^ g.chipShift - start + (g.erasesize - 1) := by
    rw [← succ_eq_add_one, ← hn]
    exact div_mul_le_self _ _
  have hpos := g.erasesize_pos
  rw [succ_mul] at hle
  rw [hn, succ_sub_one]
  omega

theorem scanDies_fit (hg : g.Supported) (hrba : g.rba ≤ g.blockNum) (hs : CacheFit g s)
    (hbad : (g.badBlocks (lastDieStatus env g s)).length ≤
      (g.goodReserve (lastDieStatus env g s)).length) : ScanFit g (scanDies env g s) := by
  have hlast := scanLastDieBB_fit hg hrba hs hbad
  unfold scanDies
  simp only []
  split_ifs
  · refine foldl_backup (fun s k h => ?_) _ _ hlast
    exact scanOther_fit hg (h.of_eq rfl rfl) (scanRounds_last _)
  · exact hlast

theorem createPages_steady {page : ℕ} {tempBbt : List UInt8} : ∀ (n pageCounter : ℕ) (s : Nand),
    s.Steady (createPages env g page tempBbt n pageCounter s).2
  | 0, _, s => .refl s
  | n + 1, pageCounter, s => by
    have h := writeEccPage_steady env g 0 (page + pageCounter)
      ((tempBbt.drop (pageCounter * g.pageSize)).take g.pageSize) (some s.oobbuf) true s
    unfold createPages
    simp only []
    split_ifs
    · exact h
    · exact h.trans (createPages_steady n (pageCounter + 1) _)

/-- `rtk_create_bbt` writes the table that it made. -/
theorem rtkCreateBbt_steady (page : ℕ) (s : Nand) :
    (scanDies env g s).Steady (rtkCreateBbt env g page s).2 := by
  have h := (Nand.steady_select 0 (scanDies env g s)).trans (eraseBlock_steady env g 0 page _)
  unfold rtkCreateBbt
  simp only []
  split_ifs
  · exact h
  · refine (h.trans ?_).trans (createPages_steady _ _ _)
    exact ⟨⟨rfl, rfl, prefix_rfl⟩, rfl⟩

end Scan

/-- The reserve is on one die, as there are at most four. -/
theorem rba_le_blockNum {g : Geometry} (h : g.numchips ≤ 4) : g.rba ≤ g.blockNum := by
  have hblocks : g.mtdSize / g.erasesize ≤ 4 * g.blockNum := by
    have hsize : g.mtdSize ≤ 4 * g.blockNum * g.erasesize := by
      rw [mul_assoc, g.blockNum_mul_erasesize]
      exact (mod_le _ _).trans (mul_le_mul_right _ h)
    exact Nat.div_le_of_le_mul (by rwa [mul_comm])
  rw [rba]
  omega

/-- On every device that the driver accepts, if the last die has as many good reserve blocks as bad
data blocks when the table is made, every table after it has its used entries first and the entries
without a remap block last, no remap block is used twice, and the walks through the table miss no
entry. -/
theorem bbt_prefixForm {g : Geometry} {ids : ℕ → ChipId} (hg : rtkNandScan 4 ids = some g)
    {env : Env} {s : Nand} (hs : CacheFit g s)
    (hbad : (g.badBlocks (lastDieStatus env g s)).length ≤
      (g.goodReserve (lastDieStatus env g s)).length) (page : ℕ) (calls : List NandCall) :
    PrefixForm (runNand env g calls (rtkCreateBbt env g page s).2).bbt ∧
      ∀ w, walkBbt (runNand env g calls (rtkCreateBbt env g page s).2).bbt w =
        walkAll (runNand env g calls (rtkCreateBbt env g page s).2).bbt w := by
  have hsup : g.Supported := Geometry.Accepted.supported ⟨4, ids, hg⟩
  have hscan := scanDies_fit hsup (rba_le_blockNum (rtkNandScan_numchips_le hg)) hs hbad
  have hsteady : (scanDies env g s).Steady (rtkCreateBbt env g page s).2 :=
    rtkCreateBbt_steady page s
  have hmade := hscan.toNandFit.of_eq hsteady.bbt hsteady.cache
  have hrun : PrefixForm (runNand env g calls (rtkCreateBbt env g page s).2).bbt :=
    (runNand_fit hsup calls hmade).table.form
  exact ⟨hrun, fun w => hrun.walkAll_eq w⟩

/-! ## A chip with a bad block -/

/-- The mark that `rtk_block_isbad` looks at on the chip `chip`. -/
def Nand.marked (g : Geometry) (chip : ℕ) (s : Nand) (ofs : ℕ) : Bool :=
  let page := ofs / g.pageSize
  let page := if g.isLastPage then page / g.ppb * g.ppb + (g.ppb - 1) else page
  decide ((s.flash chip page).oob.getD 0 0xFF ≠ 0xFF)

section Status

variable {env : Env} {g : Geometry} {chipnr : ℕ}

theorem rtkBlockIsbad_ok (chipnr ofs : ℕ) {s : Nand} (hok : env.outcome s.log.length = .ok) :
    (rtkBlockIsbad env g chipnr ofs s).1 = s.marked g s.selected ofs ∧
      (rtkBlockIsbad env g chipnr ofs s).2.flash = s.flash ∧
      (rtkBlockIsbad env g chipnr ofs s).2.selected = s.selected ∧
      (rtkBlockIsbad env g chipnr ofs s).2.log.length = s.log.length + 1 := by
  simp [rtkBlockIsbad, readOob, Nand.marked, hok, plainRc, eRestartSys, Nand.logged]

/-- The status of the blocks is that of the marks. -/
theorem scanStatus_ok : ∀ (n addr : ℕ) (status : ℕ → Bool) (s : Nand),
    (∀ m < s.log.length + n, env.outcome m = .ok) →
    (scanStatus env g chipnr n addr status s).1 =
      ((range' addr n g.erasesize).filter (s.marked g s.selected)).foldl
        (fun status ofs => update status (ofs / g.erasesize) true) status
  | 0, _, _, _, _ => rfl
  | n + 1, addr, status, s, hok => by
    obtain ⟨hbad, hflash, hsel, hlog⟩ :=
      rtkBlockIsbad_ok (g := g) chipnr addr (hok s.log.length (by omega))
    have hmarked : (rtkBlockIsbad env g chipnr addr s).2.marked g s.selected =
        s.marked g s.selected := by
      funext ofs
      rw [Nand.marked, Nand.marked, hflash]
    rw [scanStatus, scanStatus_ok n _ _ _ fun m hm => hok m (by omega), hsel, hmarked, hbad,
      range'_succ, filter_cons]
    split_ifs <;> rfl

end Status

/-- A chip that came with a bad block. -/
def markedChip : Nand :=
  { Nand.fresh k9f1g08u0b [] with
    flash := fun _ page =>
      if page = 200 * 64 then { k9f1g08u0b.blank with oob := 0 :: k9f1g08u0b.blank.oob.tail }
      else k9f1g08u0b.blank }

/-- The chip wears out when its marks have been read. -/
def wornOut : Env :=
  ⟨fun n => if n < k9f1g08u0b.scanRounds (startPage 0) then .ok else .failed,
    fun _ _ => ⟨[], []⟩, none⟩

theorem markedChip_status :
    lastDieStatus wornOut k9f1g08u0b markedChip = update (fun _ => false) 200 true := by
  have hmarks : (range' (startPage 0) (k9f1g08u0b.scanRounds (startPage 0))
      k9f1g08u0b.erasesize).filter (markedChip.marked k9f1g08u0b 0) = [200 * 64 * 2048] := by
    decide +kernel
  have hok : ∀ m < 0 + k9f1g08u0b.scanRounds (startPage 0), wornOut.outcome m = .ok := by
    intro m hm
    rw [zero_add] at hm
    simp only [wornOut, if_pos hm]
  exact (scanStatus_ok _ _ _ _ hok).trans (congrArg (foldl _ fun _ => false) hmarks)

/-- Block 200 is entered when the table is made, and the form is kept although the table can not be
stored and a write of the next block and its erasure fail. -/
theorem bbt_prefixForm_wornOut :
    k9f1g08u0b.badBlocks (lastDieStatus wornOut k9f1g08u0b markedChip) = [200] ∧
      PrefixForm (runNand wornOut k9f1g08u0b
        [.page (.writeEcc (201 * 64 * 2048) 2048 (fun _ => []) none),
          .erase (201 * 64 * 2048) (64 * 2048)]
        (rtkCreateBbt wornOut k9f1g08u0b 0 markedChip).2).bbt := by
  have hbads : k9f1g08u0b.badBlocks (lastDieStatus wornOut k9f1g08u0b markedChip) = [200] := by
    rw [markedChip_status]
    decide +kernel
  have hgood :
      1 ≤ (k9f1g08u0b.goodReserve (lastDieStatus wornOut k9f1g08u0b markedChip)).length := by
    rw [markedChip_status]
    decide +kernel
  have hscan : rtkNandScan 4 (oneChip ⟨0xEC, 0xF1, 0x00, 0x95, 0x40⟩) = some k9f1g08u0b := by
    decide +kernel
  have hcache : CacheFit k9f1g08u0b markedChip := fun _ _ hr => nomatch hr
  exact ⟨hbads, (bbt_prefixForm hscan hcache (hbads ▸ hgood) 0 _).1⟩

end OpenHMR
