import OpenHMR.NandCalls

/-!
# The cached translation

On a device with one chip `nand_read_ecc` and `nand_write_ecc` keep the result of the walk
through the table in three variables, across the pages of a call and across calls. The cache
knows the first block of the last call, the remap block found last, and that the table was
walked; it is consulted with the page accessed last. `Slot` is this machine by itself, and
`pages` the addresses it gives.

The remap block is never cleared within a call. So a block that is not in the table is
accessed through the remap block of an earlier one, and a later call that starts at the
cached block is misled as well. `CacheFresh` is the exact condition for a call to be
addressed as the plain walk would address it.
-/

open Remap BoundedLoop List Function Nat

namespace OpenHMR

open Loop

/-! ## The plain walk on one die -/

/-- The block that stands for block `b`, by the walk that `nand_read_oob` and
`nand_erase_nand` make for every page. -/
def blockOf (bbt : List BBt) (b : ℕ) : ℕ :=
  (walkBbt bbt ⟨0, 0, 0, b, none⟩).block

/-- The block is in the table. -/
def Recorded (bbt : List BBt) (b : ℕ) : Prop :=
  (0, b) ∈ sources (links bbt)

instance (bbt : List BBt) (b : ℕ) : Decidable (Recorded bbt b) :=
  inferInstanceAs (Decidable (_ ∈ _))

/-- The page that stands for page `p`. -/
def Geometry.pageOf (g : Geometry) (bbt : List BBt) (p : ℕ) : ℕ :=
  blockOf bbt (p / g.ppb) * g.ppb + p % g.ppb

section OneDie

variable {bbt : List BBt}

theorem DiesBelow.mono {m n : ℕ} (h : DiesBelow m bbt) (hmn : m ≤ n) : DiesBelow n bbt :=
  fun e he => (h e he).trans_le hmn

theorem walkStep_oneDie {e : BBt} (he : e.rbDie.toNat < 1) {w : Walk} (hw : w.activeChip = 0) :
    (e.walkStep w).activeChip = 0 ∧ (e.walkStep w).selected = w.selected ∧
      (e.walkStep w).chipnrRemap = w.chipnrRemap := by
  rw [BBt.walkStep]
  split_ifs with h hd
  · have hb : e.bbDie.toNat = e.rbDie.toNat := by
      rw [← h.1, hw, UInt8.toNat_zero]
      omega
    exact absurd (UInt16.toNat_inj.1 hb) hd
  · exact ⟨hw, rfl, rfl⟩
  · exact ⟨hw, rfl, rfl⟩

/-- On one die the walk does not leave the chip. -/
theorem walkBbt_oneDie : ∀ {bbt : List BBt} {w : Walk}, DiesBelow 1 bbt → w.activeChip = 0 →
    (walkBbt bbt w).activeChip = 0 ∧ (walkBbt bbt w).selected = w.selected ∧
      (walkBbt bbt w).chipnrRemap = w.chipnrRemap
  | [], _, _, hw => ⟨hw, rfl, rfl⟩
  | e :: bbt, w, h, hw => by
    rw [walkBbt]
    split_ifs
    · obtain ⟨h1, h2, h3⟩ := walkStep_oneDie (h e mem_cons_self) hw
      obtain ⟨h1', h2', h3'⟩ :=
        walkBbt_oneDie (fun x hx => h x (mem_cons_of_mem _ hx)) h1
      exact ⟨h1', h2'.trans h2, h3'.trans h3⟩
    · exact ⟨hw, rfl, rfl⟩

theorem follow_zero (h : DiesBelow 1 bbt) (b : ℕ) :
    follow (links bbt) (0, b) = (0, blockOf bbt b) := by
  have hpos := walkBbt_pos ⟨0, 0, 0, b, none⟩ (h.mono (by decide))
  have hchip := (walkBbt_oneDie (w := ⟨0, 0, 0, b, none⟩) h rfl).1
  rw [Walk.pos, Walk.pos, hchip] at hpos
  exact hpos.symm

theorem walkBbt_block (h : DiesBelow 1 bbt) {w : Walk} (hw : w.activeChip = 0) :
    (walkBbt bbt w).block = blockOf bbt w.block := by
  have hpos := walkBbt_pos w (h.mono (by decide))
  rw [Walk.pos, Walk.pos, hw, UInt8.toNat_zero, follow_zero h] at hpos
  exact congrArg Prod.snd hpos

theorem walkBbt_remapBlock_oneDie (h : DiesBelow 1 bbt) {w : Walk} (hw : w.activeChip = 0) :
    (walkBbt bbt w).remapBlock =
      if Recorded bbt w.block then some (blockOf bbt w.block) else w.remapBlock := by
  rw [walkBbt_remapBlock w (h.mono (by decide)), walkBbt_block h hw, Walk.pos, hw, UInt8.toNat_zero]
  rfl

/-- A block that is not in the table stands for itself. -/
theorem blockOf_of_not_recorded (h : DiesBelow 1 bbt) {b : ℕ} (hb : ¬Recorded bbt b) :
    blockOf bbt b = b := by
  have hf := follow_zero h b
  rw [follow_of_notMem hb] at hf
  exact (congrArg Prod.snd hf).symm

end OneDie

/-! ## The cache by itself -/

/-- The cache within a call. -/
structure Slot where
  /-- The block of the page accessed last, at first the first block of the call. -/
  prev : ℕ
  /-- The table was walked. -/
  checked : Bool
  /-- The remap block found last. -/
  remap : Option ℕ

/-- The access to block `b`. -/
def Slot.step (bbt : List BBt) (b : ℕ) (c : Slot) : Slot :=
  let remap := if c.prev = b ∧ c.checked = true then c.remap
    else if Recorded bbt b then some (blockOf bbt b) else c.remap
  ⟨remap.getD b, true, remap⟩

/-- The pages accessed for the `n` pages from page `p` on. -/
def Slot.pages (g : Geometry) (bbt : List BBt) : ℕ → ℕ → Slot → List ℕ
  | 0, _, _ => []
  | n + 1, p, c =>
    let c := c.step bbt (p / g.ppb)
    (c.prev * g.ppb + p % g.ppb) :: Slot.pages g bbt n (p + 1) c

/-- The pages that the plain walk gives. -/
def Geometry.pagesOf (g : Geometry) (bbt : List BBt) (n p : ℕ) : List ℕ :=
  (range n).map fun i => g.pageOf bbt (p + i)

/-- The last access was to the block that stands for block `b`. -/
structure Slot.Right (bbt : List BBt) (b : ℕ) (c : Slot) : Prop where
  prev : c.prev = blockOf bbt b
  checked : c.checked = true
  of_none : c.remap = none → blockOf bbt b = b
  of_some : ∀ x, c.remap = some x → x = blockOf bbt b

/-- The access to block `b` is right, in a call at block `b0` with a remap block or, if
`clean`, without one. If the block before stands in its place, the cache is used and takes
the block to stand for itself; otherwise the table is walked, and a block that is not in the
table is only found if no remap block is left over. -/
def CrossOk (bbt : List BBt) (clean : Prop) (b0 b : ℕ) : Prop :=
  if blockOf bbt (b - 1) = b then blockOf bbt b = b
  else ¬Recorded bbt b → clean ∧ ∀ a, b0 < a → a < b → ¬Recorded bbt a

section Slot

variable {bbt : List BBt} {b : ℕ} {c : Slot}

theorem Slot.Right.of_step (hp : (c.step bbt b).prev = blockOf bbt b) :
    (c.step bbt b).Right bbt b := by
  refine ⟨hp, rfl, fun hn => ?_, fun x hx => ?_⟩
  · rw [← hp]
    change (c.step bbt b).remap.getD b = b
    rw [hn, Option.getD_none]
  · rw [← hp]
    change x = (c.step bbt b).remap.getD b
    rw [hx, Option.getD_some]

/-- Another page of the same block. -/
theorem Slot.Right.same (h : DiesBelow 1 bbt) (hc : c.Right bbt b) :
    (c.step bbt b).Right bbt b ∧ ((c.step bbt b).remap = none ↔ c.remap = none) := by
  by_cases hb : blockOf bbt b = b
  · have hstep : (c.step bbt b).remap = c.remap :=
      if_pos ⟨hc.prev.trans hb, hc.checked⟩
    refine ⟨.of_step ?_, by rw [hstep]⟩
    change (c.step bbt b).remap.getD b = _
    rw [hstep, hb]
    cases hr : c.remap with
    | none => rfl
    | some x => exact (hc.of_some x hr).trans hb
  · have hrec : Recorded bbt b := by
      by_contra hn
      exact hb (blockOf_of_not_recorded h hn)
    have hstep : (c.step bbt b).remap = some (blockOf bbt b) := by
      refine (if_neg fun hs => hb (hc.prev.symm.trans hs.1)).trans (if_pos hrec)
    refine ⟨.of_step ?_, ?_⟩
    · change (c.step bbt b).remap.getD b = _
      rw [hstep, Option.getD_some]
    · rw [hstep]
      exact iff_of_false (by simp) fun hn => hb (hc.of_none hn)

/-- The next block. -/
theorem Slot.Right.next (h : DiesBelow 1 bbt) (hc : c.Right bbt b) {b1 : ℕ} (hb1 : b1 = b + 1) :
    ((c.step bbt b1).prev = blockOf bbt b1 ↔ CrossOk bbt (c.remap = none) b b1) ∧
      ((c.step bbt b1).remap = none ↔ c.remap = none ∧ ¬Recorded bbt b1) := by
  subst hb1
  rw [CrossOk, Nat.add_sub_cancel]
  by_cases hskip : blockOf bbt b = b + 1
  · have hstep : (c.step bbt (b + 1)).remap = c.remap :=
      if_pos ⟨hc.prev.trans hskip, hc.checked⟩
    have hne : c.remap ≠ none := fun hn => by
      have := hc.of_none hn
      omega
    obtain ⟨x, hx⟩ := Option.ne_none_iff_exists'.1 hne
    have hprev : (c.step bbt (b + 1)).prev = b + 1 := by
      change (c.step bbt (b + 1)).remap.getD (b + 1) = _
      rw [hstep, hx, Option.getD_some, hc.of_some x hx, hskip]
    rw [if_pos hskip, hstep, hprev]
    exact ⟨eq_comm, iff_of_false hne fun hn => hne hn.1⟩
  · have hwalk : (c.step bbt (b + 1)).remap =
        if Recorded bbt (b + 1) then some (blockOf bbt (b + 1)) else c.remap :=
      if_neg fun hs => hskip (hc.prev.symm.trans hs.1)
    have hprev : (c.step bbt (b + 1)).prev = (c.step bbt (b + 1)).remap.getD (b + 1) := rfl
    rw [if_neg hskip, hprev, hwalk]
    by_cases hrec : Recorded bbt (b + 1)
    · rw [if_pos hrec]
      exact ⟨iff_of_true rfl fun hn => absurd hrec hn, by simp [hrec]⟩
    · rw [if_neg hrec, blockOf_of_not_recorded h hrec]
      refine ⟨?_, by simp [hrec]⟩
      have hgap : ∀ a, b < a → a < b + 1 → ¬Recorded bbt a := fun a h1 h2 => by omega
      cases hr : c.remap with
      | none => exact iff_of_true rfl fun _ => ⟨rfl, hgap⟩
      | some x =>
        refine iff_of_false ?_ fun hn => by simpa using (hn hrec).1
        rw [Option.getD_some, hc.of_some x hr]
        exact hskip

theorem crossOk_shift {clean clean' : Prop} {b1 b' : ℕ} (hb1 : b1 = b + 1) (hb : b1 < b')
    (h : clean' ↔ clean ∧ ¬Recorded bbt b1) :
    CrossOk bbt clean b b' ↔ CrossOk bbt clean' b1 b' := by
  subst hb1
  rw [CrossOk, CrossOk]
  split_ifs
  · rfl
  · refine imp_congr_right fun _ => ⟨fun ⟨hc, ha⟩ => ?_, fun ⟨hc, ha⟩ => ?_⟩
    · exact ⟨h.2 ⟨hc, ha _ (lt_succ_self b) hb⟩, fun a h1 => ha a (by omega)⟩
    · refine ⟨(h.1 hc).1, fun a h1 h2 => ?_⟩
      rcases lt_or_eq_of_le (succ_le_of_lt h1) with hlt | heq
      · exact ha a hlt h2
      · exact heq ▸ (h.1 hc).2

end Slot

section Pages

variable {g : Geometry} {bbt : List BBt}

theorem Geometry.pagesOf_succ (n p : ℕ) :
    g.pagesOf bbt (n + 1) p = g.pageOf bbt p :: g.pagesOf bbt n (p + 1) := by
  simp only [Geometry.pagesOf, range_succ_eq_map, map_cons, map_map, add_zero]
  refine congrArg _ (map_congr_left fun i _ => ?_)
  rw [comp_apply, succ_eq_add_one, add_comm i 1, add_assoc]

theorem page_eq_iff (x y p : ℕ) :
    x * g.ppb + p % g.ppb = y * g.ppb + p % g.ppb ↔ x = y :=
  (Nat.add_right_cancel_iff).trans (Nat.mul_left_inj g.ppb_pos.ne')

/-- After a right access, the following ones are right exactly if every new block is. -/
theorem Slot.Right.pages_iff (h : DiesBelow 1 bbt) : ∀ {n p : ℕ} {c : Slot},
    c.Right bbt (p / g.ppb) → (Slot.pages g bbt n (p + 1) c = g.pagesOf bbt n (p + 1) ↔
      ∀ b, p / g.ppb < b → b ≤ (p + n) / g.ppb → CrossOk bbt (c.remap = none) (p / g.ppb) b)
  | 0, p, c, _ => iff_of_true rfl fun b h1 h2 => by
      rw [add_zero] at h2
      omega
  | n + 1, p, c, hc => by
    rw [Geometry.pagesOf_succ, Slot.pages, cons.injEq, Geometry.pageOf, page_eq_iff]
    have hdiv : (p + 1) / g.ppb = p / g.ppb + if g.ppb ∣ p + 1 then 1 else 0 := Nat.succ_div
    rw [show p + (n + 1) = p + 1 + n by omega]
    have hmono : (p + 1) / g.ppb ≤ (p + 1 + n) / g.ppb := Nat.div_le_div_right (by omega)
    split_ifs at hdiv with hd
    · obtain ⟨hp, hn⟩ := hc.next h hdiv
      constructor
      · rintro ⟨hright, hrest⟩ b h1 h2
        have hall := (Slot.Right.pages_iff h (.of_step hright)).1 hrest
        rcases lt_or_eq_of_le (succ_le_of_lt h1) with hlt | heq
        · exact (crossOk_shift hdiv (by omega) hn).2 (hall b (by omega) h2)
        · obtain rfl : (p + 1) / g.ppb = b := by omega
          exact hp.1 hright
      · intro hall
        have hright := hp.2 (hall _ (by omega) hmono)
        refine ⟨hright, (Slot.Right.pages_iff h (.of_step hright)).2 fun b h1 h2 => ?_⟩
        exact (crossOk_shift hdiv h1 hn).1 (hall b (by omega) h2)
    · replace hdiv : p / g.ppb = (p + 1) / g.ppb := hdiv.symm
      obtain ⟨hright, hn⟩ := hc.same h
      rw [hdiv] at hright hn ⊢
      refine (and_iff_right hright.prev).trans ?_
      simp only [Slot.Right.pages_iff h hright, hn]

/-- A call on the blocks `b0 .. b1` that finds the cache `c` is addressed as the plain walk
addresses it : a remap block that the cache has for the first block is the right one, and
every further block is accessed rightly. -/
def CacheFresh (bbt : List BBt) (c : BlockCache) (b0 b1 : ℕ) : Prop :=
  (c.hasCheckBbt = true ∨ ¬Recorded bbt b0 → c.remapBlock.getD b0 = blockOf bbt b0) ∧
    ∀ b, b0 < b → b ≤ b1 →
      CrossOk bbt (c.remapBlock = none ∧ (c.hasCheckBbt = true ∨ ¬Recorded bbt b0)) b0 b

/-- The first access of a call, which consults the cache with the block itself. -/
theorem Slot.step_first (bbt : List BBt) (c : BlockCache) (b : ℕ) :
    ((⟨b, c.hasCheckBbt, c.remapBlock⟩ : Slot).step bbt b).remap =
      if c.hasCheckBbt = true ∨ ¬Recorded bbt b then c.remapBlock else some (blockOf bbt b) := by
  simp only [Slot.step, true_and]
  by_cases hc : c.hasCheckBbt = true
  · simp [hc]
  · by_cases hr : Recorded bbt b <;> simp [hc, hr]

/-- The pages of a call are right exactly if the cache is fresh. -/
theorem Slot.pages_first_iff (h : DiesBelow 1 bbt) (n p : ℕ) (c : BlockCache) :
    Slot.pages g bbt (n + 1) p ⟨p / g.ppb, c.hasCheckBbt, c.remapBlock⟩ =
        g.pagesOf bbt (n + 1) p ↔ CacheFresh bbt c (p / g.ppb) ((p + n) / g.ppb) := by
  have hstep := Slot.step_first bbt c (p / g.ppb)
  rw [Geometry.pagesOf_succ, Slot.pages, cons.injEq, Geometry.pageOf, page_eq_iff, CacheFresh]
  generalize hc' : (⟨p / g.ppb, c.hasCheckBbt, c.remapBlock⟩ : Slot).step bbt (p / g.ppb) = c'
  have hprev : c'.prev = c'.remap.getD (p / g.ppb) := hc' ▸ rfl
  rw [hc'] at hstep
  have hfirst : c'.prev = blockOf bbt (p / g.ppb) ↔
      (c.hasCheckBbt = true ∨ ¬Recorded bbt (p / g.ppb) →
        c.remapBlock.getD (p / g.ppb) = blockOf bbt (p / g.ppb)) := by
    rw [hprev, hstep]
    split_ifs with hu
    · exact (imp_iff_right hu).symm
    · exact iff_of_true rfl fun hu' => absurd hu' hu
  have hnone : c'.remap = none ↔
      c.remapBlock = none ∧ (c.hasCheckBbt = true ∨ ¬Recorded bbt (p / g.ppb)) := by
    rw [hstep]
    split_ifs with hu
    · exact (and_iff_left hu).symm
    · exact iff_of_false (by simp) fun hn => hu hn.2
  rw [← hfirst, ← hnone]
  refine and_congr_right fun hright => Slot.Right.pages_iff h ?_
  rw [← hc'] at hright ⊢
  exact .of_step hright

end Pages

/-! ## The loops on one chip -/

/-- The loop is at page `p` of the only chip. -/
structure Loop.At (g : Geometry) (p : ℕ) (l : Loop) : Prop where
  activeChip : l.nand.activeChip = 0
  selected : l.nand.selected = 0
  chipnr : l.cur.chipnr = 0
  chipnrRemap : l.cur.chipnrRemap = 0
  oldPage : l.cur.oldPage = p
  pageOffset : l.cur.pageOffset = p % g.ppb

/-- The cache within a call, of a loop. -/
def Loop.slot (g : Geometry) (sel : CacheSel) (l : Loop) : Slot :=
  ⟨l.cur.page / g.ppb, (l.nand.cache sel).hasCheckBbt, (l.nand.cache sel).remapBlock⟩

section OneChip

variable {g : Geometry} {sel : CacheSel} {l : Loop} {p : ℕ}

theorem Geometry.mem_block_iff (page block : ℕ) :
    block * g.ppb ≤ page ∧ page < (block + 1) * g.ppb ↔ page / g.ppb = block := by
  rw [Nat.div_eq_iff g.ppb_pos, succ_mul]
  have := g.ppb_pos
  omega

/-- The walk is skipped. -/
theorem locateCached_skip (hg : g.numchips = 1) (hp : (l.slot g sel).prev = l.cur.block)
    (hc : (l.slot g sel).checked = true) :
    locateCached g sel l = l.setPage g ((l.slot g sel).remap.getD l.cur.block) := by
  obtain ⟨h1, h2⟩ := (g.mem_block_iff _ _).2 hp
  exact if_pos ⟨hg, h1, h2, hc⟩

/-- The walk is made. -/
theorem locateCached_walk (hg : g.numchips = 1)
    (h : ¬((l.slot g sel).prev = l.cur.block ∧ (l.slot g sel).checked = true)) :
    locateCached g sel l =
      ({ l.setWalk (l.walk (l.slot g sel).remap) with
          nand := { (l.setWalk (l.walk (l.slot g sel).remap)).nand with
            cache := update l.nand.cache sel
              ⟨(l.nand.cache sel).block, (l.walk (l.slot g sel).remap).remapBlock, true⟩ } } :
        Loop).setPage g
          ((l.walk (l.slot g sel).remap).remapBlock.getD (l.walk (l.slot g sel).remap).block) := by
  have hn : ¬(g.numchips = 1 ∧ l.cur.block * g.ppb ≤ l.cur.page ∧
      l.cur.page < (l.cur.block + 1) * g.ppb ∧ (l.nand.cache sel).hasCheckBbt = true) :=
    fun hs => h ⟨(g.mem_block_iff _ _).1 ⟨hs.2.1, hs.2.2.1⟩, hs.2.2.2⟩
  refine (if_neg hn).trans ?_
  simp only [if_pos hg]
  rfl

theorem locateCached_at (sel : CacheSel) (hg : g.numchips = 1) (h : DiesBelow 1 l.nand.bbt)
    (hl : l.At g p) :
    (locateCached g sel l).At g p := by
  by_cases hs : (l.slot g sel).prev = l.cur.block ∧ (l.slot g sel).checked = true
  · rw [locateCached_skip hg hs.1 hs.2]
    exact { hl with }
  · rw [locateCached_walk hg hs]
    obtain ⟨h1, h2, h3⟩ := walkBbt_oneDie (w := ⟨l.nand.activeChip, l.nand.selected,
      l.cur.chipnrRemap, l.cur.block, (l.slot g sel).remap⟩) h hl.activeChip
    exact ⟨h1, h2.trans hl.selected, hl.chipnr, h3.trans hl.chipnrRemap, hl.oldPage, hl.pageOffset⟩

/-- The cache goes through the steps of the machine. -/
theorem locateCached_step (sel : CacheSel) (hg : g.numchips = 1) (h : DiesBelow 1 l.nand.bbt)
    (hact : l.nand.activeChip = 0) (hoff : l.cur.pageOffset < g.ppb) :
    (locateCached g sel l).slot g sel = (l.slot g sel).step l.nand.bbt l.cur.block ∧
      (locateCached g sel l).cur.page =
        ((l.slot g sel).step l.nand.bbt l.cur.block).prev * g.ppb + l.cur.pageOffset := by
  by_cases hs : (l.slot g sel).prev = l.cur.block ∧ (l.slot g sel).checked = true
  · have hpage : (locateCached g sel l).cur.page =
        (l.slot g sel).remap.getD l.cur.block * g.ppb + l.cur.pageOffset := by
      rw [locateCached_skip hg hs.1 hs.2]
      rfl
    rw [Slot.step, if_pos hs]
    refine ⟨?_, hpage⟩
    rw [slot, hpage, g.page_div _ hoff, locateCached_skip hg hs.1 hs.2, ← hs.2]
    rfl
  · set w := l.walk (l.slot g sel).remap with hw
    have hr : w.remapBlock = if Recorded l.nand.bbt l.cur.block then
        some (blockOf l.nand.bbt l.cur.block) else (l.slot g sel).remap :=
      walkBbt_remapBlock_oneDie h hact
    have hb : w.block = blockOf l.nand.bbt l.cur.block := walkBbt_block h hact
    have hget : w.remapBlock.getD w.block = w.remapBlock.getD l.cur.block := by
      cases hn : w.remapBlock with
      | some x => rfl
      | none =>
        rw [Option.getD_none, Option.getD_none, hb]
        refine blockOf_of_not_recorded h fun hrec => ?_
        rw [if_pos hrec, hn] at hr
        exact Option.some_ne_none _ hr.symm
    have hpage : (locateCached g sel l).cur.page =
        w.remapBlock.getD l.cur.block * g.ppb + l.cur.pageOffset := by
      rw [locateCached_walk hg hs, ← hget]
      rfl
    rw [Slot.step, if_neg hs, ← hr]
    refine ⟨?_, hpage⟩
    rw [slot, hpage, g.page_div _ hoff, locateCached_walk hg hs]
    simp only [setPage, update_self]
    rfl

theorem locateCached_slot (sel : CacheSel) (hg : g.numchips = 1) (h : DiesBelow 1 l.nand.bbt)
    (hl : l.At g p) :
    (locateCached g sel l).slot g sel = (l.slot g sel).step l.nand.bbt l.cur.block ∧
      (locateCached g sel l).cur.page =
        ((l.slot g sel).step l.nand.bbt l.cur.block).prev * g.ppb + p % g.ppb := by
  rw [← hl.pageOffset]
  exact locateCached_step sel hg h hl.activeChip (hl.pageOffset ▸ mod_lt p g.ppb_pos)

/-- The next page of the chip after `step` pages. -/
theorem advance_add_at {step : ℕ} (hstep : 0 < step) (more : Bool) (hl : l.At g p)
    (hp : more = true → p + step < g.pageNum) :
    (advance g step more l).At g (p + step) ∧
      (advance g step more l).cur.block = (p + step) / g.ppb ∧
      (advance g step more l).nand = l.nand ∧ (advance g step more l).cur.page = l.cur.page := by
  have hwrap : ¬(more = true ∧ (l.cur.oldPage + step) &&& g.pagemask = 0) := by
    rintro ⟨hm, hz⟩
    have hlt := hp hm
    rw [hl.oldPage, g.and_pagemask, mod_eq_of_lt hlt] at hz
    omega
  rw [advance, if_neg hwrap]
  have hoff : (l.cur.oldPage + step) &&& (g.ppb - 1) = (p + step) % g.ppb := by
    rw [hl.oldPage, g.and_ppb]
  exact ⟨{ hl with oldPage := by rw [hl.oldPage], pageOffset := hoff }, by rw [hl.oldPage], rfl,
    rfl⟩

/-- The next page of the chip. -/
theorem advance_at (more : Bool) (hl : l.At g p) (hp : more = true → p + 1 < g.pageNum) :
    (advance g 1 more l).At g (p + 1) ∧ (advance g 1 more l).cur.block = (p + 1) / g.ppb ∧
      (advance g 1 more l).nand = l.nand ∧ (advance g 1 more l).cur.page = l.cur.page :=
  advance_add_at one_pos more hl hp

/-- The start of a call. -/
theorem start_at (hp : p < g.pageNum) (s : Nand) :
    (start g (0 : ℕ) p s).At g p ∧ (start g (0 : ℕ) p s).cur.block = p / g.ppb ∧
      (start g (0 : ℕ) p s).cur.page = p ∧
      (start g (0 : ℕ) p s).nand.cache = s.cache := by
  have hpage : p &&& g.pagemask = p := by rw [g.and_pagemask, mod_eq_of_lt hp]
  unfold start
  simp only [hpage]
  exact ⟨⟨rfl, rfl, rfl, rfl, rfl, g.and_ppb p⟩, trivial, trivial, rfl⟩

theorem resetCache_eq (hg : g.numchips = 1) (sel : CacheSel) (l : Loop) :
    (l.resetCache g sel).cur = l.cur ∧ (l.resetCache g sel).nand.activeChip = l.nand.activeChip ∧
      (l.resetCache g sel).nand.selected = l.nand.selected ∧
      (l.resetCache g sel).nand.cache sel =
        if (l.nand.cache sel).block = some l.cur.block then l.nand.cache sel
        else ⟨some l.cur.block, none, false⟩ := by
  unfold resetCache
  split_ifs with h1 h2 h2
  · exact absurd h2 h1.2
  · exact ⟨rfl, rfl, rfl, update_self _ _ _⟩
  · exact ⟨rfl, rfl, rfl, rfl⟩
  · exact absurd ⟨hg, h2⟩ h1

/-- The operations of the kind `kind` on pages of the only chip, all successful. -/
def opsAt (kind : FlashKind) (pages : List ℕ) : List FlashOp :=
  pages.map fun q => ⟨kind, 0, 0, q, 0⟩

theorem opsAt_inj {kind : FlashKind} {ps qs : List ℕ} : opsAt kind ps = opsAt kind qs ↔ ps = qs :=
  ⟨fun h => map_injective_iff.2 (fun a b hab => by simpa using hab) h, fun h => h ▸ rfl⟩

variable {kind : FlashKind} {access : ℕ → Loop → ℤ × Loop} {fail : ℕ → Loop → Except Loop Loop}

/-- The end of a round, whatever the access did. -/
theorem advance_cached (sel : CacheSel) (hg : g.numchips = 1) (h : DiesBelow 1 l.nand.bbt)
    (hl : l.At g p) (hb : l.cur.block = p / g.ppb) (l₁ : Loop)
    (hcur : l₁.cur = (locateCached g sel l).cur)
    (hcache : l₁.nand.cache = (locateCached g sel l).nand.cache) (hact : l₁.nand.activeChip = 0)
    (hsel : l₁.nand.selected = 0) {n : ℕ} (hp : n ≠ 0 → p + 1 < g.pageNum) :
    (advance g 1 (n ≠ 0) l₁).At g (p + 1) ∧
      (advance g 1 (n ≠ 0) l₁).cur.block = (p + 1) / g.ppb ∧
      (advance g 1 (n ≠ 0) l₁).slot g sel = (l.slot g sel).step l.nand.bbt (p / g.ppb) ∧
      (advance g 1 (n ≠ 0) l₁).nand = l₁.nand := by
  have hat := locateCached_at sel hg h hl
  have hat1 : l₁.At g p :=
    ⟨hact, hsel, hcur ▸ hat.chipnr, hcur ▸ hat.chipnrRemap, hcur ▸ hat.oldPage,
      hcur ▸ hat.pageOffset⟩
  obtain ⟨hadv, hblock, hnand, hpage⟩ := advance_at (n ≠ 0) hat1 fun hn =>
    hp (by simpa using hn)
  refine ⟨hadv, hblock, ?_, hnand⟩
  rw [← hb, ← (locateCached_slot sel hg h hl).1, slot, slot, hnand, hpage, hcur, hcache]

/-- A round without a failure. -/
theorem nextRound_cached (sel : CacheSel) (ha : IsAccess kind access) (hg : g.numchips = 1)
    (h : DiesBelow 1 l.nand.bbt) (hl : l.At g p) (hb : l.cur.block = p / g.ppb) {i n : ℕ}
    (hp : n ≠ 0 → p + 1 < g.pageNum) :
    (nextRound g (some sel) access i n l).At g (p + 1) ∧
      (nextRound g (some sel) access i n l).cur.block = (p + 1) / g.ppb ∧
      (nextRound g (some sel) access i n l).slot g sel =
        (l.slot g sel).step l.nand.bbt (p / g.ppb) ∧
      (nextRound g (some sel) access i n l).nand = (access i (locate g (some sel) l)).2.nand := by
  have hat := locateCached_at sel hg h hl
  have hst := ha.steady i (locateCached g sel l)
  exact advance_cached sel hg h hl hb { (access i (locateCached g sel l)).2 with rc := 0 }
    (ha.cur i _) hst.cache (hst.activeChip.trans hat.activeChip)
    ((ha.selected i _).trans hat.selected) hp

/-- The pages of a loop without failures are those of the machine. -/
theorem cachedLoop_log (ha : IsAccess kind access) (hf : IsFail g fail) (hg : g.numchips = 1) :
    ∀ {n i p : ℕ} {l : Loop}, DiesBelow 1 l.nand.bbt → l.At g p → l.cur.block = p / g.ppb →
      p + n ≤ g.pageNum →
      Succeeded l.nand (endNand (loop (pageBody g (some sel) access fail) n i l)) →
      (endNand (loop (pageBody g (some sel) access fail) n i l)).log =
          l.nand.log ++ opsAt kind (Slot.pages g l.nand.bbt n p (l.slot g sel)) ∧
        (endNand (loop (pageBody g (some sel) access fail) n i l)).bbt = l.nand.bbt
  | 0, _, _, _, _, _, _, _, _ => ⟨(append_nil _).symm, rfl⟩
  | n + 1, i, p, l, h, hl, hb, hp, hok => by
    obtain ⟨hrc, hloop, hrest⟩ := pageLoop_succeeded ha hf hok
    obtain ⟨hl', hb', hs', hnand⟩ := nextRound_cached sel ha hg h hl hb (i := i) (n := n)
      fun hn => by omega
    have hbbt : (nextRound g (some sel) access i n l).nand.bbt = l.nand.bbt := by
      rw [hnand, (ha.steady i _).bbt, locate_bbt]
    obtain ⟨hlog, hend⟩ := cachedLoop_log ha hf hg (hbbt.symm ▸ h) hl' hb' (by omega) hrest
    rw [hloop]
    refine ⟨?_, hend.trans hbbt⟩
    obtain ⟨hat, hpage⟩ :=
      And.intro (locateCached_at sel hg h hl) (locateCached_slot sel hg h hl).2
    rw [hlog, nextRound_log ha, hbbt, hs', hrc, locate, hpage, hat.activeChip, hat.selected, hb,
      append_assoc]
    rfl

end OneChip

/-! ## Runs of calls -/

/-- The cache in a call at block `b` : a call on another block clears it. -/
def BlockCache.enter (b : ℕ) (c : BlockCache) : BlockCache :=
  if c.block = some b then c else ⟨some b, none, false⟩

namespace PageCall

/-- The cache as the loop of the call finds it. -/
def cacheAt (g : Geometry) (c : PageCall) (sel : CacheSel) (s : Nand) : BlockCache :=
  (s.cache sel).enter (c.firstPage g / g.ppb)

/-- The pages accessed are those that the plain walk gives for the pages of the range. -/
def AsWalked (env : Env) (g : Geometry) (c : PageCall) (s : Nand) : Prop :=
  (c.run env g s).log = s.log ++ opsAt c.kind (g.pagesOf s.bbt (c.pages g) (c.firstPage g))

/-- The cache that the call uses, if any, is fresh for its range. -/
def Fresh (g : Geometry) (c : PageCall) (s : Nand) : Prop :=
  ∀ sel, c.sel = some sel → c.pages g ≠ 0 →
    CacheFresh s.bbt (c.cacheAt g sel s) (c.firstPage g / g.ppb)
      ((c.firstPage g + (c.pages g - 1)) / g.ppb)

section OneChip

variable {env : Env} {g : Geometry} {c : PageCall} {s : Nand} {sel : CacheSel}

theorem Valid.pages_le_chip (hg : g.numchips = 1) (hv : c.Valid g) (hs : c.sel = some sel) :
    c.firstPage g + c.pages g ≤ g.pageNum := by
  have h := hv.pages_le hs
  rwa [hg, one_mul] at h

/-- The loop starts on the only chip. -/
theorem init_at (hg : g.numchips = 1) (c : PageCall) (hlt : c.firstPage g < g.pageNum) (s : Nand) :
    c.start / 2 ^ g.chipShift = 0 ∧ (c.init g s).At g (c.firstPage g) := by
  have hchip : c.start / 2 ^ g.chipShift = 0 := by
    rw [← firstPage_div, div_eq_of_lt hlt]
  obtain ⟨hat, -⟩ := start_at hlt (c.enter s)
  refine ⟨hchip, ?_⟩
  unfold init
  rw [hchip]
  cases c.sel with
  | none => exact hat
  | some sel =>
    obtain ⟨hcur, hact, hsel, -⟩ :=
      resetCache_eq hg sel (Loop.start g (0 : ℕ) (c.firstPage g) (c.enter s))
    exact ⟨hact.trans hat.activeChip, hsel.trans hat.selected, hcur ▸ hat.chipnr,
      hcur ▸ hat.chipnrRemap, hcur ▸ hat.oldPage, hcur ▸ hat.pageOffset⟩

/-- It starts with the cache of the call. -/
theorem init_cached (hg : g.numchips = 1) (hv : c.Valid g) (hs : c.sel = some sel)
    (hn : c.pages g ≠ 0) :
    (c.init g s).At g (c.firstPage g) ∧ (c.init g s).cur.block = c.firstPage g / g.ppb ∧
      (c.init g s).slot g sel = ⟨c.firstPage g / g.ppb, (c.cacheAt g sel s).hasCheckBbt,
        (c.cacheAt g sel s).remapBlock⟩ := by
  have hlt : c.firstPage g < g.pageNum := by
    have := hv.pages_le_chip hg hs
    omega
  obtain ⟨hchip, hat⟩ := init_at hg c hlt s
  have henter : (c.enter s).cache = s.cache := by
    cases c <;> rfl
  obtain ⟨-, hblock, hpage, hst⟩ := start_at hlt (c.enter s)
  have hinit :
      c.init g s = (Loop.start g (0 : ℕ) (c.firstPage g) (c.enter s)).resetCache g sel := by
    simp only [init, hs, hchip]
  obtain ⟨hcur, -, -, hcache⟩ :=
    resetCache_eq hg sel (Loop.start g (0 : ℕ) (c.firstPage g) (c.enter s))
  refine ⟨hat, ?_⟩
  rw [hinit]
  refine ⟨hcur ▸ hblock, ?_⟩
  rw [Loop.slot, hcur, hcache, hpage, hblock, cacheAt, BlockCache.enter, hst, henter]

/-- A call without failures is addressed as the plain walk addresses it exactly if its cache
is fresh. -/
theorem asWalked_iff (hg : g.numchips = 1) (h : DiesBelow 1 s.bbt) (hv : c.Valid g)
    (hs : c.sel = some sel) (hok : Succeeded s (c.run env g s)) :
    (c.AsWalked env g s ↔ c.Fresh g s) ∧ (c.run env g s).bbt = s.bbt := by
  obtain ⟨hbbt, hlog, -⟩ := c.init_keeps (g := g) s
  have hfresh : c.Fresh g s ↔ (c.pages g ≠ 0 → CacheFresh s.bbt (c.cacheAt g sel s)
      (c.firstPage g / g.ppb) ((c.firstPage g + (c.pages g - 1)) / g.ppb)) := by
    simp [Fresh, hs]
  rw [hv.run_eq, exec, hs] at hok
  rw [hfresh, AsWalked, hv.run_eq, exec, hs]
  cases hn : c.pages g with
  | zero => exact ⟨iff_of_true (hlog.trans (append_nil _).symm) fun h0 => absurd rfl h0, hbbt⟩
  | succ n =>
    obtain ⟨hat, hblock, hslot⟩ := init_cached (s := s) hg hv hs (by omega)
    obtain ⟨hops, hend⟩ := cachedLoop_log c.isAccess c.isFail hg (hbbt.symm ▸ h) hat hblock
      (hv.pages_le_chip hg hs) (hok.of_log_eq hlog)
    rw [hn] at hops hend
    refine ⟨?_, hend.trans hbbt⟩
    rw [hops, hlog, hbbt, hslot, append_cancel_left_eq, opsAt_inj, Slot.pages_first_iff h,
      Nat.add_sub_cancel, imp_iff_right (succ_ne_zero n)]

end OneChip

end PageCall

/-- The driver after a run of calls. -/
def runCalls (env : Env) (g : Geometry) (calls : List PageCall) (s : Nand) : Nand :=
  calls.foldl (fun s c => c.run env g s) s

/-- `P` holds of every call of a run and the driver before it. -/
def Along (env : Env) (g : Geometry) (P : PageCall → Nand → Prop) : List PageCall → Nand → Prop
  | [], _ => True
  | c :: calls, s => P c s ∧ Along env g P calls (c.run env g s)

section Runs

variable {env : Env} {g : Geometry}

theorem PageCall.Valid.log_extends {c : PageCall} (hv : c.Valid g) (s : Nand) :
    s.log <+: (c.run env g s).log := by
  rw [hv.run_eq, ← (c.init_keeps (g := g) s).2.1]
  exact pageLoop_extends c.isAccess c.isFail _ _ _

theorem runCalls_log_extends : ∀ {cs : List PageCall}, (∀ c ∈ cs, c.Valid g) → ∀ s : Nand,
    s.log <+: (runCalls env g cs s).log
  | [], _, _ => prefix_rfl
  | c :: _, hv, s => ((hv c mem_cons_self).log_extends s).trans
      (runCalls_log_extends (fun c hc => hv c (mem_cons_of_mem _ hc)) (c.run env g s))

theorem Succeeded.split {s s1 s2 : Nand} (h1 : s.log <+: s1.log) (h2 : s1.log <+: s2.log)
    (h : Succeeded s s2) : Succeeded s s1 ∧ Succeeded s1 s2 := by
  obtain ⟨ops, hlog, hops⟩ := h
  obtain ⟨l₁, hl1⟩ := h1
  obtain ⟨l₂, hl2⟩ := h2
  rw [← hl2, ← hl1, append_assoc] at hlog
  obtain rfl := append_cancel_left hlog
  exact ⟨⟨l₁, hl1.symm, fun op hop => hops op (mem_append_left _ hop)⟩,
    ⟨l₂, hl2.symm, fun op hop => hops op (mem_append_right _ hop)⟩⟩

/-- In a run of `nand_read_ecc` and `nand_write_ecc` without failures on a device with one
chip, every page accessed is the one that the plain walk gives, exactly if every call finds a
fresh cache. -/
theorem cached_asWalked_iff (hg : g.numchips = 1) : ∀ {calls : List PageCall} {s : Nand},
    DiesBelow g.numchips s.bbt → (∀ c ∈ calls, c.Valid g ∧ c.sel ≠ none) →
      Succeeded s (runCalls env g calls s) →
      (Along env g (PageCall.AsWalked env g) calls s ↔ Along env g (PageCall.Fresh g) calls s)
  | [], _, _, _, _ => Iff.rfl
  | c :: calls, s, h, hv, hok => by
    obtain ⟨hvc, hsel⟩ := hv c mem_cons_self
    have hvs : ∀ c ∈ calls, c.Valid g ∧ c.sel ≠ none := fun c hc => hv c (mem_cons_of_mem _ hc)
    obtain ⟨sel, hs⟩ := Option.ne_none_iff_exists'.1 hsel
    obtain ⟨hok1, hok2⟩ := hok.split (hvc.log_extends s)
      (runCalls_log_extends (fun c hc => (hvs c hc).1) (c.run env g s))
    obtain ⟨hiff, hbbt⟩ := PageCall.asWalked_iff hg (hg ▸ h) hvc hs hok1
    exact and_congr hiff (cached_asWalked_iff hg (hbbt ▸ h) hvs hok2)

/-- A driver whose table has one used entry. -/
def oneRemap : Nand :=
  .fresh k9f1g08u0b (⟨0, 200, 0, 1023⟩ :: spareEntries 1022 50)

/-- Reads of two pages of the remapped block 200 and of one page of block 201. -/
theorem cached_asWalked_of_oneRemap :
    Along .allOk k9f1g08u0b (PageCall.AsWalked .allOk k9f1g08u0b)
      [.readEcc (200 * 64 * 2048) (2 * 2048) false, .readEcc (201 * 64 * 2048) 2048 false]
      oneRemap := by
  refine (cached_asWalked_iff rfl (by decide) (by decide +kernel) ⟨opsAt .readEccPage
    [1023 * 64, 1023 * 64 + 1, 201 * 64], by decide +kernel, by decide⟩).2 ⟨?_, ?_, trivial⟩
  all_goals
    rintro sel ⟨⟩ -
    refine ⟨by decide +kernel, fun b h1 h2 => absurd h2 (not_le.2 ?_)⟩
    refine lt_of_le_of_lt (by decide +kernel) h1

/-- Two pages are read, the last one of a block that is in the table and the first one of the
next block, which is not. The second read goes to the remap block. -/
theorem cached_not_asWalked :
    (PageCall.readEcc ((200 * 64 + 63) * 2048) (2 * 2048) false).Valid k9f1g08u0b ∧
      (runCalls .allOk k9f1g08u0b [.readEcc ((200 * 64 + 63) * 2048) (2 * 2048) false]
        oneRemap).log = opsAt .readEccPage [1023 * 64 + 63, 1023 * 64] ∧
      ¬Along .allOk k9f1g08u0b (PageCall.AsWalked .allOk k9f1g08u0b)
        [.readEcc ((200 * 64 + 63) * 2048) (2 * 2048) false] oneRemap := by
  refine ⟨by decide +kernel, by decide +kernel, fun h => ?_⟩
  exact absurd h.1 (by unfold PageCall.AsWalked; decide +kernel)

end Runs

end OpenHMR
