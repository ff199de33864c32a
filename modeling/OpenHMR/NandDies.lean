import OpenHMR.NandCalls

/-!
# Several dies

On a device with several dies the walk through the table may end on another die, and it sets
`active_chip` to that die. The loops set `active_chip` back to the die of the range only when
they come to the next die, so the walk for the next page starts on the die where the last walk
ended. `dieOps` are the operations that follow from this, `dieOpsOf` those that the table gives
for each page by itself, and `NoDrift` is the exact condition for them to be the same.
-/

open Remap BoundedLoop List Nat

namespace OpenHMR

/-! ## The operations -/

section Ops

variable (g : Geometry) (bbt : List BBt) (kind : FlashKind)

/-- The die and the block of page `p` of the device. -/
def Geometry.dieBlock (p : ℕ) : DieBlock :=
  (p / g.pageNum, p % g.pageNum / g.ppb)

/-- A successful operation for page `p` on the die and block `x`. -/
def opOn (x : DieBlock) (p : ℕ) : FlashOp :=
  ⟨kind, x.1, x.1, x.2 * g.ppb + p % g.ppb, 0⟩

/-- The operations for the `n` pages from page `p` on, when `active_chip` is `a`. -/
def dieOps : ℕ → ℕ → ℕ → List FlashOp
  | 0, _, _ => []
  | n + 1, p, a =>
    let x := follow (links bbt) (a, (g.dieBlock p).2)
    opOn g kind x p ::
      dieOps n (p + 1) (if (p + 1) % g.pageNum = 0 then (g.dieBlock (p + 1)).1 else x.1)

/-- The operations that walking the table from the die and block of each page gives. -/
def dieOpsOf (n p : ℕ) : List FlashOp :=
  (range n).map fun i => opOn g kind (follow (links bbt) (g.dieBlock (p + i))) (p + i)

/-- From each page to the next one on the same die, the walk from the die where the first one
ended leads to the same block as the walk from the die itself. -/
def NoDrift (p n : ℕ) : Prop :=
  ∀ i, i + 1 < n → (p + i + 1) % g.pageNum ≠ 0 →
    follow (links bbt) ((follow (links bbt) (g.dieBlock (p + i))).1, (g.dieBlock (p + i + 1)).2) =
      follow (links bbt) (g.dieBlock (p + i + 1))

end Ops

section Drift

variable {g : Geometry} {bbt : List BBt} {kind : FlashKind}

theorem opOn_inj {x y : DieBlock} {p : ℕ} : opOn g kind x p = opOn g kind y p ↔ x = y := by
  refine ⟨fun h => ?_, fun h => h ▸ rfl⟩
  simp only [opOn, FlashOp.mk.injEq, true_and, and_true] at h
  obtain ⟨h1, -, h2⟩ := h
  have h2' := eq_of_mul_eq_mul_right g.ppb_pos (add_right_cancel h2)
  exact Prod.ext h1 h2'

theorem dieOpsOf_succ (n p : ℕ) : dieOpsOf g bbt kind (n + 1) p =
    opOn g kind (follow (links bbt) (g.dieBlock p)) p :: dieOpsOf g bbt kind n (p + 1) := by
  simp only [dieOpsOf, range_succ_eq_map, map_cons, map_map, add_zero]
  refine congrArg _ (map_congr_left fun i _ => ?_)
  rw [Function.comp_apply, succ_eq_add_one, add_comm i 1, add_assoc]

theorem noDrift_succ (p n : ℕ) : NoDrift g bbt p (n + 1) ↔ (n ≠ 0 → (p + 1) % g.pageNum ≠ 0 →
      follow (links bbt) ((follow (links bbt) (g.dieBlock p)).1, (g.dieBlock (p + 1)).2) =
        follow (links bbt) (g.dieBlock (p + 1))) ∧ NoDrift g bbt (p + 1) n := by
  refine ⟨fun h => ⟨fun hn => h 0 (by omega), fun i hi => ?_⟩, fun ⟨h0, h⟩ i hi => ?_⟩
  · have := h (i + 1) (by omega)
    rwa [show p + (i + 1) = p + 1 + i by omega] at this
  · cases i with
    | zero => exact h0 (by omega)
    | succ i =>
      have := h i (by omega)
      rwa [show p + 1 + i = p + (i + 1) by omega] at this

/-- The operations are right exactly if the first one is and the rest does not drift. -/
theorem dieOps_eq_iff : ∀ {n p a : ℕ}, dieOps g bbt kind n p a = dieOpsOf g bbt kind n p ↔
    (n ≠ 0 → follow (links bbt) (a, (g.dieBlock p).2) = follow (links bbt) (g.dieBlock p)) ∧
      NoDrift g bbt p n
  | 0, _, _ => iff_of_true rfl ⟨fun h => absurd rfl h, fun _ h => absurd h (by omega)⟩
  | n + 1, p, a => by
    rw [dieOpsOf_succ, dieOps, cons.injEq, opOn_inj, imp_iff_right (succ_ne_zero n), noDrift_succ]
    refine and_congr_right fun hfirst => ?_
    rw [dieOps_eq_iff, hfirst]
    refine and_congr_left fun _ => imp_congr_right fun _ => ?_
    split_ifs with hcross
    · exact iff_of_true rfl fun h => absurd hcross h
    · exact (imp_iff_right hcross).symm

end Drift

/-! ## The loops -/

theorem selectChip_of_lt {d : ℕ} (hd : d < 4) : selectChip d = d :=
  if_pos ⟨by omega, by omega⟩

theorem toNat_ofInt_die {d : ℕ} (hd : d < 4) : (UInt8.ofInt d).toNat = d := by
  have hmod : ((d : ℤ) % 2 ^ 8).toNat = d := by omega
  rw [UInt8.ofInt, hmod, UInt8.toNat_ofNat_of_lt' (hd.trans (by decide))]

/-- The walk enables the die that it makes the active chip. -/
theorem walkBbt_selected : ∀ {bbt : List BBt} {w : Walk}, DiesBelow 4 bbt →
    w.selected = w.activeChip.toNat →
    (walkBbt bbt w).selected = (walkBbt bbt w).activeChip.toNat
  | [], _, _, hw => hw
  | e :: bbt, w, h, hw => by
    rw [walkBbt]
    split_ifs
    · refine walkBbt_selected (fun x hx => h x (mem_cons_of_mem _ hx)) ?_
      have he : e.rbDie.toNat < 4 := h e mem_cons_self
      rw [BBt.walkStep]
      split_ifs
      · exact (selectChip_of_lt he).trans (UInt8.toNat_ofNat_of_lt' (he.trans (by decide))).symm
      · exact hw
      · exact hw
    · exact hw

/-- The loop is at page `p` of the device, and the active chip is `a`. -/
structure Loop.OnDie (g : Geometry) (p a : ℕ) (l : Loop) : Prop where
  activeChip : l.nand.activeChip.toNat = a
  selected : l.nand.selected = a
  chipnr : l.cur.chipnr = (p / g.pageNum : ℕ)
  oldPage : l.cur.oldPage = p % g.pageNum
  pageOffset : l.cur.pageOffset = p % g.ppb

section Loops

variable {g : Geometry} {l : Loop} {p a : ℕ}

/-- Without the cache, the address is that of the walk. -/
theorem locate_walk (hn : g.numchips ≠ 1) (sel : Option CacheSel) (l : Loop) : ∃ r,
    (locate g sel l).cur =
        { l.cur with
          chipnrRemap := (l.walk r).chipnrRemap
          block := (l.walk r).block
          page := (l.walk r).block * g.ppb + l.cur.pageOffset } ∧
      (locate g sel l).nand.activeChip = (l.walk r).activeChip ∧
      (locate g sel l).nand.selected = (l.walk r).selected := by
  cases sel with
  | none => exact ⟨none, rfl, rfl, rfl⟩
  | some sel =>
    refine ⟨(l.nand.cache sel).remapBlock, ?_⟩
    simp only [locate, locateCached, hn, false_and, if_false]
    exact ⟨rfl, rfl, rfl⟩

/-- The page that is accessed. -/
theorem locate_onDie (hn : g.numchips ≠ 1) (h : DiesBelow 4 l.nand.bbt) (hl : l.OnDie g p a)
    (hb : l.cur.block = (g.dieBlock p).2) (sel : Option CacheSel) :
    (locate g sel l).OnDie g p (follow (links l.nand.bbt) (a, (g.dieBlock p).2)).1 ∧
      (locate g sel l).cur.page =
        (follow (links l.nand.bbt) (a, (g.dieBlock p).2)).2 * g.ppb + p % g.ppb := by
  obtain ⟨r, hcur, hact, hsel⟩ := locate_walk hn sel l
  have hpos : (l.walk r).pos = follow (links l.nand.bbt) (a, (g.dieBlock p).2) := by
    rw [Loop.walk, walkBbt_pos _ fun e he => (h e he).trans (by decide), Walk.pos, hl.activeChip,
      hb]
  have hsel' : (l.walk r).selected = (l.walk r).activeChip.toNat :=
    walkBbt_selected h (hl.selected.trans hl.activeChip.symm)
  rw [← hpos]
  refine ⟨⟨congrArg UInt8.toNat hact, hsel.trans hsel', ?_, ?_, ?_⟩, ?_⟩
  · rw [hcur]
    exact hl.chipnr
  · rw [hcur]
    exact hl.oldPage
  · rw [hcur]
    exact hl.pageOffset
  · rw [hcur, ← hl.pageOffset]
    rfl

/-- The next page. -/
theorem advance_onDie (hl : l.OnDie g p a) (hp : (p + 1) / g.pageNum < 4) :
    (advance g 1 true l).OnDie g (p + 1)
        (if (p + 1) % g.pageNum = 0 then (g.dieBlock (p + 1)).1 else a) ∧
      (advance g 1 true l).cur.block = (g.dieBlock (p + 1)).2 ∧
      (advance g 1 true l).nand.bbt = l.nand.bbt := by
  have hdvd : g.ppb ∣ g.pageNum := g.ppb_dvd_pageNum
  have hpos := g.pageNum_pos
  have hand : (l.cur.oldPage + 1) &&& g.pagemask = (p + 1) % g.pageNum := by
    rw [g.and_pagemask, hl.oldPage, mod_add_mod]
  have hoff : (l.cur.oldPage + 1) &&& (g.ppb - 1) = (p + 1) % g.ppb := by
    rw [g.and_ppb, hl.oldPage, add_mod, mod_mod_of_dvd _ hdvd, ← add_mod]
  have hdiv : (p + 1) / g.pageNum = p / g.pageNum + if g.pageNum ∣ p + 1 then 1 else 0 :=
    Nat.succ_div
  unfold advance
  simp only [hand, hoff, true_and]
  split_ifs with hcross
  · rw [if_pos (dvd_of_mod_eq_zero hcross)] at hdiv
    have hchip : l.cur.chipnr + 1 = ((p + 1) / g.pageNum : ℕ) := by
      rw [hl.chipnr, hdiv]
      rfl
    rw [hchip]
    exact ⟨⟨toNat_ofInt_die hp, selectChip_of_lt hp, rfl, rfl, rfl⟩, rfl, rfl⟩
  · rw [if_neg fun hd => hcross (mod_eq_zero_of_dvd hd)] at hdiv
    have hold : l.cur.oldPage + 1 = (p + 1) % g.pageNum := by
      have hlt : p % g.pageNum + 1 ≤ g.pageNum := mod_lt p hpos
      rw [← mod_add_mod] at hcross ⊢
      rw [hl.oldPage, mod_eq_of_lt (a := p % g.pageNum + 1)]
      refine lt_of_le_of_ne hlt fun heq => hcross ?_
      rw [heq, mod_self]
    refine ⟨⟨hl.activeChip, hl.selected, ?_, hold, rfl⟩, ?_, rfl⟩
    · rw [hdiv]
      exact hl.chipnr
    · exact congrArg (· / g.ppb) hold

variable {kind : FlashKind} {sel : Option CacheSel} {access : ℕ → Loop → ℤ × Loop}
  {fail : ℕ → Loop → Except Loop Loop}

/-- The round for page `p`, when another page follows. -/
theorem nextRound_onDie (ha : IsAccess kind access) (hn : g.numchips ≠ 1)
    (h : DiesBelow 4 l.nand.bbt) (hl : l.OnDie g p a) (hb : l.cur.block = (g.dieBlock p).2)
    (hp : (p + 1) / g.pageNum < 4) (sel : Option CacheSel) (i n : ℕ) :
    (nextRound g sel access i (n + 1) l).OnDie g (p + 1)
        (if (p + 1) % g.pageNum = 0 then (g.dieBlock (p + 1)).1
          else (follow (links l.nand.bbt) (a, (g.dieBlock p).2)).1) ∧
      (nextRound g sel access i (n + 1) l).cur.block = (g.dieBlock (p + 1)).2 ∧
      (nextRound g sel access i (n + 1) l).nand.bbt = l.nand.bbt := by
  obtain ⟨hloc, -⟩ := locate_onDie hn h hl hb sel
  have hst := ha.steady i (locate g sel l)
  have hcur := ha.cur i (locate g sel l)
  have hat : Loop.OnDie g p (follow (links l.nand.bbt) (a, (g.dieBlock p).2)).1
      { (access i (locate g sel l)).2 with rc := 0 } :=
    ⟨(congrArg UInt8.toNat hst.activeChip).trans hloc.activeChip,
      (ha.selected i _).trans hloc.selected, hcur ▸ hloc.chipnr, hcur ▸ hloc.oldPage,
      hcur ▸ hloc.pageOffset⟩
  obtain ⟨hat', hb', hbbt⟩ := advance_onDie hat hp
  exact ⟨hat', hb', (hbbt.trans hst.bbt).trans (locate_bbt sel l)⟩

/-- The operations of a loop without failures. -/
theorem dieLoop_log (ha : IsAccess kind access) (hf : IsFail g fail) (hn : g.numchips ≠ 1)
    (hn4 : g.numchips ≤ 4) : ∀ {n i p a : ℕ} {l : Loop}, DiesBelow 4 l.nand.bbt → l.OnDie g p a →
      l.cur.block = (g.dieBlock p).2 → p + n ≤ g.numchips * g.pageNum →
      Succeeded l.nand (endNand (loop (pageBody g sel access fail) n i l)) →
      (endNand (loop (pageBody g sel access fail) n i l)).log =
        l.nand.log ++ dieOps g l.nand.bbt kind n p a
  | 0, _, _, _, _, _, _, _, _, _ => (append_nil _).symm
  | n + 1, i, p, a, l, h, hl, hb, hp, hok => by
    obtain ⟨hrc, hloop, hrest⟩ := pageLoop_succeeded ha hf hok
    obtain ⟨hloc, hpage⟩ := locate_onDie hn h hl hb sel
    have hlog : (nextRound g sel access i n l).nand.log = _ := nextRound_log ha i n l
    rw [hrc, hloc.activeChip, hloc.selected, hpage] at hlog
    rw [hloop]
    cases n with
    | zero => exact hlog
    | succ n =>
      have hp1 : (p + 1) / g.pageNum < 4 :=
        (Nat.div_lt_of_lt_mul (by rw [Nat.mul_comm]; omega)).trans_le hn4
      obtain ⟨hl', hb', hbbt⟩ := nextRound_onDie ha hn h hl hb hp1 sel i n
      rw [dieLoop_log ha hf hn hn4 (hbbt.symm ▸ h) hl' hb' (by omega) hrest, hlog, hbbt,
        append_assoc]
      rfl

end Loops

/-! ## The calls -/

namespace PageCall

variable {env : Env} {g : Geometry} {c : PageCall} {s : Nand}

theorem init_onDie (hn : g.numchips ≠ 1) (hp : c.firstPage g / g.pageNum < 4) :
    (c.init g s).OnDie g (c.firstPage g) (g.dieBlock (c.firstPage g)).1 ∧
      (c.init g s).cur.block = (g.dieBlock (c.firstPage g)).2 := by
  have hinit : c.init g s = Loop.start g (c.firstPage g / g.pageNum : ℕ) (c.firstPage g)
      (c.enter s) := by
    rw [firstPage_div, init]
    cases c.sel with
    | none => rfl
    | some sel => exact if_neg fun h => hn h.1
  have hmask : c.firstPage g &&& g.pagemask = c.firstPage g % g.pageNum := g.and_pagemask _
  have hdvd : g.ppb ∣ g.pageNum := g.ppb_dvd_pageNum
  rw [hinit, Loop.start, hmask]
  refine ⟨⟨toNat_ofInt_die hp, selectChip_of_lt hp, rfl, rfl, ?_⟩, rfl⟩
  exact (g.and_ppb _).trans (mod_mod_of_dvd _ hdvd)

end PageCall

section Calls

variable {env : Env} {g : Geometry} {c : PageCall} {s : Nand}

/-- A call without failures on a device with several dies accesses the pages that the table
gives for their own dies and blocks, if and only if no page leaves `active_chip` on a die from
which the walk for the next page ends elsewhere. -/
theorem dies_asWalked_iff (h2 : 2 ≤ g.numchips) (h4 : g.numchips ≤ 4)
    (ht : DiesBelow g.numchips s.bbt) (hv : c.Valid g)
    (hp : c.sel = none → c.firstPage g + c.pages g ≤ g.numchips * g.pageNum)
    (hok : Succeeded s (c.run env g s)) :
    (c.run env g s).log = s.log ++ dieOpsOf g s.bbt c.kind (c.pages g) (c.firstPage g) ↔
      NoDrift g s.bbt (c.firstPage g) (c.pages g) := by
  have hn : g.numchips ≠ 1 := by omega
  have hrange : c.firstPage g + c.pages g ≤ g.numchips * g.pageNum := by
    cases hs : c.sel with
    | none => exact hp hs
    | some sel => exact hv.pages_le hs
  obtain ⟨hbbt, hlog, -⟩ := c.init_keeps (g := g) s
  rw [hv.run_eq] at hok ⊢
  suffices hops : (endNand (c.exec env g s)).log =
      s.log ++ dieOps g s.bbt c.kind (c.pages g) (c.firstPage g) (g.dieBlock (c.firstPage g)).1 by
    rw [hops, append_cancel_left_eq, dieOps_eq_iff]
    exact and_iff_right fun _ => rfl
  rcases Nat.eq_zero_or_pos (c.pages g) with hzero | hpos
  · rw [PageCall.exec, hzero]
    exact hlog.trans (append_nil _).symm
  have hdie : c.firstPage g / g.pageNum < 4 :=
    (Nat.div_lt_of_lt_mul (by rw [Nat.mul_comm]; omega)).trans_le h4
  obtain ⟨hl, hb⟩ := PageCall.init_onDie (s := s) hn hdie
  have hrun := dieLoop_log (l := c.init g s) c.isAccess c.isFail hn h4
    (hbbt ▸ fun e he => (ht e he).trans_le h4) hl hb hrange (hok.of_log_eq hlog)
  rwa [hlog, hbbt] at hrun

/-- The geometry of the HY27UG088G5M, which has two dies. -/
def hy27ug088g5m : Geometry :=
  ⟨11, 17, 29, 64, 2, false, k9f1g08u0b.pageShift_le, by decide⟩

/-- The table has one bad block, on the first die. Its remap block is on the second die. -/
def remapToLastDie : Nand :=
  .fresh hy27ug088g5m
    (⟨0, 200, 1, 4095⟩ :: (spareEntries 4094 408).map fun e => { e with rbDie := 1 })

/-- The last two pages before the bad block and the first one of it. -/
theorem dies_asWalked_of_remapToLastDie :
    ((PageCall.readEcc ((199 * 64 + 62) * 2048) (3 * 2048) false).run .allOk hy27ug088g5m
        remapToLastDie).log =
      dieOpsOf hy27ug088g5m remapToLastDie.bbt .readEccPage 3 (199 * 64 + 62) := by
  have hok : Succeeded remapToLastDie ((PageCall.readEcc ((199 * 64 + 62) * 2048) (3 * 2048)
      false).run .allOk hy27ug088g5m remapToLastDie) :=
    ⟨[⟨.readEccPage, 0, 0, 199 * 64 + 62, 0⟩, ⟨.readEccPage, 0, 0, 199 * 64 + 63, 0⟩,
      ⟨.readEccPage, 1, 1, 4095 * 64, 0⟩], by decide +kernel, by decide⟩
  refine (dies_asWalked_iff (c := .readEcc ((199 * 64 + 62) * 2048) (3 * 2048) false)
    (by decide) (by decide) (by decide +kernel) (by decide +kernel) (fun h => nomatch h) hok).2
    fun i hi _ => ?_
  obtain rfl | rfl : i = 0 ∨ i = 1 := by
    have := hi.trans_le (show _ ≤ 3 by decide +kernel)
    omega
  · decide +kernel
  · decide +kernel

/-- Two pages of the bad block are read. The second read goes to block 200 of the second die,
although the table leads to block 4095. -/
theorem dies_not_asWalked :
    (PageCall.readEcc (200 * 64 * 2048) (2 * 2048) false).Valid hy27ug088g5m ∧
      ((PageCall.readEcc (200 * 64 * 2048) (2 * 2048) false).run .allOk hy27ug088g5m
          remapToLastDie).log =
        [⟨.readEccPage, 1, 1, 4095 * 64, 0⟩, ⟨.readEccPage, 1, 1, 200 * 64 + 1, 0⟩] ∧
      dieOpsOf hy27ug088g5m remapToLastDie.bbt .readEccPage 2 (200 * 64) =
        [⟨.readEccPage, 1, 1, 4095 * 64, 0⟩, ⟨.readEccPage, 1, 1, 4095 * 64 + 1, 0⟩] := by
  refine ⟨by decide +kernel, by decide +kernel, by decide +kernel⟩

end Calls

end OpenHMR
