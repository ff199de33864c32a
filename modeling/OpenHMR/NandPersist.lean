import OpenHMR.NandData
import OpenHMR.NandDevice
import OpenHMR.NandScan

/-!
# The table survives

`rtk_update_bbt` writes the table to the blocks 0 and 1, and `rtk_nand_scan_bbt` loads it from
there. `bbt_persists_iff` says when the table comes back from either copy. The update uses one
buffer for all pages : when the table needs two pages, the buffer holds the second one when the
first page of the copy in block 1 is written from it, and if the pages are encrypted, it is
encrypted twice (`copyB1`). The copy in block 0 is right as long as the table has at most two
pages (`copyB0`).
-/

open Buffer List Function Nat

namespace OpenHMR

open OpenHMR.Geometry

/-! ## The bytes of the table -/

theorem length_bbtBytes (bbt : List BBt) : (bbtBytes bbt).length = 8 * bbt.length := by
  induction bbt with
  | nil => rfl
  | cons e bbt ih =>
    rw [bbtBytes, flatMap_cons, length_append, ← bbtBytes, ih, length_cons, mul_add, add_comm]
    rfl

theorem decodeU16_encodeU16 (x : UInt16) :
    decodeU16 (UInt8.ofNat (x.toNat % 256)) (UInt8.ofNat (x.toNat / 256)) = x := by
  have hx : x.toNat < 65536 := x.toNat_lt
  rw [decodeU16, UInt8.toNat_ofNat_of_lt' (mod_lt _ (by decide)),
    UInt8.toNat_ofNat_of_lt' (Nat.div_lt_of_lt_mul hx), mod_add_div, UInt16.ofNat_toNat]

theorem encodeU16_decodeU16 (lo hi : UInt8) : encodeU16 (decodeU16 lo hi) = [lo, hi] := by
  have hlo : lo.toNat < 256 := lo.toNat_lt
  have hhi : hi.toNat < 256 := hi.toNat_lt
  have hval : (decodeU16 lo hi).toNat = lo.toNat + 256 * hi.toNat :=
    UInt16.toNat_ofNat_of_lt' (show _ < 65536 by omega)
  rw [encodeU16, hval, add_mul_mod_self_left, mod_eq_of_lt hlo,
    add_mul_div_left _ _ (by decide), div_eq_of_lt hlo, zero_add, UInt8.ofNat_toNat,
    UInt8.ofNat_toNat]

theorem decodeBbt_bbtBytes (bbt : List BBt) : decodeBbt (bbtBytes bbt) = bbt := by
  induction bbt with
  | nil => rfl
  | cons e bbt ih =>
    rw [bbtBytes, flatMap_cons, ← bbtBytes]
    simp only [BBt.encode, encodeU16, cons_append, nil_append, decodeBbt, decodeU16_encodeU16, ih]

theorem bbtBytes_decodeBbt : ∀ {n : ℕ} {bytes : List UInt8}, bytes.length = 8 * n →
    bbtBytes (decodeBbt bytes) = bytes
  | 0, [], _ => rfl
  | n + 1, a0 :: a1 :: b0 :: b1 :: c0 :: c1 :: d0 :: d1 :: bytes, h => by
    have hlen : bytes.length = 8 * n := by
      simp only [length_cons] at h
      omega
    rw [decodeBbt, bbtBytes, flatMap_cons, ← bbtBytes, bbtBytes_decodeBbt hlen]
    simp only [BBt.encode, encodeU16_decodeU16, cons_append, nil_append]

/-- A table is loaded from its bytes only. -/
theorem decodeBbt_eq_iff {bbt : List BBt} {bytes : List UInt8}
    (h : bytes.length = 8 * bbt.length) : decodeBbt bytes = bbt ↔ bytes = bbtBytes bbt := by
  refine ⟨fun heq => ?_, fun heq => heq ▸ decodeBbt_bbtBytes bbt⟩
  rw [← heq, bbtBytes_decodeBbt h]

/-! ## The pages of the table -/

/-- From page `page` of the first chip `data` are read, with the tag. -/
structure Holds (env : Env) (s : Nand) (page : ℕ) (data : List UInt8) : Prop where
  data : env.decrypt (s.flash 0 page).data = data
  tag : (s.flash 0 page).oob.getD 0 0xFF = bbtTag

/-- The pages from page `base` on hold the table pages `pages`. -/
def HoldsAll (env : Env) (s : Nand) (base : ℕ) (pages : List (List UInt8)) : Prop :=
  ∀ i (h : i < pages.length), Holds env s (base + i) pages[i]

section Pages

variable {env : Env} {g : Geometry} {s s' : Nand}

theorem Holds.of_flash {page : ℕ} {data : List UInt8} (h : Holds env s page data)
    (heq : s'.flash 0 page = s.flash 0 page) : Holds env s' page data :=
  ⟨heq ▸ h.data, heq ▸ h.tag⟩

theorem shiftedOob_tag (hoob : 0 < g.oobSize) (first : UInt8) (w : List UInt8) :
    (g.shiftedOob first w).getD 0 0xFF = first := by
  obtain ⟨n, hn⟩ := exists_eq_succ_of_ne_zero hoob.ne'
  rw [shiftedOob, hn]
  rfl

/-- Where the table is. -/
def Geometry.TablePage (g : Geometry) (page : ℕ) : Prop :=
  page = 0 ∨ page = 1 ∨ page = g.ppb ∨ page = g.ppb + 1

theorem writeBbtPage_eq (hppb : 1 < g.ppb) (hok : env.OkFrom s.log.length) {page : ℕ}
    (hp : g.TablePage page) :
    writeBbtPage env g page s = (0, { (s.logged .writeEccPage 0 page 0).program page
      ⟨env.encrypt s.databuf, g.shiftedOob bbtTag s.oobbuf⟩ with
        databuf := env.encrypt s.databuf }) := by
  have hlt : page < 2 * g.ppb := by
    rcases hp with rfl | rfl | rfl | rfl <;> omega
  have hrc :
      g.writeRc (env.outcome s.log.length) 0 page (true && decide (page < 2 * g.ppb)) = 0 := by
    rw [hok _ le_rfl, decide_eq_true hlt, writeRc]
    simp
  have hoob : g.writtenOob page (some s.oobbuf) = g.shiftedOob bbtTag s.oobbuf :=
    congrArg (g.shiftedOob · _) (if_pos hp)
  simp only [writeBbtPage, writeEccPageBuf, writeEccPage, hrc, hoob, Option.isSome_some, or_true,
    if_true]
  rfl

/-- From `s` to `s'` only the block `block` of the flash was changed. -/
structure OnBlock (g : Geometry) (block : ℕ) (s s' : Nand) : Prop where
  selected : s'.selected = 0
  overrun : s'.overrun = s.overrun
  others : ∀ p, p / g.ppb ≠ block → s'.flash 0 p = s.flash 0 p

theorem OnBlock.trans {block : ℕ} {s'' : Nand} (h : OnBlock g block s s')
    (h' : OnBlock g block s' s'') : OnBlock g block s s'' :=
  ⟨h'.selected, h'.overrun.trans h.overrun, fun p hp => (h'.others p hp).trans (h.others p hp)⟩

/-- A block is erased. -/
theorem eraseBlock_onBlock (hs : s.selected = 0) (hok : env.OkFrom s.log.length)
    (chipnr block : ℕ) :
    (eraseBlock env g chipnr (block * g.ppb) s).1 = 0 ∧
      (eraseBlock env g chipnr (block * g.ppb) s).2.databuf = s.databuf ∧
      OnBlock g block s (eraseBlock env g chipnr (block * g.ppb) s).2 := by
  rw [eraseBlock_eq _ _ (hok _ le_rfl) (mul_mod_left _ _), Nat.mul_div_cancel _ g.ppb_pos]
  refine ⟨rfl, rfl, hs, rfl, fun p hp => ?_⟩
  simp only [hs, update_self, if_neg hp]

/-- A page of the table is written. -/
theorem writeBbtPage_onBlock (hppb : 1 < g.ppb) (hoob : 0 < g.oobSize) (hs : s.selected = 0)
    (hok : env.OkFrom s.log.length) {page : ℕ} (hp : g.TablePage page) :
    (writeBbtPage env g page s).1 = 0 ∧
      (writeBbtPage env g page s).2.databuf = env.encrypt s.databuf ∧
      OnBlock g (page / g.ppb) s (writeBbtPage env g page s).2 ∧
      Holds env (writeBbtPage env g page s).2 page s.databuf ∧
      ∀ p ≠ page, (writeBbtPage env g page s).2.flash 0 p = s.flash 0 p := by
  rw [writeBbtPage_eq hppb hok hp]
  have hsel : (s.logged .writeEccPage 0 page 0).selected = 0 := hs
  have hothers : ∀ p ≠ page, ((s.logged .writeEccPage 0 page 0).program page
      ⟨env.encrypt s.databuf, g.shiftedOob bbtTag s.oobbuf⟩).flash 0 p = s.flash 0 p := by
    intro p hne
    simp only [Nand.program, hsel, update_self, update_of_ne hne]
    rfl
  refine ⟨rfl, rfl, ⟨hs, rfl, fun p hne => hothers p fun h => hne (h ▸ rfl)⟩, ⟨?_, ?_⟩, hothers⟩
  · simp only [Nand.program, hsel, update_self, env.decrypt_encrypt]
  · simp only [Nand.program, hsel, update_self]
    exact shiftedOob_tag hoob _ _

end Pages

/-! ## The update -/

section Update

variable {env : Env} {g : Geometry} {s : Nand} (bytes : List UInt8)

/-- The pages of a copy after the first one. -/
def Geometry.furtherPages (g : Geometry) (bytes : List UInt8) : List (List UInt8) :=
  if g.fitsPage bytes then [] else [g.secondPage bytes]

/-- From `s` to `s'` the copy of the table in block `block` was written, its first page from
`data_buf`. -/
structure WroteCopy (env : Env) (g : Geometry) (bytes : List UInt8) (block : ℕ) (s s' : Nand) :
    Prop extends OnBlock g block s s' where
  databuf : s'.databuf =
    env.encrypt (if g.fitsPage bytes then s.databuf else g.secondPage bytes)
  pages : HoldsAll env s' (block * g.ppb) (s.databuf :: g.furtherPages bytes)

theorem tablePage_block {block : ℕ} (hb : block < 2) :
    g.TablePage (block * g.ppb) ∧ g.TablePage (block * g.ppb + 1) := by
  obtain rfl | rfl : block = 0 ∨ block = 1 := by omega
  · rw [zero_mul]
    exact ⟨.inl rfl, .inr (.inl rfl)⟩
  · rw [one_mul]
    exact ⟨.inr (.inr (.inl rfl)), .inr (.inr (.inr rfl))⟩

section Copy

variable {chipnr block : ℕ} (hppb : 1 < g.ppb) (hoob : 0 < g.oobSize) (hs : s.selected = 0)
  (hok : env.OkFrom s.log.length) (hb : block < 2)

include hppb hoob hs hok hb

/-- The first page of a copy. -/
theorem writeFirst_wrote :
    (writeBbtPage env g (block * g.ppb) s).1 = 0 ∧
      (g.fitsPage bytes = true →
        WroteCopy env g bytes block s (writeBbtPage env g (block * g.ppb) s).2) := by
  have hdiv : block * g.ppb / g.ppb = block := Nat.mul_div_cancel _ g.ppb_pos
  obtain ⟨hrc, hbuf, hon, hpage, -⟩ :=
    writeBbtPage_onBlock hppb hoob hs hok (tablePage_block hb).1
  rw [hdiv] at hon
  refine ⟨hrc, fun hfit => ⟨hon, ?_, fun i hi => ?_⟩⟩
  · rw [if_pos hfit, hbuf]
  · rw [furtherPages, if_pos hfit, length_singleton, lt_one_iff] at hi
    subst hi
    exact hpage

/-- The two pages of a copy. -/
theorem writeSecond_wrote (hfit : g.fitsPage bytes = false) (s1 : Nand)
    (h1 : s1 = { (writeBbtPage env g (block * g.ppb) s).2 with databuf := g.secondPage bytes }) :
    (writeBbtPage env g (block * g.ppb + 1) s1).1 = 0 ∧
      WroteCopy env g bytes block s (writeBbtPage env g (block * g.ppb + 1) s1).2 := by
  have hdiv : block * g.ppb / g.ppb = block := Nat.mul_div_cancel _ g.ppb_pos
  have hdiv1 : (block * g.ppb + 1) / g.ppb = block := g.page_div block hppb
  obtain ⟨-, -, hon, hpage, -⟩ :=
    writeBbtPage_onBlock hppb hoob hs hok (tablePage_block hb).1
  have hon1 : OnBlock g block s s1 := by
    rw [hdiv] at hon
    rw [h1]
    exact { hon with }
  have hok1 : env.OkFrom s1.log.length := by
    have := (writeBbtPage_steady env g (block * g.ppb) s).okFrom hok
    rwa [h1]
  have hpage1 : Holds env s1 (block * g.ppb) s.databuf := hpage.of_flash (h1 ▸ rfl)
  obtain ⟨hrc, hbuf, hon2, hpage2, hothers⟩ :=
    writeBbtPage_onBlock hppb hoob hon1.selected hok1 (tablePage_block hb).2
  have hsecond : s1.databuf = g.secondPage bytes := h1 ▸ rfl
  rw [hdiv1] at hon2
  refine ⟨hrc, hon1.trans hon2, ?_, fun i hi => ?_⟩
  · rw [hfit, hbuf, hsecond]
    rfl
  · have hfurther : g.furtherPages bytes = [g.secondPage bytes] := by
      rw [furtherPages, hfit]
      rfl
    simp only [hfurther, length_cons, length_nil] at hi ⊢
    obtain rfl | rfl : i = 0 ∨ i = 1 := by omega
    · exact hpage1.of_flash (hothers _ (by omega))
    · rw [hsecond] at hpage2
      exact hpage2

omit hb in
/-- The copy in block 0. -/
theorem updateB0_wrote : WroteCopy env g bytes 0 s (updateB0 env g bytes s) := by
  obtain ⟨-, hbuf, hon⟩ := eraseBlock_onBlock hs hok 0 0
  have hok1 := (eraseBlock_steady env g 0 (0 * g.ppb) s).okFrom hok
  obtain ⟨hrc, hone⟩ :=
    writeFirst_wrote bytes hppb hoob hon.selected hok1 Nat.zero_lt_two
  rw [zero_mul] at hbuf hon hok1 hrc hone
  unfold updateB0
  simp only [hrc, true_and]
  have hpages {s' : Nand} (h : WroteCopy env g bytes 0 (eraseBlock env g 0 0 s).2 s') :
      WroteCopy env g bytes 0 s s' :=
    ⟨hon.trans h.toOnBlock, hbuf ▸ h.databuf, hbuf ▸ h.pages⟩
  split_ifs with hfit
  · have hsecond := writeSecond_wrote bytes hppb hoob hon.selected hok1 Nat.zero_lt_two hfit _ rfl
    rw [zero_mul] at hsecond
    exact hpages hsecond.2
  · exact hpages (hone (Bool.not_eq_false _ ▸ hfit))

omit hb in
/-- The copy in block 1. -/
theorem updateB1_wrote :
    (updateB1 env g bytes s).1 = 0 ∧ WroteCopy env g bytes 1 s (updateB1 env g bytes s).2 := by
  obtain ⟨hrc1, hbuf, hon⟩ := eraseBlock_onBlock hs hok 1 1
  have hok1 := (eraseBlock_steady env g 1 (1 * g.ppb) s).okFrom hok
  obtain ⟨hrc, hone⟩ :=
    writeFirst_wrote bytes hppb hoob hon.selected hok1 Nat.one_lt_two
  rw [one_mul] at hrc1 hbuf hon hok1 hrc hone
  unfold updateB1
  simp only [hrc1, hrc, ne_eq, not_true_eq_false, if_false]
  have hpages {s' : Nand} (h : WroteCopy env g bytes 1 (eraseBlock env g 1 g.ppb s).2 s') :
      WroteCopy env g bytes 1 s s' :=
    ⟨hon.trans h.toOnBlock, hbuf ▸ h.databuf, hbuf ▸ h.pages⟩
  cases hfit : g.fitsPage bytes with
  | true => exact ⟨rfl, hpages (hone hfit)⟩
  | false =>
    have hsecond := writeSecond_wrote bytes hppb hoob hon.selected hok1 Nat.one_lt_two hfit _ rfl
    rw [one_mul] at hsecond
    rw [hsecond.1]
    exact ⟨rfl, hpages hsecond.2⟩

end Copy

/-- The pages of the copy in block 0. -/
def Geometry.copyB0 (g : Geometry) (databuf bytes : List UInt8) : List (List UInt8) :=
  (if g.fitsPage bytes then memcpy databuf bytes else (g.tempBbt bytes).take g.pageSize) ::
    g.furtherPages bytes

/-- The pages of the copy in block 1. Its first page is what writing block 0 left in
`data_buf`. -/
def Geometry.copyB1 (env : Env) (g : Geometry) (databuf bytes : List UInt8) :
    List (List UInt8) :=
  env.encrypt (if g.fitsPage bytes then memcpy databuf bytes else g.secondPage bytes) ::
    g.furtherPages bytes

theorem length_furtherPages :
    (g.furtherPages bytes).length = if bytes.length ≤ g.pageSize then 0 else 1 := by
  simp only [furtherPages, fitsPage, decide_eq_true_eq]
  split_ifs <;> rfl

theorem prepareBbt_spec (bytes : List UInt8) (s : Nand) :
    (prepareBbt g bytes s).selected = 0 ∧
      (prepareBbt g bytes s).databuf =
        (if g.fitsPage bytes then memcpy s.databuf bytes else (g.tempBbt bytes).take g.pageSize) ∧
      (prepareBbt g bytes s).overrun =
        (s.overrun || (!g.fitsPage bytes && decide (2 * g.pageSize < bytes.length))) ∧
      (prepareBbt g bytes s).flash = s.flash := by
  unfold prepareBbt
  cases g.fitsPage bytes <;> simp [Nand.select, selectChip]

variable {bytes} in
/-- The pages of a copy are in one block. -/
theorem lt_ppb_of_copy (hppb : 1 < g.ppb) {page : List UInt8} {i : ℕ}
    (hi : i < (page :: g.furtherPages bytes).length) : i < g.ppb := by
  rw [length_cons, length_furtherPages] at hi
  split_ifs at hi <;> omega

/-- What the update leaves in the flash. -/
theorem rtkUpdateBbt_holds (hppb : 1 < g.ppb) (hoob : 0 < g.oobSize)
    (hok : env.OkFrom s.log.length) :
    HoldsAll env (rtkUpdateBbt env g s).2 0 (g.copyB0 s.databuf (bbtBytes s.bbt)) ∧
      HoldsAll env (rtkUpdateBbt env g s).2 g.ppb (g.copyB1 env s.databuf (bbtBytes s.bbt)) ∧
      (rtkUpdateBbt env g s).2.overrun = (s.overrun ||
        (!g.fitsPage (bbtBytes s.bbt) && decide (2 * g.pageSize < (bbtBytes s.bbt).length))) ∧
      (rtkUpdateBbt env g s).1 = 0 ∧
      (rtkUpdateBbt env g s).2.selected = selectChip s.activeChip.toNat ∧
      ∀ p, 2 * g.ppb ≤ p → (rtkUpdateBbt env g s).2.flash 0 p = s.flash 0 p := by
  obtain ⟨hsel, hbuf, hover, hflash⟩ := prepareBbt_spec (g := g) (bbtBytes s.bbt) s
  have hok1 := (prepareBbt_steady g (bbtBytes s.bbt) s).okFrom hok
  have hB0 := updateB0_wrote (bbtBytes s.bbt) hppb hoob hsel hok1
  have hok2 := (updateB0_steady env g (bbtBytes s.bbt) _).okFrom hok1
  obtain ⟨hrc, hB1⟩ := updateB1_wrote (bbtBytes s.bbt) hppb hoob hB0.selected hok2
  have hupdate : rtkUpdateBbt env g s =
      (0, (updateB1 env g (bbtBytes s.bbt) (updateB0 env g (bbtBytes s.bbt)
        (prepareBbt g (bbtBytes s.bbt) s))).2.select s.activeChip.toNat) := by
    simp only [rtkUpdateBbt, hrc, ne_eq, not_true_eq_false, if_false]
  rw [hupdate]
  have hpages0 := hB0.pages
  have hpages1 := hB1.pages
  have hfirst : (updateB0 env g (bbtBytes s.bbt) (prepareBbt g (bbtBytes s.bbt) s)).databuf =
      env.encrypt (if g.fitsPage (bbtBytes s.bbt) then memcpy s.databuf (bbtBytes s.bbt)
        else g.secondPage (bbtBytes s.bbt)) := by
    rw [hB0.databuf, hbuf]
    split_ifs <;> rfl
  rw [hbuf, zero_mul] at hpages0
  rw [hfirst, one_mul] at hpages1
  refine ⟨fun i hi => ?_, fun i hi => (hpages1 i hi).of_flash rfl,
    hB1.overrun.trans (hB0.overrun.trans hover), rfl, rfl, fun p hp => ?_⟩
  · refine (hpages0 i hi).of_flash (hB1.others _ ?_)
    rw [zero_add, div_eq_of_lt (lt_ppb_of_copy hppb hi)]
    exact zero_ne_one
  · have : 2 ≤ p / g.ppb := (le_div_iff_mul_le g.ppb_pos).2 hp
    exact ((hB1.others p (by omega)).trans (hB0.others p (by omega))).trans (by rw [hflash])

end Update

/-! ## Loading a copy -/

section Load

variable {env : Env} {g : Geometry} {s s' : Nand} {base : ℕ} {pages : List (List UInt8)}

theorem HoldsAll.of_flash (h : HoldsAll env s base pages)
    (heq : ∀ i < pages.length, s'.flash 0 (base + i) = s.flash 0 (base + i)) :
    HoldsAll env s' base pages :=
  fun i hi => (h i hi).of_flash (heq i hi)

/-- What is read depends on the mode only. -/
theorem HoldsAll.of_mcp {env' : Env} (h : HoldsAll env s base pages)
    (hmcp : env'.mcp = env.mcp) : HoldsAll env' s base pages := by
  have hdec : env'.decrypt = env.decrypt := by
    funext data
    rw [Env.decrypt, hmcp, Env.decrypt]
  exact fun i hi => ⟨hdec ▸ (h i hi).data, (h i hi).tag⟩

theorem readOobFromPP_tag (g : Geometry) (hwEcc : Bool) (raw old : List UInt8) :
    (g.readOobFromPP hwEcc raw old).getD 0 0 = raw.getD 0 0xFF := by
  cases hwEcc <;> rfl

/-- A page of the table is read. -/
theorem readEccPageBuf_holds (hs : s.selected = 0) (hok : env.OkFrom s.log.length) {page : ℕ}
    {data : List UInt8} (h : Holds env s page data) :
    ∃ s', readEccPageBuf env g 0 page s = (0, s') ∧ s'.databuf = data ∧ s'.tagged ∧
      s'.selected = 0 ∧ s'.flash = s.flash ∧ s'.overrun = s.overrun ∧
      env.OkFrom s'.log.length := by
  have hst := (readEccPageBuf_steady env g 0 page s).okFrom hok
  rw [readEccPageBuf_eq 0 page (hok _ le_rfl)] at hst ⊢
  rw [hs] at hst ⊢
  exact ⟨_, rfl, h.data, (readOobFromPP_tag g _ _ _).trans h.tag, hs, rfl, rfl, hst⟩

theorem copyPage_filled (hlen : ∀ p ∈ pages, p.length = g.pageSize) {c : ℕ}
    (hc : c < pages.length) (hbuf : s.databuf = pages[c]) :
    copyPage g c (filled g.pageSize 0xFF pages c) s =
      (filled g.pageSize 0xFF pages (c + 1), s) := by
  have hfit : ¬(filled g.pageSize 0xFF pages c).length < (c + 1) * g.pageSize := by
    rw [length_filled hlen hc.le]
    exact not_lt.2 (mul_le_mul_right _ hc)
  refine Prod.ext ?_ ?_
  · rw [copyPage, hbuf]
    exact memcpyAt_filled hlen hc
  · simp only [copyPage, decide_eq_false hfit, Bool.or_false]

/-- The loop over the further pages of a copy. -/
theorem loadPages_ok (hlen : ∀ p ∈ pages, p.length = g.pageSize) : ∀ {n c : ℕ} {s : Nand},
    c + n = pages.length → s.selected = 0 → env.OkFrom s.log.length → HoldsAll env s base pages →
      ∃ s', loadPages env g base n c (filled g.pageSize 0xFF pages c) s =
        (some pages.flatten, s') ∧ s'.overrun = s.overrun
  | 0, c, s, hc, _, _, _ => by
    obtain rfl : c = pages.length := hc
    exact ⟨s, by rw [loadPages, filled_length], rfl⟩
  | n + 1, c, s, hc, hs, hok, hpages => by
    have hlt : c < pages.length := by omega
    obtain ⟨s1, hread, hbuf, -, hs1, hflash, hover, hok1⟩ :=
      readEccPageBuf_holds (g := g) hs hok (hpages c hlt)
    obtain ⟨s', hload, hover'⟩ := loadPages_ok hlen (n := n) (c := c + 1) (by omega)
      hs1 hok1 (hpages.of_flash fun i _ => by rw [hflash])
    refine ⟨s', ?_, hover'.trans hover⟩
    simp only [loadPages, hread, copyPage_filled hlen hlt hbuf, ne_eq, not_true_eq_false, if_false,
      hload]

/-- The table is loaded from its pages. -/
theorem loadBbt_ok (hlen : ∀ p ∈ pages, p.length = g.pageSize) (hne : pages ≠ [])
    (hnum : g.memPageNum.toNat = pages.length) (hs : s.selected = 0)
    (hok : env.OkFrom s.log.length) (hpages : HoldsAll env s base pages)
    (hbuf : s.databuf = pages.head hne) :
    (loadBbt env g base s).1 = 0 ∧
      (loadBbt env g base s).2.bbt = decodeBbt (pages.flatten.take (8 * g.rba)) ∧
      (loadBbt env g base s).2.overrun = s.overrun := by
  have hpos : 0 < pages.length := length_pos_iff.2 hne
  have hblank : g.blankBbt = filled g.pageSize 0xFF pages 0 := by
    rw [blankBbt, hnum, filled_zero]
  have hcopy : copyPage g 0 g.blankBbt s = (filled g.pageSize 0xFF pages 1, s) := by
    rw [hblank, copyPage_filled hlen hpos (hbuf.trans (head_eq_getElem hne))]
  have hrest : (g.memPageNum - 1).toNat = pages.length - 1 := by
    rw [UInt8.toNat_sub_of_le _ _ (UInt8.le_iff_toNat_le.2 (hnum ▸ hpos)), hnum]
    rfl
  obtain ⟨s', hload, hover⟩ := loadPages_ok hlen (n := pages.length - 1) (c := 1) (by omega) hs
    hok hpages
  simp only [loadBbt, hcopy, hrest, hload]
  exact ⟨trivial, rfl, hover⟩

/-- A buffer overrun stays. -/
theorem loadPages_overrun : ∀ {n c : ℕ} {temp : List UInt8} {s : Nand}, s.overrun = true →
    (loadPages env g base n c temp s).2.overrun = true
  | 0, _, _, _, h => h
  | n + 1, c, temp, s, h => by
    have hread : (readEccPageBuf env g 0 (base + c) s).2.overrun = true := by
      unfold readEccPageBuf
      simp only []
      split_ifs <;> exact h
    simp only [loadPages]
    split_ifs
    · exact hread
    · refine loadPages_overrun ?_
      simp only [copyPage, hread, Bool.true_or]

end Load

/-! ## The copies and the table -/

section Copies

variable {env : Env} {g : Geometry} {databuf bytes : List UInt8}

theorem secondPage_eq (h1 : g.pageSize ≤ bytes.length) (h2 : bytes.length ≤ 2 * g.pageSize) :
    g.secondPage bytes =
      bytes.drop g.pageSize ++ replicate (2 * g.pageSize - bytes.length) 0xFF := by
  have htemp : g.tempBbt bytes = bytes ++ replicate (2 * g.pageSize - bytes.length) 0xFF := by
    rw [tempBbt, memcpy_eq (by rwa [length_replicate]), drop_replicate]
  have hlen : (bytes.drop g.pageSize).length = bytes.length - g.pageSize := length_drop
  have hsrc : ((g.tempBbt bytes).drop g.pageSize).take (bytes.length - g.pageSize) =
      bytes.drop g.pageSize := by
    rw [htemp, drop_append_of_le_length h1, ← hlen, take_left]
  rw [secondPage, hsrc, memcpy_eq, drop_replicate, hlen]
  · congr 2
    omega
  · rw [hlen, length_replicate]
    omega

theorem length_secondPage (bytes : List UInt8) : (g.secondPage bytes).length = g.pageSize := by
  rw [secondPage, length_memcpy, length_replicate]

theorem take_tempBbt (h1 : g.pageSize ≤ bytes.length) (h2 : bytes.length ≤ 2 * g.pageSize) :
    (g.tempBbt bytes).take g.pageSize = bytes.take g.pageSize := by
  rw [tempBbt, memcpy_eq (by rwa [length_replicate]), take_append_of_le_length h1]

theorem fitsPage_iff : g.fitsPage bytes = true ↔ bytes.length ≤ g.pageSize :=
  decide_eq_true_iff

theorem fitsPage_eq_false : g.fitsPage bytes = false ↔ g.pageSize < bytes.length := by
  rw [← not_iff_not, Bool.not_eq_false, fitsPage_iff, not_lt]

section Length

variable (hbuf : databuf.length = g.pageSize) (hlen : bytes.length ≤ 2 * g.pageSize)

include hbuf

theorem length_copyB1 : ∀ p ∈ g.copyB1 env databuf bytes, p.length = g.pageSize := by
  rw [copyB1, furtherPages]
  split_ifs
  · simp [length_memcpy, hbuf]
  · simp [length_secondPage]

include hlen

theorem length_copyB0 : ∀ p ∈ g.copyB0 databuf bytes, p.length = g.pageSize := by
  rw [copyB0, furtherPages]
  split_ifs with hfit
  · simp [length_memcpy, hbuf]
  · rw [fitsPage_iff, not_le] at hfit
    simp [length_secondPage, take_tempBbt hfit.le hlen, hfit.le]

/-- The copy in block 0 has the bytes of the table. -/
theorem copyB0_flatten : (g.copyB0 databuf bytes).flatten.take bytes.length = bytes := by
  rw [copyB0, furtherPages]
  split_ifs with hfit
  · rw [fitsPage_iff, ← hbuf] at hfit
    rw [flatten_singleton, take_memcpy hfit]
  · rw [fitsPage_iff, not_le] at hfit
    rw [flatten_cons, flatten_singleton, take_tempBbt hfit.le hlen,
      secondPage_eq hfit.le hlen, ← append_assoc, take_append_drop, take_left]

omit hbuf in
/-- The copy in block 1 of a table with two pages has them only if both pages are the same. -/
theorem copyB1_flatten (hfit : g.pageSize < bytes.length) :
    (g.copyB1 env databuf bytes).flatten.take bytes.length = bytes ↔
      env.encrypt (g.secondPage bytes) = bytes.take g.pageSize := by
  have hfalse := fitsPage_eq_false.2 hfit
  simp only [copyB1, furtherPages, hfalse, Bool.false_eq_true, if_false,
    flatten_cons, flatten_nil, append_nil]
  refine ⟨fun h => ?_, fun h => ?_⟩
  · have hfirst := congrArg (take g.pageSize) h
    rwa [take_take, min_eq_left hfit.le, take_left' (by
      rw [env.length_encrypt, length_secondPage])] at hfirst
  · rw [h, secondPage_eq hfit.le hlen, ← append_assoc, take_append_drop, take_left]

end Length

end Copies

/-! ## Persistence -/

section Persistence

/-- The driver when `rtk_nand_scan` comes to the table. -/
structure Restarted (s : Nand) : Prop where
  selected : s.selected = 0
  overrun : s.overrun = false

/-- Block 0 has no table : the first page cannot be read, or it has no tag. -/
def B0Lost (env : Env) (g : Geometry) (s : Nand) : Prop :=
  (readEccPageBuf env g 0 0 s).1 ≠ 0 ∨ ¬(readEccPageBuf env g 0 0 s).2.tagged

/-- The scan gives the table `bbt`, and no copy on the way goes beyond its buffer. -/
structure Restores (env : Env) (g : Geometry) (bbt : List BBt) (s : Nand) : Prop where
  rc : (rtkNandScanBbt env g s).1 = 0
  bbt : (rtkNandScanBbt env g s).2.bbt = bbt
  overrun : (rtkNandScanBbt env g s).2.overrun = false

/-- The table survives : after the update the scan gives it, from block 0 or, if that is lost,
from block 1. -/
structure Persists (env : Env) (g : Geometry) (s : Nand) : Prop where
  overrun : (rtkUpdateBbt env g s).2.overrun = false
  fromB0 : ∀ env' s', env'.mcp = env.mcp → Restarted s' →
    (∀ p, p / g.ppb = 0 → s'.flash 0 p = (rtkUpdateBbt env g s).2.flash 0 p) →
    env'.OkFrom s'.log.length → Restores env' g s.bbt s'
  fromB1 : ∀ env' s', env'.mcp = env.mcp → Restarted s' →
    (∀ p, p / g.ppb = 1 → s'.flash 0 p = (rtkUpdateBbt env g s).2.flash 0 p) →
    B0Lost env' g s' → env'.OkFrom (s'.log.length + 1) → Restores env' g s.bbt s'

/-- The table has one page, or two that are the same. If the pages are encrypted, the cipher
moreover leaves its first page as it is. -/
def PersistSafe (env : Env) (g : Geometry) (s : Nand) : Prop :=
  0 < g.rba ∧
    (8 * g.rba ≤ g.pageSize ∧
      (env.encrypt (memcpy s.databuf (bbtBytes s.bbt))).take (8 * g.rba) = bbtBytes s.bbt ∨
    g.pageSize < 8 * g.rba ∧ 8 * g.rba ≤ 2 * g.pageSize ∧
      env.encrypt ((bbtBytes s.bbt).drop g.pageSize ++
        replicate (2 * g.pageSize - 8 * g.rba) 0xFF) = (bbtBytes s.bbt).take g.pageSize)

variable {env : Env} {g : Geometry} {s : Nand} {pages : List (List UInt8)}

variable {page : List UInt8} {bbt : List BBt}

/-- The scan loads the copy in block 0. -/
theorem scan_fromB0 (hb : Restarted s) (hok : env.OkFrom s.log.length)
    (hpage : Holds env s 0 page) :
    ∃ s', rtkNandScanBbt env g s = loadBbt env g 0 s' ∧ s'.databuf = page ∧ Restarted s' ∧
      s'.flash = s.flash ∧ env.OkFrom s'.log.length := by
  obtain ⟨s', hread, hbuf, htag, hs, hflash, hover, hok'⟩ :=
    readEccPageBuf_holds (g := g) hb.selected hok hpage
  refine ⟨s', ?_, hbuf, ⟨hs, hover.trans hb.overrun⟩, hflash, hok'⟩
  simp only [rtkNandScanBbt, hread, if_true, if_pos htag]

/-- If it is lost, the scan loads the copy in block 1. -/
theorem scan_fromB1 (hb : Restarted s) (hlost : B0Lost env g s)
    (hok : env.OkFrom (s.log.length + 1)) (hpage : Holds env s g.ppb page) :
    ∃ s', rtkNandScanBbt env g s = loadBbt env g g.ppb s' ∧ s'.databuf = page ∧ Restarted s' ∧
      s'.flash = s.flash ∧ env.OkFrom s'.log.length := by
  obtain ⟨s1, h1⟩ : ∃ s1, s1 = (readEccPageBuf env g 0 0 s).2 := ⟨_, rfl⟩
  have hkeep : s1.selected = s.selected ∧ s1.overrun = s.overrun ∧ s1.flash = s.flash ∧
      s1.log.length = s.log.length + 1 := by
    rw [h1]
    unfold readEccPageBuf
    simp only []
    split_ifs <;> exact ⟨rfl, rfl, rfl, length_append⟩
  obtain ⟨hs1, hover1, hflash1, hlog1⟩ := hkeep
  obtain ⟨s', hread, hbuf, htag, hs, hflash, hover, hok'⟩ :=
    readEccPageBuf_holds (g := g) (hs1.trans hb.selected) (hlog1 ▸ hok)
      (hpage.of_flash (by rw [hflash1]))
  have hload (create : Nand → Nand) (fail : ℤ → Nand → ℤ × Nand) :
      loadB1 env g create fail s1 = loadBbt env g g.ppb s' := by
    simp only [loadB1, hread, if_true, if_pos htag]
  refine ⟨s', ?_, hbuf, ⟨hs, hover.trans (hover1.trans hb.overrun)⟩, hflash.trans hflash1, hok'⟩
  unfold rtkNandScanBbt
  simp only [← h1, hload]
  split_ifs with hrc htagged
  · exact absurd htagged (hlost.resolve_left (not_not.2 hrc) <| h1 ▸ ·)
  · rfl
  · rfl

theorem memPageNum_eq (hpos : 0 < g.rba) (hlen : 8 * g.rba ≤ 2 * g.pageSize) :
    g.memPageNum.toNat = if 8 * g.rba ≤ g.pageSize then 1 else 2 := by
  have hnum : (8 * g.rba + g.pageSize - 1) / g.pageSize =
      if 8 * g.rba ≤ g.pageSize then 1 else 2 := by
    split_ifs <;> refine Nat.div_eq_of_lt_le ?_ ?_ <;> omega
  rw [memPageNum, hnum, UInt8.toNat_ofNat_of_lt']
  split_ifs <;> decide

/-- The scan gives the table exactly if the pages of the copy that it loads have its bytes. -/
theorem restores_iff {base : ℕ} {s' : Nand}
    (hscan : rtkNandScanBbt env g s = loadBbt env g base s') (hb : Restarted s')
    (hok : env.OkFrom s'.log.length)
    (hpages : HoldsAll env s' base (page :: g.furtherPages (bbtBytes bbt)))
    (hbuf : s'.databuf = page)
    (hps : ∀ p ∈ page :: g.furtherPages (bbtBytes bbt), p.length = g.pageSize)
    (hbbt : bbt.length = g.rba) (hpos : 0 < g.rba) (htwo : 8 * g.rba ≤ 2 * g.pageSize) :
    Restores env g bbt s ↔
      (page :: g.furtherPages (bbtBytes bbt)).flatten.take (8 * g.rba) = bbtBytes bbt := by
  have hnum : g.memPageNum.toNat = (page :: g.furtherPages (bbtBytes bbt)).length := by
    rw [memPageNum_eq hpos htwo, length_cons, length_furtherPages, length_bbtBytes, hbbt]
    split_ifs <;> rfl
  have hfit : 8 * g.rba ≤ (page :: g.furtherPages (bbtBytes bbt)).length * g.pageSize := by
    rw [← hnum, memPageNum_eq hpos htwo]
    split_ifs <;> omega
  obtain ⟨hrc, htable, hover⟩ :=
    loadBbt_ok hps (cons_ne_nil _ _) hnum hb.selected hok hpages hbuf
  have hlen : ((page :: g.furtherPages (bbtBytes bbt)).flatten.take (8 * g.rba)).length =
      8 * bbt.length := by
    rw [length_take, length_flatten_pages hps, hbbt, min_eq_left hfit]
  rw [← decodeBbt_eq_iff hlen, ← htable, ← hscan]
  refine ⟨fun h => h.bbt, fun h => ⟨hscan ▸ hrc, h, ?_⟩⟩
  rw [hscan, hover, hb.overrun]

/-- A device without a reserve area has no room for what is loaded. -/
theorem not_restores_of_rba_eq_zero (hrba : g.rba = 0) (hb : Restarted s)
    (hok : env.OkFrom s.log.length) (hpage : Holds env s 0 page)
    (bbt : List BBt) : ¬Restores env g bbt s := by
  intro h
  obtain ⟨s', hscan, -⟩ := scan_fromB0 hb hok hpage
  have hnum : g.memPageNum = 0 := by
    rw [memPageNum, hrba, div_eq_of_lt]
    · rfl
    · have := g.pageSize_pos
      omega
  have hcopy : (copyPage g 0 g.blankBbt s').2.overrun = true := by
    simp [copyPage, blankBbt, hnum, g.pageSize_pos]
  have hload : (loadBbt env g 0 s').2.overrun = true := by
    have hpages : (loadPages env g 0 (g.memPageNum - 1).toNat 1 (copyPage g 0 g.blankBbt s').1
        (copyPage g 0 g.blankBbt s').2).2.overrun = true := loadPages_overrun hcopy
    unfold loadBbt
    simp only []
    split <;> simp_all [Nand.setBbt]
  exact absurd (hscan ▸ h.overrun) (by rw [hload]; decide)

theorem persistSafe_iff (hbbt : s.bbt.length = g.rba) : PersistSafe env g s ↔
    0 < g.rba ∧ 8 * g.rba ≤ 2 * g.pageSize ∧
      (g.copyB1 env s.databuf (bbtBytes s.bbt)).flatten.take (8 * g.rba) = bbtBytes s.bbt := by
  have hlen : (bbtBytes s.bbt).length = 8 * g.rba := by rw [length_bbtBytes, hbbt]
  refine and_congr_right fun _ => ?_
  rw [← hlen]
  by_cases hone : (bbtBytes s.bbt).length ≤ g.pageSize
  · have hfit := fitsPage_iff.2 hone
    rw [and_iff_right hone, or_iff_left fun h => absurd h.1 (not_lt.2 hone),
      and_iff_right (by omega), copyB1, furtherPages, if_pos hfit, if_pos hfit,
      flatten_singleton]
  · rw [or_iff_right fun h => hone h.1]
    rw [not_le] at hone
    rw [and_iff_right hone]
    refine and_congr_right fun htwo => ?_
    rw [copyB1_flatten htwo hone, secondPage_eq hone.le htwo]

section Updated

variable {env' : Env} {s' : Nand} (hmcp : env'.mcp = env.mcp) (hppb : 1 < g.ppb)
  (hoob : 0 < g.oobSize)
  (hok : env.OkFrom s.log.length) (hbbt : s.bbt.length = g.rba)
  (hbuf : s.databuf.length = g.pageSize) (hpos : 0 < g.rba) (htwo : 8 * g.rba ≤ 2 * g.pageSize)
  (hb : Restarted s')

include hmcp hppb hoob hok hbbt hbuf hpos htwo hb

/-- The scan gives the table back from block 0. -/
theorem updated_fromB0
    (hflash : ∀ p, p / g.ppb = 0 → s'.flash 0 p = (rtkUpdateBbt env g s).2.flash 0 p)
    (hok' : env'.OkFrom s'.log.length) : Restores env' g s.bbt s' := by
  have hlen : (bbtBytes s.bbt).length = 8 * g.rba := by rw [length_bbtBytes, hbbt]
  have hpages := ((rtkUpdateBbt_holds hppb hoob hok).1.of_mcp hmcp).of_flash fun i hi =>
    hflash (0 + i) (by rw [zero_add, div_eq_of_lt (lt_ppb_of_copy hppb hi)])
  obtain ⟨s1, hscan, hbuf1, hb1, hflash1, hok1⟩ :=
    scan_fromB0 hb hok' (hpages 0 (succ_pos _))
  refine (restores_iff hscan hb1 hok1 (hpages.of_flash fun i _ => by rw [hflash1]) hbuf1
    (length_copyB0 hbuf (hlen.trans_le htwo)) hbbt hpos htwo).2 ?_
  exact hlen ▸ copyB0_flatten hbuf (hlen.trans_le htwo)

/-- What it gives back from block 1. -/
theorem updated_fromB1_iff
    (hflash : ∀ p, p / g.ppb = 1 → s'.flash 0 p = (rtkUpdateBbt env g s).2.flash 0 p)
    (hlost : B0Lost env' g s') (hok' : env'.OkFrom (s'.log.length + 1)) :
    Restores env' g s.bbt s' ↔
      (g.copyB1 env s.databuf (bbtBytes s.bbt)).flatten.take (8 * g.rba) = bbtBytes s.bbt := by
  have hpages := ((rtkUpdateBbt_holds hppb hoob hok).2.1.of_mcp hmcp).of_flash fun i hi =>
    hflash (g.ppb + i) (by
      rw [add_div_left _ g.ppb_pos, div_eq_of_lt (lt_ppb_of_copy hppb hi)])
  obtain ⟨s1, hscan, hbuf1, hb1, hflash1, hok1⟩ :=
    scan_fromB1 hb hlost hok' (hpages 0 (succ_pos _))
  exact restores_iff hscan hb1 hok1 (hpages.of_flash fun i _ => by rw [hflash1]) hbuf1
    (length_copyB1 hbuf) hbbt hpos htwo

end Updated

/-- The environment in which operation `n` is interrupted and every other one completes. -/
def Env.interrupting (mcp : Option McpAesEcb) (n : ℕ) : Env :=
  ⟨fun m => if m = n then .interrupted else .ok, fun _ _ => ⟨[], []⟩, mcp⟩

theorem b0Lost_interrupting (mcp : Option McpAesEcb) (g : Geometry) (s : Nand) :
    B0Lost (.interrupting mcp s.log.length) g s := by
  refine .inl ?_
  simp only [readEccPageBuf, readEccPage, Env.interrupting, if_true, plainRc]
  decide

/-- After the update the read of page 0 is interrupted, and the table comes from block 1. -/
theorem Persists.interrupted (h : Persists env g s) {n : ℕ}
    (hn : (rtkUpdateBbt env g s).2.log.length = n) {mcp : Option McpAesEcb} (hmcp : env.mcp = mcp) :
    Restores (.interrupting mcp n) g s.bbt ((rtkUpdateBbt env g s).2.select 0) := by
  subst hn hmcp
  exact h.fromB1 _ _ rfl ⟨rfl, h.overrun⟩ (fun _ _ => rfl)
    (b0Lost_interrupting env.mcp g ((rtkUpdateBbt env g s).2.select 0))
    fun _ hm => if_neg (ne_of_gt hm)

/-- The table survives exactly if it has one page, or two that are the same, and encryption does
not change its first page. -/
theorem bbt_persists_iff (hg : g.Accepted) (hbbt : s.bbt.length = g.rba)
    (hbuf : s.databuf.length = g.pageSize) (hover : s.overrun = false)
    (hok : env.OkFrom s.log.length) : Persists env g s ↔ PersistSafe env g s := by
  have hppb := hg.supported.one_lt_ppb
  have hoob := hg.oobSize_pos
  have hlen : (bbtBytes s.bbt).length = 8 * g.rba := by rw [length_bbtBytes, hbbt]
  obtain ⟨hB0, -, hover', -⟩ := rtkUpdateBbt_holds hppb hoob hok
  rw [hover, Bool.false_or, hlen] at hover'
  rw [persistSafe_iff hbbt]
  refine ⟨fun h => ?_, fun ⟨hpos, htwo, hcopy⟩ => ⟨?_, ?_, ?_⟩⟩
  · -- the driver after the update, with chip 0 enabled again
    let s' := (rtkUpdateBbt env g s).2.select 0
    have hb : Restarted s' := ⟨rfl, h.overrun⟩
    have hpos : 0 < g.rba := by
      refine Nat.pos_of_ne_zero fun hzero => ?_
      have hall : env.OkFrom s'.log.length := (rtkUpdateBbt_steady env g s).okFrom hok
      refine not_restores_of_rba_eq_zero hzero hb hall
        ((hB0 0 (succ_pos _)).of_flash rfl) s.bbt ?_
      exact h.fromB0 _ _ rfl hb (fun _ _ => rfl) hall
    have htwo : 8 * g.rba ≤ 2 * g.pageSize := by
      rw [h.overrun] at hover'
      by_contra hlt
      have hone : g.fitsPage (bbtBytes s.bbt) = false :=
        fitsPage_eq_false.2 (by rw [hlen]; omega)
      rw [hone, decide_eq_true (not_le.1 hlt)] at hover'
      exact absurd hover' (by decide)
    refine ⟨hpos, htwo, ?_⟩
    have hmcp : (Env.interrupting env.mcp s'.log.length).mcp = env.mcp := rfl
    exact (updated_fromB1_iff hmcp hppb hoob hok hbbt hbuf hpos htwo hb (fun _ _ => rfl)
      (b0Lost_interrupting env.mcp g s') fun _ hm => if_neg (ne_of_gt hm)).1
      (h.interrupted rfl rfl)
  · rw [hover', decide_eq_false (not_lt.2 htwo), Bool.and_false]
  · intro env' s' hmcp hb hflash hok'
    exact updated_fromB0 hmcp hppb hoob hok hbbt hbuf hpos htwo hb hflash hok'
  · intro env' s' hmcp hb hflash hlost hok'
    exact (updated_fromB1_iff hmcp hppb hoob hok hbbt hbuf hpos htwo hb hflash hlost hok').2 hcopy

/-- The chip `K9K8G08U0A`, of 1 GB, whose table has two pages. -/
def k9k8g08u0a : Geometry :=
  ⟨11, 17, 30, 64, 1, false, k9f1g08u0b.pageShift_le, by decide⟩

/-- The table of a `K9F1G08U0B`, which has one page, comes back. -/
theorem bbt_persists_of_k9f1g08u0b :
    Persists .allOk k9f1g08u0b (.fresh k9f1g08u0b (spareEntries 1023 51)) :=
  (bbt_persists_iff ⟨4, oneChip ⟨0xEC, 0xF1, 0x00, 0x95, 0x40⟩, by decide +kernel⟩
    (by decide +kernel) (by decide +kernel) rfl fun _ _ => rfl).2
    ⟨by decide, .inl ⟨by decide, by decide +kernel⟩⟩

/-- The driver with one bad block on this chip. -/
def twoPageTable : Nand :=
  .fresh k9k8g08u0a (⟨0, 200, 0, 8191⟩ :: spareEntries 8190 408)

/-- The table is written and the read of page 0 is then interrupted. The table that is loaded
from block 1 starts with the entry that belongs in the second page, and the bad block is lost.
With encryption a table of one page is lost as well. -/
theorem bbt_not_persists :
    k9k8g08u0a.Accepted ∧ twoPageTable.bbt.length = k9k8g08u0a.rba ∧
      (rtkUpdateBbt .allOk k9k8g08u0a twoPageTable).1 = 0 ∧
      (rtkNandScanBbt (.interrupting none 6) k9k8g08u0a
          ((rtkUpdateBbt .allOk k9k8g08u0a twoPageTable).2.select 0)).2.bbt.head? =
        twoPageTable.bbt[256]? ∧
      twoPageTable.bbt.head? ≠ twoPageTable.bbt[256]? ∧
      ¬Persists .allOk k9k8g08u0a twoPageTable ∧
      ¬Persists { Env.allOk with mcp := some .inverting } k9f1g08u0b newChip := by
  have hlog : (rtkUpdateBbt .allOk k9k8g08u0a twoPageTable).2.log.length = 6 := by decide +kernel
  have hhead : (rtkNandScanBbt (.interrupting none 6) k9k8g08u0a
      ((rtkUpdateBbt .allOk k9k8g08u0a twoPageTable).2.select 0)).2.bbt.head? =
        twoPageTable.bbt[256]? := by
    decide +kernel
  have hne : twoPageTable.bbt.head? ≠ twoPageTable.bbt[256]? := by decide +kernel
  refine ⟨⟨4, oneChip ⟨0xEC, 0xD3, 0x51, 0x95, 0x58⟩, by decide +kernel⟩, by decide +kernel,
    by decide +kernel, hhead, hne, fun h => hne ?_, fun h => ?_⟩
  · rwa [(h.interrupted hlog (show Env.allOk.mcp = none from rfl)).bbt] at hhead
  · exact absurd (congrArg List.head? (h.interrupted rfl rfl).bbt) (by decide +kernel)

end Persistence

end OpenHMR
