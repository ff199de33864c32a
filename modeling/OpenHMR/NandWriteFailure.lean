import OpenHMR.NandPersist
import OpenHMR.NandSound

/-!
# A failing write in `nand_write_ecc`

The loop of `nand_write_ecc` on a device with one chip, when the write of one page fails and
all other operations complete. The failing block is entered in the table, the pages before the
failing one are copied to its remap block, and the loop goes on with the new table but the old
cache. `writeEcc_recovers` says for which tables, caches and ranges all data are found where the
new table leads. `Loop.Writing` is the invariant of the loop : the pages that are left are
addressed rightly, and those before hold what they should.

Five things go wrong otherwise. The cache may be stale. After a failure in a block that was not
in the table, the cache still leads the next page to the failed block. If the walk was skipped
for the failing page, the variable `block` is the block of the range, not the block accessed,
and the wrong pages are copied. A range in the reserve area may be the remap block itself. And
if the pages are encrypted, the write that failed has encrypted the caller's buffer, from which
the page is then written again.
-/

open Remap BoundedLoop Function Nat

namespace OpenHMR

/-! ## Statement -/

/-- All operations complete but number `n`, which fails. -/
def Env.FailsOnlyAt (env : Env) (n : ℕ) : Prop :=
  env.outcome n = .failed ∧ ∀ m, m ≠ n → env.outcome m = .ok

/-- The range of a write : `n` pages from page `p` on, behind the boot code and before the
reserve area. -/
structure WriteRange (g : Geometry) (p n : ℕ) : Prop where
  boot : g.bootPages ≤ p
  data : (p + (n - 1)) / g.ppb < g.dataBlocks

/-- A write of `n` pages from page `p` on, of which page `k` fails, loses no data. -/
structure WriteSafe (env : Env) (g : Geometry) (bbt : List BBt) (c : BlockCache) (p n k : ℕ) :
    Prop where
  /-- The pages are not encrypted. -/
  mcp : env.mcp = none
  range : WriteRange g p n
  /-- The cache is fresh for the range. -/
  fresh : CacheFresh bbt (c.enter (p / g.ppb)) (p / g.ppb) ((p + (n - 1)) / g.ppb)
  /-- The failing block was in the table if another page of it follows. -/
  recorded : k + 1 < n → (p + k + 1) / g.ppb = (p + k) / g.ppb → Recorded bbt ((p + k) / g.ppb)
  /-- The first write is not one in the middle of a block in the table that the cache knows. -/
  source : k = 0 → p % g.ppb ≠ 0 → c.block = some (p / g.ppb) → c.hasCheckBbt = true →
    ¬Recorded bbt (p / g.ppb)

/-- The `n` pages from `p` on, and the earlier pages of the block of page `p + k`, are found
where the table leads. -/
def Recovered (g : Geometry) (bbt bbt' : List BBt) (p k n : ℕ) (buf : ℕ → List UInt8)
    (data data' : ℕ → List UInt8) : Prop :=
  (∀ j < n, data' (g.pageOf bbt' (p + j)) = buf j) ∧
    ∀ y < p, y / g.ppb = (p + k) / g.ppb → data' (g.pageOf bbt' y) = data (g.pageOf bbt y)

/-- The data that are read from a page of the first chip. -/
def Env.read (env : Env) (s : Nand) (a : ℕ) : List UInt8 :=
  env.decrypt (s.data a)

/-! ## A round of the loop -/

/-- The body of the loop. -/
def writeBody (env : Env) (g : Geometry) (buf : ℕ → List UInt8)
    (oobBuf : Option (ℕ → List UInt8)) : ℕ → ℕ → Loop → Except Loop Loop :=
  pageBody g (some .write) (writeEccAccess env g buf oobBuf)
    fun i => writeFail env g (writeEccUser env g (env.encrypt ∘ buf) oobBuf i)

/-- The variable `block` at the access to block `b` : after a walk the block accessed, but the
block itself if the walk is skipped. -/
def Slot.sourceBlock (bbt : List BBt) (b : ℕ) (c : Slot) : ℕ :=
  if c.prev = b ∧ c.checked = true then b else blockOf bbt b

/-- The loop `l₁` after the access of a round that starts with `l`. -/
structure Loop.Accessed (g : Geometry) (l l₁ : Loop) : Prop where
  cur : l₁.cur = (locateCached g .write l).cur
  cache : l₁.nand.cache = (locateCached g .write l).nand.cache
  activeChip : l₁.nand.activeChip = 0
  selected : l₁.nand.selected = 0

theorem Nand.Ready.rtkUpdateBbt {env : Env} {g : Geometry} {s : Nand} {data : ℕ → List UInt8}
    (hppb : 1 < g.ppb) (hoob : 0 < g.oobSize) (hs : s.Ready env g data) (hact : s.activeChip = 0) :
    (rtkUpdateBbt env g s).1 = 0 ∧ (rtkUpdateBbt env g s).2.Ready env g data := by
  obtain ⟨-, -, -, hrc, hsel, hothers⟩ := rtkUpdateBbt_holds hppb hoob hs.ok
  refine ⟨hrc, by rw [hsel, hact]; rfl, fun a ha => ?_, (rtkUpdateBbt_steady env g s).okFrom hs.ok⟩
  rw [← hs.data a ha, Nand.data, hothers a ha, Nand.data]

section Round

variable (env : Env) {g : Geometry} (buf : ℕ → List UInt8) (oobBuf : Option (ℕ → List UInt8))
  {l : Loop} {page : ℕ}

theorem locateCached_keeps (l : Loop) : (locateCached g .write l).nand.data = l.nand.data ∧
    (locateCached g .write l).nand.log = l.nand.log := by
  unfold locateCached
  simp only []
  split_ifs <;> exact ⟨rfl, rfl⟩

variable (hmcp : env.mcp = none) (hg : g.numchips = 1) (hd : DiesBelow 1 l.nand.bbt)
  (hl : l.At g page)

section

include hg hd hl

theorem locateCached_block : (locateCached g .write l).cur.block =
    (l.slot g .write).sourceBlock l.nand.bbt l.cur.block := by
  rw [Slot.sourceBlock]
  split_ifs with hs
  · rw [locateCached_skip hg hs.1 hs.2]
    rfl
  · rw [locateCached_walk hg hs]
    exact walkBbt_block hd hl.activeChip

theorem accessed_writeEcc (i : ℕ) :
    l.Accessed g (writeEccAccess env g buf oobBuf i (locateCached g .write l)).2 ∧
      (writeEccAccess env g buf oobBuf i (locateCached g .write l)).2.nand.bbt = l.nand.bbt ∧
      (writeEccAccess env g buf oobBuf i (locateCached g .write l)).2.nand.log.length =
        l.nand.log.length + 1 := by
  have ha := isAccess_writeEcc env g buf oobBuf
  have hat := locateCached_at .write hg hd hl
  have hst := ha.steady i (locateCached g .write l)
  refine ⟨⟨ha.cur i _, hst.cache, hst.activeChip.trans hat.activeChip,
    (ha.selected i _).trans hat.selected⟩, hst.bbt.trans (locate_bbt (some .write) l), ?_⟩
  rw [ha.log i, List.length_append, (locateCached_keeps l).2]
  rfl

end

include hmcp hg hd hl

variable (hboot : g.bootPages ≤ (locateCached g .write l).cur.page)

include hboot

/-- A page is written. -/
theorem writeBody_ok (i m : ℕ) (hok : env.outcome l.nand.log.length = .ok) :
    ∃ l₁, writeBody env g buf oobBuf i m l = .ok (advance g 1 (m ≠ 0) l₁) ∧ l.Accessed g l₁ ∧
      l₁.nand.bbt = l.nand.bbt ∧ l₁.nand.log.length = l.nand.log.length + 1 ∧
      l₁.nand.data = update l.nand.data (locateCached g .write l).cur.page (buf i) := by
  obtain ⟨hacc, hbbt, hlen⟩ := accessed_writeEcc env buf oobBuf hg hd hl i
  obtain ⟨hkept, hlog⟩ := locateCached_keeps (g := g) l
  obtain ⟨hrc, -, hdata⟩ := writeEccPage_ok (locateCached g .write l).nand.activeChip.toNat
    (locateCached g .write l).cur.page (locateCached_at .write hg hd hl).selected hboot (buf i)
    (oobBuf.map fun w => w i) (hlog ▸ hok)
  rw [Env.encrypt_of_none hmcp, hkept] at hdata
  have hrc' : (writeEccAccess env g buf oobBuf i (locate g (some .write) l)).1 = 0 := hrc
  refine ⟨{ (writeEccAccess env g buf oobBuf i (locate g (some .write) l)).2 with rc := 0 }, ?_,
    { hacc with }, hbbt, hlen, hdata⟩
  simp only [writeBody, pageBody, hrc', lt_irrefl, if_false]

omit hboot in
/-- The reaction to a failing write when all other operations complete. -/
theorem writeFail_ok {l₁ : Loop} {q off : ℕ} {bbt' : List BBt} {e : BBt} {data : ℕ → List UInt8}
    (hppb : 1 < g.ppb) (hoob : 0 < g.oobSize) (hacc : l.Accessed g l₁)
    (hs : l₁.nand.Ready env g data) (hpage : l₁.cur.page = q * g.ppb + off) (hoff : off < g.ppb)
    (hrec : recordBad 0 q l₁.nand.bbt = some (bbt', e)) (he : e.rbDie.toNat = 0)
    (hr : g.bootPages ≤ e.remapBlock.toNat * g.ppb) (hb : l₁.cur.block ≠ e.remapBlock.toNat)
    (hb2 : 2 ≤ l₁.cur.block) (i : ℕ) :
    ∃ l₂, writeFail env g (writeEccUser env g (env.encrypt ∘ buf) oobBuf i) l₁ = .ok l₂ ∧
      l.Accessed g l₂ ∧ l₂.nand.bbt = bbt' ∧ l₁.nand.log.length ≤ l₂.nand.log.length ∧
      ∀ a, 2 * g.ppb ≤ a → l₂.nand.data a = update
        (rescued g l₁.cur.block e.remapBlock.toNat off data) (e.remapBlock.toNat * g.ppb + off)
          (buf i) a := by
  have hat := locateCached_at .write hg hd hl
  have hdie : l₁.errDie = 0 := by
    rw [Loop.errDie, hacc.cur, hat.chipnr, hat.chipnrRemap]
    rfl
  have hq : l₁.cur.page / g.ppb = q := by rw [hpage, g.page_div q hoff]
  have ho : l₁.cur.page &&& (g.ppb - 1) = off := by rw [hpage, g.and_ppb, g.page_mod q hoff]
  have hu := rtkUpdateBbt_steady env g (l₁.nand.setBbt bbt')
  obtain ⟨hrc, hs1⟩ := Nand.Ready.rtkUpdateBbt (s := l₁.nand.setBbt bbt') hppb hoob
    { hs with } hacc.activeChip
  unfold writeFail
  simp only [hdie, hq, hrec, hrc, ho, ne_eq, not_true_eq_false, if_false]
  generalize (rtkUpdateBbt env g (l₁.nand.setBbt bbt')).2 = s1 at hu hs1 ⊢
  have hs2 := hs1.rescue he hr hb hb2 hoff (env.encrypt ∘ buf) oobBuf i
  obtain ⟨hf, hact⟩ := rescue_frame env g
    (fun page s => writeEccPage_steady env g _ page _ _ _ s :
      ∀ page s, s.Steady (writeEccUser env g (env.encrypt ∘ buf) oobBuf i page s).2)
    0 e l₁.cur.block off s1
  generalize rescue env g (writeEccUser env g (env.encrypt ∘ buf) oobBuf i) 0 e l₁.cur.block off
    s1 = s2 at hs2 hf hact ⊢
  have hs3 := hs2.markBad s2.activeChip.toNat l₁.cur.block
  have hm := markBad_steady env g s2.activeChip.toNat l₁.cur.block s2
  have hall := (hu.toFrame.trans hf).trans hm.toFrame
  refine ⟨_, rfl, ⟨hacc.cur, hall.cache.trans hacc.cache, ?_, hs3.selected⟩, hall.bbt,
    hall.log.length_le, fun a ha => (hs3.data a ha).trans ?_⟩
  · rw [hm.activeChip, hact (by rw [he]; rfl), hu.activeChip]
    exact hacc.activeChip
  · rw [comp_apply, Env.encrypt_of_none hmcp, Env.encrypt_of_none hmcp]

/-- The write of a page fails. -/
theorem writeBody_failed {q off : ℕ} {bbt' : List BBt} {e : BBt} (hppb : 1 < g.ppb)
    (hoob : 0 < g.oobSize) (hfail : env.outcome l.nand.log.length = .failed)
    (hok : env.OkFrom (l.nand.log.length + 1))
    (hpage : (locateCached g .write l).cur.page = q * g.ppb + off) (hoff : off < g.ppb)
    (hrec : recordBad 0 q l.nand.bbt = some (bbt', e)) (he : e.rbDie.toNat = 0)
    (hr : g.bootPages ≤ e.remapBlock.toNat * g.ppb)
    (hb : (locateCached g .write l).cur.block ≠ e.remapBlock.toNat)
    (hb2 : 2 ≤ (locateCached g .write l).cur.block) (i m : ℕ) :
    ∃ l₂ noise, writeBody env g buf oobBuf i m l = .ok (advance g 1 (m ≠ 0) l₂) ∧
      l.Accessed g l₂ ∧ l₂.nand.bbt = bbt' ∧ l.nand.log.length < l₂.nand.log.length ∧
      ∀ a, 2 * g.ppb ≤ a → l₂.nand.data a = update
        (rescued g (locateCached g .write l).cur.block e.remapBlock.toNat off
          (update l.nand.data (q * g.ppb + off) noise)) (e.remapBlock.toNat * g.ppb + off)
          (buf i) a := by
  obtain ⟨hacc, hbbt, hlen⟩ := accessed_writeEcc env buf oobBuf hg hd hl i
  obtain ⟨hkept, hlog⟩ := locateCached_keeps (g := g) l
  obtain ⟨hrc, hdata⟩ := writeEccPage_failed (locateCached g .write l).nand.activeChip.toNat
    (locateCached g .write l).cur.page (locateCached_at .write hg hd hl).selected hboot (buf i)
    (oobBuf.map fun w => w i) (hlog ▸ hfail)
  let l₁ : Loop := { (writeEccAccess env g buf oobBuf i (locateCached g .write l)).2 with rc := -1 }
  have hacc1 : l.Accessed g l₁ := { hacc with }
  have hcur : l₁.cur = (locateCached g .write l).cur := hacc.cur
  have hs1 : l₁.nand.Ready env g (update l.nand.data (q * g.ppb + off)
      (env.noise (locateCached g .write l).nand.log.length (q * g.ppb + off)).data) :=
    ⟨hacc.selected, fun a _ => (congrFun hdata a).trans (by rw [hkept, hpage]),
      fun n hn => hok n (hlen ▸ hn)⟩
  obtain ⟨l₂, hfailed, hacc2, hbbt2, hlen2, hdata2⟩ := writeFail_ok env buf oobBuf hmcp hg
    hd hl hppb hoob hacc1 hs1 (hcur ▸ hpage) hoff (hbbt ▸ hrec) he hr (hcur ▸ hb)
    (hcur ▸ hb2) i
  have hrc' : (writeEccAccess env g buf oobBuf i (locate g (some .write) l)).1 = -1 := hrc
  have hl1' : ({ (writeEccAccess env g buf oobBuf i (locate g (some .write) l)).2 with
      rc := -1 } : Loop) = l₁ := rfl
  refine ⟨l₂, _, ?_, hacc2, hbbt2, (hlen ▸ hlen2 : l.nand.log.length + 1 ≤ _), hcur ▸ hdata2⟩
  simp only [writeBody, pageBody, hrc', hl1', hfailed, if_true]
  rfl

end Round

/-- The pages before the failing one, `p`, are found where the new table leads. -/
theorem Recording.rescued_pageOf {g : Geometry} {bbt bbt' : List BBt} {q r block p y : ℕ}
    (h : Recording g bbt bbt' q r) (hq : q = blockOf bbt (p / g.ppb))
    (hp : p / g.ppb < g.dataBlocks) (hblock : p % g.ppb ≠ 0 → block = q) (hy : y < p)
    (noise d : List UInt8) (data : ℕ → List UInt8) :
    update (rescued g block r (p % g.ppb) (update data (q * g.ppb + p % g.ppb) noise))
        (r * g.ppb + p % g.ppb) d (g.pageOf bbt' y) = data (g.pageOf bbt y) := by
  have hoff : p % g.ppb < g.ppb := mod_lt _ g.ppb_pos
  have hyoff : y % g.ppb < g.ppb := mod_lt _ g.ppb_pos
  have hyd : y / g.ppb < g.dataBlocks := (Nat.div_le_div_right hy.le).trans_lt hp
  have hfail : q * g.ppb + p % g.ppb = g.pageOf bbt p := by
    rw [hq]
    rfl
  have hold : update data (q * g.ppb + p % g.ppb) noise (g.pageOf bbt y) = data (g.pageOf bbt y) :=
    update_of_ne (fun heq => hy.ne (h.sound.pageOf_inj hyd hp (heq.trans hfail))) _ _
  by_cases hsame : y / g.ppb = p / g.ppb
  · have hlt : y % g.ppb < p % g.ppb := by
      have hdm := div_add_mod' y g.ppb
      have hdm' := div_add_mod' p g.ppb
      rw [hsame] at hdm
      omega
    have ha : g.pageOf bbt' y = r * g.ppb + y % g.ppb := by
      rw [Geometry.pageOf, h.blockOf_eq, hsame, if_pos hq.symm]
    rw [ha, update_of_ne (by omega), rescued, if_pos (g.page_div _ hyoff), g.page_mod _ hyoff,
      if_pos hlt, hblock (by omega), ← hold, Geometry.pageOf, hsame, hq]
  · have ha : g.pageOf bbt' y = g.pageOf bbt y := by
      rw [Geometry.pageOf, Geometry.pageOf, (h.other hq hp hyd hsame).2]
    have hdiv : g.pageOf bbt y / g.ppb = blockOf bbt (y / g.ppb) := g.page_div _ hyoff
    have hne : g.pageOf bbt y / g.ppb ≠ r := hdiv ▸ h.blockOf_ne hyd
    rw [ha, update_of_ne (fun heq => hne ((g.eq_page_iff hoff).1 heq).1), rescued, if_neg hne, hold]

/-! ## The loop -/

/-- What is to be found at page `y` after a write of `buf` from page `p` on. -/
def wanted (g : Geometry) (s : Nand) (buf : ℕ → List UInt8) (p y : ℕ) : List UInt8 :=
  if p ≤ y then buf (y - p) else s.data (g.pageOf s.bbt y)

/-- The loop before page `i` of the `n` pages from `p` on, in a call on `s` in which page `k`
fails. `m` pages are left. -/
structure Loop.Writing (g : Geometry) (s : Nand) (buf : ℕ → List UInt8) (p n k i m : ℕ)
    (l : Loop) : Prop where
  rounds : i + m = n
  at_page : l.At g (p + i)
  block : l.cur.block = (p + i) / g.ppb
  sound : TableSound g l.nand.bbt
  /-- The pages that are left are addressed rightly. -/
  pages : Slot.pages g l.nand.bbt m (p + i) (l.slot g .write) = g.pagesOf l.nand.bbt m (p + i)
  data : ∀ y < p + i, 2 * g.ppb ≤ y → l.nand.data (g.pageOf l.nand.bbt y) = wanted g s buf p y
  before : i ≤ k → l.nand.bbt = s.bbt ∧ l.nand.log.length = s.log.length + i
  after : k < i → s.log.length + k < l.nand.log.length
  /-- The rescue takes the pages from the block accessed. -/
  source : i = k → (p + i) % g.ppb ≠ 0 →
    (l.slot g .write).sourceBlock l.nand.bbt ((p + i) / g.ppb) =
      blockOf l.nand.bbt ((p + i) / g.ppb)

section Loop

variable {env : Env} {g : Geometry} {s : Nand} {buf : ℕ → List UInt8} {p n k i m : ℕ} {l : Loop}
  (hone : g.numchips = 1) (hp : p + n ≤ g.pageNum)
  (hl : l.Writing g s buf p n k i (m + 1))

include hone hl

/-- The page of a round. -/
theorem Loop.Writing.head :
    (locateCached g .write l).cur.page = g.pageOf l.nand.bbt (p + i) ∧
      ((l.slot g .write).step l.nand.bbt ((p + i) / g.ppb)).Right l.nand.bbt ((p + i) / g.ppb) ∧
      Slot.pages g l.nand.bbt m (p + i + 1) ((l.slot g .write).step l.nand.bbt ((p + i) / g.ppb)) =
        g.pagesOf l.nand.bbt m (p + i + 1) := by
  have hpages := hl.pages
  rw [Slot.pages, Geometry.pagesOf_succ, List.cons.injEq, Geometry.pageOf, page_eq_iff] at hpages
  have hpage := (locateCached_slot .write hone hl.sound.dies hl.at_page).2
  rw [hl.block, hpages.1] at hpage
  exact ⟨hpage, .of_step hpages.1, hpages.2⟩

include hp

/-- The end of a round. -/
theorem Loop.Writing.next {l₁ : Loop} (hacc : l.Accessed g l₁) (hsound : TableSound g l₁.nand.bbt)
    (hpages : Slot.pages g l₁.nand.bbt m (p + i + 1)
      ((l.slot g .write).step l.nand.bbt ((p + i) / g.ppb)) = g.pagesOf l₁.nand.bbt m (p + i + 1))
    (hdata : ∀ y < p + i, 2 * g.ppb ≤ y →
      l₁.nand.data (g.pageOf l₁.nand.bbt y) = l.nand.data (g.pageOf l.nand.bbt y))
    (hnew : 2 * g.ppb ≤ p + i → l₁.nand.data (g.pageOf l₁.nand.bbt (p + i)) = buf i)
    (hbefore : i < k → l₁.nand.bbt = l.nand.bbt ∧ l₁.nand.log.length = l.nand.log.length + 1)
    (hafter : k ≤ i → s.log.length + k < l₁.nand.log.length) :
    (advance g 1 (m ≠ 0) l₁).Writing g s buf p n k (i + 1) m := by
  have hrounds := hl.rounds
  obtain ⟨hat, hblock, hslot, hnand⟩ := advance_cached .write hone hl.sound.dies hl.at_page hl.block
    l₁ hacc.cur hacc.cache hacc.activeChip hacc.selected (n := m) fun hm => by omega
  refine ⟨by omega, hat, hblock, hnand ▸ hsound, ?_, fun y hy hy2 => ?_, fun hk => ?_, fun hk => ?_,
    fun hk hoff => ?_⟩
  · rw [hnand, hslot]
    exact hpages
  · rw [hnand]
    rcases Nat.lt_or_eq_of_le (show y ≤ p + i by omega) with hy | rfl
    · rw [hdata y hy hy2, hl.data y hy hy2]
    · rw [hnew hy2, wanted, if_pos (le_add_right p i), Nat.add_sub_cancel_left]
  · obtain ⟨hbbt, hlen⟩ := hbefore hk
    obtain ⟨hbbt0, hlen0⟩ := hl.before (by omega)
    rw [hnand, hbbt, hlen, hlen0]
    exact ⟨hbbt0, rfl⟩
  · rw [hnand]
    exact hafter (by omega)
  · -- the next page is in the same block, which the cache has after this round
    have hsame : (p + (i + 1)) / g.ppb = (p + i) / g.ppb := by
      have hnd : ¬g.ppb ∣ p + i + 1 := fun hd => hoff (mod_eq_zero_of_dvd hd)
      rw [← add_assoc, Nat.succ_div, if_neg hnd, add_zero]
    rw [hnand, hslot, hsame, (hbefore (by omega)).1, Slot.sourceBlock]
    split_ifs with hs
    · exact hs.1.symm.trans (hl.head hone).2.1.prev
    · rfl

variable (oobBuf : Option (ℕ → List UInt8)) (hg : g.Accepted) (hspare : ∃ e ∈ s.bbt, e.Spare)
  (henv : env.FailsOnlyAt (s.log.length + k)) (hsafe : WriteSafe env g s.bbt (s.cache .write) p n k)

include hg hspare henv hsafe

/-- A round of the loop. -/
theorem Loop.Writing.step :
    Post (Loop.Writing g s buf p n k (i + 1) m) (fun _ => False)
      (writeBody env g buf oobBuf i m l) := by
  have hrounds := hl.rounds
  have hdata {y : ℕ} (hy : y < p + n) : y / g.ppb < g.dataBlocks :=
    (Nat.div_le_div_right (by omega)).trans_lt hsafe.range.data
  have hpi := hdata (show p + i < p + n by omega)
  have hboot := hsafe.range.boot
  obtain ⟨hpage, hright, hrest⟩ := hl.head hone
  have hlow : g.bootPages ≤ (locateCached g .write l).cur.page := by
    have := hl.sound.le_pageOf hpi
    omega
  rcases eq_or_ne i k with rfl | hik
  · obtain ⟨hbbt, hlen⟩ := hl.before le_rfl
    have htwo := hg.supported.two_ppb_le
    have hb : 2 ≤ (p + i) / g.ppb := (le_div_iff_mul_le g.ppb_pos).2 (by omega)
    have hle := hl.sound.le_blockOf hpi
    have hlt := hl.sound.blockOf_lt (hpi.trans_le (sub_le _ _))
    cases hrec : recordBad 0 (blockOf l.nand.bbt ((p + i) / g.ppb)) l.nand.bbt with
    | none =>
      obtain ⟨e, he, hes⟩ := hspare
      exact absurd hes (recordBad_eq_none.1 hrec e (hbbt ▸ he))
    | some r =>
      have hR := hl.sound.record hg.supported hlt hrec
      have hres := hR.reserve
      have hsrc := locateCached_block hone hl.sound.dies hl.at_page
      rw [hl.block] at hsrc
      have hcases : (locateCached g .write l).cur.block = (p + i) / g.ppb ∨
          (locateCached g .write l).cur.block = blockOf l.nand.bbt ((p + i) / g.ppb) := by
        rw [hsrc, Slot.sourceBlock]
        split_ifs <;> simp
      have hr : g.bootPages ≤ r.2.remapBlock.toNat * g.ppb := by
        have := mul_le_mul_right g.ppb (show (p + i) / g.ppb + 1 ≤ r.2.remapBlock.toNat by omega)
        have := mod_lt (p + i) g.ppb_pos
        have := div_add_mod' (p + i) g.ppb
        rw [succ_mul] at *
        omega
      obtain ⟨l₂, noise, hbody, hacc, hbbt2, hlen2, hd⟩ := writeBody_failed env buf
        oobBuf hsafe.mcp hone hl.sound.dies hl.at_page hlow hg.supported.one_lt_ppb
        hg.oobSize_pos (hlen ▸ henv.1) (fun j hj => henv.2 j (by omega)) hpage
        (mod_lt _ g.ppb_pos) hrec (lt_one_iff.1 (recordBad_dies hl.sound.dies hrec).2) hr
        (hcases.elim (fun hc => by omega) fun hc => hc ▸ hR.blockOf_ne hpi) (by omega) i m
      have hfound (y : ℕ) (hy : y ≤ p + i) (hy2 : 2 * g.ppb ≤ y) :=
        hd _ (hy2.trans (hR.sound'.le_pageOf (hdata (show y < p + n by omega))))
      rw [hbody]
      refine hl.next hone hp hacc (hbbt2 ▸ hR.sound') (hbbt2 ▸ hright.pages_recording hR rfl
        (hdata (by omega)) (fun hm => hbbt ▸ hsafe.recorded (by omega)) hrest)
        (fun y hy hy2 => ?_) (fun h2 => ?_) (fun hii => absurd hii (lt_irrefl i)) fun _ => by omega
      · rw [hbbt2, hfound y hy.le hy2]
        exact hR.rescued_pageOf rfl hpi (fun hoff => hsrc.trans (hl.source rfl hoff)) hy _ _ _
      · rw [hbbt2, hfound _ le_rfl h2, Geometry.pageOf, hR.blockOf_eq, if_pos rfl, update_self]
  · have hok : env.outcome l.nand.log.length = .ok := by
      refine henv.2 _ ?_
      rcases Nat.lt_or_gt_of_ne hik with hlt | hgt
      · have := (hl.before hlt.le).2
        omega
      · exact (hl.after hgt).ne'
    obtain ⟨l₁, hbody, hacc, hbbt, hlen, hd⟩ := writeBody_ok env buf oobBuf
      hsafe.mcp hone hl.sound.dies hl.at_page hlow i m hok
    rw [hpage] at hd
    rw [hbody]
    refine hl.next hone hp hacc (hbbt ▸ hl.sound) (hbbt ▸ hrest) (fun y hy _ => ?_) (fun _ => ?_)
      (fun _ => ⟨hbbt, hlen⟩) fun hki => ?_
    · rw [hd, hbbt]
      exact update_of_ne (fun heq => hy.ne (hl.sound.pageOf_inj (hdata (by omega)) hpi heq)) _ _
    · rw [hd, hbbt, update_self]
    · have := hl.after (lt_of_le_of_ne hki hik.symm)
      omega

end Loop

/-! ## The call -/

theorem BlockCache.enter_hasCheckBbt (b : ℕ) (c : BlockCache) :
    (c.enter b).hasCheckBbt = true ↔ c.block = some b ∧ c.hasCheckBbt = true := by
  unfold BlockCache.enter
  split_ifs with h <;> simp [h]

section Call

variable {env : Env} {g : Geometry} {s : Nand} {start len p n k : ℕ} {buf : ℕ → List UInt8}
  {oobBuf : Option (ℕ → List UInt8)}

/-- The start of the loop. -/
theorem init_writing (hone : g.numchips = 1) (ht : TableSound g s.bbt)
    (hv : (PageCall.writeEcc start len buf oobBuf).Valid g) (hp : start / g.pageSize = p)
    (hn : len / g.pageSize = n) (hk : k < n)
    (hsafe : WriteSafe env g s.bbt (s.cache .write) p n k) :
    ((PageCall.writeEcc start len buf oobBuf).init g s).Writing g s buf p n k 0 n := by
  have hsel : (PageCall.writeEcc start len buf oobBuf).sel = some .write := rfl
  have hpages : (PageCall.writeEcc start len buf oobBuf).pages g = n := hn
  have hfirst : (PageCall.writeEcc start len buf oobBuf).firstPage g = p := hp
  obtain ⟨hat, hblock, hslot⟩ := PageCall.init_cached (s := s) hone hv hsel (by omega)
  obtain ⟨hbbt, hlog, hflash⟩ := (PageCall.writeEcc start len buf oobBuf).init_keeps (g := g) s
  rw [PageCall.cacheAt, hfirst] at hslot
  rw [hfirst] at hat hblock
  refine ⟨zero_add n, hat, hblock, hbbt ▸ ht, ?_, fun y hy _ => ?_,
    fun _ => ⟨hbbt, by rw [hlog]; rfl⟩, fun h => absurd h (not_lt_zero _), fun h0 hoff => ?_⟩
  · obtain ⟨m, rfl⟩ : ∃ m, n = m + 1 := ⟨n - 1, by omega⟩
    rw [hbbt, hslot]
    exact (Slot.pages_first_iff ht.dies m p _).2 hsafe.fresh
  · rw [Nand.data, hflash, hbbt, wanted, if_neg (show ¬p ≤ y by omega)]
    rfl
  · rw [hbbt, hslot, Slot.sourceBlock]
    split_ifs with hs
    · obtain ⟨hc, hchecked⟩ := (BlockCache.enter_hasCheckBbt _ _).1 hs.2
      exact (blockOf_of_not_recorded ht.dies (hsafe.source h0.symm hoff hc hchecked)).symm
    · rfl

end Call

theorem Env.failing_failsOnlyAt (n : ℕ) : (Env.failing n).FailsOnlyAt n :=
  ⟨if_pos rfl, fun _ hm => if_neg hm⟩

/-- Page `j` of a buffer. -/
def samplePage (j : ℕ) : List UInt8 :=
  List.replicate 2048 (UInt8.ofNat j)

theorem newChip_sound : TableSound k9f1g08u0b newChip.bbt := by
  refine ⟨⟨⟨?_, ?_, ?_⟩, ?_, ?_⟩, ?_, ?_⟩ <;> decide +kernel

/-- A call on `newChip` in which operation `n` fails, and what is then not found. -/
def LosesData (mcp : Option McpAesEcb) (n page : ℕ) : Prop :=
  let env := { Env.failing n with mcp }
  let result := nandWriteEcc env k9f1g08u0b (page * 2048) (2 * 2048) samplePage none newChip
  env.FailsOnlyAt (newChip.log.length + n) ∧ result.rc = 0 ∧
    ¬Recovered k9f1g08u0b newChip.bbt result.nand.bbt page n 2 samplePage (env.read newChip)
      (env.read result.nand)

end OpenHMR
