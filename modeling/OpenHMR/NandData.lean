import OpenHMR.NandFrame

/-!
# The data in the flash

What the operations do to the data in the flash of a device with one chip when they complete.
The rescue of a block leaves in the remap block the pages of the block up to the failing one and
the data of that one, and erased pages after it (`Ready.rescue`).
-/

namespace OpenHMR

open Function Nat

/-- All operations from number `n` on complete. -/
def Env.OkFrom (env : Env) (n : ℕ) : Prop :=
  ∀ m, n ≤ m → env.outcome m = .ok

/-- The data of a page of the first chip. -/
def Nand.data (s : Nand) (a : ℕ) : List UInt8 :=
  (s.flash 0 a).data

theorem Nand.Frame.okFrom {env : Env} {s s' : Nand} (hs : s.Frame s')
    (h : env.OkFrom s.log.length) : env.OkFrom s'.log.length :=
  fun n hn => h n (hs.log.length_le.trans hn)

section Operations

variable {env : Env} {g : Geometry} {s : Nand} (chipnr page : ℕ)

/-- What `rtk_read_ecc_page` does if it completes. -/
theorem readEccPageBuf_eq (h : env.outcome s.log.length = .ok) :
    readEccPageBuf env g chipnr page s = (0, { s.logged .readEccPage chipnr page 0 with
      databuf := env.decrypt (s.flash s.selected page).data
      oobbuf := g.readOobFromPP s.hwEcc (s.flash s.selected page).oob s.oobbuf }) := by
  have hrc : g.plainRc (env.outcome s.log.length) chipnr page = 0 := by
    rw [h]
    rfl
  simp only [readEccPageBuf, readEccPage, hrc, if_neg (show (0 : ℤ) ≠ eRestartSys by decide),
    if_pos h, if_true]
  rfl

/-- What `rtk_erase_block` does if it completes. -/
theorem eraseBlock_eq (h : env.outcome s.log.length = .ok) (ha : page % g.ppb = 0) :
    eraseBlock env g chipnr page s = (0, { s.logged .eraseBlock chipnr page 0 with
      flash := update s.flash s.selected fun p =>
        if p / g.ppb = page / g.ppb then g.blank else s.flash s.selected p }) := by
  have hal : page &&& (g.ppb - 1) = 0 := (g.and_ppb page).trans ha
  have hrc : (if env.outcome s.log.length ≠ .interrupted ∧ ¬page &&& (g.ppb - 1) = 0 then -1
      else g.plainRc (env.outcome s.log.length) chipnr page) = 0 := by
    rw [if_neg fun hn => hn.2 hal, h]
    rfl
  have hgo : ¬((0 : ℤ) = eRestartSys ∨ ¬page &&& (g.ppb - 1) = 0) := by
    rw [not_or, not_not]
    exact ⟨by decide, hal⟩
  have hmem (p : ℕ) : page ≤ p ∧ p < page + g.ppb ↔ p / g.ppb = page / g.ppb := by
    rw [Nat.div_eq_iff g.ppb_pos, Nat.div_mul_cancel (Nat.dvd_of_mod_eq_zero ha)]
    have := g.ppb_pos
    omega
  unfold eraseBlock
  simp only [hrc, if_neg hgo]
  simp only [hmem, h, if_true]
  rfl

theorem program_data {s1 : Nand} (hf : s1.flash = s.flash) (hs : s1.selected = 0)
    (content : PageContent) :
    (s1.program page content).data = update s.data page content.data := by
  funext a
  simp only [Nand.data, Nand.program, hs, hf, update_self]
  by_cases ha : a = page
  · rw [ha, update_self, update_self]
  · rw [update_of_ne ha, update_of_ne ha, Nand.data]

theorem bootArea_eq_false (hp : g.bootPages ≤ page) : g.bootArea chipnr page = false := by
  rw [Geometry.bootArea, decide_eq_false (not_lt.2 hp), Bool.and_false]

variable (hs : s.selected = 0) (hp : g.bootPages ≤ page) (data : List UInt8)
  (oobBuf : Option (List UInt8))

include hs hp

/-- A write that completes, behind the boot code. -/
theorem writeEccPage_ok (h : env.outcome s.log.length = .ok) :
    (writeEccPage env g chipnr page data oobBuf false s).1 = 0 ∧
      (writeEccPage env g chipnr page data oobBuf false s).2.selected = 0 ∧
      (writeEccPage env g chipnr page data oobBuf false s).2.data =
        update s.data page (env.encrypt data) := by
  have hrc : g.writeRc (env.outcome s.log.length) chipnr page
      (false && decide (page < 2 * g.ppb)) = 0 := by
    rw [h, Geometry.writeRc, bootArea_eq_false chipnr page hp]
    rfl
  simp only [writeEccPage, hrc, if_true]
  split_ifs <;> exact ⟨trivial, hs, program_data page rfl hs _⟩

/-- A write that fails leaves anything in its page. -/
theorem writeEccPage_failed (h : env.outcome s.log.length = .failed) :
    (writeEccPage env g chipnr page data oobBuf false s).1 = -1 ∧
      (writeEccPage env g chipnr page data oobBuf false s).2.data =
        update s.data page (env.noise s.log.length page).data := by
  have hrc : g.writeRc (env.outcome s.log.length) chipnr page
      (false && decide (page < 2 * g.ppb)) = -1 := by
    rw [h, Geometry.writeRc, bootArea_eq_false chipnr page hp]
    rfl
  simp only [writeEccPage, hrc, if_neg (show (-1 : ℤ) ≠ 0 by decide), if_true]
  split_ifs <;> exact ⟨trivial, program_data page rfl hs _⟩

end Operations

/-! ## The rescue of a block -/

/-- The first chip is enabled, its pages after the first two blocks hold `data`, and all
operations to come complete. -/
structure Nand.Ready (env : Env) (g : Geometry) (data : ℕ → List UInt8) (s : Nand) : Prop where
  selected : s.selected = 0
  data : ∀ a, 2 * g.ppb ≤ a → s.data a = data a
  ok : env.OkFrom s.log.length

/-- The data after `n` pages of the backup. -/
def rescued (g : Geometry) (block r n : ℕ) (data : ℕ → List UInt8) (a : ℕ) : List UInt8 :=
  if a / g.ppb = r then
    if a % g.ppb < n then data (block * g.ppb + a % g.ppb) else g.blank.data
  else data a

section Rescue

variable {env : Env} {g : Geometry} {s : Nand} {data : ℕ → List UInt8} {block r n : ℕ}

/-- The next page of a block. -/
theorem rescued_succ (hn : n < g.ppb) :
    rescued g block r (n + 1) data =
      update (rescued g block r n data) (r * g.ppb + n) (data (block * g.ppb + n)) := by
  funext a
  by_cases ha : a = r * g.ppb + n
  · obtain ⟨h1, h2⟩ := (g.eq_page_iff hn).1 ha
    subst ha
    rw [update_self, rescued, if_pos h1, h2, if_pos (lt_succ_self n)]
  · rw [update_of_ne ha, rescued, rescued]
    split_ifs with h1 h2 h3 h3
    · rfl
    · exact absurd ((g.eq_page_iff hn).2 ⟨h1, by omega⟩) ha
    · exact absurd h3 (by omega)
    · rfl
    · rfl

namespace Nand.Ready

/-- A page gets new data. -/
theorem update {s' : Nand} {page : ℕ} {d : List UInt8} (hs : s.Ready env g data)
    (hframe : s.Frame s') (hsel : s'.selected = 0) (hd : s'.data = Function.update s.data page d) :
    s'.Ready env g (Function.update data page d) := by
  refine ⟨hsel, fun a ha => ?_, hframe.okFrom hs.ok⟩
  rw [hd]
  by_cases hap : a = page
  · rw [hap, update_self, update_self]
  · rw [update_of_ne hap, update_of_ne hap, hs.data a ha]

/-- The spare area of a page does not matter for its data. -/
theorem writeOob (hs : s.Ready env g data) (chipnr page : ℕ) (oobBuf : List UInt8) :
    (writeOob env g chipnr page g.oobSize oobBuf s).2.Ready env g data := by
  have hok := (writeOob_steady env g chipnr page g.oobSize oobBuf s).okFrom hs.ok
  have hout : (if env.outcome s.log.length = .ok ∧ g.oobSize < g.oobSize then Outcome.failed
      else env.outcome s.log.length) = .ok := by
    rw [if_neg fun hn => absurd hn.2 (lt_irrefl _), hs.ok _ le_rfl]
  refine ⟨((writeOob_log env g chipnr page g.oobSize oobBuf s).2).trans hs.selected,
    fun a ha => Eq.trans ?_ (hs.data a ha), hok⟩
  unfold OpenHMR.writeOob
  simp only [hout, Geometry.writeRc, Bool.not_false, Bool.and_true]
  cases g.bootArea chipnr page with
  | true => rfl
  | false =>
    refine (congrFun (program_data page (s := s) rfl hs.selected _) a).trans ?_
    simp only [Nand.logged, hs.selected]
    exact congrFun (update_eq_self page s.data) a

theorem markBad (hs : s.Ready env g data) (chipnr block : ℕ) :
    (markBad env g chipnr block s).Ready env g data :=
  (writeOob (s := { s with oobbuf := s.oobbuf.set 0 0 }) { hs with } _ _ _).writeOob _ _ _

theorem writeEccPage (hs : s.Ready env g data) (chipnr : ℕ) {page : ℕ} (hp : g.bootPages ≤ page)
    (d : List UInt8) (oobBuf : Option (List UInt8)) :
    (writeEccPage env g chipnr page d oobBuf false s).1 = 0 ∧
      (writeEccPage env g chipnr page d oobBuf false s).2.Ready env g
        (Function.update data page (env.encrypt d)) := by
  obtain ⟨hrc, hsel, hd⟩ :=
    writeEccPage_ok chipnr page hs.selected hp d oobBuf (hs.ok _ le_rfl)
  exact ⟨hrc, hs.update (writeEccPage_steady env g chipnr page d oobBuf false s).toFrame hsel hd⟩

/-- A page is copied to the remap block. -/
theorem backupPage (hs : s.Ready env g (rescued g block r n data))
    (hr : g.bootPages ≤ r * g.ppb) (hb : block ≠ r) (hb2 : 2 ≤ block) (hn : n < g.ppb) (die : ℤ) :
    (backupPage env g die die block r n s).Ready env g (rescued g block r (n + 1) data) := by
  let s1 := (readEccPageBuf env g s.activeChip.toNat (block * g.ppb + n) s).2
  have hread := readEccPageBuf_eq (g := g) s.activeChip.toNat (block * g.ppb + n) (hs.ok _ le_rfl)
  have hok := (readEccPageBuf_steady env g s.activeChip.toNat (block * g.ppb + n) s).okFrom hs.ok
  have hs1 : Ready env g (rescued g block r n data)
      { s1 with oobbuf := reverseToYaffs2Tags s1.oobbuf } := by
    refine ⟨?_, fun a ha => Eq.trans ?_ (hs.data a ha), hok⟩ <;> simp only [s1, hread]
    · exact hs.selected
    · rfl
  have hbuf : env.encrypt s1.databuf = data (block * g.ppb + n) := by
    have hsrc := hs.data _ ((mul_le_mul_right _ hb2).trans (le_add_right _ n))
    rw [rescued, if_neg (by rwa [g.page_div block hn])] at hsrc
    simp only [s1, hread, hs.selected, env.encrypt_decrypt]
    exact hsrc
  obtain ⟨hrc, h2⟩ := hs1.writeEccPage s1.activeChip.toNat
    (show g.bootPages ≤ r * g.ppb + n by omega) s1.databuf (some (reverseToYaffs2Tags s1.oobbuf))
  rw [hbuf, ← rescued_succ hn] at h2
  unfold OpenHMR.backupPage writeEccPageBuf
  simp only [switchDie_self]
  split_ifs <;> exact { h2 with }

/-- The remap block gets the pages before the failing one and the data to be written. -/
theorem rescue {e : BBt} (hs : s.Ready env g data) (he : e.rbDie.toNat = 0)
    (hr : g.bootPages ≤ e.remapBlock.toNat * g.ppb) (hb : block ≠ e.remapBlock.toNat)
    (hb2 : 2 ≤ block) (hn : n < g.ppb) (buf : ℕ → List UInt8) (oobBuf : Option (ℕ → List UInt8))
    (i : ℕ) :
    (rescue env g (writeEccUser env g buf oobBuf i) 0 e block n s).Ready env g
      (Function.update (rescued g block e.remapBlock.toNat n data)
        (e.remapBlock.toNat * g.ppb + n) (env.encrypt (buf i))) := by
  have herase := eraseBlock_eq (g := g) (s := s.select 0) 0 (e.remapBlock.toNat * g.ppb)
    (hs.ok _ le_rfl) (mul_mod_left _ _)
  have hok := (eraseBlock_steady env g 0 (e.remapBlock.toNat * g.ppb) (s.select 0)).okFrom hs.ok
  have h0 : (eraseBlock env g 0 (e.remapBlock.toNat * g.ppb) (s.select 0)).2.Ready env g
      (rescued g block e.remapBlock.toNat 0 data) := by
    rw [herase] at hok ⊢
    refine ⟨rfl, fun a ha => ?_, hok⟩
    rw [rescued, if_neg (Nat.not_lt_zero _), ← hs.data a ha, Nat.mul_div_cancel _ g.ppb_pos]
    change (if a / g.ppb = e.remapBlock.toNat then g.blank else s.flash 0 a).data = _
    split_ifs <;> rfl
  have hbackup : ∀ m ≤ g.ppb, ((List.range m).foldl (fun s i =>
      OpenHMR.backupPage env g 0 0 block e.remapBlock.toNat i s)
      (eraseBlock env g 0 (e.remapBlock.toNat * g.ppb) (s.select 0)).2).Ready env g
        (rescued g block e.remapBlock.toNat m data) := by
    intro m hm
    induction m with
    | zero => exact h0
    | succ m ih =>
      rw [List.range_succ, List.foldl_append]
      exact (ih (by omega)).backupPage hr hb hb2 hm 0
  unfold OpenHMR.rescue
  simp only [he, cast_zero, switchDie_self]
  exact ((hbackup n hn.le).writeEccPage _ (by omega) (buf i) _).2

end Nand.Ready

end Rescue

end OpenHMR
