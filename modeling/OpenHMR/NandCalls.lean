import OpenHMR.NandFrame

/-!
# The calls on pages as one

`nand_read_ecc`, `nand_read_oob`, `nand_write_ecc` and `nand_write_oob` are one loop with
different parameters. `PageCall` is a call of one of them, `PageCall.run` its effect, and
`PageCall.Valid.result_eq` says that a call that passes the tests of its arguments runs the loop
`PageCall.exec`. What holds of every such loop then holds of the four calls.
-/

open BoundedLoop

namespace OpenHMR

/-- A call on pages. -/
inductive PageCall where
  | readEcc (start len : ℕ) (hwEcc : Bool)
  | readOob (start len : ℕ)
  | writeEcc (start len : ℕ) (buf : ℕ → List UInt8) (oobBuf : Option (ℕ → List UInt8))
  | writeOob (start len : ℕ) (oobBuf : ℕ → List UInt8)

namespace PageCall

/-- The address of the first page. -/
def start : PageCall → ℕ
  | readEcc start _ _ | readOob start _ | writeEcc start _ _ _ | writeOob start _ _ => start

/-- The number of bytes. -/
def len : PageCall → ℕ
  | readEcc _ len _ | readOob _ len | writeEcc _ len _ _ | writeOob _ len _ => len

/-- The cached translation it uses. -/
def sel : PageCall → Option CacheSel
  | readEcc _ _ _ => some .read
  | writeEcc _ _ _ _ => some .write
  | readOob _ _ | writeOob _ _ _ => none

/-- The operation on each page. -/
def kind : PageCall → FlashKind
  | readEcc _ _ _ => .readEccPage
  | readOob _ _ => .readOob
  | writeEcc _ _ _ _ => .writeEccPage
  | writeOob _ _ _ => .writeOob

/-- The number of pages. -/
def pages (g : Geometry) : PageCall → ℕ
  | readEcc _ len _ | writeEcc _ len _ _ => len / g.pageSize
  | readOob _ len | writeOob _ len _ => g.oobPages len

/-- The first page, counted from the start of the device. -/
def firstPage (g : Geometry) (c : PageCall) : ℕ :=
  c.start / g.pageSize

/-- What the call returns. -/
def result (env : Env) (g : Geometry) : PageCall → Nand → IoResult
  | readEcc start len hwEcc => nandReadEcc env g start len hwEcc
  | readOob start len => nandReadOob env g start len
  | writeEcc start len buf oobBuf => nandWriteEcc env g start len buf oobBuf
  | writeOob start len oobBuf => nandWriteOob env g start len oobBuf

/-- The driver after the call. -/
def run (env : Env) (g : Geometry) (c : PageCall) (s : Nand) : Nand :=
  (c.result env g s).nand

/-- The call is within the device and aligned to pages. -/
structure Valid (g : Geometry) (c : PageCall) : Prop where
  within : c.start + c.len ≤ g.mtdSize
  start_aligned : c.start % g.pageSize = 0
  len_aligned : c.sel ≠ none → c.len % g.pageSize = 0

instance (g : Geometry) (c : PageCall) : Decidable (c.Valid g) :=
  decidable_of_iff (c.start + c.len ≤ g.mtdSize ∧ c.start % g.pageSize = 0 ∧
      (c.sel ≠ none → c.len % g.pageSize = 0))
    ⟨fun h => ⟨h.1, h.2.1, h.2.2⟩, fun h => ⟨h.within, h.start_aligned, h.len_aligned⟩⟩

/-- The access to page `i` of the call. -/
def access (env : Env) (g : Geometry) : PageCall → ℕ → Loop → ℤ × Loop
  | readEcc _ _ _ => readEccAccess env g
  | readOob _ len => readOobAccess env g len
  | writeEcc _ _ buf oobBuf => writeEccAccess env g buf oobBuf
  | writeOob _ len oobBuf => writeOobAccess env g oobBuf len

/-- The reaction to its failure. -/
def fail (env : Env) (g : Geometry) : PageCall → ℕ → Loop → Except Loop Loop
  | readEcc _ _ _ | readOob _ _ => fun _ => readFail env g
  | writeEcc _ _ buf oobBuf => fun i =>
    writeFail env g (writeEccUser env g (env.encrypt ∘ buf) oobBuf i)
  | writeOob _ _ oobBuf => fun i => writeFail env g (writeOobUser env g oobBuf g.oobSize i)

/-- The variable `mtd->ecctype`, which only `nand_read_ecc` sets. -/
def enter : PageCall → Nand → Nand
  | readEcc _ _ hwEcc, s => { s with hwEcc }
  | readOob _ _, s | writeEcc _ _ _ _, s | writeOob _ _ _, s => s

/-- The variables when the loop starts. -/
def init (g : Geometry) (c : PageCall) (s : Nand) : Loop :=
  let l := Loop.start g (c.start / 2 ^ g.chipShift : ℕ) (c.firstPage g) (c.enter s)
  match c.sel with
  | some sel => l.resetCache g sel
  | none => l

/-- The loop of the call. -/
def exec (env : Env) (g : Geometry) (c : PageCall) (s : Nand) : Except Loop Loop :=
  loop (pageBody g c.sel (c.access env g) (c.fail env g)) (c.pages g) 0 (c.init g s)

/-- What the call returns when its loop ends or is left. -/
def finish (c : PageCall) : Except Loop Loop → IoResult
  | .error l => ⟨-1, some 0, l.out, l.nand⟩
  | .ok l => ⟨match c with | writeOob _ _ _ => l.rc | _ => 0, some c.len, l.out, l.nand⟩

variable {env : Env} {g : Geometry} {c : PageCall} {s : Nand}

theorem isAccess : ∀ c : PageCall, IsAccess c.kind (c.access env g)
  | readEcc _ _ _ => isAccess_readEcc env g
  | readOob _ len => isAccess_readOob env g len
  | writeEcc _ _ buf oobBuf => isAccess_writeEcc env g buf oobBuf
  | writeOob _ len oobBuf => isAccess_writeOob env g oobBuf len

theorem isFail : ∀ c : PageCall, IsFail g (c.fail env g)
  | readEcc _ _ _ | readOob _ _ => fun _ l => readFail_step env g l
  | writeEcc _ _ _ _ => fun _ l =>
    writeFail_step env g (fun _ _ => writeEccPage_steady env g _ _ _ _ _ _) l
  | writeOob _ _ _ => fun _ l =>
    writeFail_step env g (fun _ _ => writeOob_steady env g _ _ _ _ _) l

theorem init_keeps (c : PageCall) (s : Nand) :
    (c.init g s).nand.bbt = s.bbt ∧ (c.init g s).nand.log = s.log ∧
      (c.init g s).nand.flash = s.flash := by
  have henter :
      (c.enter s).bbt = s.bbt ∧ (c.enter s).log = s.log ∧ (c.enter s).flash = s.flash := by
    cases c <;> exact ⟨rfl, rfl, rfl⟩
  unfold init
  cases c.sel with
  | none => exact henter
  | some sel =>
    simp only [Loop.resetCache]
    split_ifs <;> exact henter

/-- The call runs its loop. -/
theorem Valid.result_eq (hv : c.Valid g) : c.result env g s = c.finish (c.exec env g s) := by
  obtain ⟨h1, h2, h3⟩ := hv
  have hlen : ¬g.mtdSize < c.start + c.len := not_lt.2 h1
  have hstart : c.start &&& (g.pageSize - 1) = 0 := (g.and_pageSize _).trans h2
  have hboth (hs : c.sel ≠ none) :
      ¬(c.start &&& (g.pageSize - 1) ≠ 0 ∨ c.len &&& (g.pageSize - 1) ≠ 0) := by
    rw [g.and_pageSize c.len, not_or, not_not, not_not]
    exact ⟨hstart, h3 hs⟩
  cases c with
  | readEcc start len hwEcc =>
    refine (if_neg hlen).trans ((if_neg (hboth (by simp [sel]))).trans ?_)
    change (match exec env g (readEcc start len hwEcc) s with | .error l => _ | .ok l => _) = _
    cases exec env g (readEcc start len hwEcc) s <;> rfl
  | readOob start len =>
    refine (if_neg hlen).trans ((if_neg (not_not.2 hstart)).trans ?_)
    change (match exec env g (readOob start len) s with | .error l => _ | .ok l => _) = _
    cases exec env g (readOob start len) s <;> rfl
  | writeEcc start len buf oobBuf =>
    refine (if_neg hlen).trans ((if_neg (hboth (by simp [sel]))).trans ?_)
    change
      (match exec env g (writeEcc start len buf oobBuf) s with | .error l => _ | .ok l => _) = _
    cases exec env g (writeEcc start len buf oobBuf) s <;> rfl
  | writeOob start len oobBuf =>
    refine (if_neg hlen).trans ((if_neg (not_not.2 hstart)).trans ?_)
    change (match exec env g (writeOob start len oobBuf) s with | .error l => _ | .ok l => _) = _
    cases exec env g (writeOob start len oobBuf) s <;> rfl

theorem Valid.run_eq (hv : c.Valid g) : c.run env g s = endNand (c.exec env g s) := by
  rw [run, hv.result_eq]
  cases c.exec env g s <;> rfl

/-! ## The range of a call -/

theorem pages_of_sel {sel : CacheSel} (hs : c.sel = some sel) :
    c.pages g = c.len / g.pageSize := by
  cases c <;> first | rfl | cases hs

theorem firstPage_div (c : PageCall) : c.firstPage g / g.pageNum = c.start / 2 ^ g.chipShift := by
  have hsize : g.pageSize * g.pageNum = 2 ^ g.chipShift := by
    rw [mul_comm, g.pageNum_mul_pageSize]
  rw [firstPage, Nat.div_div_eq_div_mul, hsize]

/-- The pages of a call that gives the number of its data bytes are on the device. A call on
spare bytes may run past the last page. -/
theorem Valid.pages_le (hv : c.Valid g) {sel : CacheSel} (hs : c.sel = some sel) :
    c.firstPage g + c.pages g ≤ g.numchips * g.pageNum := by
  rw [pages_of_sel hs, firstPage]
  refine Nat.div_add_div_le_add_div.trans (Nat.div_le_of_le_mul ?_)
  refine hv.within.trans ((Nat.mod_le _ _).trans (le_of_eq ?_))
  rw [← g.pageNum_mul_pageSize, ← mul_assoc, mul_comm]

end PageCall

end OpenHMR
