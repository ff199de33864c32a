import Mathlib.Data.List.Basic
import Mathlib.Logic.Function.Basic
import OpenHMR.Circular

/-!
# Serial flash

A flash takes commands. An erase sets the sector of its address to ones, and a program clears the
bits of one page that are zeros in its data; behind the last byte of the page it goes on with the
first one. A command that changes the memory is carried out only after a write enable, which it
uses up.

Erases leave ones in their sectors (`run_mem`). A program of erased bytes that stays in its page
writes its data (`written_program`).
-/

open Circular Function Nat

namespace SerialFlash

/-- A command. -/
inductive Command where
  | writeEnable
  | writeDisable
  | erase (addr : ℕ)
  | program (addr : ℕ) (data : List UInt8)
  deriving DecidableEq

/-- A flash, with its write enable latch. -/
structure Flash where
  mem : ℕ → UInt8
  enabled : Bool

/-- The sector of `addr` is erased. -/
def eraseSector (sector : ℕ) (mem : ℕ → UInt8) (addr : ℕ) : ℕ → UInt8 :=
  fun a => if a / sector = addr / sector then 0xff else mem a

/-- The address of byte `i` of a program. -/
def pageAddr (page addr i : ℕ) : ℕ :=
  addr / page * page + (addr + i) % page

/-- The data from byte `i` of a program on. -/
def programPage (page addr : ℕ) : ℕ → List UInt8 → (ℕ → UInt8) → ℕ → UInt8
  | _, [], mem => mem
  | i, b :: data, mem =>
    programPage page addr (i + 1) data
      (update mem (pageAddr page addr i) (mem (pageAddr page addr i) &&& b))

/-- What a command does. -/
def step (sector page : ℕ) (f : Flash) : Command → Flash
  | .writeEnable => { f with enabled := true }
  | .writeDisable => { f with enabled := false }
  | .erase addr => if f.enabled then ⟨eraseSector sector f.mem addr, false⟩ else f
  | .program addr data => if f.enabled then ⟨programPage page addr 0 data f.mem, false⟩ else f

/-- What a list of commands does. -/
def run (sector page : ℕ) (f : Flash) (cmds : List Command) : Flash :=
  cmds.foldl (step sector page) f

theorem run_append (sector page : ℕ) (f : Flash) (cmds cmds' : List Command) :
    run sector page f (cmds ++ cmds') = run sector page (run sector page f cmds) cmds' :=
  List.foldl_append

/-! ## Erase -/

/-- The sectors that are erased. -/
def erased (sector : ℕ) : Bool → List Command → List ℕ
  | _, [] => []
  | _, .writeEnable :: cmds => erased sector true cmds
  | _, .writeDisable :: cmds => erased sector false cmds
  | enabled, .erase addr :: cmds =>
    if enabled then addr / sector :: erased sector false cmds else erased sector false cmds
  | _, .program .. :: cmds => erased sector false cmds

/-- Commands that do not program leave ones in the sectors erased and the other bytes as they
were. -/
theorem run_mem (sector page a : ℕ) : ∀ {cmds : List Command} {f : Flash},
    (∀ addr data, .program addr data ∉ cmds) →
      (run sector page f cmds).mem a = if a / sector ∈ erased sector f.enabled cmds then 0xff
        else f.mem a
  | [], f, _ => rfl
  | cmd :: cmds, f, h => by
    have ih := run_mem sector page a (f := step sector page f cmd)
      fun addr data hmem => h addr data (List.mem_cons_of_mem _ hmem)
    refine ih.trans ?_
    cases cmd with
    | writeEnable | writeDisable => rfl
    | program addr data => exact absurd List.mem_cons_self (h addr data)
    | erase addr =>
      rw [step, erased]
      cases hen : f.enabled with
      | false => rw [if_neg Bool.false_ne_true, if_neg Bool.false_ne_true, hen]
      | true =>
        simp only [if_true, eraseSector, List.mem_cons]
        split_ifs <;> simp_all

/-! ## Program -/

section Program

variable {page addr : ℕ}

theorem pageAddr_of_le {i : ℕ} (h : addr % page + i < page) : pageAddr page addr i = addr + i := by
  have hpos : 0 < page := zero_lt_of_lt h
  have hmod : (addr + i) % page = addr % page + i := by
    rw [add_mod, mod_eq_of_lt (by omega : i < page), mod_eq_of_lt h]
  have hdiv := div_add_mod' addr page
  rw [pageAddr, hmod]
  omega

/-- Erased bytes of one page get the data. -/
theorem programPage_eq : ∀ (data : List UInt8) (i : ℕ) (mem : ℕ → UInt8),
    addr % page + i + data.length ≤ page → (∀ k < data.length, mem (addr + i + k) = 0xff) →
      (∀ k (hk : k < data.length), programPage page addr i data mem (addr + i + k) = data[k]) ∧
        ∀ a, (∀ k < data.length, a ≠ addr + i + k) → programPage page addr i data mem a = mem a
  | [], _, _, _, _ => ⟨fun k hk => absurd hk (not_lt_zero k), fun _ _ => rfl⟩
  | b :: data, i, mem, hfit, hones => by
    rw [List.length_cons] at hfit hones
    have haddr : pageAddr page addr i = addr + i := pageAddr_of_le (by omega)
    have hfirst : mem (addr + i) = 0xff := hones 0 (by omega)
    have hand : mem (addr + i) &&& b = b := by
      rw [hfirst]
      exact UInt8.neg_one_and
    obtain ⟨hget, hrest⟩ := programPage_eq data (i + 1) (update mem (addr + i) b)
      (by omega) fun k hk => by
        rw [update_of_ne (by omega)]
        exact (congrArg mem (by omega)).trans (hones (k + 1) (by omega))
    rw [programPage, haddr, hand]
    constructor
    · intro k hk
      cases k with
      | zero =>
        rw [hrest _ fun k _ => by omega]
        exact update_self _ _ _
      | succ k =>
        have := hget k (lt_of_succ_lt_succ hk)
        rw [List.getElem_cons_succ, ← this]
        exact congrArg _ (by omega)
    · intro a ha
      rw [List.length_cons] at ha
      rw [hrest a fun k hk => fun heq => ha (k + 1) (by omega) (by omega)]
      exact update_of_ne (ha 0 (by omega)) _ _

/-- A write enable and a program write data into erased bytes of one page. The address is that of a
place on a circle of `n` bytes, which are whole pages. -/
theorem written_program {n p : ℕ} {data : List UInt8} (hn : page ∣ n) (hp : 0 < n)
    (hfit : p % page + data.length ≤ page) {f : Flash}
    (hones : ∀ k < data.length, f.mem (place n p k) = 0xff) (sector : ℕ) :
    Written n p data f.mem
      (run sector page f [.writeEnable, .program (p % n) data]).mem := by
  have hmod : p % n % page = p % page := mod_mod_of_dvd p hn
  have hlt : p % n < n := mod_lt p hp
  -- The page of the address ends at or before the end of the circle.
  have hend : p % n + data.length ≤ n := by
    obtain ⟨m, rfl⟩ := hn
    have hdiv := div_add_mod (p % (page * m)) page
    have hrow : p % (page * m) / page + 1 ≤ m :=
      Nat.div_lt_of_lt_mul hlt
    have hle := mul_le_mul_left page hrow
    rw [Nat.mul_add_one] at hle
    omega
  have hplace {k : ℕ} (hk : k < data.length) : place n p k = p % n + k := by
    rw [place, ← mod_add_mod, mod_eq_of_lt (by omega)]
  have hfit' : p % n % page + 0 + data.length ≤ page := by omega
  obtain ⟨hget, hrest⟩ := programPage_eq data 0 f.mem hfit' fun k hk => hplace hk ▸ hones k hk
  constructor
  · intro k hk
    rw [hplace hk]
    exact hget k hk
  · intro a ha
    exact hrest a fun k hk => hplace hk ▸ ha k hk

end Program

end SerialFlash
