import OpenHMR.BigIntArith

/-!
# Big integers with bounds

The operations of `BigInt` with each access to an array checked : `none` if a word at `BI_MAXLEN` or
above is read or written. As long as the numbers have few enough words they are the operations
without the checks.

`Add` of numbers of different signs calls `Sub`, which is an argument here, so that `Mod` and `Div`
can be given an exact subtraction (`exactSub`).
-/

namespace OpenHMR

open Option

open Limbs (word len)

namespace BI

variable {A B p q : BI} {a b i n : ℕ}

/-- `p->m_ulValue[i]`. -/
def get (p : BI) (i : ℕ) : Option ℕ :=
  if i < biMaxlen then some (p.value i) else none

/-- `p->m_ulValue[i] = (unsigned int)x`. -/
def put (p : BI) (i x : ℕ) : Option BI :=
  if i < biMaxlen then some (p.set i x) else none

theorem get_eq (h : i < biMaxlen) (p : BI) : p.get i = some (p.value i) :=
  if_pos h

theorem put_eq (h : i < biMaxlen) (p : BI) (x : ℕ) : p.put i x = some (p.set i x) :=
  if_pos h

/-! ## Operations -/

def checkedCmpWords (A B : BI) : ℕ → Option Ordering
  | 0 => some .eq
  | n + 1 => do
    let a ← A.get n
    let b ← B.get n
    if a > b then some .gt
    else if a < b then some .lt
    else checkedCmpWords A B n

/-- `Cmp`. -/
def checkedCmp (A B : BI) : Option Ordering :=
  if A.length > B.length then some .gt
  else if A.length < B.length then some .lt
  else checkedCmpWords A B A.length

def checkedAddLoop (p B : BI) : ℕ → Option (BI × ℕ)
  | 0 => some (p, 0)
  | n + 1 => do
    let (p, carry) ← checkedAddLoop p B n
    let sum := (← B.get n) + (← p.get n) + carry
    return (← p.put n sum, if sum > 0xffffffff then 1 else 0)

def checkedAddWords (A B : BI) : Option BI := do
  let p := { A with length := if A.length < B.length then B.length else A.length }
  let (p, carry) ← checkedAddLoop p B p.length
  if p.length < biMaxlen then
    return { ← p.put p.length carry with length := p.length + carry }
  else return p

/-- `Add`. -/
def checkedAdd (sub : BI → BI → Option BI) (A B : BI) : Option BI :=
  if A.sign = B.sign then checkedAddWords A B else sub A { B with sign := 1 - B.sign }

def checkedMulLoop (A : BI) (b : ℕ) (q : BI) : ℕ → Option (BI × ℕ)
  | 0 => some (q, 0)
  | n + 1 => do
    let (q, carry) ← checkedMulLoop A b q n
    let mul := (← A.get n) * b + carry
    return (← q.put n mul, mul >>> 32)

def checkedMoveLoop (q : BI) (i : ℕ) : ℕ → Option BI
  | 0 => some q
  | n + 1 => do
    let p ← checkedMoveLoop q i n
    p.put (q.length - 1 - n) (← p.get (q.length - 1 - n - i))

def checkedClearLoop (q : BI) : ℕ → Option BI
  | 0 => some q
  | n + 1 => do (← checkedClearLoop q n).put n 0

def checkedShiftWords (q : BI) (i : ℕ) : Option BI := do
  let q := { q with length := q.length + i }
  checkedClearLoop (← checkedMoveLoop q i (q.length - i)) i

/-- The word of the carry of a row. -/
def checkedCarryWord (q : BI) (carry : ℕ) : Option BI :=
  if carry ≠ 0 ∧ q.length < biMaxlen then
    (q.put q.length carry).map fun p => { p with length := q.length + 1 }
  else some q

def checkedMulRow (A : BI) (b i : ℕ) (q : BI) : Option BI := do
  let (q, carry) ← checkedMulLoop A b { q with length := A.length } A.length
  let q ← checkedCarryWord q carry
  if q.length < biMaxlen - i then checkedShiftWords q i else return q

def checkedMulRows (sub : BI → BI → Option BI) (A B : BI) : ℕ → Option (BI × BI)
  | 0 => some (init, init)
  | n + 1 => do
    let (p, q) ← checkedMulRows sub A B n
    let q ← checkedMulRow A (← B.get n) n q
    let p ← checkedAdd sub p q
    return (p, q)

/-- `Mul`. -/
def checkedMul (sub : BI → BI → Option BI) (A B : BI) : Option BI := do
  let (p, _) ← checkedMulRows sub A B B.length
  return { p with sign := if A.sign + B.sign = 1 then 0 else 1 }

/-- The quotient of the leading words in `Mod` and `Div`. -/
def checkedTrialQuotient (p B : BI) : Option (Option (ℕ × ℕ)) := do
  let s ← p.get (p.length - 1)
  let t ← B.get (B.length - 1)
  if s > t then return some (p.length - B.length, s / (t + 1))
  else if p.length > B.length then
    let num := s <<< 32 + (← p.get (p.length - 2))
    return some (p.length - B.length - 1, if t = 0xffffffff then num >>> 32 else num / (t + 1))
  else return none

/-! ## Numbers with few words -/

theorem checkedCmpWords_eq (A B : BI) : ∀ {n : ℕ}, n ≤ biMaxlen →
    checkedCmpWords A B n = some (cmpWords A B n)
  | 0, _ => rfl
  | n + 1, h => by
    rw [checkedCmpWords, get_eq h, get_eq h, checkedCmpWords_eq A B (by omega), cmpWords]
    dsimp only [bind, Option.bind]
    split_ifs <;> rfl

theorem checkedCmp_eq (hA : A.length ≤ biMaxlen) (B : BI) :
    checkedCmp A B = some (cmp A B) := by
  rw [checkedCmp, cmp, checkedCmpWords_eq A B hA]
  split_ifs <;> rfl

theorem checkedAddLoop_eq (p B : BI) : ∀ {n : ℕ}, n ≤ biMaxlen →
    checkedAddLoop p B n = some (addLoop p B n)
  | 0, _ => rfl
  | n + 1, h => by
    rw [checkedAddLoop, checkedAddLoop_eq p B (by omega), addLoop]
    simp only [bind_eq_bind, bind_some, get_eq h, put_eq h, pure]

theorem checkedAddWords_eq (hA : A.length ≤ biMaxlen) (hB : B.length ≤ biMaxlen) :
    checkedAddWords A B = some (addWords A B) := by
  rw [checkedAddWords, addWords]
  dsimp only
  have hlen : (if A.length < B.length then B.length else A.length) ≤ biMaxlen := by
    split_ifs <;> assumption
  generalize (if A.length < B.length then B.length else A.length) = l at hlen ⊢
  rw [checkedAddLoop_eq _ _ hlen, bind_eq_bind, bind_some]
  obtain ⟨r, c⟩ := addLoop { A with length := l } B l
  dsimp only
  split_ifs with h
  · rw [put_eq h]
    rfl
  · rfl

theorem checkedMulLoop_eq (A : BI) (b : ℕ) (q : BI) : ∀ {n : ℕ}, n ≤ biMaxlen →
    checkedMulLoop A b q n = some (mulLoop A b q n)
  | 0, _ => rfl
  | n + 1, h => by
    rw [checkedMulLoop, checkedMulLoop_eq A b q (by omega), mulLoop]
    simp only [bind_eq_bind, bind_some, get_eq h, put_eq h, pure]

theorem checkedMoveLoop_eq (hq : q.length ≤ biMaxlen) (i : ℕ) : ∀ {n : ℕ}, n ≤ q.length →
    checkedMoveLoop q i n = some (moveLoop q i n)
  | 0, _ => rfl
  | n + 1, h => by
    rw [checkedMoveLoop, checkedMoveLoop_eq hq i (by omega), moveLoop]
    simp only [bind_eq_bind, bind_some]
    rw [get_eq (by omega), bind_some, put_eq (by omega)]

theorem checkedClearLoop_eq (q : BI) : ∀ {n : ℕ}, n ≤ biMaxlen →
    checkedClearLoop q n = some (clearLoop q n)
  | 0, _ => rfl
  | n + 1, h => by
    rw [checkedClearLoop, checkedClearLoop_eq q (by omega), clearLoop]
    exact put_eq h _ _

theorem checkedShiftWords_eq (h : q.length + i ≤ biMaxlen) :
    checkedShiftWords q i = some (shiftWords q i) := by
  rw [checkedShiftWords, shiftWords]
  dsimp only
  rw [checkedMoveLoop_eq h i (by simp)]
  exact checkedClearLoop_eq _ (by omega)

theorem checkedMulRow_eq (hA : A.length ≤ biMaxlen) (b i : ℕ) (q : BI) :
    checkedMulRow A b i q = some (mulRow A b i q) := by
  rw [checkedMulRow, mulRow, checkedMulLoop_eq _ _ _ hA, bind_eq_bind, bind_some]
  obtain ⟨r, c⟩ := mulLoop A b { q with length := A.length } A.length
  have hcarry : checkedCarryWord r c = some (if c ≠ 0 ∧ r.length < biMaxlen then
      { r.set r.length c with length := r.length + 1 } else r) := by
    rw [checkedCarryWord]
    split_ifs with h
    · rw [put_eq h.2]
      rfl
    · rfl
  dsimp only at hcarry ⊢
  rw [hcarry, bind_eq_bind, bind_some]
  generalize (if c ≠ 0 ∧ r.length < biMaxlen then
    { r.set r.length c with length := r.length + 1 } else r) = r'
  by_cases h : r'.length < biMaxlen - i
  · rw [if_pos h, if_pos h]
    exact checkedShiftWords_eq (by omega)
  · rw [if_neg h, if_neg h]
    rfl

/-- The rows of a product of numbers with few enough words. -/
theorem checkedMulRows_eq (sub : BI → BI → Option BI) (hA1 : 1 ≤ A.length) (B : BI) : ∀ {n : ℕ},
    A.length + n < biMaxlen → checkedMulRows sub A B n = mulRows A B n
  | 0, _ => rfl
  | n + 1, h => by
    obtain ⟨p, q, heq, hp, hq, -, -, hstale, -, hpl, -⟩ := mulRows_spec hA1 B (n := n) (by omega)
    obtain ⟨hrs, -, -, hrl⟩ := mulRow_spec (B.value_lt n) h hstale
    rw [checkedMulRows, mulRows, checkedMulRows_eq sub hA1 B (by omega), heq]
    simp only [bind_eq_bind, bind_some]
    rw [get_eq (by omega), bind_some, checkedMulRow_eq (by omega), bind_some,
      checkedAdd, add, if_pos (by rw [hp, hrs, hq]), if_pos (by rw [hp, hrs, hq]),
      checkedAddWords_eq (by omega) (by omega)]

theorem checkedMul_eq (sub : BI → BI → Option BI) (hA1 : 1 ≤ A.length)
    (h : A.length + B.length < biMaxlen) : checkedMul sub A B = mul A B := by
  rw [checkedMul, mul, checkedMulRows_eq sub hA1 B h]

theorem checkedTrialQuotient_eq (hp : p.length ≤ biMaxlen) (hB : B.length ≤ biMaxlen)
    (hp1 : 1 ≤ p.length) (hB1 : 1 ≤ B.length) :
    checkedTrialQuotient p B = some (trialQuotient p B) := by
  rw [checkedTrialQuotient, get_eq (by omega), get_eq (by omega)]
  simp only [bind_eq_bind, bind_some, trialQuotient]
  rw [get_eq (by omega), bind_some]
  split_ifs <;> rfl

/-! ## Exact subtraction -/

/-- The difference in normal form, if there is one. -/
def exactSub (A B : BI) : Option BI :=
  if B.val ≤ A.val then some (ofNat (A.val - B.val)) else none

theorem exactSub_ofNat (h : b ≤ a) : exactSub (ofNat a) (ofNat b) = some (ofNat (a - b)) := by
  rw [exactSub, val_ofNat, val_ofNat, if_pos h]

end BI

end OpenHMR
