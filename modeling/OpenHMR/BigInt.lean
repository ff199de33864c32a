import OpenHMR.Limbs

/-!
# Big integers (`drivers/mcp/bi.c`)

The big integers that the RSA verification computes with : a sign (1 for a number that is not
negative), the number of words in use, and an array of words of 32 bits, the lowest first. The
operations work in place on the arrays, as loops over the words; here a loop is a recursion on the
number of rounds that are done.

An operation is `none` where the code would access an array outside of its bounds : the loop of
`Sub` that looks for the leading word runs below the array when all words are 0. `Mod` and `Exp_Mod`
are given the number of rounds they may run, and are `none` if that is not enough. Memory for the
results is always there, and `do_div` is the quotient.
-/

namespace OpenHMR

/-- `BI_MAXLEN`. -/
def biMaxlen : ℕ := 129

/-- A big integer : `m_nSign`, `m_nLength` and `m_ulValue`. -/
structure BI where
  sign : ℤ
  length : ℕ
  value : ℕ → ℕ
  value_lt : ∀ i, value i < 2 ^ 32

namespace BI

/-- `p->m_ulValue[i] = (unsigned int)x`. -/
def set (p : BI) (i x : ℕ) : BI :=
  { p with
    value := fun j => if j = i then x % 2 ^ 32 else p.value j
    value_lt := fun j => by
      split_ifs
      exacts [Nat.mod_lt _ (by decide), p.value_lt j] }

/-- `init_BI` and `SetZero`. -/
def init : BI where
  sign := 1
  length := 1
  value := fun _ => 0
  value_lt := fun _ => by decide

/-- `move_p` : a number of 64 bits. -/
def moveP (b : ℕ) : BI :=
  if b > 0xffffffff then { (init.set 1 (b >>> 32)).set 0 b with length := 2 } else init.set 0 b

/-- The comparison of the words below `n`, from above. -/
def cmpWords (A B : BI) : ℕ → Ordering
  | 0 => .eq
  | n + 1 =>
    if A.value n > B.value n then .gt
    else if A.value n < B.value n then .lt
    else cmpWords A B n

/-- `Cmp`. -/
def cmp (A B : BI) : Ordering :=
  if A.length > B.length then .gt
  else if A.length < B.length then .lt
  else cmpWords A B A.length

/-- The sum of the words below `n` in `p`, and the carry. -/
def addLoop (p B : BI) : ℕ → BI × ℕ
  | 0 => (p, 0)
  | n + 1 =>
    let (p, carry) := addLoop p B n
    let sum := B.value n + p.value n + carry
    (p.set n sum, if sum > 0xffffffff then 1 else 0)

/-- `Add` of numbers of one sign. -/
def addWords (A B : BI) : BI :=
  let p := { A with length := if A.length < B.length then B.length else A.length }
  let (p, carry) := addLoop p B p.length
  if p.length < biMaxlen then { p.set p.length carry with length := p.length + carry } else p

/-- The difference of the words `s` and `d` below `n` in `p`, and the borrow. One of `s` and `d` is
the array of `p`, of which a round reads no other word than the one it writes. -/
def subLoop (s d : ℕ → ℕ) (p : BI) : ℕ → BI × ℕ
  | 0 => (p, 0)
  | n + 1 =>
    let (p, carry) := subLoop s d p n
    -- `s[i] - carry` is unsigned : it wraps around if there is a borrow from a word 0
    if (s n + 2 ^ 32 - carry) % 2 ^ 32 ≥ d n then
      (p.set n ((s n + 2 ^ 32 - carry) % 2 ^ 32 - d n), 0)
    else (p.set n (2 ^ 32 + s n - carry - d n), 1)

/-- The number of words up to the leading one, of the words below `len`. -/
def leading (p : BI) : ℕ → Option ℕ
  | 0 => none
  | len + 1 => if p.value len = 0 then leading p len else some (len + 1)

/-- `Sub` of numbers of one sign. -/
def subWords (A B : BI) : Option BI :=
  match cmp A B with
  | .eq => some init
  | .gt =>
    let p := (subLoop A.value B.value A A.length).1
    (leading p A.length).map fun len => { p with length := len }
  | .lt =>
    let p := (subLoop B.value A.value A B.length).1
    (leading p B.length).map fun len => { p with length := len, sign := 1 - A.sign }

/-- `Add` : `A + B`. -/
def add (A B : BI) : Option BI :=
  if A.sign = B.sign then some (addWords A B) else subWords A { B with sign := 1 - B.sign }

/-- `Sub` : `A - B`. -/
def sub (A B : BI) : Option BI :=
  if A.sign = B.sign then subWords A B else some (addWords A { B with sign := 1 - B.sign })

/-- The words from `i` on that `Sub_p` borrows from : those that are 0, and one that is not. -/
def subPLoop (p : BI) : ℕ → ℕ → Option BI
  | 0, _ => none
  | n + 1, i =>
    if p.value i = 0 then subPLoop (p.set i 0xffffffff) n (i + 1)
    else
      let p := if p.value i = 1 then { p with length := p.length - 1 } else p
      some (p.set i (p.value i - 1))

/-- `Sub_p` : `A - b` for a `b` that is not negative. -/
def subP (A : BI) (b : ℕ) : Option BI :=
  if A.value 0 ≥ b then some (A.set 0 (A.value 0 - b))
  else if A.length = 1 then some { A.set 0 (b - A.value 0) with sign := 1 - A.sign }
  else subPLoop (A.set 0 (2 ^ 32 + A.value 0 - b)) (biMaxlen - 1) 1

/-- The words below `n` of `A` times `b`, in `q`, and the carry. -/
def mulLoop (A : BI) (b : ℕ) (q : BI) : ℕ → BI × ℕ
  | 0 => (q, 0)
  | n + 1 =>
    let (q, carry) := mulLoop A b q n
    let mul := A.value n * b + carry
    (q.set n mul, mul >>> 32)

/-- The first `n` rounds of the loop that moves the words of `q` up by `i`, from above. -/
def moveLoop (q : BI) (i : ℕ) : ℕ → BI
  | 0 => q
  | n + 1 =>
    let p := moveLoop q i n
    p.set (q.length - 1 - n) (p.value (q.length - 1 - n - i))

def clearLoop (q : BI) : ℕ → BI
  | 0 => q
  | n + 1 => (clearLoop q n).set n 0

/-- The words of `q` are moved up by `i`. -/
def shiftWords (q : BI) (i : ℕ) : BI :=
  let q := { q with length := q.length + i }
  clearLoop (moveLoop q i (q.length - i)) i

/-- A row of the product : `A` times the word `b`, moved up by `i`, in `q`. -/
def mulRow (A : BI) (b i : ℕ) (q : BI) : BI :=
  let (q, carry) := mulLoop A b { q with length := A.length } A.length
  let q := if carry ≠ 0 ∧ q.length < biMaxlen then
      { q.set q.length carry with length := q.length + 1 } else q
  if q.length < biMaxlen - i then shiftWords q i else q

/-- The sum of the first `n` rows of the product in `p`, and the last row in `q`. -/
def mulRows (A B : BI) : ℕ → Option (BI × BI)
  | 0 => some (init, init)
  | n + 1 => do
    let (p, q) ← mulRows A B n
    let q := mulRow A (B.value n) n q
    let p ← add p q
    return (p, q)

/-- `Mul` : `A * B`. -/
def mul (A B : BI) : Option BI := do
  let (p, _) ← mulRows A B B.length
  return { p with sign := if A.sign + B.sign = 1 then 0 else 1 }

/-- The first `n` rounds of the division of the words by `b`, from above, and the remainder. -/
def divPLoop (A : BI) (b : ℕ) : ℕ → BI × ℕ
  | 0 => (A, 0)
  | n + 1 =>
    let (p, carry) := divPLoop A b n
    let i := A.length - 1 - n
    let div := carry <<< 32 + p.value i
    (p.set i (div / b), div - div / b * b)

/-- `Div_p` : `A / b` for a positive `b`. -/
def divP (A : BI) (b : ℕ) : BI :=
  if A.length = 1 then A.set 0 (A.value 0 / b)
  else
    let p := (divPLoop A b A.length).1
    if p.value (p.length - 1) = 0 then { p with length := p.length - 1 } else p

/-- The quotient of the leading words, and by how many words it is moved up. `none` if the divisor
is subtracted itself. -/
def trialQuotient (p B : BI) : Option (ℕ × ℕ) :=
  let t := B.value (B.length - 1)
  if p.value (p.length - 1) > t then
    some (p.length - B.length, p.value (p.length - 1) / (t + 1))
  else if p.length > B.length then
    let num := p.value (p.length - 1) <<< 32 + p.value (p.length - 2)
    some (p.length - B.length - 1, if t = 0xffffffff then num >>> 32 else num / (t + 1))
  else none

/-- The loop of `Mod`, of at most `fuel` rounds. -/
def modLoop (B : BI) : ℕ → BI → Option BI
  | 0, _ => none
  | fuel + 1, p =>
    match cmp p B with
    | .gt =>
      match trialQuotient p B with
      | some (len, div) => do
        let q ← mul (moveP div) B
        -- the words must not be moved out of the array
        if q.length + len ≤ biMaxlen then
          let p ← sub p (shiftWords q len)
          modLoop B fuel p
        else none
      | none => sub p B
    | _ => some p

/-- `Mod` : `A % B`. -/
def mod (fuel : ℕ) (A B : BI) : Option BI := do
  let p ← modLoop B fuel A
  return if cmp p B = .eq then init else p

/-- The loop of `Exp_Mod`, of at most `fuel` rounds. -/
def expModLoop (m : BI) : ℕ → BI → BI → BI → Option BI
  | 0, _, _, _ => none
  | fuel + 1, x, y, z =>
    if z.length ≠ 1 ∨ z.value 0 ≠ 0 then
      if z.value 0 &&& 1 ≠ 0 then do
        let z ← subP z 1
        let x ← mul x y
        let x ← mod fuel x m
        expModLoop m fuel x y z
      else do
        let z := divP z 2
        let y ← mul y y
        let y ← mod fuel y m
        expModLoop m fuel x y z
    else some x

/-- `Exp_Mod` : `base ^ exp % m`. -/
def expMod (fuel : ℕ) (base exp m : BI) : Option BI :=
  expModLoop m fuel (moveP 1) base exp

end BI

end OpenHMR
