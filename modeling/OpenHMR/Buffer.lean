import Mathlib.Algebra.BigOperators.Group.List.Basic

/-!
# Buffers

A buffer is a list of fixed length. `memcpy` copies to its start and `memcpyAt` to a position in
it; what does not fit is cut off. A buffer of several pages that is filled page by page holds the
pages one after the other (`memcpyAt_filled`, `filled_length`).
-/

namespace Buffer

open List Nat

variable {α : Type*}

/-- A copy to the start of the buffer. -/
def memcpy (dst src : List α) : List α :=
  (src ++ dst.drop src.length).take dst.length

/-- A copy to the position `off` of the buffer. -/
def memcpyAt (off : ℕ) (dst src : List α) : List α :=
  dst.take off ++ memcpy (dst.drop off) src

/-- The buffer after the first `c` pages of `n` elements; the rest of it is still `a`. -/
def filled (n : ℕ) (a : α) (pages : List (List α)) (c : ℕ) : List α :=
  (pages.take c).flatten ++ replicate ((pages.length - c) * n) a

section Copy

variable {dst src : List α}

theorem memcpy_eq (h : src.length ≤ dst.length) : memcpy dst src = src ++ dst.drop src.length := by
  rw [memcpy, take_of_length_le]
  rw [length_append, length_drop]
  omega

theorem length_memcpy (dst src : List α) : (memcpy dst src).length = dst.length := by
  rw [memcpy, length_take, length_append, length_drop]
  omega

theorem take_memcpy (h : src.length ≤ dst.length) : (memcpy dst src).take src.length = src := by
  rw [memcpy_eq h, take_left]

theorem memcpyAt_append (a b src : List α) :
    memcpyAt a.length (a ++ b) src = a ++ memcpy b src := by
  rw [memcpyAt, take_left, drop_left]

end Copy

section Pages

variable {n : ℕ} {a : α} {pages : List (List α)}

theorem length_flatten_pages (h : ∀ p ∈ pages, p.length = n) :
    pages.flatten.length = pages.length * n := by
  rw [length_flatten, map_congr_left h, map_const', sum_replicate, Nat.nsmul_eq_mul]

theorem filled_zero (n : ℕ) (a : α) (pages : List (List α)) :
    filled n a pages 0 = replicate (pages.length * n) a :=
  rfl

theorem filled_length (n : ℕ) (a : α) (pages : List (List α)) :
    filled n a pages pages.length = pages.flatten := by
  rw [filled, take_length, Nat.sub_self, Nat.zero_mul, replicate_zero, append_nil]

theorem length_filled (h : ∀ p ∈ pages, p.length = n) {c : ℕ} (hc : c ≤ pages.length) :
    (filled n a pages c).length = pages.length * n := by
  rw [filled, length_append, length_replicate,
    length_flatten_pages fun p hp => h p (mem_of_mem_take hp), length_take,
    Nat.min_eq_left hc, ← Nat.add_mul, Nat.add_sub_cancel' hc]

/-- The next page is copied. -/
theorem memcpyAt_filled (h : ∀ p ∈ pages, p.length = n) {c : ℕ} (hc : c < pages.length) :
    memcpyAt (c * n) (filled n a pages c) pages[c] = filled n a pages (c + 1) := by
  have hpage : pages[c].length = n := h _ (getElem_mem hc)
  have hpre : (pages.take c).flatten.length = c * n := by
    rw [length_flatten_pages fun p hp => h p (mem_of_mem_take hp), length_take,
      Nat.min_eq_left (Nat.le_of_lt hc)]
  have hrest : (pages.length - c) * n = n + (pages.length - (c + 1)) * n := by
    rw [add_comm, ← succ_mul, succ_eq_add_one]
    congr 1
    omega
  rw [filled, ← hpre, memcpyAt_append, memcpy_eq, drop_replicate, hpage, filled,
    take_succ_eq_append_getElem hc, flatten_append, flatten_singleton,
    append_assoc, hrest, Nat.add_sub_cancel_left]
  rw [length_replicate, hpage, hrest]
  exact le_add_right _ _

end Pages

end Buffer
