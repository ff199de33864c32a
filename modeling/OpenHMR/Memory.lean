import Mathlib.Data.List.Basic
import Mathlib.Data.List.Range
import Mathlib.Logic.Function.Basic
import Mathlib.Tactic.SplitIfs

/-!
# Memory

A memory is a function from addresses. `read` gives the elements of a range as a list, `write` puts
a list at an address. What is written is read again (`read_write`), and a range that is apart from
it is as before (`read_write_of_apart`).
-/

namespace Memory

open List Function Nat

variable {α : Type*} {mem : ℕ → α} {a b m n i : ℕ} {l l' : List α}

/-- The `n` elements at the address `a`. -/
def read (mem : ℕ → α) (a n : ℕ) : List α :=
  (range n).map fun i => mem (a + i)

/-- The list `l` at the address `a`. -/
def write (mem : ℕ → α) (a : ℕ) (l : List α) : ℕ → α :=
  fun i => if i < a then mem i else (l[i - a]?).getD (mem i)

@[simp] theorem length_read (mem : ℕ → α) (a n : ℕ) : (read mem a n).length = n := by
  rw [read, length_map, length_range]

theorem getElem?_read (hi : i < n) : (read mem a n)[i]? = some (mem (a + i)) := by
  rw [read, List.getElem?_map, List.getElem?_range hi, Option.map_some]

@[simp] theorem read_zero (mem : ℕ → α) (a : ℕ) : read mem a 0 = [] := rfl

/-- A range in two parts. -/
theorem read_add (mem : ℕ → α) (a m n : ℕ) :
    read mem a (m + n) = read mem a m ++ read mem (a + m) n := by
  rw [read, range_add, map_append, map_map]
  refine congrArg (read mem a m ++ ·) (map_congr_left fun i _ => ?_)
  exact congrArg mem (Nat.add_assoc a m i).symm

theorem read_congr {mem' : ℕ → α} (h : ∀ i, i < n → mem (a + i) = mem' (b + i)) :
    read mem a n = read mem' b n :=
  map_congr_left fun i hi => h i (mem_range.1 hi)

variable (mem)

theorem take_read (a : ℕ) (h : m ≤ n) : (read mem a n).take m = read mem a m := by
  obtain ⟨k, rfl⟩ := Nat.exists_eq_add_of_le h
  rw [read_add, take_left' (length_read mem a m)]

theorem drop_read (a : ℕ) (h : m ≤ n) :
    (read mem a n).drop m = read mem (a + m) (n - m) := by
  obtain ⟨k, rfl⟩ := Nat.exists_eq_add_of_le h
  rw [read_add, drop_left' (length_read mem a m), Nat.add_sub_cancel_left]

@[simp] theorem write_nil (a : ℕ) : write mem a [] = mem := by
  funext i
  rw [write, List.getElem?_nil, Option.getD_none, ite_self]

theorem write_of_lt (l : List α) (h : i < a) : write mem a l i = mem i :=
  if_pos h

theorem write_of_ge (h : a + l.length ≤ i) : write mem a l i = mem i := by
  rw [write, if_neg (by omega), List.getElem?_eq_none (by omega), Option.getD_none]

theorem write_of_outside (h : i < a ∨ a + l.length ≤ i) :
    write mem a l i = mem i :=
  h.elim (write_of_lt mem l) (write_of_ge mem)

theorem write_add (a : ℕ) (hi : i < l.length) : write mem a l (a + i) = l[i] := by
  rw [write, if_neg (by omega), Nat.add_sub_cancel_left, List.getElem?_eq_getElem hi,
    Option.getD_some]

theorem write_zero (l : List α) (i : ℕ) : write mem 0 l i = (l[i]?).getD (mem i) := by
  rw [write, if_neg (not_lt_zero i), Nat.sub_zero]

/-- A list in two parts. -/
theorem write_append (a : ℕ) (l l' : List α) :
    write mem a (l ++ l') = write (write mem a l) (a + l.length) l' := by
  funext i
  rcases lt_or_ge i a with hi | hi
  · rw [write_of_lt mem _ hi, write_of_lt _ _ (by omega), write_of_lt mem _ hi]
  · obtain ⟨k, rfl⟩ := Nat.exists_eq_add_of_le hi
    rcases lt_or_ge k l.length with hk | hk
    · have hlt : a + k < a + l.length := by omega
      rw [write_of_lt (write mem a l) l' hlt, write_add mem a hk,
        write_add mem a (by rw [length_append]; omega), getElem_append_left hk]
    · rw [write, if_neg (by omega), Nat.add_sub_cancel_left, List.getElem?_append_right hk, write,
        if_neg (by omega), write_of_ge mem (by omega), show a + k - (a + l.length) = k - l.length by
        omega]

/-- A list is written one element after the other. -/
theorem write_cons (a : ℕ) (x : α) (l : List α) :
    write mem a (x :: l) = write (update mem a x) (a + 1) l := by
  have hone : write mem a [x] = update mem a x := by
    funext i
    rcases lt_trichotomy i a with hi | rfl | hi
    · rw [write_of_lt mem _ hi, update_of_ne (Nat.ne_of_lt hi)]
    · rw [update_self]
      exact write_add mem i (l := [x]) (i := 0) Nat.one_pos
    · rw [write_of_ge mem hi, update_of_ne (ne_of_gt hi)]
  rw [← hone, ← singleton_append, write_append]
  rfl

/-- One element more makes no difference if it is there anyway. -/
theorem write_append_singleton_eq_iff (a : ℕ) (l : List α) (x : α) :
    write mem a (l ++ [x]) = write mem a l ↔ x = mem (a + l.length) := by
  rw [write_append, write_cons, write_nil]
  have hkeep : write mem a l (a + l.length) = mem (a + l.length) := write_of_ge mem (le_refl _)
  constructor
  · intro h
    rw [← hkeep, ← h, update_self]
  · intro h
    rw [h, ← hkeep, update_eq_self]

/-- A part of what is written is written over. -/
theorem write_write (a : ℕ) {k : ℕ} (h : k + l'.length ≤ l.length) :
    write (write mem a l) (a + k) l' =
      write mem a (l.take k ++ l' ++ l.drop (k + l'.length)) := by
  have hk : (l.take k).length = k := length_take_of_le (by omega)
  funext i
  rcases lt_or_ge i a with hi | hi
  · rw [write_of_lt _ _ (by omega), write_of_lt _ _ hi, write_of_lt _ _ hi]
  obtain ⟨j, rfl⟩ := Nat.exists_eq_add_of_le hi
  rw [write.eq_1 mem a (_ ++ _), if_neg (by omega), Nat.add_sub_cancel_left]
  rcases Nat.lt_or_ge j k with hjk | hjk
  · rw [write_of_lt _ _ (by omega), write_add mem a (by omega), append_assoc,
      List.getElem?_append_left (by omega), List.getElem?_take_of_lt hjk,
      List.getElem?_eq_getElem (by omega), Option.getD_some]
  rcases lt_or_ge j (k + l'.length) with hjl | hjl
  · rw [show a + j = a + k + (j - k) by omega, write_add _ _ (by omega),
      List.getElem?_append_left (by rw [length_append]; omega),
      List.getElem?_append_right (by omega), hk, List.getElem?_eq_getElem (by omega),
      Option.getD_some]
  · rw [write_of_ge _ (by omega), List.getElem?_append_right (by rw [length_append]; omega),
      length_append, hk, List.getElem?_drop, Nat.add_sub_cancel' hjl, write, if_neg (by omega),
      Nat.add_sub_cancel_left]

/-- What is written is read again. -/
theorem read_write (a : ℕ) (l : List α) : read (write mem a l) a l.length = l := by
  refine ext_getElem? fun i => ?_
  rcases lt_or_ge i l.length with hi | hi
  · rw [getElem?_read hi, write_add mem a hi, List.getElem?_eq_getElem hi]
  · rw [List.getElem?_eq_none (by rwa [length_read]), List.getElem?_eq_none hi]

/-- Two ranges have no address in common. -/
def Apart (a m b n : ℕ) : Prop :=
  m = 0 ∨ n = 0 ∨ a + m ≤ b ∨ b + n ≤ a

instance (a m b n : ℕ) : Decidable (Apart a m b n) :=
  inferInstanceAs (Decidable (_ ∨ _))

/-- What is apart from it is read as before. -/
theorem read_write_of_apart (h : Apart a l.length b n) :
    read (write mem a l) b n = read mem b n := by
  refine read_congr fun i hi => ?_
  rcases h with h | h | h | h
  · rw [eq_nil_of_length_eq_zero h, write_nil]
  · omega
  · exact write_of_ge mem (by omega)
  · exact write_of_lt mem l (by omega)

end Memory
