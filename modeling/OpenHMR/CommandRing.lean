import Mathlib.Data.List.Basic
import OpenHMR.Circular

/-!
# Rings with a reader

A ring of `n` places has a reader, which takes the element at the place `rd`, and a writer, which
stores elements and then moves the place `wr`, up to which the reader goes. The elements from `rd`
to `wr` are pending, and those stored from `wr` on are staged. `Holds` says that the memory of the
ring holds both, and that there is room for one element more. It is kept by a store into a free
place (`Holds.store`), by the publication of what is staged (`Holds.publish`) and by a read
(`Holds.read`). `Unread` says of marks that they are at the places of unread elements.

A ring of words of 4 bytes has byte pointers. `next_word` and `next_word_sub` are the two ways to
move one of them on.
-/

open Circular List Function

namespace CommandRing

open Nat

variable {α : Type*} {n rd wr : ℕ} {mem : ℕ → α} {pending staged : List α} {x : α}

/-- The ring holds the elements `pending`, followed by the elements `staged`. -/
structure Holds (n : ℕ) (mem : ℕ → α) (rd wr : ℕ) (pending staged : List α) : Prop where
  rd_lt : rd < n
  wr_eq : wr = place n rd pending.length
  room : pending.length + staged.length < n
  content : stretch mem n rd (pending.length + staged.length) = pending ++ staged

namespace Holds

theorem empty (mem : ℕ → α) (h : rd < n) : Holds n mem rd rd [] [] :=
  ⟨h, (place_zero h).symm, zero_lt_of_lt h, rfl⟩

section

variable (h : Holds n mem rd wr pending staged)

include h

theorem wr_lt : wr < n :=
  h.wr_eq ▸ place_lt h.rd_lt

theorem place_wr (k : ℕ) :
    place n wr k = place n rd (pending.length + k) := by
  rw [h.wr_eq, place_place]

/-- The pointers tell how much is pending. -/
theorem gap_eq : gap n rd wr = pending.length := by
  rw [h.wr_eq, gap_place h.rd_lt (lt_of_le_of_lt (le_add_right _ _) h.room)]

theorem rd_eq_wr_iff : rd = wr ↔ pending = [] := by
  constructor
  · intro heq
    have hgap := h.gap_eq
    rw [← heq, gap, if_pos (Nat.le_refl rd), Nat.sub_self] at hgap
    exact length_eq_zero_iff.1 hgap.symm
  · rintro rfl
    exact (h.wr_eq.trans (place_zero h.rd_lt)).symm

/-- An element is stored behind the staged ones. -/
theorem store (hroom : pending.length + staged.length + 1 < n) (x : α) :
    Holds n (update mem (place n wr staged.length) x) rd wr pending (staged ++ [x]) := by
  refine ⟨h.rd_lt, h.wr_eq, ?_, ?_⟩
  · rw [length_append, length_singleton]
    omega
  · have hplace : place n (place n rd (pending.length + staged.length)) 0 =
        place n rd (pending.length + staged.length) := place_zero (place_lt h.rd_lt)
    rw [length_append, length_singleton, ← add_assoc, h.place_wr, stretch_add,
      stretch_update h.room (le_refl _), h.content, ← append_assoc]
    refine congrArg (pending ++ staged ++ ·) ?_
    rw [stretch, range_one, map_singleton, hplace, update_self]

/-- What is staged becomes pending. -/
theorem publish :
    Holds n mem rd (place n wr staged.length) (pending ++ staged) [] := by
  have hlen : (pending ++ staged).length = pending.length + staged.length := length_append
  refine ⟨h.rd_lt, ?_, ?_, ?_⟩
  · rw [h.place_wr, hlen]
  · rw [hlen, length_nil]
    exact h.room
  · rw [hlen, length_nil, add_zero, append_nil, h.content]

end

/-- The reader takes the first pending element. -/
theorem read (h : Holds n mem rd wr (x :: pending) staged) :
    mem rd = x ∧ Holds n mem (place n rd 1) wr pending staged := by
  have hlen : (x :: pending).length + staged.length = 1 + (pending.length + staged.length) := by
    rw [length_cons]
    omega
  have hone : stretch mem n rd 1 = [mem rd] := by
    rw [stretch, range_one, map_singleton, place_zero h.rd_lt]
  have hcontent := h.content
  rw [hlen, stretch_add, hone, singleton_append, cons_append] at hcontent
  obtain ⟨hx, hrest⟩ := cons.inj hcontent
  refine ⟨hx, place_lt h.rd_lt, ?_, ?_, hrest⟩
  · rw [h.wr_eq, length_cons, place_place, add_comm]
  · have := h.room
    omega

end Holds

/-! ## Byte pointers -/

/-- The difference of two addresses, as an unsigned number. -/
theorem sub_addr {a b : ℕ} (hab : a ≤ b) (hb : b < 0x100000000) :
    (b + 0x100000000 - a) % 0x100000000 = b - a := by
  omega

/-- The word at an address. -/
theorem word_of_addr (base k : ℕ) : (base + k * 4 - base) / 4 = k := by
  omega

/-- A pointer goes on by a word. -/
theorem next_word {k : ℕ} (base : ℕ) (hk : k < n) :
    (if base + n * 4 ≤ base + k * 4 + 4 then base else base + k * 4 + 4) =
      base + place n k 1 * 4 := by
  split_ifs with h
  · rw [place_of_le hk (one_le_of_lt hk) (by omega)]
    omega
  · rw [place_of_lt (by omega)]
    omega

/-- The same for a pointer from which the size is subtracted. -/
theorem next_word_sub {k : ℕ} (base : ℕ) (hk : k < n) :
    (if base + n * 4 ≤ base + k * 4 + 4 then base + k * 4 + 4 - n * 4 else base + k * 4 + 4) =
      base + place n k 1 * 4 := by
  rw [← next_word base hk]
  split_ifs <;> omega

/-- The room that the pointers show. -/
theorem Holds.room_iff (h : Holds n mem rd wr pending staged) (base len : ℕ) :
    base + wr * 4 + len * 4 <
        (if base + rd * 4 ≤ base + wr * 4 then base + rd * 4 + n * 4 else base + rd * 4) ↔
      pending.length + len < n := by
  have hgap := h.gap_eq
  have hrd := h.rd_lt
  have hwr := h.wr_lt
  unfold gap at hgap
  split_ifs at hgap ⊢ <;> omega

/-! ## Marks -/

variable {m k : ℕ} {marks : ℕ → Bool}

/-- The marks are at the `m` places from `rd` on. -/
def Unread (n rd m : ℕ) (marks : ℕ → Bool) : Prop :=
  ∀ p < n, marks p = true ↔ ∃ k < m, place n rd k = p

theorem Unread.none (n rd : ℕ) : Unread n rd 0 fun _ => false :=
  fun _ _ => ⟨fun h => Bool.noConfusion h, fun ⟨_, hk, _⟩ => absurd hk (not_lt_zero _)⟩

/-- The next place is free. -/
theorem Unread.free (h : Unread n rd m marks) (hrd : rd < n) (hm : m < n) :
    marks (place n rd m) = false := by
  rw [← Bool.not_eq_true, h _ (place_lt hrd)]
  rintro ⟨k, hk, heq⟩
  exact Nat.ne_of_lt hk (place_inj (hk.trans hm) hm heq)

theorem Unread.store (h : Unread n rd m marks) :
    Unread n rd (m + 1) (update marks (place n rd m) true) := by
  intro p hp
  by_cases heq : p = place n rd m
  · rw [heq, update_self]
    exact ⟨fun _ => ⟨m, lt_succ_self m, rfl⟩, fun _ => rfl⟩
  · rw [update_of_ne heq, h p hp]
    constructor
    · rintro ⟨k, hk, hkp⟩
      exact ⟨k, hk.trans (lt_succ_self m), hkp⟩
    · rintro ⟨k, hk, hkp⟩
      have hne : k ≠ m := fun hkm => heq (hkm ▸ hkp.symm)
      exact ⟨k, by omega, hkp⟩

/-- A word is read. -/
theorem Unread.read (h : Unread n rd (m + 1) marks) (hrd : rd < n) (hm : m < n) :
    Unread n (place n rd 1) m (update marks rd false) := by
  intro p hp
  by_cases heq : p = rd
  · rw [heq, update_self]
    refine ⟨fun h => Bool.noConfusion h, fun ⟨k, hk, hkp⟩ => ?_⟩
    rw [place_place, ← place_zero hrd, place_place, zero_add] at hkp
    exact absurd (place_inj (by omega) (by omega) hkp) (by omega)
  · rw [update_of_ne heq, h p hp]
    constructor
    · rintro ⟨k, hk, hkp⟩
      cases k with
      | zero => exact absurd (hkp.symm.trans (place_zero hrd)) heq
      | succ k =>
        refine ⟨k, by omega, ?_⟩
        rw [place_place, add_comm, hkp]
    · rintro ⟨k, hk, hkp⟩
      rw [place_place] at hkp
      exact ⟨1 + k, by omega, hkp⟩

end CommandRing
