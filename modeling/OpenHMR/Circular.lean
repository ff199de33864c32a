import Mathlib.Data.List.Basic
import Mathlib.Data.Nat.ModEq

/-!
# Places on a circle

`n` places are arranged on a circle. `place` goes some steps on, `gap` counts the steps from a
place to another, and `stretch` is what a memory holds from a place on. A stretch is cut where two
walks meet (`stretch_add`), and a store at a place behind it leaves it as it is
(`stretch_update`). `Written` says that a list was written from a place on, and nothing else.
-/

namespace Circular

open List Nat

variable {α : Type*} {n p q j k : ℕ}

/-- The place `k` steps after the place `p`. -/
def place (n p k : ℕ) : ℕ :=
  (p + k) % n

/-- The steps from the place `p` to the place `q`. -/
def gap (n p q : ℕ) : ℕ :=
  if p ≤ q then q - p else n + q - p

/-- What `mem` holds at the `len` places from the place `p` on. -/
def stretch (mem : ℕ → α) (n p len : ℕ) : List α :=
  (range len).map fun k => mem (place n p k)

theorem place_lt (hp : p < n) : place n p k < n :=
  mod_lt _ (zero_lt_of_lt hp)

theorem place_zero (hp : p < n) : place n p 0 = p :=
  mod_eq_of_lt hp

theorem place_of_lt (h : p + k < n) : place n p k = p + k :=
  mod_eq_of_lt h

theorem place_of_le (hp : p < n) (hk : k ≤ n) (h : n ≤ p + k) : place n p k = p + k - n := by
  rw [place, mod_eq_sub_mod h, mod_eq_of_lt (by omega)]

theorem place_place (n p j k : ℕ) : place n (place n p j) k = place n p (j + k) := by
  rw [place, place, place, mod_add_mod, add_assoc]

theorem place_inj (hj : j < n) (hk : k < n) (h : place n p j = place n p k) : j = k :=
  Nat.ModEq.eq_of_lt_of_lt (Nat.ModEq.add_left_cancel' p h) hj hk

theorem gap_lt (hp : p < n) (hq : q < n) : gap n p q < n := by
  unfold gap
  split_ifs <;> omega

theorem place_gap (hp : p < n) (hq : q < n) : place n p (gap n p q) = q := by
  unfold gap
  split_ifs with h
  · rw [place_of_lt (by omega)]
    omega
  · rw [place_of_le hp (by omega) (by omega)]
    omega

theorem gap_place (hp : p < n) (hk : k < n) : gap n p (place n p k) = k :=
  place_inj (gap_lt hp (place_lt hp)) hk (place_gap hp (place_lt hp))

/-! ## Segments -/

variable {mem mem' : ℕ → α} {len : ℕ}

@[simp]
theorem length_stretch (mem : ℕ → α) (n p len : ℕ) : (stretch mem n p len).length = len := by
  rw [stretch, length_map, length_range]

/-- A stretch is cut. -/
theorem stretch_add (mem : ℕ → α) (n p j k : ℕ) :
    stretch mem n p (j + k) = stretch mem n p j ++ stretch mem n (place n p j) k := by
  simp only [stretch, range_add, map_append, map_map, place_place]
  rfl

theorem take_stretch (mem : ℕ → α) (n p : ℕ) (hj : j ≤ len) :
    (stretch mem n p len).take j = stretch mem n p j := by
  obtain ⟨k, rfl⟩ := Nat.exists_eq_add_of_le hj
  rw [stretch_add, take_left' (length_stretch ..)]

theorem drop_stretch (mem : ℕ → α) (n p : ℕ) (hj : j ≤ len) :
    (stretch mem n p len).drop j = stretch mem n (place n p j) (len - j) := by
  obtain ⟨k, rfl⟩ := Nat.exists_eq_add_of_le hj
  rw [stretch_add, drop_left' (length_stretch ..), Nat.add_sub_cancel_left]

theorem stretch_congr (h : ∀ k < len, mem (place n p k) = mem' (place n p k)) :
    stretch mem n p len = stretch mem' n p len :=
  map_congr_left fun k hk => h k (mem_range.1 hk)

/-- A store behind the stretch. -/
theorem stretch_update (hk : k < n) (hlen : len ≤ k) (mem : ℕ → α) (x : α) :
    stretch (Function.update mem (place n p k) x) n p len = stretch mem n p len := by
  refine stretch_congr fun j hj => Function.update_of_ne (fun h => ?_) _ _
  have := place_inj (hj.trans_le (hlen.trans hk.le)) hk h
  omega

/-! ## Writes -/

/-- From `mem` to `mem'`, the list `l` was written at the places from `p` on. -/
structure Written (n p : ℕ) (l : List α) (mem mem' : ℕ → α) : Prop where
  get : ∀ k (hk : k < l.length), mem' (place n p k) = l[k]
  rest : ∀ a, (∀ k < l.length, a ≠ place n p k) → mem' a = mem a

namespace Written

variable {l l' : List α} {mem'' : ℕ → α}

theorem nil (n p : ℕ) (mem : ℕ → α) : Written n p [] mem mem :=
  ⟨fun k hk => absurd hk (not_lt_zero k), fun _ _ => rfl⟩

/-- The places behind the list are as before. -/
theorem behind (h : Written n p l mem mem') (hk : l.length + k < n) :
    mem' (place n (p + l.length) k) = mem (place n (p + l.length) k) := by
  refine h.rest _ fun j hj heq => ?_
  have := place_inj (p := p) (j := l.length + k) (k := j) hk (by omega) (by
    rw [← heq, place, place, add_assoc])
  omega

/-- Two lists, one behind the other. -/
theorem append (h : Written n p l mem mem') (h' : Written n (p + l.length) l' mem' mem'')
    (hn : l.length + l'.length ≤ n) : Written n p (l ++ l') mem mem'' := by
  have hplace (k : ℕ) : place n (p + l.length) k = place n p (l.length + k) := by
    rw [place, place, add_assoc]
  constructor
  · intro k hk
    rw [length_append] at hk
    rcases lt_or_ge k l.length with hlt | hge
    · rw [getElem_append_left hlt, h'.rest _ fun j hj heq => ?_, h.get k hlt]
      rw [hplace] at heq
      have := place_inj (by omega) (by omega) heq
      omega
    · obtain ⟨j, rfl⟩ := Nat.exists_eq_add_of_le hge
      rw [← hplace, h'.get j (by omega), getElem_append_right hge]
      simp only [Nat.add_sub_cancel_left]
  · intro a ha
    rw [length_append] at ha
    rw [h'.rest a fun k hk => hplace k ▸ ha _ (by omega), h.rest a fun k hk => ha k (by omega)]

end Written

end Circular
