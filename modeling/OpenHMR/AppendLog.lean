import Mathlib.Data.List.Basic

/-!
# Logs that only grow

A log is a list to which elements are added at the end. `Added l l' k x` says that the element
`x` came to position `k` on the way from the log `l` to the log `l'`, and `Grows P l l'` that all
elements added on the way satisfy `P`. Both go along with the steps of a run : what is added in a
step stays, and what is added in two steps is added in one of them (`Added.split`).
-/

namespace AppendLog

variable {α : Type*} {l l' l'' : List α} {k : ℕ} {x y : α} {P Q : α → Prop}

/-- The element `x` was added at position `k` between the logs `l` and `l'`. -/
def Added (l l' : List α) (k : ℕ) (x : α) : Prop :=
  l.length ≤ k ∧ l'[k]? = some x

theorem Added.mono (h : Added l l' k x) (hp : l' <+: l'') : Added l l'' k x := by
  obtain ⟨t, rfl⟩ := hp
  have hk : k < l'.length := (List.getElem?_eq_some_iff.1 h.2).1
  exact ⟨h.1, (List.getElem?_append_left hk).trans h.2⟩

theorem Added.of_later (h : Added l' l'' k x) (hp : l <+: l') : Added l l'' k x :=
  ⟨Nat.le_trans hp.length_le h.1, h.2⟩

/-- What is added in two steps is added in one of them. -/
theorem Added.split (h : Added l l'' k x) (hp : l' <+: l'') :
    Added l l' k x ∨ Added l' l'' k x := by
  rcases Nat.lt_or_ge k l'.length with hk | hk
  · obtain ⟨t, rfl⟩ := hp
    exact Or.inl ⟨h.1, (List.getElem?_append_left hk).symm.trans h.2⟩
  · exact Or.inr ⟨hk, h.2⟩

theorem added_concat (hl : l' = l ++ [y]) : Added l l' k x ↔ k = l.length ∧ x = y := by
  subst hl
  refine ⟨fun ⟨hk, hx⟩ => ?_, ?_⟩
  · have hlt := (List.getElem?_eq_some_iff.1 hx).1
    rw [List.length_append, List.length_singleton] at hlt
    obtain rfl : k = l.length := by omega
    rw [List.getElem?_concat_length] at hx
    exact ⟨rfl, (Option.some.inj hx).symm⟩
  · rintro ⟨rfl, rfl⟩
    exact ⟨Nat.le_refl _, List.getElem?_concat_length⟩

theorem not_added_self : ¬Added l l k x := fun ⟨hk, hx⟩ =>
  Nat.not_lt.2 hk (List.getElem?_eq_some_iff.1 hx).1

/-- All elements added between the logs `l` and `l'` satisfy `P`. -/
def Grows (P : α → Prop) (l l' : List α) : Prop :=
  l <+: l' ∧ ∀ k x, Added l l' k x → P x

theorem Grows.trans (h : Grows P l l') (h' : Grows P l' l'') : Grows P l l'' :=
  ⟨h.1.trans h'.1, fun k x hx => (hx.split h'.1).elim (h.2 k x) (h'.2 k x)⟩

theorem Grows.concat (hl : l' = l ++ [y]) (hy : P y) : Grows P l l' := by
  refine ⟨hl ▸ List.prefix_append _ _, fun k x hx => ?_⟩
  obtain ⟨-, rfl⟩ := (added_concat hl).1 hx
  exact hy

end AppendLog
