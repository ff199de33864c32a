import Mathlib.Data.List.Basic

/-!
# Logs of partial updates

An entry of a log gives values to some keys. The log is replayed from its beginning, so that the
last entry that has a key decides (`replay`). An entry that is changed within the log changes the
keys that no later entry has (`replay_of_last`).
-/

namespace Overlay

variable {α β : Type*}

/-- The map `m` with the values of the entry `p`. -/
def apply (m : α → β) (p : α → Option β) : α → β :=
  fun a => (p a).getD (m a)

/-- The map after the entries of `l`. -/
def replay (m : α → β) (l : List (α → Option β)) : α → β :=
  l.foldl apply m

variable {m m' : α → β} {p p' : α → Option β} {l l' : List (α → Option β)} {a : α}

@[simp] theorem replay_nil (m : α → β) : replay m [] = m := rfl

@[simp] theorem replay_cons (m : α → β) (p : α → Option β) (l : List (α → Option β)) :
    replay m (p :: l) = replay (apply m p) l := rfl

theorem replay_append (m : α → β) (l l' : List (α → Option β)) :
    replay m (l ++ l') = replay (replay m l) l' :=
  List.foldl_append

theorem apply_of_none (h : p a = none) : apply m p a = m a := by
  simp [apply, h]

theorem apply_of_some {b : β} (h : p a = some b) : apply m p a = b := by
  simp [apply, h]

/-- The value of a key depends on the values of this key only. -/
theorem replay_congr : ∀ {l : List (α → Option β)} {m m' : α → β}, m a = m' a →
    replay m l a = replay m' l a
  | [], _, _, h => h
  | p :: l, _, _, h => by
    rw [replay_cons, replay_cons]
    exact replay_congr (by simp [apply, h])

/-- A key that no entry has. -/
theorem replay_of_none : ∀ {l : List (α → Option β)} {m : α → β}, (∀ p ∈ l, p a = none) →
    replay m l a = m a
  | [], _, _ => rfl
  | p :: l, m, h => by
    rw [replay_cons, replay_of_none fun q hq => h q (List.mem_cons_of_mem p hq),
      apply_of_none (h p List.mem_cons_self)]

/-- An entry that is changed for other keys. -/
theorem replay_of_eq (h : p a = p' a) : replay m (l ++ p :: l') a = replay m (l ++ p' :: l') a := by
  rw [replay_append, replay_append, replay_cons, replay_cons]
  exact replay_congr (by simp [apply, h])

/-- The last entry that has a key. -/
theorem replay_of_last {b : β} (h : p a = some b) (hlast : ∀ q ∈ l', q a = none) :
    replay m (l ++ p :: l') a = b := by
  rw [replay_append, replay_cons, replay_of_none hlast, apply_of_some h]

end Overlay
