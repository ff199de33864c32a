import Mathlib.Data.Nat.Notation

/-!
# Loops with an early exit

A loop that runs its body a fixed number of times unless the body leaves it. The body gets
the number of the round and the number of rounds after it. `loop_rounds` is the rule for
invariants : one that every round keeps, or turns into the condition for leaving, holds
when the loop ends. `loop_countdown` is the rule for loops all of whose rounds meet a condition
(`Throughout`), and `loop_post` its case of an invariant that the last round may break.
-/

namespace BoundedLoop

variable {σ ε : Type*}

/-- Run `body` for `n` rounds, the first of them being round `i`. -/
def loop (body : ℕ → ℕ → σ → Except ε σ) : ℕ → ℕ → σ → Except ε σ
  | 0, _, s => .ok s
  | n + 1, i, s =>
    match body i n s with
    | .error e => .error e
    | .ok s => loop body n (i + 1) s

/-- `P` holds of a result, `Q` of an exit. -/
def Post (P : σ → Prop) (Q : ε → Prop) : Except ε σ → Prop
  | .ok s => P s
  | .error e => Q e

theorem Post.imp {P P' : σ → Prop} {Q Q' : ε → Prop} {x : Except ε σ} (h : Post P Q x)
    (hP : ∀ s, P s → P' s) (hQ : ∀ e, Q e → Q' e) : Post P' Q' x := by
  cases x with
  | ok s => exact hP s h
  | error e => exact hQ e h

theorem Post.and {P P' : σ → Prop} {Q : ε → Prop} {x : Except ε σ} (h : Post P Q x)
    (h' : Post P' (fun _ => True) x) : Post (fun s => P s ∧ P' s) Q x := by
  cases x with
  | ok s => exact ⟨h, h'⟩
  | error e => exact h

variable {body : ℕ → ℕ → σ → Except ε σ}

variable {C : ℕ → σ → Prop}

variable {n i : ℕ} {s : σ} {R : ε → Prop}

theorem loop_succ_of_ok {s' : σ} (h : body i n s = .ok s') :
    loop body (n + 1) i s = loop body n (i + 1) s' := by
  rw [loop, h]

theorem loop_succ_of_error {e : ε} (h : body i n s = .error e) :
    loop body (n + 1) i s = .error e := by
  rw [loop, h]

/-- The rule for invariants. The invariant `P i n` is about the state before round `i`, when `n`
rounds are left. -/
theorem loop_rounds {P : ℕ → ℕ → σ → Prop} {Q : ε → Prop}
    (h : ∀ i n s, P i (n + 1) s → Post (P (i + 1) n) Q (body i n s)) :
    ∀ (n i : ℕ) (s : σ), P i n s → Post (P (i + n) 0) Q (loop body n i s)
  | 0, _, _, hs => hs
  | n + 1, i, s, hs => by
    have hb := h i n s hs
    cases hbody : body i n s with
    | error e =>
      rw [loop_succ_of_error hbody]
      rw [hbody] at hb
      exact hb
    | ok s' =>
      rw [loop_succ_of_ok hbody, Nat.add_comm n 1, ← Nat.add_assoc]
      rw [hbody] at hb
      exact loop_rounds h n (i + 1) s' hb

/-- The rule for an invariant that does not depend on the rounds that are left. -/
theorem loop_induct {P : ℕ → σ → Prop} {Q : ε → Prop}
    (h : ∀ i n s, P i s → Post (P (i + 1)) Q (body i n s)) :
    ∀ (n i : ℕ) (s : σ), P i s → Post (P (i + n)) Q (loop body n i s) :=
  loop_rounds (P := fun i _ => P i) h

/-- `C` holds of every round and the state before it. -/
def Throughout (body : ℕ → ℕ → σ → Except ε σ) (C : ℕ → σ → Prop) : ℕ → ℕ → σ → Prop
  | 0, _, _ => True
  | n + 1, i, s => C i s ∧ Post (Throughout body C n (i + 1)) (fun _ => True) (body i n s)

theorem throughout_one (h : C i s) :
    Throughout body C 1 i s := by
  refine ⟨h, ?_⟩
  cases body i 0 s <;> trivial

theorem throughout_true : ∀ (n i : ℕ) (s : σ), Throughout body (fun _ _ => True) n i s
  | 0, _, _ => trivial
  | n + 1, i, s => by
    refine ⟨trivial, ?_⟩
    cases body i n s with
    | error _ => trivial
    | ok s' => exact throughout_true n (i + 1) s'

/-- A condition that holds of every round by an invariant `P` of the rounds that are left. -/
theorem throughout_of {P : ℕ → σ → Prop}
    (h : ∀ i n s, P (n + 1) s → C i s ∧ Post (P n) (fun _ => True) (body i n s)) :
    ∀ (n i : ℕ) (s : σ), P n s → Throughout body C n i s
  | 0, _, _, _ => trivial
  | n + 1, i, s, hP => by
    obtain ⟨hC, hb⟩ := h i n s hP
    exact ⟨hC, hb.imp (fun s' hs' => throughout_of h n (i + 1) s' hs') fun _ _ => trivial⟩

/-- The rule for invariants of rounds that meet a condition. The invariant `P n` is about the state
before `n` rounds. -/
theorem loop_countdown {P : ℕ → σ → Prop}
    (h : ∀ i n s, P (n + 1) s → C i s → Post (P n) R (body i n s)) (n i : ℕ) (s : σ) (hP : P n s)
    (hC : Throughout body C n i s) : Post (P 0) R (loop body n i s) := by
  have hall := loop_rounds (P := fun i n s => P n s ∧ Throughout body C n i s) (Q := R)
    (fun i n s ⟨hP, hC, hrest⟩ => (h i n s hP hC).and hrest) n i s ⟨hP, hC⟩
  exact hall.imp (fun _ hs => hs.1) fun _ he => he

/-- The rule for an invariant `P` that is needed before every round and may fail after the last
one; `Q` is what holds when the loop ends. -/
theorem loop_post {P Q : σ → Prop}
    (h : ∀ i n s, P s → C i s → Post (fun s' => Q s' ∧ (n ≠ 0 → P s')) R (body i n s))
    (n i : ℕ) (s : σ) (hP : n ≠ 0 → P s) (hQ : Q s) (hC : Throughout body C n i s) :
    Post Q R (loop body n i s) :=
  (loop_countdown (P := fun n s => Q s ∧ (n ≠ 0 → P s))
    (fun i n s hs => h i n s (hs.2 n.succ_ne_zero)) n i s ⟨hQ, hP⟩ hC).imp
    (fun _ hs => hs.1) fun _ he => he

end BoundedLoop
