import Mathlib.Data.Nat.Notation
import Mathlib.Tactic.Common

/-!
# Properties of runs

A system takes a step for each event of a list. `Always` says that all states of the run have a
property, and `Each` that each step meets a condition on the state before it and its event.
`always_iff_each` reduces that the one is equivalent to the other to a single step.

An infinite run is a sequence of states. `LeadsTo` says that a state with one property is followed
by one with another, and `LeadsTo.of_step` proves it of a step that is taken again and again until
it has its effect.
-/

namespace Runs

variable {σ ε : Type*} (step : σ → ε → σ)

/-- All states of the run have the property `p`, the first and the last included. -/
def Always (p : σ → Prop) : σ → List ε → Prop
  | s, [] => p s
  | s, e :: es => p s ∧ Always p (step s e) es

/-- Each step of the run meets the condition `q` in the state before it. -/
def Each (q : σ → ε → Prop) : σ → List ε → Prop
  | _, [] => True
  | s, e :: es => q s e ∧ Each q (step s e) es

variable {step} {p : σ → Prop} {q a : σ → ε → Prop} {inv : σ → Prop}

theorem Always.head {s : σ} : ∀ {es : List ε}, Always step p s es → p s
  | [], h => h
  | _ :: _, h => h.1

theorem Always.last {s : σ} : ∀ {es : List ε}, Always step p s es → p (es.foldl step s)
  | [], h => h
  | _ :: _, h => h.2.last

/-- An invariant holds in the last state. -/
theorem foldl_of_step (hstep : ∀ s e, inv s → inv (step s e)) : ∀ (es : List ε) {s : σ}, inv s →
    inv (es.foldl step s)
  | [], _, h => h
  | e :: es, s, h => foldl_of_step hstep es (hstep s e h)

/-- An invariant of the steps that meet a condition holds in the last state. -/
theorem Each.foldl (hstep : ∀ s e, inv s → q s e → inv (step s e)) : ∀ {es : List ε} {s : σ},
    Each step q s es → inv s → inv (es.foldl step s)
  | [], _, _, h => h
  | e :: _, s, hq, h => hq.2.foldl hstep (hstep s e h hq.1)

theorem Each.of_forall (h : ∀ s e, q s e) : ∀ {es : List ε} {s : σ}, Each step q s es
  | [], _ => trivial
  | e :: _, s => ⟨h s e, of_forall h⟩

/-- Two runs, one after the other. -/
theorem Each.append {es' : List ε} : ∀ {es : List ε} {s : σ}, Each step q s es →
    Each step q (es.foldl step s) es' → Each step q s (es ++ es')
  | [], _, _, h' => h'
  | _ :: _, _, h, h' => ⟨h.1, h.2.append h'⟩

/-- A condition on the steps gives another one, by an invariant. -/
theorem Each.imp_of_inv (hstep : ∀ s e, inv s → q s e → a s e ∧ inv (step s e)) :
    ∀ {es : List ε} {s : σ}, inv s → Each step q s es → Each step a s es
  | [], _, _, _ => trivial
  | e :: es, s, hi, hq => by
    obtain ⟨ha, hi'⟩ := hstep s e hi hq.1
    exact ⟨ha, imp_of_inv hstep hi' hq.2⟩

/-- A property that a step keeps if and only if it meets the condition. The steps that are taken are
those that `a` allows. -/
theorem always_iff_each (hstep : ∀ s e, inv s → p s → a s e →
      inv (step s e) ∧ (p (step s e) ↔ q s e)) : ∀ {es : List ε} {s : σ}, inv s → p s →
    Each step a s es → (Always step p s es ↔ Each step q s es)
  | [], _, _, hp, _ => iff_of_true hp trivial
  | e :: es, s, hi, hp, ha => by
    obtain ⟨ha, has⟩ := ha
    obtain ⟨hi', hiff⟩ := hstep s e hi hp ha
    refine ⟨fun ⟨_, halways⟩ => ?_, fun ⟨hq, heach⟩ => ?_⟩
    · have hp' := halways.head
      exact ⟨hiff.1 hp', (always_iff_each hstep hi' hp' has).1 halways⟩
    · have hp' := hiff.2 hq
      exact ⟨hp, (always_iff_each hstep hi' hp' has).2 heach⟩

/-! ## Infinite runs -/

/-- A state of the run that has the property `p` is, or is followed by, one that has `q`, and the
states before that one have `r`. -/
def LeadsTo (st : ℕ → σ) (r p q : σ → Prop) : Prop :=
  ∀ k, p (st k) → ∃ l ≥ k, q (st l) ∧ ∀ j, k ≤ j → j < l → r (st j)

namespace LeadsTo

variable {st : ℕ → σ} {q q' r : σ → Prop}

theorem of_imp (h : ∀ s, p s → q s) : LeadsTo st r p q :=
  fun k hp => ⟨k, Nat.le_refl k, h _ hp, fun _ hkj hjk => absurd hjk (Nat.not_lt.2 hkj)⟩

theorem trans (hpq : LeadsTo st r p q) (hqr : LeadsTo st r q q') : LeadsTo st r p q' := by
  intro k hp
  obtain ⟨l, hkl, hq, hl⟩ := hpq k hp
  obtain ⟨m, hlm, hq', hm⟩ := hqr l hq
  refine ⟨m, Nat.le_trans hkl hlm, hq', fun j hkj hjm => ?_⟩
  rcases Nat.lt_or_ge j l with h | h
  · exact hl j hkj h
  · exact hm j h hjm

/-- Each step from `p` keeps it or leads to `q`, and there is always a later step that leads
to `q`. -/
theorem of_step (hr : ∀ s, p s → r s) (hstay : ∀ k, p (st k) → p (st (k + 1)) ∨ q (st (k + 1)))
    (hgo : ∀ k, ∃ l ≥ k, p (st l) → q (st (l + 1))) : LeadsTo st r p q := by
  intro k hp
  obtain ⟨l, hkl, hl⟩ := hgo k
  -- Up to each state, either `p` has held throughout, or `q` has come.
  have hwait : ∀ d, (∀ j, k ≤ j → j ≤ k + d → p (st j)) ∨
      ∃ m ≥ k, q (st m) ∧ ∀ j, k ≤ j → j < m → p (st j) := by
    intro d
    induction d with
    | zero =>
      refine .inl fun j hkj hjk => ?_
      obtain rfl : j = k := by omega
      exact hp
    | succ d ih =>
      rcases ih with hd | hq
      · rcases hstay (k + d) (hd _ (by omega) (by omega)) with h | h
        · refine .inl fun j hkj hjd => ?_
          rcases Nat.lt_or_ge (k + d) j with h' | h'
          · obtain rfl : j = k + d + 1 := by omega
            exact h
          · exact hd j hkj h'
        · exact .inr ⟨k + d + 1, by omega, h, fun j hkj hjd => hd j hkj (by omega)⟩
      · exact .inr hq
  have hend : ∃ m ≥ k, q (st m) ∧ ∀ j, k ≤ j → j < m → p (st j) := by
    rcases hwait (l - k) with h | h
    · rw [Nat.add_sub_cancel' hkl] at h
      exact ⟨l + 1, by omega, hl (h l hkl (Nat.le_refl l)), fun j hkj hjl => h j hkj (by omega)⟩
    · exact h
  obtain ⟨m, hkm, hq, hm⟩ := hend
  exact ⟨m, hkm, hq, fun j hkj hjm => hr _ (hm j hkj hjm)⟩

/-- A measure that goes down until `q` has come. -/
theorem of_measure {f : σ → ℕ}
    (h : ∀ n, LeadsTo st r (fun s => p s ∧ f s = n) fun s => q s ∨ p s ∧ f s < n) :
    LeadsTo st r p q := by
  have hall : ∀ n, LeadsTo st r (fun s => p s ∧ f s = n) q := by
    intro n
    induction n using Nat.strongRecOn with
    | ind n ih =>
      refine (h n).trans fun k hk => ?_
      rcases hk with hq | ⟨hp, hlt⟩
      · exact of_imp (fun _ hs => hs) k hq
      · exact ih _ hlt k ⟨hp, rfl⟩
  exact fun k hp => hall _ k ⟨hp, rfl⟩

/-- Each step from `p` leaves the state as it is, leads to `q`, or makes a measure go down, and
there is always a later step that does not leave the state as it is. -/
theorem of_progress {f : σ → ℕ} (hr : ∀ s, p s → r s)
    (hstep : ∀ k, p (st k) → st (k + 1) = st k ∨ q (st (k + 1)) ∨
      p (st (k + 1)) ∧ f (st (k + 1)) < f (st k))
    (hgo : ∀ k, p (st k) → ∃ l ≥ k, st l = st k → st (l + 1) ≠ st l) : LeadsTo st r p q := by
  refine of_measure (f := f) ?_
  rintro _ k ⟨hp, rfl⟩
  have hwait : LeadsTo st r (· = st k) fun s => q s ∨ p s ∧ f s < f (st k) := by
    refine of_step (fun s hs => hr s (hs ▸ hp)) (fun j hj => ?_) fun j => ?_
    · rcases hstep j (hj ▸ hp) with hsame | hq
      · exact .inl (hsame.trans hj)
      · exact .inr (hj ▸ hq)
    · by_cases hj : st j = st k
      · obtain ⟨l, hjl, hl⟩ := hgo j (hj ▸ hp)
        refine ⟨l, hjl, fun hlk => ?_⟩
        exact hlk ▸ (hstep l (hlk ▸ hp)).resolve_left (hl (hlk.trans hj.symm))
      · exact ⟨j, Nat.le_refl j, fun h => absurd h hj⟩
  exact hwait k rfl

end LeadsTo

end Runs
