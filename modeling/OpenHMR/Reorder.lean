import Mathlib.Data.List.Pairwise
import Mathlib.Tactic.Common

/-!
# Reordering by number

Items with numbers wait in a list with falling numbers. `insertDesc` puts an item at its place, and
refuses a number that is there. `drain w` takes from the other end what is not above `w`, where `w`
steps over each number that it meets : what it takes is below the new `w` (`drain_lt`), and what
stays is above it (`drain_gt`).
-/

namespace Reorder

open List Option

variable {α : Type*} (key : α → ℕ)

/-- Put `x` before the first item with a smaller number. It is `none` if its number is there. -/
def insertDesc (x : α) : List α → Option (List α)
  | [] => some [x]
  | e :: l =>
    if key x < key e then (insertDesc x l).map (e :: ·)
    else if key x = key e then none
    else some (x :: e :: l)

/-- Take the first items of a list with rising numbers : those taken, the new number, the others. -/
def drain : ℕ → List α → List α × ℕ × List α
  | w, [] => ([], w, [])
  | w, e :: l =>
    if key e ≤ w then
      let (out, w', rest) := drain (if key e = w then w + 1 else w) l
      (e :: out, w', rest)
    else ([], w, e :: l)

variable {key} {x : α} {l l' : List α} {w : ℕ}

theorem insertDesc_perm : ∀ {l l' : List α}, insertDesc key x l = some l' → l'.Perm (x :: l)
  | [], _, h => by
    obtain rfl := some.inj h
    exact .refl _
  | e :: l, l', h => by
    rw [insertDesc] at h
    split_ifs at h with hlt
    · obtain ⟨m, hm, rfl⟩ := map_eq_some_iff.1 h
      exact ((insertDesc_perm hm).cons e).trans (.swap x e l)
    · obtain rfl := some.inj h
      exact .refl _

/-- An insertion keeps the order. -/
theorem insertDesc_sorted : ∀ {l l' : List α}, l.Pairwise (fun a b => key b < key a) →
    insertDesc key x l = some l' → l'.Pairwise (fun a b => key b < key a)
  | [], _, _, h => by
    obtain rfl := some.inj h
    exact pairwise_singleton _ _
  | e :: l, l', hl, h => by
    obtain ⟨he, hl⟩ := pairwise_cons.1 hl
    rw [insertDesc] at h
    split_ifs at h with hlt heq
    · obtain ⟨m, hm, rfl⟩ := map_eq_some_iff.1 h
      refine pairwise_cons.2 ⟨fun b hb => ?_, insertDesc_sorted hl hm⟩
      rcases mem_cons.1 ((insertDesc_perm hm).mem_iff.1 hb) with rfl | hb
      exacts [hlt, he b hb]
    · obtain rfl := some.inj h
      refine pairwise_cons.2 ⟨fun b hb => ?_, pairwise_cons.2 ⟨he, hl⟩⟩
      have hex : key e < key x := by omega
      rcases mem_cons.1 hb with rfl | hb
      exacts [hex, Nat.lt_trans (he b hb) hex]

theorem exists_of_insertDesc_eq_none : ∀ {l : List α}, insertDesc key x l = none →
    ∃ e ∈ l, key e = key x
  | e :: l, h => by
    rw [insertDesc] at h
    split_ifs at h with hlt heq
    · obtain ⟨a, ha, hax⟩ := exists_of_insertDesc_eq_none (map_eq_none_iff.1 h)
      exact ⟨a, mem_cons_of_mem _ ha, hax⟩
    · exact ⟨e, mem_cons_self, heq.symm⟩

/-- A number above all others goes to the front. -/
theorem insertDesc_of_lt (key : α → ℕ) (x : α) (h : ∀ e ∈ l, key e < key x) :
    insertDesc key x l = some (x :: l) := by
  cases l with
  | nil => rfl
  | cons e l =>
    have he := h e mem_cons_self
    rw [insertDesc, if_neg (by omega), if_neg (by omega)]

/-- Different numbers between two bounds. -/
theorem length_le_of_sorted {lo : ℕ} : ∀ {l : List α} {hi : ℕ},
    l.Pairwise (fun a b => key b < key a) → (∀ e ∈ l, lo < key e) → (∀ e ∈ l, key e < hi) →
    l.length ≤ hi - lo - 1
  | [], _, _, _, _ => Nat.zero_le _
  | a :: l, hi, hl, hlo, hhi => by
    obtain ⟨ha, hl⟩ := pairwise_cons.1 hl
    have hlen := length_le_of_sorted hl (fun e he => hlo e (mem_cons_of_mem _ he)) ha
    have h1 := hlo a mem_cons_self
    have h2 := hhi a mem_cons_self
    rw [length_cons]
    omega

theorem drain_of_le {e : α} (h : key e ≤ w) : drain key w (e :: l) =
    (e :: (drain key (if key e = w then w + 1 else w) l).1,
      (drain key (if key e = w then w + 1 else w) l).2) := by
  rw [drain, if_pos h]

theorem drain_of_gt {e : α} (h : ¬ key e ≤ w) : drain key w (e :: l) = ([], w, e :: l) := by
  rw [drain, if_neg h]

/-- Nothing is lost. -/
theorem drain_append (key : α → ℕ) : ∀ (w : ℕ) (l : List α),
    (drain key w l).1 ++ (drain key w l).2.2 = l
  | _, [] => rfl
  | w, e :: l => by
    by_cases h : key e ≤ w
    · rw [drain_of_le h]
      exact congrArg (e :: ·) (drain_append key _ l)
    · rw [drain_of_gt h]
      rfl

theorem le_drain (key : α → ℕ) : ∀ (w : ℕ) (l : List α), w ≤ (drain key w l).2.1
  | w, [] => Nat.le_refl w
  | w, e :: l => by
    by_cases h : key e ≤ w
    · rw [drain_of_le h]
      refine Nat.le_trans ?_ (le_drain key _ l)
      split_ifs <;> omega
    · simp [drain_of_gt h]

/-- The number steps once for each item at most. -/
theorem drain_le (key : α → ℕ) : ∀ (w : ℕ) (l : List α),
    (drain key w l).2.1 ≤ w + (drain key w l).1.length
  | w, [] => Nat.le_refl w
  | w, e :: l => by
    by_cases h : key e ≤ w
    · rw [drain_of_le h]
      refine Nat.le_trans (drain_le key _ l) ?_
      simp only [length_cons]
      split_ifs <;> omega
    · rw [drain_of_gt h]
      exact Nat.le_add_right _ _

/-- What is taken is below the new number. -/
theorem drain_lt : ∀ {w : ℕ} {l : List α}, ∀ x ∈ (drain key w l).1, key x < (drain key w l).2.1
  | _, [], x, hx => by cases hx
  | w, e :: l, x, hx => by
    by_cases h : key e ≤ w
    · rw [drain_of_le h] at hx ⊢
      rcases mem_cons.1 hx with rfl | hx
      · refine Nat.lt_of_lt_of_le ?_ (le_drain key _ l)
        split_ifs <;> omega
      · exact drain_lt x hx
    · rw [drain_of_gt h] at hx
      cases hx

/-- What stays is above the new number. -/
theorem drain_gt : ∀ {w : ℕ} {l : List α}, l.Pairwise (fun a b => key a < key b) →
    ∀ x ∈ (drain key w l).2.2, (drain key w l).2.1 < key x
  | _, [], _, x, hx => by cases hx
  | w, e :: l, hl, x, hx => by
    obtain ⟨he, hl'⟩ := pairwise_cons.1 hl
    by_cases h : key e ≤ w
    · rw [drain_of_le h] at hx ⊢
      exact drain_gt hl' x hx
    · rw [drain_of_gt h] at hx ⊢
      rcases mem_cons.1 hx with rfl | hx
      · exact Nat.lt_of_not_le h
      · exact Nat.lt_trans (Nat.lt_of_not_le h) (he x hx)

theorem drain_out_eq_nil_iff (hl : l.Pairwise (fun a b => key a < key b)) :
    (drain key w l).1 = [] ↔ ∀ e ∈ l, w < key e := by
  cases l with
  | nil => simp [drain]
  | cons e l =>
    obtain ⟨he, -⟩ := pairwise_cons.1 hl
    by_cases h : key e ≤ w
    · rw [drain_of_le h]
      simp only [reduceCtorEq, false_iff, not_forall]
      exact ⟨e, mem_cons_self, Nat.not_lt.2 h⟩
    · rw [drain_of_gt h]
      refine iff_of_true rfl fun x hx => ?_
      rcases mem_cons.1 hx with rfl | hx
      · exact Nat.lt_of_not_le h
      · exact Nat.lt_trans (Nat.lt_of_not_le h) (he x hx)

/-- Each number from `w` on up to one that is in the list is in the list. -/
def NoGap (key : α → ℕ) (w : ℕ) (l : List α) : Prop :=
  ∀ e ∈ l, ∀ m, w ≤ m → m < key e → ∃ x ∈ l, key x = m

/-- Nothing stays if there is no gap. -/
theorem drain_rest_eq_nil_iff : ∀ {w : ℕ} {l : List α}, l.Pairwise (fun a b => key a < key b) →
    ((drain key w l).2.2 = [] ↔ NoGap key w l)
  | _, [], _ => iff_of_true rfl fun _ he => nomatch he
  | w, e :: l, hl => by
    obtain ⟨he, hl'⟩ := pairwise_cons.1 hl
    by_cases h : key e ≤ w
    · rw [drain_of_le h, drain_rest_eq_nil_iff hl']
      constructor
      · intro hgap x hx m hm hmx
        rcases mem_cons.1 hx with rfl | hx
        · omega
        · by_cases hmw : m = key e
          · exact ⟨e, mem_cons_self, hmw.symm⟩
          · obtain ⟨y, hy, rfl⟩ := hgap x hx m (by split_ifs <;> omega) hmx
            exact ⟨y, mem_cons_of_mem _ hy, rfl⟩
      · intro hgap x hx m hm hmx
        obtain ⟨hwm, hem⟩ : w ≤ m ∧ key e < m := by
          split_ifs at hm <;> omega
        obtain ⟨y, hy, rfl⟩ := hgap x (mem_cons_of_mem _ hx) m hwm hmx
        rcases mem_cons.1 hy with rfl | hy
        · omega
        · exact ⟨y, hy, rfl⟩
    · rw [drain_of_gt h]
      simp only [reduceCtorEq, false_iff]
      intro hgap
      obtain ⟨y, hy, hyw⟩ := hgap e mem_cons_self w (Nat.le_refl w) (Nat.lt_of_not_le h)
      rcases mem_cons.1 hy with rfl | hy
      · omega
      · have := he y hy
        omega

/-- A list with rising numbers is cut in two, below and above the new number `w'`. -/
structure Drained (key : α → ℕ) (w : ℕ) (l out : List α) (w' : ℕ) (rest : List α) : Prop where
  append : out ++ rest = l
  le : w ≤ w'
  le_add : w' ≤ w + out.length
  lt : ∀ x ∈ out, key x < w'
  gt : ∀ x ∈ rest, w' < key x

theorem drained (w : ℕ) (hl : l.Pairwise (fun a b => key a < key b)) :
    Drained key w l (drain key w l).1 (drain key w l).2.1 (drain key w l).2.2 :=
  ⟨drain_append key w l, le_drain key w l, drain_le key w l, drain_lt, drain_gt hl⟩

end Reorder
