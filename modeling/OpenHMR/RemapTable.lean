import Mathlib.Data.List.Nodup
import Mathlib.Data.List.Induction

/-!
# Remapping tables

A remapping table is a list of links `(source, target)`. `follow` runs a key through the
table once, from the first link to the last : where the key is a link's source, it goes on
with the link's target. A table that only grows at its end is run by adding one case at the
end (`follow_concat`).

In a `Forward` table no source is the target of the same or a later link, so a key that has
run through is no source any more (`follow_notMem_sources`). If the targets are distinct
and differ from the keys at the start, two keys do not end in the same place
(`follow_injOn`).
-/

set_option linter.unusedSectionVars false

namespace Remap

open List

variable {κ : Type*} [DecidableEq κ]

/-- Where the key `x` ends in the table. -/
def follow : List (κ × κ) → κ → κ
  | [], x => x
  | e :: l, x => follow l (if x = e.1 then e.2 else x)

/-- The keys that are remapped. -/
def sources (l : List (κ × κ)) : List κ :=
  l.map Prod.fst

/-- The keys to which they are remapped. -/
def targets (l : List (κ × κ)) : List κ :=
  l.map Prod.snd

variable {l : List (κ × κ)}

@[simp] theorem sources_nil : sources ([] : List (κ × κ)) = [] :=
  rfl

@[simp] theorem sources_cons (e : κ × κ) (l : List (κ × κ)) :
    sources (e :: l) = e.1 :: sources l :=
  rfl

@[simp] theorem follow_nil (x : κ) : follow [] x = x :=
  rfl

theorem follow_append : ∀ (l m : List (κ × κ)) (x : κ), follow (l ++ m) x = follow m (follow l x)
  | [], _, _ => rfl
  | _ :: l, m, _ => follow_append l m _

theorem follow_concat (l : List (κ × κ)) (q r x : κ) :
    follow (l ++ [(q, r)]) x = if follow l x = q then r else follow l x :=
  follow_append l [(q, r)] x

/-- A key that is no source stays. -/
theorem follow_of_notMem : ∀ {l : List (κ × κ)} {x : κ}, x ∉ sources l → follow l x = x
  | [], _, _ => rfl
  | e :: l, x, hx => by
    rw [sources_cons, mem_cons, not_or] at hx
    rw [follow, if_neg hx.1]
    exact follow_of_notMem hx.2

/-- A key ends where it started or in a target. -/
theorem follow_mem (l : List (κ × κ)) (x : κ) : follow l x = x ∨ follow l x ∈ targets l := by
  induction l using reverseRecOn with
  | nil => exact .inl rfl
  | append_singleton l e ih =>
    rw [follow_concat l e.1 e.2]
    split_ifs with h
    · exact .inr (by simp [targets])
    · exact ih.imp_right fun hm => by simpa [targets] using .inl (by simpa [targets] using hm)

/-- A source ends in a target. -/
theorem follow_mem_targets {x : κ} (hx : x ∈ sources l) :
    follow l x ∈ targets l := by
  induction l using reverseRecOn with
  | nil => simp [sources] at hx
  | append_singleton l e ih =>
    rw [follow_concat l e.1 e.2]
    split_ifs with h
    · simp [targets]
    · have hx' : x ∈ sources l := by
        rcases mem_append.1 (by simpa [sources] using hx : x ∈ sources l ++ [e.1]) with hm | hm
        · exact hm
        · by_contra hn
          exact h ((follow_of_notMem hn).trans (mem_singleton.1 hm))
      simpa [targets] using .inl (by simpa [targets] using ih hx')

/-- No source is the target of its own or of a later link. -/
def Forward (l : List (κ × κ)) : Prop :=
  (∀ e ∈ l, e.1 ≠ e.2) ∧ l.Pairwise fun e f => e.1 ≠ f.2

theorem forward_concat {q r : κ} :
    Forward (l ++ [(q, r)]) ↔ Forward l ∧ q ≠ r ∧ r ∉ sources l := by
  have hsrc : (∀ e ∈ l, e.1 ≠ r) ↔ r ∉ sources l := by
    simp only [sources, mem_map, not_exists, not_and]
  simp only [Forward, mem_append, mem_singleton, or_imp, forall_and, forall_eq,
    pairwise_append, pairwise_singleton, hsrc]
  tauto

/-- In a forward table a key does not end in a source. -/
theorem follow_notMem_sources (h : Forward l) (x : κ) :
    follow l x ∉ sources l := by
  induction l using reverseRecOn with
  | nil => simp [sources]
  | append_singleton l e ih =>
    obtain ⟨hl, hne, hr⟩ := forward_concat.1 h
    have hsrc : sources (l ++ [e]) = sources l ++ [e.1] := by simp [sources]
    rw [follow_concat l e.1 e.2, hsrc, mem_append, mem_singleton, not_or]
    split_ifs with hx
    · exact ⟨hr, hne.symm⟩
    · exact ⟨ih hl, hx⟩

/-- Keys that are no targets do not meet. -/
theorem follow_injOn (hnd : (targets l).Nodup) {x y : κ}
    (hx : x ∉ targets l) (hy : y ∉ targets l) (h : follow l x = follow l y) : x = y := by
  induction l using reverseRecOn with
  | nil => exact h
  | append_singleton l e ih =>
    have htgt : targets (l ++ [e]) = targets l ++ [e.2] := by simp [targets]
    rw [htgt, mem_append, mem_singleton, not_or] at hx hy
    rw [htgt, nodup_append] at hnd
    have hnew : ∀ z, z ≠ e.2 → follow l z ≠ e.2 := by
      intro z hz hze
      rcases follow_mem l z with hs | hm
      · exact hz (hs.symm.trans hze)
      · exact hnd.2.2 _ hm _ (mem_singleton_self _) hze
    rw [follow_concat l e.1 e.2, follow_concat l e.1 e.2] at h
    split_ifs at h with h1 h2 h2
    · exact ih hnd.1 hx.1 hy.1 (h1.trans h2.symm)
    · exact absurd h.symm (hnew y hy.2)
    · exact absurd h (hnew x hx.2)
    · exact ih hnd.1 hx.1 hy.1 h

end Remap
