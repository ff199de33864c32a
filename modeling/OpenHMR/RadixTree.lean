import Mathlib.Data.List.Pairwise
import Mathlib.Tactic.SplitIfs
import Mathlib.Tactic.TypeStar

/-!
# Radix trees

A radix tree as a map from indices to values that can be searched in the order of the indices.
`insert` refuses an index that is in use, and `gangLookup` gives the first entries from an index
on.
-/

namespace Radix

open List Nat

/-- A map from indices to values, with the entries in the order of their indices. -/
structure Tree (α : Type*) where
  entries : List (ℕ × α)
  sorted : entries.Pairwise fun a b => a.1 < b.1

namespace Tree

variable {α : Type*} {t t' : Tree α} {j k : ℕ} {v w : α}

/-- The tree without entries. -/
def empty : Tree α :=
  ⟨[], .nil⟩

/-- The value at an index. -/
def lookup (t : Tree α) (k : ℕ) : Option α :=
  (t.entries.find? fun e => e.1 = k).map Prod.snd

/-- The tree without the entry at an index. -/
def delete (t : Tree α) (k : ℕ) : Tree α :=
  ⟨t.entries.filter fun e => e.1 ≠ k, t.sorted.filter _⟩

/-- The tree with a new entry, unless there is one with this index. -/
def insert (t : Tree α) (k : ℕ) (v : α) : Option (Tree α) :=
  if t.lookup k = none then
    some ⟨t.entries.filter (fun e => e.1 < k) ++ (k, v) :: t.entries.filter (fun e => k < e.1), by
      refine pairwise_append.2 ⟨t.sorted.filter _, pairwise_cons.2
        ⟨fun e he => ?_, t.sorted.filter _⟩, fun e he f hf => ?_⟩
      · simpa using (mem_filter.1 he).2
      · have hek : e.1 < k := by simpa using (mem_filter.1 he).2
        rcases mem_cons.1 hf with rfl | hf
        · exact hek
        · exact Nat.lt_trans hek (by simpa using (mem_filter.1 hf).2)⟩
  else none

/-- The first `n` entries whose index is at least `first`. -/
def gangLookup (t : Tree α) (first n : ℕ) : List (ℕ × α) :=
  (t.entries.filter fun e => first ≤ e.1).take n

/-- An index has one value. -/
theorem mem_unique (t : Tree α) (hv : (k, v) ∈ t.entries) (hw : (k, w) ∈ t.entries) : v = w := by
  have hne : t.entries.Pairwise fun a b : ℕ × α => a.1 ≠ b.1 := t.sorted.imp ne_of_lt
  have hsymm : Std.Symm fun a b : ℕ × α => a.1 ≠ b.1 := ⟨fun _ _ h => h.symm⟩
  by_contra hvw
  exact hne.forall hv hw (fun heq => hvw (congrArg Prod.snd heq)) rfl

theorem lookup_eq_some : t.lookup k = some v ↔ (k, v) ∈ t.entries := by
  unfold lookup
  constructor
  · intro h
    obtain ⟨⟨j, w⟩, he, rfl⟩ := Option.map_eq_some_iff.1 h
    have hj : j = k := by simpa using List.find?_some he
    exact hj ▸ List.mem_of_find?_eq_some he
  · intro h
    cases hf : t.entries.find? fun e => e.1 = k with
    | none => exact absurd (List.find?_eq_none.1 hf _ h) (by simp)
    | some e =>
      have hk : e.1 = k := by simpa using List.find?_some hf
      have he : (k, e.2) ∈ t.entries := hk ▸ List.mem_of_find?_eq_some hf
      rw [Option.map_some, t.mem_unique he h]

theorem lookup_eq_none : t.lookup k = none ↔ ∀ v, (k, v) ∉ t.entries := by
  rw [Option.eq_none_iff_forall_ne_some]
  exact forall_congr' fun v => lookup_eq_some.not

theorem mem_delete : (j, v) ∈ (t.delete k).entries ↔ (j, v) ∈ t.entries ∧ j ≠ k := by
  simp [delete]

theorem nodup (t : Tree α) : t.entries.Nodup :=
  t.sorted.imp fun h heq => ne_of_lt h (congrArg Prod.fst heq)

/-- The entry that `delete` takes away. -/
theorem delete_perm (h : (k, v) ∈ t.entries) : t.entries.Perm ((k, v) :: (t.delete k).entries) := by
  have hk : (k, v) ∉ (t.delete k).entries := fun hm => (mem_delete.1 hm).2 rfl
  refine (perm_ext_iff_of_nodup t.nodup (nodup_cons.2 ⟨hk, (t.delete k).nodup⟩)).2 ?_
  rintro ⟨j, w⟩
  rw [mem_cons, mem_delete, Prod.mk.injEq]
  constructor
  · intro hj
    by_cases hjk : j = k
    · subst hjk
      exact .inl ⟨rfl, t.mem_unique hj h⟩
    · exact .inr ⟨hj, hjk⟩
  · rintro (⟨rfl, rfl⟩ | hj)
    exacts [h, hj.1]

/-- The entry that `insert` adds. -/
theorem insert_perm (h : t.insert k v = some t') : t'.entries.Perm ((k, v) :: t.entries) := by
  unfold insert at h
  split_ifs at h with hk
  obtain rfl := Option.some.inj h
  have hge : t.entries.filter (fun e => k < e.1) =
      t.entries.filter (fun e => !decide (e.1 < k)) := by
    refine filter_congr fun e he => ?_
    have hne : e.1 ≠ k := fun heq => lookup_eq_none.1 hk e.2 (heq ▸ he)
    rw [← decide_not, decide_eq_decide]
    omega
  dsimp only
  rw [hge]
  exact perm_middle.trans (.cons _ (filter_append_perm _ _))

variable {first n : ℕ} {e l : ℕ × α}

theorem mem_gangLookup (h : e ∈ t.gangLookup first n) :
    e ∈ t.entries ∧ first ≤ e.1 := by
  simpa using mem_filter.1 (mem_of_mem_take h)

theorem gangLookup_sorted (t : Tree α) (first n : ℕ) :
    (t.gangLookup first n).Pairwise fun a b => a.1 < b.1 :=
  (t.sorted.filter _).take

/-- A search that finds less than it may has found all. -/
theorem gangLookup_eq_filter (h : (t.gangLookup first n).length ≠ n) :
    t.gangLookup first n = t.entries.filter fun e => first ≤ e.1 := by
  unfold gangLookup at h ⊢
  rw [length_take] at h
  exact take_of_length_le (by omega)

theorem mem_gangLookup_of_length_ne
    (h : (t.gangLookup first n).length ≠ n) (he : e ∈ t.entries) (hfirst : first ≤ e.1) :
    e ∈ t.gangLookup first n := by
  rw [gangLookup_eq_filter h]
  exact mem_filter.2 ⟨he, by simpa using hfirst⟩

/-- What a search leaves out comes after the last entry that it finds. -/
theorem mem_drop_of_lt_last (hl : l ∈ (t.gangLookup first n).getLast?)
    (he : e ∈ t.entries) (hfirst : first ≤ e.1) :
    e ∈ t.gangLookup first n ∧ e.1 ≤ l.1 ∨
      e ∈ (t.entries.filter fun e => first ≤ e.1).drop n ∧ l.1 < e.1 := by
  have hmem : e ∈ t.entries.filter fun e => first ≤ e.1 :=
    mem_filter.2 ⟨he, by simpa using hfirst⟩
  have hsorted := t.sorted.filter fun e => first ≤ e.1
  rw [← take_append_drop n (t.entries.filter _)] at hmem hsorted
  obtain ⟨htake, -, hlt⟩ := pairwise_append.1 hsorted
  obtain ⟨init, hinit⟩ := getLast?_eq_some_iff.1 hl
  rcases mem_append.1 hmem with hmem | hmem
  · refine .inl ⟨hmem, ?_⟩
    rw [gangLookup] at hinit
    rw [hinit] at htake hmem
    rcases mem_append.1 hmem with hmem | hmem
    · exact Nat.le_of_lt ((pairwise_append.1 htake).2.2 e hmem l (mem_singleton_self _))
    · exact Nat.le_of_eq (congrArg Prod.fst (mem_singleton.1 hmem))
  · exact .inr ⟨hmem, hlt l (List.mem_of_getLast? hl) e hmem⟩

/-- After a search that found `l` last, the entries behind `l` are left. -/
theorem filter_eq_gangLookup_append (hl : l ∈ (t.gangLookup first n).getLast?) :
    (t.entries.filter fun e => first ≤ e.1) =
      t.gangLookup first n ++ t.entries.filter fun e => l.1 + 1 ≤ e.1 := by
  have hfirst : first ≤ l.1 := (mem_gangLookup (List.mem_of_getLast? hl)).2
  have hbehind : (t.entries.filter fun e => l.1 + 1 ≤ e.1) =
      (t.entries.filter fun e => first ≤ e.1).filter fun e => l.1 + 1 ≤ e.1 := by
    rw [filter_filter]
    refine filter_congr fun e _ => ?_
    rw [← Bool.decide_and, decide_eq_decide]
    omega
  have hapart : List.Disjoint (t.gangLookup first n)
      ((t.entries.filter fun e => first ≤ e.1).drop n) :=
    disjoint_take_drop (t.nodup.filter _) (Nat.le_refl n)
  have htake : (t.gangLookup first n).filter (fun e => l.1 + 1 ≤ e.1) = [] := by
    refine filter_eq_nil_iff.2 fun e he => ?_
    obtain ⟨hmem, hle⟩ := mem_gangLookup he
    rcases mem_drop_of_lt_last hl hmem hle with ⟨-, hle⟩ | ⟨hdrop, -⟩
    · simpa using lt_succ_of_le hle
    · exact absurd hdrop (hapart he)
  have hdrop : ((t.entries.filter fun e => first ≤ e.1).drop n).filter (fun e => l.1 + 1 ≤ e.1) =
      (t.entries.filter fun e => first ≤ e.1).drop n := by
    refine filter_eq_self.2 fun e he => ?_
    have hmem := mem_filter.1 (mem_of_mem_drop he)
    rcases mem_drop_of_lt_last hl hmem.1 (of_decide_eq_true hmem.2) with ⟨hm, -⟩ | ⟨-, hlt⟩
    · exact absurd he (hapart hm)
    · simpa using succ_le_of_lt hlt
  have hsplit : t.gangLookup first n ++ (t.entries.filter fun e => first ≤ e.1).drop n =
      t.entries.filter fun e => first ≤ e.1 :=
    take_append_drop n _
  have hlast := congrArg (filter fun e => l.1 + 1 ≤ e.1) hsplit
  rw [filter_append, htake, hdrop, nil_append, ← hbehind] at hlast
  rw [← hlast, hsplit]

end Tree

end Radix
