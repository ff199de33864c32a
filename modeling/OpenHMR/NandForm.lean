import Mathlib.Data.List.Pairwise
import OpenHMR.NandTable

/-!
# The form of the table

In a table of the form `PrefixForm` the used entries come first, entries without a remap
block come last, and the remap blocks are distinct. Then the slot found for a new bad block is
the one after the used entries, so that entering it appends one link (`PrefixForm.record`),
and the walk, which stops at the first unused entry, misses none (`PrefixForm.walkAll_eq`).
-/

open Remap List

namespace OpenHMR

/-- The form of the table. -/
structure PrefixForm (bbt : List BBt) : Prop where
  /-- No unused entry before a used one. -/
  used : bbt.Pairwise fun x y => y.badBlock ≠ bbInit → x.badBlock ≠ bbInit
  /-- No entry without a remap block before one with a remap block. -/
  real : bbt.Pairwise fun x y => y.remapBlock ≠ rbInit → x.remapBlock ≠ rbInit
  /-- No remap block twice. -/
  distinct : bbt.Pairwise fun x y => x.remapBlock = y.remapBlock → x.remapBlock = rbInit

section Links

variable {pre post : List BBt}

theorem links_of_unused (h : ∀ x ∈ post, x.badBlock = bbInit) : links post = [] := by
  cases post with
  | nil => rfl
  | cons e post => exact links_cons_of_eq (h e mem_cons_self)

/-- The links of a table are its used entries. -/
theorem links_append (hpre : ∀ x ∈ pre, x.badBlock ≠ bbInit)
    (hpost : ∀ x ∈ post, x.badBlock = bbInit) :
    links (pre ++ post) = pre.map fun e => (e.bad, e.remap) := by
  induction pre with
  | nil => exact links_of_unused hpost
  | cons e pre ih =>
    obtain ⟨he, hpre⟩ := forall_mem_cons.1 hpre
    rw [cons_append, links_cons_of_ne he, ih hpre, map_cons]

end Links

namespace PrefixForm

variable {bbt : List BBt} {die : ℤ} {block : ℕ} {r : List BBt × BBt}

/-- A remap block belongs to one entry. -/
theorem eq_of_remapBlock (hf : PrefixForm bbt) {x y : BBt} (hx : x ∈ bbt) (hy : y ∈ bbt)
    (heq : x.remapBlock = y.remapBlock) (hr : x.remapBlock ≠ rbInit) : x = y := by
  have hsymm : Std.Symm fun x y : BBt => x.remapBlock = y.remapBlock → x.remapBlock = rbInit :=
    ⟨fun _ _ h heq => heq ▸ h heq.symm⟩
  by_contra hne
  exact hr (hf.distinct.forall hx hy hne heq)

/-- The slot for a new bad block is the first unused entry. -/
theorem slot (hf : PrefixForm bbt) (h : recordBad die block bbt = some r) :
    ∃ pre e post, bbt = pre ++ e :: post ∧ (∀ x ∈ pre, x.badBlock ≠ bbInit) ∧ e.Spare ∧
      (∀ x ∈ post, x.badBlock = bbInit) ∧ r.1 = pre ++ r.2 :: post ∧
      r.2 = { e with bbDie := UInt16.ofInt die, badBlock := UInt16.ofNat block } := by
  obtain ⟨pre, e, post, rfl, hpre, he, hr, hr2⟩ := recordBad_eq_some h
  have hused := pairwise_append.1 hf.used
  have hreal := pairwise_append.1 hf.real
  refine ⟨pre, e, post, rfl, fun x hx hxe => ?_, he, fun x hx => ?_, hr, hr2⟩
  · exact hpre x hx ⟨hxe, hreal.2.2 x hx e mem_cons_self he.2⟩
  · by_contra hne
    exact (pairwise_cons.1 hused.2.1).1 x hx hne he.1

/-- Entering a bad block keeps the form and appends one link. -/
theorem record (hf : PrefixForm bbt) (h : recordBad die block bbt = some r)
    (hb : UInt16.ofNat block ≠ bbInit) :
    PrefixForm r.1 ∧ links r.1 = links bbt ++ [(r.2.bad, r.2.remap)] := by
  obtain ⟨pre, e, post, rfl, hpre, he, hpost, hr, hr2⟩ := hf.slot h
  have hremap : r.2.remapBlock = e.remapBlock := by rw [hr2]
  have hbad : r.2.badBlock ≠ bbInit := by rwa [hr2]
  obtain ⟨hused, hreal, hdist⟩ := hf
  simp only [pairwise_append, pairwise_cons, forall_mem_cons] at hused hreal hdist
  rw [hr]
  refine ⟨⟨?_, ?_, ?_⟩, ?_⟩
  · simp only [pairwise_append, pairwise_cons, forall_mem_cons]
    exact ⟨hused.1, ⟨fun x hx hne => absurd (hpost x hx) hne, hused.2.1.2⟩,
      fun x hx => ⟨fun _ => hpre x hx, (hused.2.2 x hx).2⟩⟩
  · simp only [pairwise_append, pairwise_cons, forall_mem_cons, hremap]
    exact hreal
  · simp only [pairwise_append, pairwise_cons, forall_mem_cons, hremap]
    exact hdist
  · have hunused : ∀ x ∈ e :: post, x.badBlock = bbInit := forall_mem_cons.2 ⟨he.1, hpost⟩
    have hused' : ∀ x ∈ pre ++ [r.2], x.badBlock ≠ bbInit := by
      simpa [or_imp, forall_and] using ⟨hpre, hbad⟩
    rw [links_append hpre hunused, append_cons, links_append hused' hpost, map_append]
    rfl

end PrefixForm

/-! ## The walk over the whole table -/

/-- The walk over all entries, which passes over the unused ones. -/
def walkAll (bbt : List BBt) (w : Walk) : Walk :=
  bbt.foldl (fun w e => if e.badBlock ≠ bbInit then e.walkStep w else w) w

theorem walkAll_of_unused : ∀ {bbt : List BBt} (w : Walk), (∀ e ∈ bbt, e.badBlock = bbInit) →
    walkAll bbt w = w
  | [], _, _ => rfl
  | e :: bbt, w, h => by
    obtain ⟨he, hbbt⟩ := forall_mem_cons.1 h
    rw [walkAll, foldl_cons, if_neg (not_not.2 he)]
    exact walkAll_of_unused w hbbt

/-- The walk that stops at the first unused entry misses none. -/
theorem PrefixForm.walkAll_eq : ∀ {bbt : List BBt} (w : Walk), PrefixForm bbt →
    walkBbt bbt w = walkAll bbt w
  | [], _, _ => rfl
  | e :: bbt, w, h => by
    obtain ⟨hused, hbbt⟩ := pairwise_cons.1 h.used
    have htail : PrefixForm bbt :=
      ⟨hbbt, (pairwise_cons.1 h.real).2, (pairwise_cons.1 h.distinct).2⟩
    rw [walkBbt, walkAll, foldl_cons]
    split_ifs with he
    · exact PrefixForm.walkAll_eq _ htail
    · refine (walkAll_of_unused w fun x hx => ?_).symm
      by_contra hne
      exact he (hused x hx hne)

end OpenHMR
