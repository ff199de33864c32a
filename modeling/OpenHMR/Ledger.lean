import Mathlib.Data.Set.Lattice
import Mathlib.Order.CompletePartialOrder

/-!
# Ledgers

A ledger records, the newest first, what was acquired from a pool and what was released to it. The
pool is a set, and the items are subsets of it given by `span`. `out` is what is in use; a ledger is
`Legal` if only what was free is acquired, and only what is in use is released : no element is
released twice.
-/

namespace Ledger

variable {α β : Type*}

/-- An entry of a ledger. -/
inductive Event (β : Type*) where
  | acquire (b : β)
  | release (b : β)
  deriving DecidableEq

variable (span : β → Set α)

/-- What is in use. -/
def out : List (Event β) → Set α
  | [] => ∅
  | .acquire b :: log => out log ∪ span b
  | .release b :: log => out log \ span b

/-- Nothing is acquired that is in use, and nothing is released that is not. -/
def Legal : List (Event β) → Prop
  | [] => True
  | .acquire b :: log => Disjoint (span b) (out span log) ∧ Legal log
  | .release b :: log => span b ⊆ out span log ∧ Legal log

variable {span} {log : List (Event β)}

theorem mem_out_releases {x : α} : ∀ {bs : List β},
    x ∈ out span (bs.map .release ++ log) ↔ x ∈ out span log ∧ ∀ b ∈ bs, x ∉ span b
  | [] => by simp
  | b :: bs => by
    rw [List.map_cons, List.cons_append, out, Set.mem_sdiff, mem_out_releases, List.forall_mem_cons]
    tauto

/-- Several disjoint items are released. -/
theorem legal_releases (h : Legal span log) : ∀ {bs : List β},
    (bs.Pairwise fun b c => Disjoint (span b) (span c)) → (∀ b ∈ bs, span b ⊆ out span log) →
      Legal span (bs.map .release ++ log)
  | [], _, _ => h
  | b :: bs, hd, hsub => by
    obtain ⟨hb, hbs⟩ := List.pairwise_cons.1 hd
    obtain ⟨hbo, hbso⟩ := List.forall_mem_cons.1 hsub
    refine ⟨fun x hx => mem_out_releases.2 ⟨hbo hx, fun c hc hxc => ?_⟩, legal_releases h hbs hbso⟩
    exact Set.disjoint_left.1 (hb c hc) hx hxc

end Ledger
