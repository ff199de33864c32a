import OpenHMR.AuthCalls
import OpenHMR.AuthOrder

/-!
# The releases of the DVR memory

What `mm/auth.c` asks the allocators to take back, as the list of the calls it makes.
`FreeAll.loop` is the loop of `free_all_memory_allocation` with its batches of ten records
and its restart index, and `free_all_records` says that the loop ends, that it releases the
memory of each record of a user program once, in the order of the tree, and that it leaves
the records of the drivers. The calls are those of the state model
(`AuthState.freeAllMemoryAllocation_eq`).

With `CONFIG_REALTEK_ADVANCED_RECLAIM` a large block is cut at once and released in pieces
later. The two loops agree through the count that the record packs : the pieces and the tail
are disjoint aligned blocks that make up the block (`tail_reclaimed`).
-/

namespace OpenHMR

open List Nat AuthState AuthRecord

open Buddy (Block Apart spans)

/-- A call by which memory is given back. -/
inductive ReleaseCall where
  | kfree (addr : ℕ)
  /-- `atomic_inc` of the count of the page at an address. -/
  | incCount (addr : ℕ)
  | freePages (addr order : ℕ)
  /-- `free_dvrbp_memory` for the page at an address. -/
  | freeDvrbp (addr order : ℕ)
  deriving DecidableEq

/-- The rounds `i, …` of the loop that gives a block back in pieces. -/
def pieceCalls (order : ℕ) : ℕ → ℕ → ℕ → List ReleaseCall
  | 0, _, _ => []
  | n + 1, i, addr =>
    (if i ≠ 1 then [.incCount addr] else []) ++
      .freePages addr (order - i) :: pieceCalls order n (i + 1) (addr + 2 ^ (12 + order - i))

/-- How the pages of the record `r` are given back, which are at `addr`. -/
def pageCalls (cfg : AuthConfig) (r : AuthRecord) (addr : ℕ) : List ReleaseCall :=
  if cfg.advancedReclaim then
    if r.cnt ≠ 0 then pieceCalls r.order r.cnt 1 addr else [.freePages addr r.order]
  else [.freePages addr r.order, .freeDvrbp addr r.order]

/-- How the memory of the record `r` is given back. -/
def recordCalls (cfg : AuthConfig) (r : AuthRecord) : List ReleaseCall :=
  if r.owner = cacheId then [.kfree r.addr] else pageCalls cfg r r.addr

/-- The part of `AUTH_IOCQALLOC` that gives the end of a new block back, with the number of
pieces that are left. `none` if it does not leave its loop. -/
def reclaimCalls (cfg : AuthConfig) (arg ret order : ℕ) : Option (ℕ × List ReleaseCall) :=
  if cfg.advancedReclaim ∧ 0x10000 ≤ excess arg order then
    (cutLoop arg (11 + order) 1 (2 ^ (11 + order))).map fun (cnt, tmp) =>
      (cnt, [.incCount (ret + tmp), .freePages (ret + tmp) (order - cnt)])
  else some (0, [])

/-! ## The calls and the state -/

/-- What a call does. The blueprint is not part of the state. -/
def ReleaseCall.perform (cfg : AuthConfig) (s : AuthState) (c : ReleaseCall) : AuthState :=
  if s.down then s
  else
    match c with
    | .kfree addr => s.kfree cfg addr
    | .incCount addr => s.incCount (virtToPage addr)
    | .freePages addr order => s.freePages cfg addr order
    | .freeDvrbp _ _ => s

namespace AuthState

open ReleaseCall (perform)

variable {cfg : AuthConfig} {s : AuthState}

theorem perform_of_down (hd : s.down = true) (c : ReleaseCall) : c.perform cfg s = s :=
  if_pos hd

@[simp] theorem incCount_down (page : ℕ) : (s.incCount page).down = s.down := rfl

theorem freePieces_eq (order : ℕ) : ∀ (n i addr : ℕ) (s : AuthState),
    freePieces cfg order n i addr s = (pieceCalls order n i addr).foldl (perform cfg) s
  | 0, _, _, _ => rfl
  | n + 1, i, addr, s => by
    rw [freePieces, pieceCalls]
    by_cases hd : s.down = true
    · rw [if_pos hd, foldl_fixed' (perform_of_down hd)]
    · rw [if_neg hd, foldl_append, foldl_cons, ← freePieces_eq order n]
      by_cases hi : i ≠ 1 <;> simp [perform, hi, hd]

theorem freeRecordPages_eq (hd : s.down = false) (r : AuthRecord) (addr : ℕ) :
    s.freeRecordPages cfg r addr = (pageCalls cfg r addr).foldl (perform cfg) s := by
  rw [freeRecordPages, pageCalls]
  by_cases hadv : cfg.advancedReclaim = true
  · by_cases hcnt : r.cnt ≠ 0
    · rw [if_pos ⟨hadv, hcnt⟩, if_pos hadv, if_pos hcnt, freePieces_eq]
    · rw [if_neg fun h => hcnt h.2, if_pos hadv, if_neg hcnt]
      simp [perform, hd]
  · rw [if_neg fun h => hadv h.1, if_neg hadv]
    simp [perform, hd]

/-- The calls of `AUTH_IOCQALLOC` on its block are those of the state model, which also
notes that the block was cut. -/
theorem reclaim_eq (hd : s.down = false) (arg ret order : ℕ) :
    (s.reclaim cfg arg ret order = none ∧ reclaimCalls cfg arg ret order = none) ∨
      ∃ cnt calls cut, reclaimCalls cfg arg ret order = some (cnt, calls) ∧
        s.reclaim cfg arg ret order =
          some (cnt, { calls.foldl (perform cfg) s with cut := cut }) := by
  rw [reclaim, reclaimCalls]
  split_ifs with hcut
  · cases hloop : cutLoop arg (11 + order) 1 (2 ^ (11 + order)) with
    | none => exact .inl ⟨rfl, rfl⟩
    | some p => exact .inr ⟨_, _, _, rfl, by simp [perform, hd]; rfl⟩
  · exact .inr ⟨0, [], s.cut, rfl, rfl⟩

end AuthState

/-! ## Giving everything back -/

/-- The variables of `free_all_memory_allocation`, with the calls it has made. -/
structure FreeAll where
  tree : Radix.Tree AuthRecord
  startIndex : ℕ
  calls : List ReleaseCall

namespace FreeAll

variable (cfg : AuthConfig)

/-- One round of the inner loop : a driver's record is left, any other is released and deleted. -/
def record (p : FreeAll) (r : AuthRecord) : FreeAll :=
  if r.owner = cacheId then
    ⟨p.tree.delete (recordKey r.addr), r.addr, p.calls ++ [.kfree r.addr]⟩
  else if r.owner = driverId then { p with startIndex := r.addr }
  else ⟨p.tree.delete (recordKey r.addr), r.addr, p.calls ++ pageCalls cfg r r.addr⟩

/-- The outer loop, at most `n` rounds; `none` if it has not ended by then. -/
def loop : ℕ → FreeAll → Option FreeAll
  | 0, _ => none
  | n + 1, p =>
    let records := p.tree.gangLookup p.startIndex 10
    let p := records.foldl (fun p e => p.record cfg e.2) p
    if records.length ≠ 10 then some p
    else loop n { p with startIndex := recordKey p.startIndex + 1 }

/-- A round releases the record once and deletes it, or leaves it. -/
theorem record_eq (p : FreeAll) (e : ℕ × AuthRecord) :
    p.record cfg e.2 = if e.2.owner ≠ driverId then
      ⟨p.tree.delete (recordKey e.2.addr), e.2.addr, p.calls ++ recordCalls cfg e.2⟩
    else { p with startIndex := e.2.addr } := by
  unfold record recordCalls
  by_cases hobj : e.2.owner = cacheId
  · have hne : e.2.owner ≠ driverId := by
      rw [hobj]
      decide
    rw [if_pos hobj, if_pos hne, if_pos hobj]
  · rw [if_neg hobj, if_neg hobj]
    by_cases hdrv : e.2.owner = driverId
    · rw [if_pos hdrv, if_neg (not_not.2 hdrv)]
    · rw [if_neg hdrv, if_pos hdrv]

/-- The calls that a batch makes. -/
theorem foldl_calls : ∀ (records : List (ℕ × AuthRecord)) (p : FreeAll),
    (records.foldl (fun p e => p.record cfg e.2) p).calls =
      p.calls ++ (records.filter fun e => e.2.owner ≠ driverId).flatMap fun e => recordCalls cfg e.2
  | [], p => by simp
  | e :: records, p => by
    rw [foldl_cons, foldl_calls records, record_eq]
    by_cases he : e.2.owner = driverId <;> simp [he]

/-- The records that a batch leaves in the tree. -/
theorem foldl_entries : ∀ {records : List (ℕ × AuthRecord)} (p : FreeAll),
    (∀ e ∈ records, e.1 = recordKey e.2.addr) →
    (records.foldl (fun p e => p.record cfg e.2) p).tree.entries =
      p.tree.entries.filter fun f => ∀ e ∈ records, e.2.owner ≠ driverId → f.1 ≠ e.1
  | [], p, _ => by simp
  | e :: records, p, hkey => by
    obtain ⟨he, hkey⟩ := forall_mem_cons.1 hkey
    rw [foldl_cons, foldl_entries _ hkey, record_eq]
    by_cases hr : e.2.owner ≠ driverId
    · rw [if_pos hr, Radix.Tree.delete, filter_filter, ← he]
      refine filter_congr fun f _ => ?_
      rw [← Bool.decide_and, decide_eq_decide, forall_mem_cons, and_comm]
      exact and_congr_left fun _ => ⟨fun h _ => h, fun h => h hr⟩
    · rw [if_neg hr]
      refine filter_congr fun f _ => decide_eq_decide.2 ?_
      rw [forall_mem_cons]
      exact ⟨fun h => ⟨fun h' => absurd h' hr, h⟩, fun h => h.2⟩

theorem foldl_startIndex {records : List (ℕ × AuthRecord)} {l : ℕ × AuthRecord} (p : FreeAll)
    (hl : l ∈ records.getLast?) :
    (records.foldl (fun p e => p.record cfg e.2) p).startIndex = l.2.addr := by
  obtain ⟨init, rfl⟩ := getLast?_eq_some_iff.1 hl
  rw [foldl_append, foldl_cons, foldl_nil, record_eq]
  split_ifs <;> rfl

/-- The loop ends, and releases each record from `startIndex` on that is not a driver's. -/
theorem loop_spec : ∀ {n : ℕ} {p : FreeAll}, (∀ e ∈ p.tree.entries, e.1 = recordKey e.2.addr) →
    (p.tree.entries.filter fun e => p.startIndex ≤ e.1).length < n →
    ∃ p', loop cfg n p = some p' ∧
      p'.calls = p.calls ++ ((p.tree.entries.filter fun e => p.startIndex ≤ e.1).filter
        fun e => e.2.owner ≠ driverId).flatMap (fun e => recordCalls cfg e.2) ∧
      p'.tree.entries = p.tree.entries.filter fun e => p.startIndex ≤ e.1 → e.2.owner = driverId
  | n + 1, p, hkey, hn => by
    have hgang : ∀ e ∈ p.tree.gangLookup p.startIndex 10,
        e ∈ p.tree.entries ∧ p.startIndex ≤ e.1 := fun e he => Radix.Tree.mem_gangLookup he
    have hcalls := foldl_calls cfg (p.tree.gangLookup p.startIndex 10) p
    have hentries := foldl_entries cfg p fun e he => hkey e (hgang e he).1
    -- An entry keeps its place unless it is a record of the batch itself.
    have hleft : ∀ f ∈ p.tree.entries,
        (∀ e ∈ p.tree.gangLookup p.startIndex 10, e.2.owner ≠ driverId → f.1 ≠ e.1) ↔
          (f ∈ p.tree.gangLookup p.startIndex 10 → f.2.owner = driverId) := by
      intro f hf
      refine ⟨fun h hm => by_contra fun hr => h f hm hr rfl, fun h e he hr heq => ?_⟩
      have hfe : f = e := by
        obtain ⟨j, v⟩ := f
        obtain ⟨k, w⟩ := e
        obtain rfl : j = k := heq
        rw [p.tree.mem_unique hf (hgang _ he).1]
      subst hfe
      exact hr (h he)
    rw [loop]
    by_cases hlen : (p.tree.gangLookup p.startIndex 10).length ≠ 10
    · -- The search has found all records from `startIndex` on.
      have hall := Radix.Tree.gangLookup_eq_filter hlen
      rw [if_pos hlen]
      refine ⟨_, rfl, by rw [hcalls, hall], ?_⟩
      rw [hentries]
      refine filter_congr fun f hf => decide_eq_decide.2 ((hleft f hf).trans ?_)
      refine ⟨fun h hle => h (Radix.Tree.mem_gangLookup_of_length_ne hlen hf hle), fun h hm => ?_⟩
      exact h (hgang f hm).2
    · rw [if_neg hlen]
      have hten := not_not.1 hlen
      cases hl : (p.tree.gangLookup p.startIndex 10).getLast? with
      | none =>
        rw [getLast?_eq_none_iff.1 hl] at hten
        cases hten
      | some l =>
        have hmem := List.mem_of_getLast? hl
        have hlkey : recordKey l.2.addr = l.1 := (hkey l (hgang l hmem).1).symm
        have hsplit := Radix.Tree.filter_eq_gangLookup_append (t := p.tree) hl
        -- The batch leaves what is behind it as it was.
        have hbehind : ((p.tree.gangLookup p.startIndex 10).foldl
            (fun p e => p.record cfg e.2) p).tree.entries.filter (fun e => l.1 + 1 ≤ e.1) =
              p.tree.entries.filter fun e => l.1 + 1 ≤ e.1 := by
          rw [hentries, filter_filter]
          refine filter_congr fun f hf => ?_
          rw [Bool.and_eq_left_iff_imp, decide_eq_true_iff, decide_eq_true_iff, hleft f hf]
          intro hlt hm
          rcases Radix.Tree.mem_drop_of_lt_last hl hf (hgang f hm).2 with ⟨-, hle⟩ | ⟨hdrop, -⟩
          · omega
          · exact absurd hdrop (disjoint_take_drop (p.tree.nodup.filter _) (le_refl 10) hm)
        have hlength := congrArg length hsplit
        rw [length_append, hten] at hlength
        rw [foldl_startIndex cfg p hl, hlkey]
        obtain ⟨p', hp', hcalls', hentries'⟩ := loop_spec (n := n)
          (p := { (p.tree.gangLookup p.startIndex 10).foldl (fun p e => p.record cfg e.2) p with
            startIndex := l.1 + 1 })
          (fun e he => by
            rw [hentries] at he
            exact hkey e (mem_of_mem_filter he))
          (by
            dsimp only
            rw [hbehind]
            omega)
        dsimp only at hcalls' hentries'
        refine ⟨p', hp', ?_, ?_⟩
        · rw [hcalls', hcalls, hbehind, hsplit, filter_append, flatMap_append, append_assoc]
        · rw [hentries', hentries, filter_filter]
          refine filter_congr fun f hf => ?_
          rw [← Bool.decide_and, decide_eq_decide, hleft f hf]
          constructor
          · rintro ⟨h, h'⟩ hle
            rcases Radix.Tree.mem_drop_of_lt_last hl hf hle with ⟨hm, -⟩ | ⟨-, hlt⟩
            exacts [h' hm, h hlt]
          · intro h
            exact ⟨fun hlt => h ((hgang l hmem).2.trans (by omega)), fun hm => h (hgang f hm).2⟩

end FreeAll

/-- `free_all_memory_allocation` for any content of the tree : the loop ends, the memory of
each record that is not a driver's is released once, as its type word says, and the drivers'
records are left. -/
theorem free_all_records (cfg : AuthConfig) (tree : Radix.Tree AuthRecord)
    (hkey : ∀ e ∈ tree.entries, e.1 = recordKey e.2.addr) :
    ∀ n > tree.entries.length, ∃ p, FreeAll.loop cfg n ⟨tree, 0, []⟩ = some p ∧
      p.calls = (tree.entries.filter fun e => e.2.owner ≠ driverId).flatMap
        (fun e => recordCalls cfg e.2) ∧
      p.tree.entries = tree.entries.filter fun e => e.2.owner = driverId := by
  intro n hn
  obtain ⟨p, hp, hcalls, hentries⟩ := FreeAll.loop_spec cfg (p := ⟨tree, 0, []⟩) hkey
    ((length_filter_le _ _).trans_lt hn)
  refine ⟨p, hp, ?_, ?_⟩
  · simpa using hcalls
  · simpa using hentries

/-- Twelve records : nine objects, a driver's block that ends the first batch, a block of
order 3 that was cut to two pieces, and one more driver's block. -/
def mixedTree : Radix.Tree AuthRecord where
  entries := (range 12).map fun i =>
    (recordKey (0x80010000 + 0x10000 * i),
      ⟨if i = 9 ∨ i = 11 then 0x77030002 else if i = 10 then 0x77010203 else 0x77020000,
        0x80010000 + 0x10000 * i⟩)
  sorted := by decide

/-- The nine objects and the two pieces of `mixedTree` are released, its two blocks of drivers
stay. -/
theorem free_all_mixedTree : ∃ p, FreeAll.loop ⟨true, 0x8000, by decide⟩ 13 ⟨mixedTree, 0, []⟩ =
      some p ∧
    p.calls = (range 9).map (fun i => .kfree (0x80010000 + 0x10000 * i)) ++
      [.freePages 0x800b0000 2, .incCount 0x800b4000, .freePages 0x800b4000 1] ∧
    p.tree.entries.map Prod.snd = [⟨0x77030002, 0x800a0000⟩, ⟨0x77030002, 0x800c0000⟩] := by
  obtain ⟨p, hp, hcalls, hentries⟩ := free_all_records ⟨true, 0x8000, by decide⟩ mixedTree
    (by decide) 13 (by decide)
  refine ⟨p, hp, hcalls.trans (by decide), ?_⟩
  rw [hentries]
  decide

namespace AuthState

open ReleaseCall (perform)

variable (cfg : AuthConfig)

/-- The state with another tree. -/
def withTree (s : AuthState) (tree : Radix.Tree AuthRecord) : AuthState :=
  { s with tree := tree }

theorem perform_withTree (s : AuthState) (tree : Radix.Tree AuthRecord) (c : ReleaseCall) :
    c.perform cfg (s.withTree tree) = (c.perform cfg s).withTree tree := by
  have hd : (s.withTree tree).down = s.down := rfl
  unfold perform
  rw [hd]
  split_ifs
  · rfl
  · cases c with
    | kfree addr =>
      dsimp only [kfree]
      split <;> rfl
    | incCount addr => rfl
    | freePages addr order =>
      dsimp only [freePages]
      split <;> rfl
    | freeDvrbp addr order => rfl

/-- The calls do not look at the tree. -/
theorem foldl_perform_withTree (tree : Radix.Tree AuthRecord) (calls : List ReleaseCall)
    (s : AuthState) : calls.foldl (perform cfg) (s.withTree tree) =
      (calls.foldl (perform cfg) s).withTree tree :=
  foldl_hom (withTree · tree) fun s => perform_withTree cfg s tree

theorem freeAllLoop_of_down {s : AuthState} (hd : s.down = true) :
    ∀ n startIndex : ℕ, freeAllLoop cfg n startIndex s = s
  | 0, _ => rfl
  | n + 1, startIndex => by
    have hone (e) : freeOne cfg s e = s := if_pos (.inl hd)
    rw [freeAllLoop, foldl_fixed' hone]
    split
    · split_ifs
      · rfl
      · exact freeAllLoop_of_down hd n _
    · rfl

/-- The state `s` is what the calls of `p` make of `s0`, with the tree of `p`, or one of them has
stopped the system. -/
def Performed (s0 s : AuthState) (p : FreeAll) : Prop :=
  s.down = true ∨ s = (p.calls.foldl (perform cfg) s0).withTree p.tree

variable {cfg} {s0 : AuthState}

/-- One record : the state model makes the calls of the loop. -/
theorem Performed.record {s : AuthState} {p : FreeAll} (h : Performed cfg s0 s p)
    (e : ℕ × AuthRecord) : Performed cfg s0 (s.freeOne cfg e) (p.record cfg e.2) := by
  cases hd : s.down with
  | true => exact .inl (by rw [freeOne, if_pos (.inl hd), hd])
  | false =>
    have heq := h.resolve_left (by rw [hd]; decide)
    refine .inr ?_
    rw [FreeAll.record_eq, freeOne, hd]
    by_cases hdrv : e.2.owner = driverId
    · rw [if_neg (not_not.2 hdrv), if_pos (Or.inr hdrv)]
      exact heq
    · -- The memory is released before the record is deleted; the two do not touch each other.
      have hmem : ((recordCalls cfg e.2).foldl (perform cfg) s).recordDelete e.2.addr =
          if e.2.owner = cacheId then (s.kfree cfg e.2.addr).recordDelete e.2.addr
          else (s.freeRecordPages cfg e.2 e.2.addr).recordDelete e.2.addr := by
        rw [recordCalls]
        split_ifs
        · simp [perform, hd]
        · rw [freeRecordPages_eq hd]
      rw [if_pos hdrv, if_neg (by simp [hdrv]), ← hmem, heq, foldl_perform_withTree, foldl_append]
      rfl

/-- The loop of the state model makes the calls of the loop. -/
theorem Performed.loop : ∀ {n : ℕ} {s : AuthState} {p p' : FreeAll}, Performed cfg s0 s p →
    FreeAll.loop cfg n p = some p' → Performed cfg s0 (freeAllLoop cfg n p.startIndex s) p'
  | n + 1, s, p, p', h, hp => by
    cases hd : s.down with
    | true => exact .inl (by rw [freeAllLoop_of_down cfg hd, hd])
    | false =>
      have htree : s.tree = p.tree := by
        rw [h.resolve_left (by rw [hd]; decide)]
        rfl
      have hbatch := foldl_rel (l := p.tree.gangLookup p.startIndex 10) h
        fun e _ _ _ h' => h'.record e
      rw [FreeAll.loop] at hp
      rw [freeAllLoop, htree]
      cases hl : (p.tree.gangLookup p.startIndex 10).getLast? with
      | none =>
        rw [if_pos (by simp [getLast?_eq_none_iff.1 hl])] at hp
        obtain rfl := Option.some.inj hp
        exact hbatch
      | some l =>
        dsimp only
        split_ifs at hp ⊢ with hlen
        · obtain rfl := Option.some.inj hp
          exact hbatch
        · rw [FreeAll.foldl_startIndex cfg p hl] at hp
          refine Performed.loop ?_ hp
          exact hbatch

/-- `AUTH_IOCQFREEALL` in the state model : unless a call stops the system, the memory of each
record that is not a driver's is given back once, in the order of the tree. -/
theorem freeAllMemoryAllocation_eq (cfg : AuthConfig) (s : AuthState)
    (hkey : ∀ e ∈ s.tree.entries, e.1 = recordKey e.2.addr)
    (hend : (s.freeAllMemoryAllocation cfg).down = false) :
    ∃ tree, s.freeAllMemoryAllocation cfg =
        (((s.tree.entries.filter fun e => e.2.owner ≠ driverId).flatMap
          fun e => recordCalls cfg e.2).foldl (perform cfg) s).withTree tree ∧
      tree.entries = s.tree.entries.filter fun e => e.2.owner = driverId := by
  obtain ⟨p, hp, hcalls, hentries⟩ := FreeAll.loop_spec cfg (p := ⟨s.tree, 0, []⟩) hkey
    (lt_succ_of_le (length_filter_le _ _))
  have hs : Performed cfg s s ⟨s.tree, 0, []⟩ := .inr rfl
  have hrun := (hs.loop hp).resolve_left (by rw [freeAllMemoryAllocation] at hend; simp [hend])
  refine ⟨p.tree, ?_, by simpa using hentries⟩
  rw [freeAllMemoryAllocation, hrun]
  simp [hcalls]

/-- After the call only the two records of drivers are left. -/
theorem freeAllMemoryAllocation_mixedTree :
    (((init 0).withTree mixedTree).freeAllMemoryAllocation
      ⟨true, 0x8000, by decide⟩).tree.entries.length = 2 := by
  obtain ⟨tree, heq, hentries⟩ := freeAllMemoryAllocation_eq ⟨true, 0x8000, by decide⟩
    ((init 0).withTree mixedTree) (by decide) (by decide +kernel)
  rw [heq]
  exact (congrArg length hentries).trans (by decide)

end AuthState

/-! ## A block that is cut -/

/-- The blocks that calls of `free_pages` name. -/
def freedBlocks (calls : List ReleaseCall) : List Block :=
  calls.filterMap fun
    | .freePages addr order => some ⟨virtToPage addr, order⟩
    | _ => none

/-- A block of order `order` at `ret`, obtained for `arg` bytes, was given back in `cnt`
pieces `freed` besides the blocks `tail` given back at once. -/
structure Reclaimed (arg ret order cnt : ℕ) (freed tail : List Block) : Prop where
  apart : Apart (freed ++ tail)
  aligned : ∀ b ∈ freed ++ tail, b.Aligned
  cover : spans (freed ++ tail) = Block.span ⟨virtToPage ret, order⟩
  kept : ∀ i < arg, virtToPage (ret + i) ∈ spans freed
  whole : cnt = 0 → freed = [⟨virtToPage ret, order⟩] ∧ tail = []
  pieces : cnt ≠ 0 → freed.map Block.order = (range cnt).map (fun i => order - (i + 1)) ∧
    tail.map Block.order = [order - cnt]

variable {order arg ret : ℕ}

/-- The loop that gives a block back in pieces goes through its left halves. -/
theorem freedBlocks_pieceCalls {n : ℕ} : ∀ {i addr : ℕ}, 1 ≤ i → i + n ≤ order + 1 →
    virtToPage addr + 2 ^ (order - i + 1) ≤ 0x10000 →
    freedBlocks (pieceCalls order n i addr) =
      (Block.leftHalves ⟨virtToPage addr, order - i + 1⟩ n).reverse := by
  induction n with
  | zero => exact fun _ _ _ => rfl
  | succ n ih =>
    intro i addr hi hn hfit
    have hpow : 2 ^ (order - i + 1) = 2 ^ (order - i) + 2 ^ (order - i) := by ring
    have hpos := Nat.two_pow_pos (order - i)
    have hnext : virtToPage (addr + 2 ^ (12 + order - i)) = virtToPage addr + 2 ^ (order - i) := by
      rw [show 12 + order - i = 12 + (order - i) by omega, pow_add]
      exact virtToPage_add (by omega)
    have hinc : freedBlocks (if i ≠ 1 then [.incCount addr] else []) = [] := by
      split_ifs <;> rfl
    have hcons : freedBlocks (pieceCalls order (n + 1) i addr) = ⟨virtToPage addr, order - i⟩ ::
        freedBlocks (pieceCalls order n (i + 1) (addr + 2 ^ (12 + order - i))) := by
      rw [pieceCalls]
      unfold freedBlocks at hinc ⊢
      rw [filterMap_append, hinc]
      rfl
    rw [hcons, Block.leftHalves, reverse_append]
    rcases Nat.eq_zero_or_pos n with rfl | hn'
    · rfl
    · have ho : order - (i + 1) + 1 = order - i := by omega
      rw [ih (by omega) (by omega) (by rw [hnext, ho]; omega), hnext, ho]
      rfl

theorem cutLoop_le : ∀ {shift cnt tmp cnt' tmp' : ℕ},
    cutLoop arg shift cnt tmp = some (cnt', tmp') → arg ≤ tmp'
  | 0, cnt, tmp, cnt', tmp', h => by
    rw [cutLoop] at h
    split_ifs at h with hlt
    simp only [Option.some.injEq, Prod.mk.injEq] at h
    omega
  | shift + 1, cnt, tmp, cnt', tmp', h => by
    rw [cutLoop] at h
    split_ifs at h with hlt
    · exact cutLoop_le h
    · simp only [Option.some.injEq, Prod.mk.injEq] at h
      omega

theorem leftHalves_orders : ∀ (n : ℕ) (b : Block),
    (b.leftHalves n).reverse.map Block.order = (range n).map fun i => b.order - (i + 1)
  | 0, _ => rfl
  | n + 1, b => by
    rw [Block.leftHalves, reverse_append, map_append, leftHalves_orders n,
      range_succ_eq_map, map_cons, map_map]
    refine congrArg (_ :: ·) (map_congr_left fun i _ => ?_)
    simp only [Block.right, Function.comp_apply]
    omega

/-- The pages of the first bytes of a block. -/
theorem virtToPage_add_lt {i : ℕ} (haddr : ret = 0x80000000 + 4096 * virtToPage ret)
    (hfit : virtToPage ret + i / 4096 < 2 ^ 19) :
    virtToPage (ret + i) = virtToPage ret + i / 4096 := by
  generalize virtToPage ret = page at haddr hfit
  subst haddr
  unfold virtToPage
  omega

/-- The orders of the requests that are not objects. -/
theorem exists_calOrder_lt (hhi : arg ≤ 2 ^ (12 + maxOrder - 1)) :
    ∃ order < maxOrder, calOrder (toInt32 arg) = some order ∧ arg ≤ 2 ^ (12 + order) := by
  obtain ⟨order, hcal, hle, hmin⟩ := exists_calOrder (hhi.trans (by decide))
  refine ⟨order, not_le.1 fun hge => ?_, hcal, hle⟩
  exact absurd hhi (not_le.2 (hmin (maxOrder - 1) (lt_of_lt_of_le (by decide) hge)))

/-- A block that is not cut is given back as a whole. -/
theorem reclaimed_whole {freed : List Block} (haddr : ret = 0x80000000 + 4096 * virtToPage ret)
    (halign : 2 ^ order ∣ virtToPage ret) (hfit : virtToPage ret + 2 ^ order ≤ 0x10000)
    (hle : arg ≤ 2 ^ (12 + order)) (hfreed : freed = [⟨virtToPage ret, order⟩]) :
    Reclaimed arg ret order 0 freed [] := by
  subst hfreed
  refine ⟨pairwise_singleton _ _, fun b hb => ?_, by simp, fun i hi => ?_,
    fun _ => ⟨rfl, rfl⟩, fun h => absurd rfl h⟩
  · obtain rfl := mem_singleton.1 hb
    exact halign
  · rw [pow_add] at hle
    have hpage : i / 4096 < 2 ^ order := by omega
    rw [virtToPage_add_lt haddr (by omega)]
    exact ⟨_, mem_singleton_self _, Nat.le_add_right _ _, Nat.add_lt_add_left hpage _⟩

/-- A block that is cut : the pieces are its left halves, and the tail is the rest. -/
theorem reclaimed_pieces {cnt tmp : ℕ} (haddr : ret = 0x80000000 + 4096 * virtToPage ret)
    (halign : 2 ^ order ∣ virtToPage ret) (hfit : virtToPage ret + 2 ^ order ≤ 0x10000)
    (hone : 1 ≤ cnt) (hcnt : cnt ≤ order)
    (htmp : tmp + 4096 * 2 ^ (order - cnt) = 4096 * 2 ^ order) (hle : arg ≤ tmp) :
    Reclaimed arg ret order cnt (Block.leftHalves ⟨virtToPage ret, order⟩ cnt).reverse
      [Block.rest ⟨virtToPage ret, order⟩ cnt] := by
  have hb : Block.Aligned ⟨virtToPage ret, order⟩ := halign
  obtain ⟨hhalves, hrest⟩ := hb.halves hcnt
  have hhead := Block.rest_head (b := ⟨virtToPage ret, order⟩) hcnt
  have hcut : ∀ {x}, (∃ c ∈ (Block.leftHalves ⟨virtToPage ret, order⟩ cnt).reverse, x ∈ c.span) ↔
      ∃ c ∈ Block.leftHalves ⟨virtToPage ret, order⟩ cnt, x ∈ c.span := by simp
  refine ⟨?_, ?_, ?_, ?_, fun h => by omega, fun _ => ⟨leftHalves_orders cnt _, ?_⟩⟩
  · refine pairwise_append.2 ⟨?_, pairwise_singleton _ _, fun c hc d hd => ?_⟩
    · exact pairwise_reverse.2 ((Block.leftHalves_disjoint hcnt).imp fun h => h.symm)
    · obtain rfl := mem_singleton.1 hd
      exact Block.leftHalves_disjoint_rest hcnt c (mem_reverse.1 hc)
  · intro c hc
    rcases mem_append.1 hc with hc | hc
    · exact hhalves c (mem_reverse.1 hc)
    · exact mem_singleton.1 hc ▸ hrest
  · ext x
    rw [Block.mem_span_iff_halves hcnt, ← hcut]
    simp only [spans, mem_append, mem_singleton, or_and_right, exists_or,
      exists_eq_left, Set.mem_ofPred_eq]
  · intro i hi
    dsimp only at hhead
    have hpage : i / 4096 < 2 ^ order - 2 ^ (order - cnt) := by omega
    rw [virtToPage_add_lt haddr (by omega)]
    refine hcut.2 ((Block.mem_leftHalves_iff hcnt).2 ⟨?_, fun hmem => ?_⟩)
    · exact ⟨le_add_right _ _, by dsimp only; omega⟩
    · have := hmem.1
      omega
  · rw [map_singleton, Block.rest_order]

/-- The pieces that `AUTH_IOCQFREE` gives back, as the record word says, and the tail that
`AUTH_IOCQALLOC` gave back make up the block of the request. -/
theorem tail_reclaimed (cfg : AuthConfig) (hadv : cfg.advancedReclaim = true) (arg : ℕ)
    (hlo : maxCacheSize < arg) (hhi : arg ≤ 2 ^ (12 + maxOrder - 1)) :
    ∃ order < maxOrder, calOrder (toInt32 arg) = some order ∧
      ∀ ret, ret = 0x80000000 + 4096 * virtToPage ret → 2 ^ order ∣ virtToPage ret →
        virtToPage ret + 2 ^ order ≤ cfg.maxMapnr →
        ∃ cnt calls, reclaimCalls cfg arg ret order = some (cnt, calls) ∧
          Reclaimed arg ret order cnt
            (freedBlocks (pageCalls cfg (ofUser cnt order ret) ret))
            (freedBlocks calls) := by
  obtain ⟨order, horder, hcal, hle⟩ := exists_calOrder_lt hhi
  refine ⟨order, horder, hcal, fun ret haddr halign hfit => ?_⟩
  have hmax := cfg.maxMapnr_le
  rw [reclaimCalls]
  by_cases hex : 0x10000 ≤ excess arg order
  · obtain ⟨cnt, tmp, hloop, hone, hcnt, htmp⟩ := cutLoop_block horder hle hlo hex
    have hpacks := packs_ofUser horder hcnt ret
    rw [if_pos ⟨hadv, hex⟩, hloop, Option.map_some]
    refine ⟨cnt, _, rfl, ?_⟩
    have hpieces : freedBlocks (pageCalls cfg (ofUser cnt order ret) ret) =
        (Block.leftHalves ⟨virtToPage ret, order⟩ cnt).reverse := by
      have ho : order - 1 + 1 = order := by omega
      rw [pageCalls, if_pos hadv, hpacks.cnt, hpacks.order, if_pos (by omega),
        freedBlocks_pieceCalls le_rfl (by omega) (by rw [ho]; omega), ho]
    have htail : freedBlocks [.incCount (ret + tmp), .freePages (ret + tmp) (order - cnt)] =
        [Block.rest ⟨virtToPage ret, order⟩ cnt] := by
      rw [← tail_eq_rest ret (by omega) hcnt htmp]
      rfl
    rw [hpieces, htail]
    exact reclaimed_pieces haddr halign (by omega) hone hcnt htmp (cutLoop_le hloop)
  · rw [if_neg fun h => hex h.2]
    refine ⟨0, [], rfl, reclaimed_whole haddr halign (by omega) hle ?_⟩
    have hpacks := packs_ofUser horder (zero_le _) ret
    rw [pageCalls, if_pos hadv, if_neg (not_not.2 hpacks.cnt), hpacks.order]
    rfl

/-- A request of 1 MB and one page gets the 2 MB at `0x80200000`. -/
theorem tail_reclaimed_megabyte :
    ∃ cnt calls, reclaimCalls ⟨true, 0x8000, by decide⟩ 0x101000 0x80200000 9 = some (cnt, calls) ∧
      Reclaimed 0x101000 0x80200000 9 cnt
        (freedBlocks (pageCalls ⟨true, 0x8000, by decide⟩ (ofUser cnt 9 0x80200000) 0x80200000))
        (freedBlocks calls) := by
  obtain ⟨order, -, hcal, h⟩ := tail_reclaimed ⟨true, 0x8000, by decide⟩ rfl 0x101000
    (by decide) (by decide)
  obtain rfl : order = 9 := Option.some.inj (hcal.symm.trans (by decide))
  exact h 0x80200000 (by decide) (by decide) (by decide)

end OpenHMR
