import OpenHMR.AuthOwnership

/-!
# The calls of the DVR memory

What the calls do to the records and to what is lent : the records share out what is lent before and
after a call (`AuthState.Inv`). A request takes a block into the hand, cuts its end off if that is
large (`AuthState.Owns.reclaim`), and puts the rest into a record; `AUTH_IOCQFREEALL` gives back all
but the drivers' memory (`AuthState.Inv.freeAllMemoryAllocation`).
-/

namespace OpenHMR

open List Prod Nat AuthRecord

open Buddy (Block)

/-! ## Sizes -/

theorem calOrderLoop_le {num : ℤ} : ∀ {n cnt order : ℕ}, calOrderLoop num n cnt = some order →
    num ≤ 2 ^ (12 + order)
  | 0, cnt, order, h => by
    rw [calOrderLoop] at h
    split_ifs at h with hgt
    obtain rfl := Option.some.inj h
    exact not_lt.1 hgt
  | n + 1, cnt, order, h => by
    rw [calOrderLoop] at h
    split_ifs at h with hgt
    · exact calOrderLoop_le h
    · obtain rfl := Option.some.inj h
      exact not_lt.1 hgt

/-- The block is large enough. -/
theorem calOrder_le {arg order : ℕ} (h : calOrder (toInt32 arg) = some order)
    (harg : arg < 2 ^ 31) : arg ≤ 2 ^ (12 + order) := by
  have hle := calOrderLoop_le h
  rw [toInt32, if_pos harg] at hle
  exact_mod_cast hle

namespace AuthRecord

/-- The record of `cnt` pieces of a block that a user program has. -/
def ofUser (cnt order addr : ℕ) : AuthRecord :=
  ⟨pliSignature ||| buddyId ||| cnt <<< 8 ||| order, addr⟩

/-- The record of a block that a driver has. -/
def ofDriver (order addr : ℕ) : AuthRecord :=
  ⟨pliSignature ||| driverId ||| order, addr⟩

/-- The parts of a packed type word. -/
structure Packs (r : AuthRecord) (owner cnt order : ℕ) : Prop where
  signature : r.signature = pliSignature
  owner : r.owner = owner
  cnt : r.cnt = cnt
  order : r.order = order

theorem packs_ofUser {cnt order : ℕ} (horder : order < maxOrder) (hcnt : cnt ≤ order) (addr : ℕ) :
    (ofUser cnt order addr).Packs buddyId cnt order := by
  have h : ∀ order < 13, ∀ cnt < 13,
      (pliSignature ||| buddyId ||| cnt <<< 8 ||| order) &&& 0xff000000 = pliSignature ∧
      (pliSignature ||| buddyId ||| cnt <<< 8 ||| order) &&& 0x00ff0000 = buddyId ∧
      ((pliSignature ||| buddyId ||| cnt <<< 8 ||| order) &&& 0x0000ff00) >>> 8 = cnt ∧
      (pliSignature ||| buddyId ||| cnt <<< 8 ||| order) &&& 0x000000ff = order := by decide
  obtain ⟨h1, h2, h3, h4⟩ := h order horder cnt (hcnt.trans_lt horder)
  exact ⟨h1, h2, h3, h4⟩

theorem packs_ofDriver {order : ℕ} (horder : order < maxOrder) (addr : ℕ) :
    (ofDriver order addr).Packs driverId 0 order := by
  have h : ∀ order < 13,
      (pliSignature ||| driverId ||| order) &&& 0xff000000 = pliSignature ∧
      (pliSignature ||| driverId ||| order) &&& 0x00ff0000 = driverId ∧
      ((pliSignature ||| driverId ||| order) &&& 0x0000ff00) >>> 8 = 0 ∧
      (pliSignature ||| driverId ||| order) &&& 0x000000ff = order := by decide
  obtain ⟨h1, h2, h3, h4⟩ := h order horder
  exact ⟨h1, h2, h3, h4⟩

end AuthRecord

namespace AuthState

variable {cfg : AuthConfig} {s s' : AuthState} {L : List AuthRecord} {U : Set ℕ} {r : AuthRecord}

variable {arg order addr : ℕ}

/-- The loop keeps at least 64 KB out of the block, so it ends. -/
theorem cutLoop_spec {size : ℕ} (hsize : arg + 2 ^ 16 ≤ size) : ∀ (cnt : ℕ) {shift tmp : ℕ},
    16 ≤ shift → tmp + 2 ^ shift = size → ∃ cnt' tmp' shift',
      cutLoop arg shift cnt tmp = some (cnt', tmp') ∧ 16 ≤ shift' ∧ cnt ≤ cnt' ∧
        cnt' + shift' = cnt + shift ∧ tmp' + 2 ^ shift' = size
  | cnt, shift + 1, tmp, hshift, htmp => by
    rw [cutLoop]
    split_ifs with hlt
    · have hpow : 2 ^ 16 < 2 ^ (shift + 1) := by omega
      have h17 := (Nat.pow_lt_pow_iff_right (by decide)).1 hpow
      have hsum : tmp + 2 ^ shift + 2 ^ shift = size := by
        rw [← htmp, pow_succ]
        omega
      obtain ⟨cnt', tmp', shift', heq, h16, hle, hcnt, hsize'⟩ :=
        cutLoop_spec hsize (cnt + 1) (by omega) hsum
      exact ⟨cnt', tmp', shift', heq, h16, by omega, by omega, hsize'⟩
    · exact ⟨cnt, tmp, shift + 1, rfl, hshift, le_rfl, rfl, htmp⟩

theorem excess_eq (horder : order < maxOrder) (hle : arg ≤ 2 ^ (12 + order)) :
    excess arg order = ((2 ^ (12 + order) - arg : ℕ) : ℤ) := by
  have hpow : 2 ^ (12 + order) ≤ 2 ^ 24 :=
    Nat.pow_le_pow_right (by decide) (by simp only [maxOrder] at horder; omega)
  have hmod : (2 ^ (12 + order) + 2 ^ 32 - arg) % 2 ^ 32 = 2 ^ (12 + order) - arg := by omega
  rw [excess, hmod, toInt32, if_pos (by omega)]

/-! ## The records and what they name -/

variable (cfg) in
/-- The records share out what is lent. -/
structure Inv (s : AuthState) : Prop where
  key : ∀ e ∈ s.tree.entries, e.1 = recordKey e.2.addr
  owns : s.Owns cfg (s.tree.entries.map snd) ∅

section

variable {fails : Bool}

theorem inv_init (mapStartAddr : ℕ) : (init mapStartAddr).Inv cfg where
  key := fun _ he => nomatch he
  owns :=
    { legal := trivial
      order := fun _ hb => nomatch hb
      named := fun _ hr => nomatch hr
      apart := .nil
      hand := Set.empty_subset _
      hand_apart := fun _ hr => nomatch hr
      covered := fun _ _ hx => hx.elim
      objs := fun _ ho => nomatch ho }

theorem Inv.bug (h : s.Inv cfg) : s.bug.Inv cfg :=
  ⟨h.key, h.owns.bug⟩

theorem Inv.key_delete (h : s.Inv cfg) (k : ℕ) :
    ∀ e ∈ (s.tree.delete k).entries, e.1 = recordKey e.2.addr :=
  fun e he => h.key e (Radix.Tree.mem_delete.1 he).1

/-- The records are those of the tree without one, and that one. -/
theorem Inv.delete {k : ℕ} (h : s.Inv cfg) (hr : (k, r) ∈ s.tree.entries) :
    s.Owns cfg (r :: (s.tree.delete k).entries.map snd) ∅ :=
  h.owns.perm ((Radix.Tree.delete_perm hr).map snd)

variable {type addr ret order arg cnt tmp : ℕ} {mem : Option ℕ}

theorem recordInsert_eq_some (h : s.recordInsert type addr fails = some s') :
    ∃ tree, s.tree.insert (recordKey addr) ⟨type, addr⟩ = some tree ∧
      s' = { s with tree := tree } := by
  unfold recordInsert at h
  split_ifs at h
  obtain ⟨tree, htree, heq⟩ := Option.map_eq_some_iff.1 h
  exact ⟨tree, htree, heq.symm⟩

theorem inv_recordInsert (hkey : ∀ e ∈ s.tree.entries, e.1 = recordKey e.2.addr)
    (h : s.Owns cfg (r :: s.tree.entries.map snd) ∅)
    (hins : s.recordInsert r.type r.addr fails = some s') : s'.Inv cfg := by
  obtain ⟨tree, htree, rfl⟩ := recordInsert_eq_some hins
  have hperm := Radix.Tree.insert_perm htree
  refine ⟨fun e he => ?_, (h.setTree tree).perm (hperm.map snd).symm⟩
  rcases mem_cons.1 (hperm.mem_iff.1 he) with rfl | he
  exacts [rfl, hkey e he]

theorem recordInsert_extends
    (h : s.recordInsert type addr fails = some s') : s.tree.entries ⊆ s'.tree.entries := by
  obtain ⟨tree, htree, rfl⟩ := recordInsert_eq_some h
  exact fun e he => (Radix.Tree.insert_perm htree).mem_iff.2 (mem_cons_of_mem _ he)

/-- A block that is not in use has no record. -/
theorem Inv.lookup_eq_none (h : s.Inv cfg) (hf : s.FreshPages cfg ret order) :
    s.tree.lookup (recordKey ret) = none := by
  refine Radix.Tree.lookup_eq_none.2 fun r hr => ?_
  have hn := h.owns.named r (mem_map_of_mem hr)
  have hkey : recordKey r.addr = recordKey ret := (h.key _ hr).symm
  have hmax := cfg.maxMapnr_le
  have hret := hf.valid
  have hpos := Nat.two_pow_pos order
  have hhead : virtToPage ret ∈ Block.span ⟨virtToPage ret, order⟩ := ⟨le_rfl, by dsimp only; omega⟩
  by_cases ho : r.IsObject
  · have hobj := hn.object ho
    have hv := hobj.valid
    have heq := eq_of_recordKey hkey (by omega) (by omega)
    exact hf.objs _ hobj.live (by rwa [heq])
  · have hp := hn.pages ho
    have hv := hp.fits
    have hpos' := Nat.two_pow_pos r.order
    have heq := eq_of_recordKey hkey (by omega) (by omega)
    refine Set.disjoint_left.1 hf.fresh hhead (hp.live ?_)
    rw [← heq]
    exact head_mem_pages hp.cnt_le

/-! ## Getting memory -/

theorem named_getFreePages {owner : ℕ} (hf : s.FreshPages cfg ret order)
    (haddr : r.addr = ret) (hr : r.Packs owner 0 order) (ho : owner ≠ cacheId) :
    r.Named cfg (s.getFreePages ret order) ∧ r.pages = Block.span ⟨virtToPage ret, order⟩ := by
  have hblock : r.block = ⟨virtToPage ret, order⟩ := by rw [block, haddr, hr.order]
  have hpages : r.pages = Block.span ⟨virtToPage ret, order⟩ := by
    rw [pages, if_pos hr.cnt, hblock]
  refine ⟨⟨hr.signature, fun _ => hr.cnt, fun hobj => absurd (hr.owner.symm.trans hobj) ho,
    fun _ => ?_⟩, hpages⟩
  refine ⟨by rw [haddr]; exact hf.addr, ?_, by rw [haddr, hr.order]; exact hf.valid,
    by rw [hr.cnt]; exact zero_le _, fun hc => absurd hr.cnt hc, ?_, fun x hx => ?_⟩
  · rw [hblock]
    exact mem_cons_self
  · rw [hpages]
    exact Set.subset_union_right
  · rw [hpages] at hx
    simp only [Block.span, Set.mem_Ico] at hx
    rw [haddr, getFreePages]
    dsimp only
    split_ifs <;> first | rfl | omega

/-- The part of a block that is kept for a request that leaves 64 KB of it. -/
theorem cutLoop_block (horder : order < maxOrder) (hle : arg ≤ 2 ^ (12 + order))
    (hsize : maxCacheSize < arg) (hex : 0x10000 ≤ excess arg order) :
    ∃ cnt tmp, cutLoop arg (11 + order) 1 (2 ^ (11 + order)) = some (cnt, tmp) ∧ 1 ≤ cnt ∧
      cnt ≤ order ∧ tmp + 4096 * 2 ^ (order - cnt) = 4096 * 2 ^ order := by
  rw [excess_eq horder hle] at hex
  have hroom : arg + 2 ^ 16 ≤ 2 ^ (12 + order) := by omega
  have hbig : 2 ^ 16 < 2 ^ (12 + order) := by omega
  have h17 := (Nat.pow_lt_pow_iff_right (by decide)).1 hbig
  have hhalf : 2 ^ (11 + order) + 2 ^ (11 + order) = 2 ^ (12 + order) := by
    rw [← Nat.two_mul, ← pow_succ', show (11 + order).succ = 12 + order by omega]
  obtain ⟨cnt, tmp, shift, heq, h16, hone, hcnt, htmp⟩ :=
    cutLoop_spec hroom 1 (by omega) hhalf
  rw [show shift = 12 + (order - cnt) by omega, pow_add, pow_add] at htmp
  exact ⟨cnt, tmp, heq, hone, by omega, htmp⟩

/-- The end of a block is what is left of it after `cnt` halvings. -/
theorem tail_eq_rest (ret : ℕ) (hfit : virtToPage ret + 2 ^ order ≤ 0x10000)
    (hcnt : cnt ≤ order) (htmp : tmp + 4096 * 2 ^ (order - cnt) = 4096 * 2 ^ order) :
    (⟨virtToPage (ret + tmp), order - cnt⟩ : Block) = Block.rest ⟨virtToPage ret, order⟩ cnt := by
  have hrest := Block.rest_head (n := cnt) (b := ⟨virtToPage ret, order⟩) hcnt
  have hrest_order := Block.rest_order cnt ⟨virtToPage ret, order⟩
  dsimp only at hrest hrest_order
  have hpos := Nat.two_pow_pos (order - cnt)
  have htail : virtToPage (ret + tmp) = (Block.rest ⟨virtToPage ret, order⟩ cnt).head := by
    rw [show tmp = 4096 * (2 ^ order - 2 ^ (order - cnt)) by omega, virtToPage_add (by omega)]
    omega
  rw [htail, ← hrest_order]

/-- The end of a new block is given back. -/
theorem giveTail (hf : s.FreshPages cfg ret order) (hone : 1 ≤ cnt)
    (hcnt : cnt ≤ order) (htmp : tmp + 4096 * 2 ^ (order - cnt) = 4096 * 2 ^ order) :
    (s.getFreePages ret order).Gives (((s.getFreePages ret order).incCount
      (virtToPage (ret + tmp))).freePages cfg (ret + tmp) (order - cnt))
      [Block.rest ⟨virtToPage ret, order⟩ cnt] := by
  have hvalid := hf.valid
  have hmax := cfg.maxMapnr_le
  have hlt : 2 ^ (order - cnt) < 2 ^ order := Nat.pow_lt_pow_right (by decide) (by omega)
  have hpos := Nat.two_pow_pos (order - cnt)
  have hblock := tail_eq_rest ret (by omega) hcnt htmp
  have hhead := Block.rest_head (n := cnt) (b := ⟨virtToPage ret, order⟩) hcnt
  rw [← hblock] at hhead ⊢
  dsimp only at hhead
  refine incCount_freePages_gives (by omega) ?_
  rw [getFreePages]
  dsimp only
  rw [if_neg (by omega), if_pos (by omega)]

/-- A new block whose end was given back is in the hand, with the record of the rest. -/
theorem Owns.cutTail (hf : s.FreshPages cfg ret order)
    (h : (s.getFreePages ret order).Owns cfg L (Block.span ⟨virtToPage ret, order⟩))
    (hg : (s.getFreePages ret order).Gives s' [Block.rest ⟨virtToPage ret, order⟩ cnt])
    (hadv : cfg.advancedReclaim = true) (hone : 1 ≤ cnt) (hcnt : cnt ≤ order) :
    ({ s' with cut := ⟨virtToPage ret, order⟩ :: s'.cut } : AuthState).Owns cfg L
      (ofUser cnt order ret).pages ∧
    (ofUser cnt order ret).Named cfg
      { s' with cut := ⟨virtToPage ret, order⟩ :: s'.cut } := by
  have hpacks := packs_ofUser hf.order_lt hcnt ret
  have hblock : (ofUser cnt order ret).block = ⟨virtToPage ret, order⟩ := by
    rw [block, hpacks.order, ofUser]
  have hpages : (ofUser cnt order ret).pages =
      { x | x ∈ Block.span ⟨virtToPage ret, order⟩ ∧
        ∀ c ∈ [Block.rest ⟨virtToPage ret, order⟩ cnt], x ∉ c.span } := by
    rw [pages, hpacks.cnt, if_neg (by omega), hblock]
    ext x
    simp
  -- the block is noted as cut before its end is released
  have hg' : AuthState.Gives { s.getFreePages ret order with
      cut := ⟨virtToPage ret, order⟩ :: (s.getFreePages ret order).cut }
      { s' with cut := ⟨virtToPage ret, order⟩ :: s'.cut }
      [Block.rest ⟨virtToPage ret, order⟩ cnt] :=
    ⟨hg.log, hg.count, hg.tree, by rw [hg.cut], hg.objs, hg.down⟩
  have howns := (h.addCut ⟨virtToPage ret, order⟩).gives hg' (pairwise_singleton _ _)
    (fun c hc => by
      obtain rfl := mem_singleton.1 hc
      exact Block.rest_span_subset hcnt)
    (fun c hc => by
      obtain rfl := mem_singleton.1 hc
      exact .inr ⟨_, mem_cons_self, cnt, hcnt, .inr rfl⟩)
  rw [← hpages] at howns
  refine ⟨howns, hpacks.signature, fun ho => absurd (hpacks.owner.symm.trans ho) (by decide),
    fun ho => absurd (hpacks.owner.symm.trans ho) (by decide), fun _ => ?_⟩
  refine ⟨hf.addr, ?_, by rw [hpacks.order]; exact hf.valid,
    by rw [hpacks.cnt, hpacks.order]; exact hcnt, fun _ => ⟨hadv, ?_⟩, howns.hand, ?_⟩
  · rw [hblock]
    dsimp only
    rw [hg.log]
    exact mem_append_right _ mem_cons_self
  · rw [hblock]
    exact mem_cons_self
  · intro x hx
    rw [hpages] at hx
    have hx' := hx.1
    simp only [Block.span, Set.mem_Ico] at hx'
    dsimp only
    rw [hg.count x hx.2, AuthState.getFreePages, ofUser]
    dsimp only
    split_ifs <;> first | rfl | omega

/-- The end of a block is given back if it is large, and the record is one of the rest. -/
theorem Owns.reclaim (hf : s.FreshPages cfg ret order)
    (h : (s.getFreePages ret order).Owns cfg L (Block.span ⟨virtToPage ret, order⟩))
    (hcal : calOrder (toInt32 arg) = some order) (hsize : maxCacheSize < arg)
    (harg : cfg.advancedReclaim = true → 0x10000 ≤ excess arg order → arg < 2 ^ 31) :
    ∃ cnt s', (s.getFreePages ret order).reclaim cfg arg ret order = some (cnt, s') ∧
      s'.tree = s.tree ∧
      (cnt ≠ 0 → cfg.advancedReclaim = true ∧ 0x10000 ≤ excess arg order) ∧
      s'.Owns cfg L (ofUser cnt order ret).pages ∧
      (ofUser cnt order ret).Named cfg s' ∧
      (ofUser cnt order ret).Packs buddyId cnt order := by
  unfold AuthState.reclaim
  split_ifs with hcut
  · have hle := calOrder_le hcal (harg hcut.1 hcut.2)
    obtain ⟨cnt, tmp, heq, hone, hcnt, htmp⟩ := cutLoop_block hf.order_lt hle hsize hcut.2
    have hg := giveTail hf hone hcnt htmp
    obtain ⟨howns, hn⟩ := h.cutTail hf hg hcut.1 hone hcnt
    rw [heq]
    exact ⟨cnt, _, rfl, hg.tree, fun _ => hcut, howns, hn, packs_ofUser hf.order_lt hcnt ret⟩
  · have hpacks := packs_ofUser hf.order_lt (zero_le _) ret
    obtain ⟨hn, hpages⟩ := named_getFreePages hf rfl hpacks (by decide)
    exact ⟨0, _, rfl, rfl, fun hc => absurd rfl hc, hpages ▸ h, hn, hpacks⟩

theorem recordInsert_eq_none
    (h : s.recordInsert type addr fails = none) (hkey : s.tree.lookup (recordKey addr) = none) :
    fails = true := by
  unfold recordInsert at h
  split_ifs at h with hf
  · exact hf
  · rw [Option.map_eq_none_iff, Radix.Tree.insert, if_pos hkey] at h
    cases h

/-- A record of pages in the hand is inserted, or the pages are released as a whole. -/
theorem inv_insert_or_free (fails : Bool) (hkey : ∀ e ∈ s.tree.entries, e.1 = recordKey e.2.addr)
    (h : s.Owns cfg (s.tree.entries.map snd) r.pages) (hn : r.Named cfg s) (hr : ¬r.IsObject)
    (hfree : s.recordInsert r.type r.addr fails = none → r.cnt = 0) :
    (s.recordInsert r.type r.addr fails = none → (s.freePages cfg r.addr r.order).Inv cfg ∧
      s.tree.entries ⊆ (s.freePages cfg r.addr r.order).tree.entries) ∧
    ∀ s', s.recordInsert r.type r.addr fails = some s' →
      s'.Inv cfg ∧ s.tree.entries ⊆ s'.tree.entries := by
  refine ⟨fun hins => ?_, fun s' hins =>
    ⟨inv_recordInsert hkey (h.put hn hr) hins, recordInsert_extends hins⟩⟩
  obtain ⟨hg, howns⟩ := h.freeBlock (hn.pages hr) (hfree hins) rfl
  refine ⟨⟨?_, ?_⟩, ?_⟩ <;> rw [hg.tree]
  exacts [hkey, howns, List.Subset.refl _]

/-- Pages for a large request. -/
theorem Inv.qallocPages (h : s.Inv cfg) (hsize : maxCacheSize < arg)
    (hans : ∀ ret ∈ mem, ∀ order, calOrder (toInt32 arg) = some order → s.FreshPages cfg ret order)
    (hsafe : cfg.advancedReclaim = true → ∀ order, calOrder (toInt32 arg) = some order →
      0x10000 ≤ excess arg order → arg < 2 ^ 31 ∧ fails = false) :
    (s.qallocPages cfg arg mem fails).2.Inv cfg ∧
      s.tree.entries ⊆ (s.qallocPages cfg arg mem fails).2.tree.entries := by
  unfold AuthState.qallocPages
  cases hcal : calOrder (toInt32 arg) with
  | none => exact ⟨h.bug, List.Subset.refl _⟩
  | some order =>
    cases mem with
    | none => exact ⟨h, List.Subset.refl _⟩
    | some ret =>
      have hf := hans ret rfl order hcal
      obtain ⟨cnt, s1, heq, htree, hcnt, howns, hn, hpacks⟩ :=
        (h.owns.getFreePages hf).reclaim hf hcal hsize fun ha hex => (hsafe ha order hcal hex).1
      have hr : ¬(ofUser cnt order ret).IsObject := fun ho =>
        absurd (hpacks.owner.symm.trans ho) (by decide)
      have hspec := inv_insert_or_free fails (htree ▸ h.key) (htree ▸ howns) hn hr
        (fun hins => by
          rw [hpacks.cnt]
          by_contra hne
          have hfail := recordInsert_eq_none hins (htree ▸ h.lookup_eq_none hf)
          obtain ⟨ha, hex⟩ := hcnt hne
          rw [(hsafe ha order hcal hex).2] at hfail
          cases hfail)
      rw [hpacks.order, htree] at hspec
      dsimp only
      rw [heq]
      dsimp only
      rw [ofUser] at hspec
      dsimp only at hspec
      split
      · rename_i hins
        exact hspec.1 hins
      · rename_i hins
        exact hspec.2 _ hins

/-- The record of an object of a user program. -/
theorem packs_cache (addr : ℕ) :
    AuthRecord.Packs ⟨pliSignature ||| cacheId, addr⟩ cacheId 0 0 := by
  have h : (pliSignature ||| cacheId) &&& 0xff000000 = pliSignature ∧
      (pliSignature ||| cacheId) &&& 0x00ff0000 = cacheId ∧
      ((pliSignature ||| cacheId) &&& 0x0000ff00) >>> 8 = 0 ∧
      (pliSignature ||| cacheId) &&& 0x000000ff = 0 := by decide
  exact ⟨h.1, h.2.1, h.2.2.1, h.2.2.2⟩

theorem Inv.qallocObject (fails : Bool) (h : s.Inv cfg) (hf : s.FreshObject cfg ret) :
    (({ s with objs := ret :: s.objs } : AuthState).kfree cfg ret).Inv cfg ∧
      (({ s with objs := ret :: s.objs } : AuthState).kfree cfg ret).tree = s.tree ∧
    ∀ s', ({ s with objs := ret :: s.objs } : AuthState).recordInsert (pliSignature ||| cacheId) ret
      fails = some s' → s'.Inv cfg ∧ s.tree.entries ⊆ s'.tree.entries := by
  have hp := packs_cache ret
  have howns := h.owns.kmalloc (r := ⟨pliSignature ||| cacheId, ret⟩) hf hp.owner hp.signature
    (by rw [hp.owner]; decide)
  have htree : (({ s with objs := ret :: s.objs } : AuthState).kfree cfg ret).tree = s.tree := by
    rw [AuthState.kfree, if_neg (not_le.2 hf.valid)]
  refine ⟨⟨?_, ?_⟩, htree, fun s' hins => ?_⟩
  · rw [htree]
    exact h.key
  · rw [htree]
    exact howns.kfree hp.owner fun _ => rfl
  · exact ⟨inv_recordInsert (s := { s with objs := ret :: s.objs }) h.key howns hins,
      recordInsert_extends (s := { s with objs := ret :: s.objs }) hins⟩

theorem Inv.dvrMalloc {size : ℕ} (h : s.Inv cfg)
    (hans : ∀ ret ∈ mem, ∀ order, calOrder (toInt32 size) = some order →
      s.FreshPages cfg ret order) : (s.dvrMalloc cfg size mem fails).2.Inv cfg := by
  unfold AuthState.dvrMalloc
  cases hcal : calOrder (toInt32 size) with
  | none => exact h.bug
  | some order =>
    cases mem with
    | none => exact h
    | some ret =>
      have hf := hans ret rfl order hcal
      have hpacks := packs_ofDriver hf.order_lt ret
      obtain ⟨hn, hpages⟩ := named_getFreePages hf rfl hpacks (by decide)
      have hr : ¬(ofDriver order ret).IsObject := fun ho =>
        absurd (hpacks.owner.symm.trans ho) (by decide)
      have hspec := inv_insert_or_free (s := s.getFreePages ret order) fails h.key
        (hpages ▸ h.owns.getFreePages hf) hn hr fun _ => hpacks.cnt
      rw [hpacks.order, ofDriver] at hspec
      dsimp only at hspec ⊢
      split
      · rename_i hins
        exact (hspec.1 hins).1
      · rename_i hins
        exact (hspec.2 _ hins).1

end

/-! ## Giving memory back -/

theorem recordLookup_eq (h : (s.recordLookup addr).signature = pliSignature) :
    (recordKey addr, s.recordLookup addr) ∈ s.tree.entries := by
  unfold recordLookup at h ⊢
  cases hl : s.tree.lookup (recordKey addr) with
  | none =>
    rw [hl] at h
    exact absurd (show (0 : ℕ) = pliSignature from (zero_and _).symm.trans h) (by decide)
  | some r => exact Radix.Tree.lookup_eq_some.1 hl

/-- The pages of a record are released at an address with its index. -/
theorem Inv.freeRecordPages (h : s.Inv cfg) (hd : s.down = false)
    (hmem : (recordKey addr, r) ∈ s.tree.entries) (hr : ¬r.IsObject) :
    ((s.recordDelete addr).freeRecordPages cfg r addr).Inv cfg ∧
      ((s.recordDelete addr).freeRecordPages cfg r addr).tree = s.tree.delete (recordKey addr) ∧
      (virtToPage addr < cfg.maxMapnr →
        ((s.recordDelete addr).freeRecordPages cfg r addr).down = false) := by
  have hn := (h.owns.named r (mem_map_of_mem hmem)).pages hr
  have howns := ((h.delete hmem).setTree (s.tree.delete (recordKey addr)))
  have hkey := h.key_delete (recordKey addr)
  by_cases hv : cfg.maxMapnr ≤ virtToPage addr
  · rw [freeRecordPages_eq_bug (s := s.recordDelete addr) hd hv]
    exact ⟨⟨hkey, (howns.take hr).bug⟩, rfl, fun hv' => absurd hv (not_le.2 hv')⟩
  · have hmax := cfg.maxMapnr_le
    have hfits := hn.fits
    have hpos := Nat.two_pow_pos r.order
    have hkeys : recordKey addr = recordKey r.addr := h.key _ hmem
    have heq := eq_of_recordKey hkeys (by omega) (by omega)
    have hn' := (howns.named r mem_cons_self).pages hr
    obtain ⟨bs, hg, hres⟩ := (howns.take hr).freeRecordPages hn' hd heq
    exact ⟨⟨hg.tree ▸ hkey, hg.tree ▸ hres⟩, hg.tree, fun _ => hg.down.trans hd⟩

theorem kfree_tree (addr : ℕ) : (s.kfree cfg addr).tree = s.tree := by
  unfold kfree
  split_ifs <;> rfl

/-- The object of a record is given back at an address with its index. -/
theorem Inv.kfree (h : s.Inv cfg) (hmem : (recordKey addr, r) ∈ s.tree.entries)
    (hr : r.IsObject) (hword : addr < 2 ^ 32) : ((s.recordDelete addr).kfree cfg addr).Inv cfg := by
  have hn := (h.owns.named r (mem_map_of_mem hmem)).object hr
  have hmax := cfg.maxMapnr_le
  have hv := hn.valid
  refine ⟨?_, ?_⟩ <;> rw [kfree_tree]
  · exact h.key_delete (recordKey addr)
  · exact ((h.delete hmem).setTree (s.tree.delete (recordKey addr))).kfree hr fun hv' =>
      div_eq_of_recordKey (h.key _ hmem) (by omega) (by omega) hword hn.word

theorem kernelAddr_lt (arg : ℕ) : s.kernelAddr arg < 2 ^ 32 :=
  Nat.or_lt_two_pow (Nat.mod_lt _ (Nat.two_pow_pos _)) (by decide)

/-- `AUTH_IOCQFREE` gives back what the record at the address names. -/
theorem Inv.qfree (arg : ℕ) (h : s.Inv cfg) (hd : s.down = false) :
    (s.qfree cfg arg).2.Inv cfg ∧ ((s.qfree cfg arg).2.tree = s.tree ∨
      (s.qfree cfg arg).2.tree = s.tree.delete (recordKey (s.kernelAddr arg))) := by
  unfold AuthState.qfree
  dsimp only
  split_ifs with hsig hown
  · exact ⟨h, .inl rfl⟩
  · exact ⟨h.kfree (recordLookup_eq (not_not.1 hsig)) hown (kernelAddr_lt arg), .inr (kfree_tree _)⟩
  · have hspec := h.freeRecordPages hd (recordLookup_eq (not_not.1 hsig)) hown
    exact ⟨hspec.1, .inr hspec.2.1⟩

theorem Inv.dvrFree (h : s.Inv cfg) (hd : s.down = false) :
    (s.dvrFree cfg addr).Inv cfg := by
  unfold AuthState.dvrFree
  dsimp only
  split_ifs with hsig hown
  · exact h.bug
  · have hmem := recordLookup_eq (not_not.1 hsig)
    exact ⟨h.key_delete _, ((h.delete hmem).setTree _).drop_bug⟩
  · have hmem := recordLookup_eq (not_not.1 hsig)
    have hcnt := (h.owns.named _ (mem_map_of_mem hmem)).driver (not_not.1 hown)
    have hobj : ¬(s.recordLookup addr).IsObject := fun ho =>
      absurd ((not_not.1 hown).symm.trans ho) (by decide)
    have hspec := (h.freeRecordPages hd hmem hobj).1
    rwa [AuthState.freeRecordPages, if_neg fun hne => hne.2 hcnt] at hspec

/-! ## Giving everything back -/

theorem kfree_recordDelete (a addr : ℕ) :
    (s.kfree cfg a).recordDelete addr = (s.recordDelete addr).kfree cfg a := by
  unfold kfree
  split_ifs <;> rfl

theorem freePages_recordDelete (a order addr : ℕ) :
    (s.freePages cfg a order).recordDelete addr = (s.recordDelete addr).freePages cfg a order := by
  unfold freePages
  by_cases hv : cfg.maxMapnr ≤ virtToPage a
  · rw [if_pos hv, if_pos hv]
    rfl
  · rw [if_neg hv, if_neg hv]
    rfl

theorem freePieces_recordDelete : ∀ (n i a : ℕ) (s : AuthState),
    (freePieces cfg order n i a s).recordDelete addr =
      freePieces cfg order n i a (s.recordDelete addr)
  | 0, _, _, _ => rfl
  | n + 1, i, a, s => by
    have hd : (s.recordDelete addr).down = s.down := rfl
    rw [freePieces, freePieces, hd]
    split_ifs with h
    · rfl
    · rw [freePieces_recordDelete n, freePages_recordDelete]
      rfl
    · rw [freePieces_recordDelete n, freePages_recordDelete]

theorem freeRecordPages_recordDelete (a addr : ℕ) :
    (s.freeRecordPages cfg r a).recordDelete addr =
      (s.recordDelete addr).freeRecordPages cfg r a := by
  unfold freeRecordPages
  split_ifs
  exacts [freePieces_recordDelete .., freePages_recordDelete ..]

/-- One record is given back, unless it is a driver's. -/
theorem Inv.freeOne {e : ℕ × AuthRecord} (h : s.Inv cfg) (hd : s.down = false)
    (he : e ∈ s.tree.entries) :
    (s.freeOne cfg e).Inv cfg ∧ (s.freeOne cfg e).down = false ∧
      ∀ f, f ∈ (s.freeOne cfg e).tree.entries ↔
        f ∈ s.tree.entries ∧ (f = e → f.2.owner = driverId) := by
  obtain ⟨k, r⟩ := e
  obtain rfl : k = recordKey r.addr := h.key _ he
  have hn := h.owns.named r (mem_map_of_mem he)
  have hdel : r.owner ≠ driverId → ∀ f, f ∈ (s.tree.delete (recordKey r.addr)).entries ↔
      f ∈ s.tree.entries ∧ (f = (recordKey r.addr, r) → f.2.owner = driverId) := by
    rintro hne ⟨j, r'⟩
    rw [Radix.Tree.mem_delete]
    refine and_congr_right fun hf => ⟨fun hj heq => absurd (congrArg fst heq) hj, ?_⟩
    rintro hdrv rfl
    obtain rfl := s.tree.mem_unique hf he
    exact hne (hdrv rfl)
  unfold AuthState.freeOne
  split_ifs with hdrv hobj
  · have hown : r.owner = driverId := hdrv.resolve_left (by simp [hd])
    refine ⟨h, hd, fun f => ⟨fun hf => ⟨hf, ?_⟩, fun hf => hf.1⟩⟩
    rintro rfl
    exact hown
  · have hv := (hn.object hobj).valid
    have hres := h.kfree he hobj (hn.object hobj).word
    rw [kfree_recordDelete]
    refine ⟨hres, ?_, ?_⟩
    · rw [AuthState.kfree, if_neg (not_le.2 hv)]
      exact hd
    · rw [kfree_tree]
      exact hdel fun ho => hdrv (.inr ho)
  · have hfits := (hn.pages hobj).fits
    have hpos := Nat.two_pow_pos r.order
    obtain ⟨hinv, htree, hdown⟩ := h.freeRecordPages hd he hobj
    rw [freeRecordPages_recordDelete]
    refine ⟨hinv, hdown (by omega), ?_⟩
    rw [htree]
    exact hdel fun ho => hdrv (.inr ho)

/-- The records are freed one by one. -/
theorem Inv.foldl_freeOne : ∀ {records : List (ℕ × AuthRecord)} {s : AuthState}, s.Inv cfg →
    s.down = false → (∀ e ∈ records, e ∈ s.tree.entries) →
    (records.Pairwise fun a b => a.1 < b.1) →
      (records.foldl (AuthState.freeOne cfg) s).Inv cfg ∧
      (records.foldl (AuthState.freeOne cfg) s).down = false ∧
      ∀ f, f ∈ (records.foldl (AuthState.freeOne cfg) s).tree.entries ↔
        f ∈ s.tree.entries ∧ (f ∈ records → f.2.owner = driverId)
  | [], s, h, hd, _, _ => ⟨h, hd, fun f => by simp⟩
  | e :: records, s, h, hd, hmem, hsorted => by
    obtain ⟨hlt, hsorted⟩ := pairwise_cons.1 hsorted
    obtain ⟨he, hmem⟩ := forall_mem_cons.1 hmem
    obtain ⟨h1, hd1, htree1⟩ := h.freeOne hd he
    have hmem1 : ∀ f ∈ records, f ∈ (s.freeOne cfg e).tree.entries := fun f hf =>
      (htree1 f).2 ⟨hmem f hf, fun heq => absurd (hlt f hf) (heq ▸ lt_irrefl _)⟩
    obtain ⟨h2, hd2, htree2⟩ := Inv.foldl_freeOne h1 hd1 hmem1 hsorted
    refine ⟨h2, hd2, fun f => ?_⟩
    rw [foldl_cons, htree2, htree1, mem_cons, and_assoc, or_imp]

/-- The loop gives back everything from `startIndex` on but what drivers have. -/
theorem Inv.freeAllLoop : ∀ (fuel startIndex : ℕ) {s : AuthState}, s.Inv cfg → s.down = false →
    (s.tree.entries.filter fun e => startIndex ≤ e.1).length < fuel →
      (freeAllLoop cfg fuel startIndex s).Inv cfg ∧
      ∀ f, f ∈ (freeAllLoop cfg fuel startIndex s).tree.entries ↔
        f ∈ s.tree.entries ∧ (startIndex ≤ f.1 → f.2.owner = driverId)
  | fuel + 1, startIndex, s, h, hd, hfuel => by
    have hgang : ∀ e ∈ s.tree.gangLookup startIndex 10, e ∈ s.tree.entries ∧ startIndex ≤ e.1 :=
      fun e he => Radix.Tree.mem_gangLookup he
    obtain ⟨h1, hd1, htree1⟩ := h.foldl_freeOne hd (fun e he => (hgang e he).1)
      (s.tree.gangLookup_sorted startIndex 10)
    -- if the search has found all records from `startIndex` on, this round is the last
    have hlast : (s.tree.gangLookup startIndex 10).length ≠ 10 → ∀ f,
        f ∈ ((s.tree.gangLookup startIndex 10).foldl (AuthState.freeOne cfg) s).tree.entries ↔
          f ∈ s.tree.entries ∧ (startIndex ≤ f.1 → f.2.owner = driverId) := by
      intro hlen f
      rw [htree1]
      refine and_congr_right fun hf => ⟨fun himp hle => himp ?_, fun himp hmem =>
        himp (hgang f hmem).2⟩
      exact Radix.Tree.mem_gangLookup_of_length_ne hlen hf hle
    rw [AuthState.freeAllLoop]
    cases hl : (s.tree.gangLookup startIndex 10).getLast? with
    | none =>
      have hnil := getLast?_eq_none_iff.1 hl
      exact ⟨h1, hlast (by simp [hnil])⟩
    | some l =>
      obtain ⟨k, r⟩ := l
      have hmem := List.mem_of_getLast? hl
      have hkey : recordKey r.addr = k := (h.key _ (hgang _ hmem).1).symm
      have hk := (hgang _ hmem).2
      dsimp only at hk ⊢
      split_ifs with hlen
      · exact ⟨h1, hlast hlen⟩
      · rw [hkey]
        have hsplit : ∀ f ∈ s.tree.entries, startIndex ≤ f.1 → _ := fun f hf hfirst =>
          Radix.Tree.mem_drop_of_lt_last hl hf hfirst
        have hrest : (((s.tree.gangLookup startIndex 10).foldl (AuthState.freeOne cfg)
            s).tree.entries.filter fun e => k + 1 ≤ e.1) ⊆
              (s.tree.entries.filter fun e => startIndex ≤ e.1).drop 10 := by
          intro f hf
          obtain ⟨hf, hle⟩ := mem_filter.1 hf
          have hle : k + 1 ≤ f.1 := of_decide_eq_true hle
          rcases hsplit f ((htree1 f).1 hf).1 (by omega) with ⟨-, hle'⟩ | ⟨hdrop, -⟩
          · exact absurd hle' (not_le.2 hle)
          · exact hdrop
        have hfew := ((Radix.Tree.nodup _).filter _).length_le_of_subset hrest
        rw [Radix.Tree.gangLookup, length_take] at hlen
        rw [length_drop] at hfew
        obtain ⟨h2, htree2⟩ := Inv.freeAllLoop fuel (k + 1) h1 hd1 (by omega)
        refine ⟨h2, fun f => ?_⟩
        rw [htree2, htree1, and_assoc]
        refine and_congr_right fun hf => ⟨fun himp hle => ?_, fun himp => ⟨fun hm =>
          himp (hgang f hm).2, fun hle => himp (by omega)⟩⟩
        rcases hsplit f hf hle with ⟨hm, -⟩ | ⟨-, hlt⟩
        exacts [himp.1 hm, himp.2 hlt]

theorem Inv.freeAllMemoryAllocation (h : s.Inv cfg) (hd : s.down = false) :
    (s.freeAllMemoryAllocation cfg).Inv cfg ∧
      ∀ f, f ∈ (s.freeAllMemoryAllocation cfg).tree.entries ↔
        f ∈ s.tree.entries ∧ f.2.owner = driverId := by
  obtain ⟨hinv, htree⟩ := Inv.freeAllLoop _ 0 h hd (lt_succ_of_le (length_filter_le _ _))
  refine ⟨hinv, fun f => (htree f).trans (and_congr_right fun _ => ?_)⟩
  exact ⟨fun himp => himp (zero_le _), fun hown _ => hown⟩

end AuthState

end OpenHMR
