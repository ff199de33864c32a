import OpenHMR.AuthRecords
import OpenHMR.Halving

/-!
# Who holds the DVR memory

The pages that are lent are those of the records, and those in the hand of the call that is running
(`AuthState.Owns`). A call takes a block into its hand from the page allocator or from a record, and
puts it back to the page allocator, as a whole or in pieces (`AuthState.Gives`), or into a record.
What is in the hand is released once.
-/

namespace OpenHMR

open Set Nat

open Buddy (Block)

/-! ## Addresses -/

theorem recordKey_eq (addr : ℕ) : recordKey addr = addr % 2 ^ 28 / 4 := by
  rw [recordKey, shiftRight_eq_div_pow, show (0x0fffffff : ℕ) = 2 ^ 28 - 1 from rfl,
    and_two_pow_sub_one_eq_mod]

theorem virtToPage_add {addr n : ℕ} (h : virtToPage addr + n < 2 ^ 20) :
    virtToPage (addr + 4096 * n) = virtToPage addr + n := by
  unfold virtToPage at *
  omega

/-- Of the addresses with one index only those of one word are in the memory. -/
theorem eq_of_recordKey {a b : ℕ} (h : recordKey a = recordKey b) (ha : virtToPage a < 0x10000)
    (hb : virtToPage b < 0x10000) : virtToPage a = virtToPage b := by
  rw [recordKey_eq, recordKey_eq] at h
  unfold virtToPage at *
  omega

theorem div_eq_of_recordKey {a b : ℕ} (h : recordKey a = recordKey b) (ha : virtToPage a < 0x10000)
    (hb : virtToPage b < 0x10000) (ha' : a < 2 ^ 32) (hb' : b < 2 ^ 32) : a / 4 = b / 4 := by
  rw [recordKey_eq, recordKey_eq] at h
  unfold virtToPage at ha hb
  omega

/-! ## Records -/

namespace AuthRecord

variable (cfg : AuthConfig) (s : AuthState) (r r' : AuthRecord)

/-- The record of an object of `kmalloc`, not of pages. -/
def IsObject : Prop :=
  r.owner = cacheId

instance : Decidable r.IsObject :=
  inferInstanceAs (Decidable (_ = _))

/-- The block that was obtained for the record. -/
def block : Block :=
  ⟨virtToPage r.addr, r.order⟩

/-- The pages that the record stands for : the block, without its end if that was given back. -/
def pages : Set ℕ :=
  if r.cnt = 0 then r.block.span else r.block.span \ (r.block.rest r.cnt).span

/-- The pages of the record are lent, and are part of a block that was obtained. -/
structure NamesPages : Prop where
  addr : r.addr = 0x80000000 + 4096 * virtToPage r.addr
  acquired : .acquire r.block ∈ s.log
  fits : virtToPage r.addr + 2 ^ r.order ≤ cfg.maxMapnr
  cnt_le : r.cnt ≤ r.order
  cut : r.cnt ≠ 0 → cfg.advancedReclaim = true ∧ r.block ∈ s.cut
  live : r.pages ⊆ s.lent
  count : ∀ x ∈ r.pages, s.count x = if x = virtToPage r.addr then 1 else 0

/-- The object of the record is lent. -/
structure NamesObject : Prop where
  word : r.addr < 2 ^ 32
  valid : virtToPage r.addr < cfg.maxMapnr
  live : r.addr ∈ s.objs

/-- The record names something that is lent. -/
structure Named : Prop where
  signature : r.signature = pliSignature
  driver : r.owner = driverId → r.cnt = 0
  object : r.IsObject → r.NamesObject cfg s
  pages : ¬r.IsObject → r.NamesPages cfg s

/-- Two records name different things. -/
structure Apart : Prop where
  object : r.IsObject → r'.IsObject → r.addr / 4 ≠ r'.addr / 4
  pages : ¬r.IsObject → ¬r'.IsObject → Disjoint r.pages r'.pages

variable {cfg s r r'}

theorem Named.mono {s' : AuthState} (h : r.Named cfg s) (hlog : s.log ⊆ s'.log)
    (hcut : s.cut ⊆ s'.cut)
    (hpages : ¬r.IsObject → r.pages ⊆ s'.lent ∧ ∀ x ∈ r.pages, s'.count x = s.count x)
    (hobj : r.IsObject → r.addr ∈ s'.objs) : r.Named cfg s' where
  signature := h.signature
  driver := h.driver
  object := fun ho => { h.object ho with live := hobj ho }
  pages := fun hp =>
    { h.pages hp with
      acquired := hlog (h.pages hp).acquired
      cut := fun hc => ⟨((h.pages hp).cut hc).1, hcut ((h.pages hp).cut hc).2⟩
      live := (hpages hp).1
      count := fun x hx => ((hpages hp).2 x hx).trans ((h.pages hp).count x hx) }

/-- Pages are named as before as long as the log and the counts stay. -/
theorem Named.keep {s' : AuthState} (h : r.Named cfg s) (hlog : s'.log = s.log)
    (hcount : s'.count = s.count) (hcut : s.cut ⊆ s'.cut) (hobj : r.IsObject → r.addr ∈ s'.objs) :
    r.Named cfg s' := by
  refine h.mono (fun _ he => hlog ▸ he) hcut (fun hp => ⟨?_, fun x _ => congrFun hcount x⟩) hobj
  rw [AuthState.lent, hlog]
  exact (h.pages hp).live

theorem Apart.symm (h : r.Apart r') : r'.Apart r :=
  ⟨fun ho ho' => (h.object ho' ho).symm, fun hp hp' => (h.pages hp' hp).symm⟩

theorem head_mem_pages (h : r.cnt ≤ r.order) : virtToPage r.addr ∈ r.pages := by
  have hpos : 0 < 2 ^ (r.order - r.cnt) := Nat.two_pow_pos _
  have hhead : virtToPage r.addr ∈ r.block.span := by
    simp only [block, Block.span, mem_Ico]
    have := Nat.two_pow_pos r.order
    omega
  unfold pages
  split_ifs with hcnt
  · exact hhead
  · refine ⟨hhead, fun hmem => ?_⟩
    have hrest := Block.rest_head (n := r.cnt) (b := r.block) h
    have hlt : 2 ^ (r.order - r.cnt) < 2 ^ r.order := Nat.pow_lt_pow_right (by decide) (by omega)
    have hle := hmem.1
    simp only [block] at hrest hle
    omega

end AuthRecord

namespace AuthState

variable {cfg : AuthConfig} {s s' : AuthState} {L : List AuthRecord} {U : Set ℕ} {r : AuthRecord}
  {bs : List Block}

/-! ## What is lent, and who holds it -/

variable (cfg) in
/-- The records `L` and the hand `U` share out what is lent. -/
structure Owns (L : List AuthRecord) (U : Set ℕ) (s : AuthState) : Prop where
  legal : Ledger.Legal Block.span s.log
  order : ∀ b, .release b ∈ s.log → .acquire b ∈ s.log ∨ ∃ a ∈ s.cut, a.Piece b
  named : ∀ r ∈ L, r.Named cfg s
  apart : L.Pairwise AuthRecord.Apart
  hand : U ⊆ s.lent
  hand_apart : ∀ r ∈ L, ¬r.IsObject → Disjoint r.pages U
  covered : s.down = false → ∀ x ∈ s.lent, x ∈ U ∨ ∃ r ∈ L, ¬r.IsObject ∧ x ∈ r.pages
  objs : ∀ o ∈ s.objs, virtToPage o ∉ s.lent

theorem Owns.perm {L' : List AuthRecord} (h : s.Owns cfg L U) (hL : L.Perm L') : s.Owns cfg L' U :=
  { h with
    named := fun r hr => h.named r (hL.mem_iff.2 hr)
    apart := (hL.pairwise_iff AuthRecord.Apart.symm).1 h.apart
    hand_apart := fun r hr => h.hand_apart r (hL.mem_iff.2 hr)
    covered := fun hd x hx => (h.covered hd x hx).imp_right fun ⟨r, hr, hx⟩ =>
      ⟨r, hL.mem_iff.1 hr, hx⟩ }

theorem Owns.setTree (h : s.Owns cfg L U) (tree : Radix.Tree AuthRecord) :
    ({ s with tree := tree } : AuthState).Owns cfg L U :=
  { h with
    named := fun r hr => (h.named r hr).keep rfl rfl (List.Subset.refl _) fun ho =>
      ((h.named r hr).object ho).live }

theorem Owns.addCut (h : s.Owns cfg L U) (b : Block) :
    ({ s with cut := b :: s.cut } : AuthState).Owns cfg L U :=
  { h with
    order := fun c hc => (h.order c hc).imp_right fun ⟨a, ha, hp⟩ =>
      ⟨a, List.mem_cons_of_mem _ ha, hp⟩
    named := fun r hr => (h.named r hr).keep rfl rfl (List.subset_cons_self _ _) fun ho =>
      ((h.named r hr).object ho).live }

/-- The hand need not be emptied by a call that stops. -/
theorem Owns.bug (h : s.Owns cfg L U) : s.bug.Owns cfg L ∅ :=
  { h with
    named := fun r hr => (h.named r hr).keep rfl rfl (List.Subset.refl _) fun ho =>
      ((h.named r hr).object ho).live
    hand := empty_subset _
    hand_apart := fun _ _ _ => disjoint_empty _
    covered := fun hd => nomatch hd }

/-- A call that stops need not give back what a record names. -/
theorem Owns.drop_bug (h : s.Owns cfg (r :: L) U) : s.bug.Owns cfg L ∅ :=
  { h.bug with
    named := fun r' hr' => h.bug.named r' (List.mem_cons_of_mem _ hr')
    apart := (List.pairwise_cons.1 h.apart).2
    hand_apart := fun _ _ _ => disjoint_empty _
    covered := fun hd => nomatch hd }

/-- The pages of a record are taken into the hand. -/
theorem Owns.take (h : s.Owns cfg (r :: L) ∅) (hr : ¬r.IsObject) : s.Owns cfg L r.pages :=
  { h with
    named := fun r' hr' => h.named r' (List.mem_cons_of_mem _ hr')
    apart := (List.pairwise_cons.1 h.apart).2
    hand := ((h.named r List.mem_cons_self).pages hr).live
    hand_apart := fun r' hr' hp => (((List.pairwise_cons.1 h.apart).1 r' hr').pages hr hp).symm
    covered := fun hd x hx => by
      rcases h.covered hd x hx with hx | ⟨r', hr', hp, hx⟩
      · exact hx.elim
      · rcases List.mem_cons.1 hr' with rfl | hr'
        exacts [.inl hx, .inr ⟨r', hr', hp, hx⟩] }

/-- What is in the hand is put into a record. -/
theorem Owns.put (h : s.Owns cfg L r.pages) (hn : r.Named cfg s) (hr : ¬r.IsObject) :
    s.Owns cfg (r :: L) ∅ :=
  { h with
    named := List.forall_mem_cons.2 ⟨hn, h.named⟩
    apart := List.pairwise_cons.2 ⟨fun r' hr' => ⟨fun ho => absurd ho hr, fun _ hp =>
      (h.hand_apart r' hr' hp).symm⟩, h.apart⟩
    hand := empty_subset _
    hand_apart := fun _ _ _ => disjoint_empty _
    covered := fun hd x hx => by
      rcases h.covered hd x hx with hx | ⟨r', hr', hp, hx⟩
      exacts [.inr ⟨r, List.mem_cons_self, hr, hx⟩, .inr ⟨r', List.mem_cons_of_mem _ hr', hp, hx⟩] }

/-! ## Pages -/

variable {order addr : ℕ}

/-- A block comes into the hand. -/
theorem Owns.getFreePages {ret : ℕ} (h : s.Owns cfg L ∅) (hf : s.FreshPages cfg ret order) :
    (s.getFreePages ret order).Owns cfg L (Block.span ⟨virtToPage ret, order⟩) where
  legal := ⟨hf.fresh, h.legal⟩
  order := fun b hb => by
    have hb' : .release b ∈ s.log := by simpa [AuthState.getFreePages] using hb
    exact (h.order b hb').imp_left (List.mem_cons_of_mem _)
  named := fun r hr => by
    refine (h.named r hr).mono (List.subset_cons_self _ _) (List.Subset.refl _) (fun hp => ?_)
      fun ho => ((h.named r hr).object ho).live
    have hlive := ((h.named r hr).pages hp).live
    refine ⟨fun x hx => .inl (hlive hx), fun x hx => ?_⟩
    have hx' := disjoint_right.1 hf.fresh (hlive hx)
    simp only [Block.span, mem_Ico] at hx'
    have := Nat.two_pow_pos order
    rw [AuthState.getFreePages]
    dsimp only
    rw [if_neg (by omega), if_neg (by omega)]
  apart := h.apart
  hand := fun x hx => .inr hx
  hand_apart := fun r hr hp => hf.fresh.symm.mono_left ((h.named r hr).pages hp).live
  covered := fun hd x hx => by
    rcases hx with hx | hx
    · exact .inr ((h.covered hd x hx).resolve_left id)
    · exact .inl hx
  objs := fun o ho => by
    rintro (hx | hx)
    exacts [h.objs o ho hx, hf.objs o ho hx]

/-- The state `s'` after the blocks `bs` were released. -/
structure Gives (s s' : AuthState) (bs : List Block) : Prop where
  log : s'.log = bs.map .release ++ s.log
  count : ∀ x, (∀ b ∈ bs, x ∉ b.span) → s'.count x = s.count x
  tree : s'.tree = s.tree
  cut : s'.cut = s.cut
  objs : s'.objs = s.objs
  down : s'.down = s.down

theorem Gives.mem_lent (h : s.Gives s' bs) {x : ℕ} :
    x ∈ s'.lent ↔ x ∈ s.lent ∧ ∀ b ∈ bs, x ∉ b.span := by
  rw [lent, h.log]
  exact Ledger.mem_out_releases

theorem Gives.trans {s'' : AuthState} {cs : List Block} (h : s.Gives s' bs) (h' : s'.Gives s'' cs) :
    s.Gives s'' (cs ++ bs) where
  log := by rw [h'.log, h.log, List.map_append, List.append_assoc]
  count := fun x hx => by
    rw [h'.count x fun b hb => hx b (List.mem_append_left _ hb),
      h.count x fun b hb => hx b (List.mem_append_right _ hb)]
  tree := h'.tree.trans h.tree
  cut := h'.cut.trans h.cut
  objs := h'.objs.trans h.objs
  down := h'.down.trans h.down

/-- Blocks in the hand are released. -/
theorem Owns.gives (h : s.Owns cfg L U) (hg : s.Gives s' bs)
    (hdisj : bs.Pairwise fun b c => Disjoint b.span c.span) (hsub : ∀ b ∈ bs, b.span ⊆ U)
    (horder : ∀ b ∈ bs, .acquire b ∈ s.log ∨ ∃ a ∈ s.cut, a.Piece b) :
    s'.Owns cfg L { x | x ∈ U ∧ ∀ b ∈ bs, x ∉ b.span } where
  legal := by
    rw [hg.log]
    exact Ledger.legal_releases h.legal hdisj fun b hb => (hsub b hb).trans h.hand
  order := fun b hb => by
    rw [hg.log, hg.cut]
    have hb' : .release b ∈ s.log ∨ b ∈ bs := by
      rw [hg.log, List.mem_append, List.mem_map] at hb
      rcases hb with ⟨c, hc, heq⟩ | hb
      · exact .inr (Ledger.Event.release.inj heq ▸ hc)
      · exact .inl hb
    exact (hb'.elim (h.order b) (horder b)).imp_left (List.mem_append_right _)
  named := fun r hr => by
    have hn := h.named r hr
    refine hn.mono (hg.log ▸ List.subset_append_right _ _) (hg.cut ▸ List.Subset.refl _)
      (fun hp => ?_) fun ho => hg.objs ▸ (hn.object ho).live
    have hout : ∀ x ∈ r.pages, ∀ b ∈ bs, x ∉ b.span := fun x hx b hb hxb =>
      disjoint_left.1 (h.hand_apart r hr hp) hx (hsub b hb hxb)
    exact ⟨fun x hx => hg.mem_lent.2 ⟨(hn.pages hp).live hx, hout x hx⟩,
      fun x hx => hg.count x (hout x hx)⟩
  apart := h.apart
  hand := fun x hx => hg.mem_lent.2 ⟨h.hand hx.1, hx.2⟩
  hand_apart := fun r hr hp => (h.hand_apart r hr hp).mono_right fun _ hx => hx.1
  covered := fun hd x hx => by
    obtain ⟨hlent, hout⟩ := hg.mem_lent.1 hx
    exact (h.covered (hg.down ▸ hd) x hlent).imp_left fun hU => ⟨hU, hout⟩
  objs := fun o ho hx => h.objs o (hg.objs ▸ ho) (hg.mem_lent.1 hx).1

/-- All that is in the hand is released. -/
theorem Owns.gives_all (h : s.Owns cfg L U) (hg : s.Gives s' bs)
    (hdisj : bs.Pairwise fun b c => Disjoint b.span c.span)
    (hU : ∀ x, (∃ b ∈ bs, x ∈ b.span) ↔ x ∈ U)
    (horder : ∀ b ∈ bs, .acquire b ∈ s.log ∨ ∃ a ∈ s.cut, a.Piece b) : s'.Owns cfg L ∅ := by
  have h' := h.gives hg hdisj (fun b hb x hx => (hU x).1 ⟨b, hb, hx⟩) horder
  have hempty : { x | x ∈ U ∧ ∀ b ∈ bs, x ∉ b.span } = ∅ := by
    refine eq_empty_iff_forall_notMem.2 fun x hx => ?_
    obtain ⟨b, hb, hxb⟩ := (hU x).2 hx.1
    exact hx.2 b hb hxb
  rwa [hempty] at h'

theorem freePages_eq_bug (h : cfg.maxMapnr ≤ virtToPage addr) :
    s.freePages cfg addr order = s.bug :=
  if_pos h

theorem ne_head_of_outside {h : ℕ} (hx : ∀ b ∈ [(⟨h, order⟩ : Block)], x ∉ b.span) : x ≠ h := by
  rintro rfl
  exact hx _ (List.mem_singleton_self _) ⟨le_rfl, Nat.lt_add_of_pos_right (Nat.two_pow_pos _)⟩

/-- The last user of a block gives it back. -/
theorem freePages_gives (order : ℕ) (hv : virtToPage addr < cfg.maxMapnr)
    (hc : s.count (virtToPage addr) = 1) :
    s.Gives (s.freePages cfg addr order) [⟨virtToPage addr, order⟩] := by
  rw [freePages, if_neg (not_le.2 hv)]
  refine ⟨by simp [hc], fun x hx => ?_, rfl, rfl, rfl, rfl⟩
  simp [ne_head_of_outside hx]

/-- A part of a block is given back : its first page is counted first. -/
theorem incCount_freePages_gives (hv : virtToPage addr < cfg.maxMapnr)
    (hc : s.count (virtToPage addr) = 0) :
    s.Gives ((s.incCount (virtToPage addr)).freePages cfg addr order)
      [⟨virtToPage addr, order⟩] := by
  have hg := freePages_gives order hv
    (show (s.incCount (virtToPage addr)).count _ = 1 by simp [incCount, hc])
  refine { hg with count := fun x hx => ?_ }
  rw [hg.count x hx]
  simp [incCount, ne_head_of_outside hx]

/-- The loop releases the left halves of what is left of the block. -/
theorem freePieces_gives {n i : ℕ} {b : Block} (hi : b.order + i = order + 1)
    (hi0 : i ≠ 0) (hn : n ≤ b.order) (haddr : virtToPage addr = b.head)
    (hfits : b.head + 2 ^ b.order ≤ cfg.maxMapnr) (hd : s.down = false)
    (hcount : ∀ x ∈ b.span, x ∉ (b.rest n).span →
      s.count x = if x = b.head ∧ i = 1 then 1 else 0) :
    s.Gives (freePieces cfg order n i addr s) (b.leftHalves n) := by
  induction n generalizing i addr b s with
  | zero => exact ⟨rfl, fun _ _ => rfl, rfl, rfl, rfl, rfl⟩
  | succ n ih =>
    have hleft : b.left = ⟨virtToPage addr, order - i⟩ := by
      rw [haddr, Block.left, show b.order - 1 = order - i by omega]
    have hpow : 2 ^ b.order = 2 ^ (order - i) + 2 ^ (order - i) := by
      rw [← Nat.two_mul, ← Nat.pow_succ', show (order - i).succ = b.order by omega]
    have hpos := Nat.two_pow_pos (order - i)
    have hmax := cfg.maxMapnr_le
    have hv : virtToPage addr < cfg.maxMapnr := by omega
    have hr : n ≤ b.right.order := by simp only [Block.right]; omega
    have hright : b.right.order + (i + 1) = order + 1 := by simp only [Block.right]; omega
    -- the first page of the block is counted for the block if this is the first round
    have hstep : ∀ s1, s1 = (if i ≠ 1 then s.incCount (virtToPage addr) else s).freePages cfg addr
        (order - i) → s.Gives s1 [b.left] := by
      rintro _ rfl
      have hhead : b.head ∈ b.span := ⟨le_rfl, Nat.lt_add_of_pos_right (Nat.two_pow_pos _)⟩
      have hrest : b.head ∉ (b.rest (n + 1)).span := fun hmem => by
        have hmem' : b.head ∈ b.right.span := Block.rest_span_subset hr hmem
        exact disjoint_left.1 b.disjoint_left_right
          ⟨le_rfl, Nat.lt_add_of_pos_right (Nat.two_pow_pos _)⟩ hmem'
      have hc := hcount b.head hhead hrest
      rw [hleft]
      split_ifs with h1
      · exact incCount_freePages_gives hv (by rw [haddr, hc, if_neg fun h => h1 h.2])
      · exact freePages_gives _ hv (by rw [haddr, hc, if_pos ⟨rfl, not_not.1 h1⟩])
    have hg := hstep _ rfl
    rw [freePieces, if_neg (by simp [hd])]
    refine hg.trans (ih (b := b.right) hright i.succ_ne_zero hr ?_ ?_ (hg.down.trans hd) ?_)
    · have hshift : 2 ^ (12 + order - i) = 4096 * 2 ^ (order - i) := by
        rw [show 12 + order - i = 12 + (order - i) by omega, Nat.pow_add]
      rw [hshift, virtToPage_add (by omega), haddr, Block.right,
        show b.order - 1 = order - i by omega]
    · simp only [Block.right, show b.order - 1 = order - i by omega]
      omega
    · intro x hx hxr
      have hxb : x ∈ b.span := (Block.mem_span_iff_left_right (by omega)).2 (.inr hx)
      rw [hg.count x fun c hc => by
          obtain rfl := List.mem_singleton.1 hc
          exact disjoint_right.1 b.disjoint_left_right hx,
        hcount x hxb hxr]
      have hne : x ≠ b.head := by
        have hle := hx.1
        simp only [Block.right, show b.order - 1 = order - i by omega] at hle
        omega
      rw [if_neg fun h => hne h.1, if_neg fun h => hi0 (Nat.succ.inj h.2)]

theorem freePieces_of_down (h : s.down = true) :
    ∀ n i addr : ℕ, freePieces cfg order n i addr s = s
  | 0, _, _ => rfl
  | _ + 1, _, _ => if_pos h

/-- The block of a record is released as a whole. -/
theorem Owns.freeBlock (h : s.Owns cfg L r.pages) (hn : r.NamesPages cfg s)
    (hcnt : r.cnt = 0) (haddr : virtToPage addr = virtToPage r.addr) :
    s.Gives (s.freePages cfg addr r.order) [r.block] ∧
      (s.freePages cfg addr r.order).Owns cfg L ∅ := by
  have hpages : r.pages = r.block.span := if_pos hcnt
  have hfits := hn.fits
  have hpos := Nat.two_pow_pos r.order
  have hhead := hn.count _ (AuthRecord.head_mem_pages hn.cnt_le)
  have hv : virtToPage addr < cfg.maxMapnr := by omega
  have hg := freePages_gives r.order hv (s := s) (by rw [haddr, hhead, if_pos rfl])
  rw [haddr] at hg
  refine ⟨hg, h.gives_all hg (List.pairwise_singleton _ _) (fun x => ?_) fun b hb => ?_⟩
  · rw [hpages]
    simp [AuthRecord.block]
  · obtain rfl := List.mem_singleton.1 hb
    exact .inl hn.acquired

/-- The pages of a record are released, at an address in the memory. -/
theorem Owns.freeRecordPages (h : s.Owns cfg L r.pages) (hn : r.NamesPages cfg s)
    (hd : s.down = false) (haddr : virtToPage addr = virtToPage r.addr) :
    ∃ bs, s.Gives (s.freeRecordPages cfg r addr) bs ∧
      (s.freeRecordPages cfg r addr).Owns cfg L ∅ := by
  unfold AuthState.freeRecordPages
  split_ifs with hcut
  · have hpages : r.pages = r.block.span \ (r.block.rest r.cnt).span := if_neg hcut.2
    have hg : s.Gives (freePieces cfg r.order r.cnt 1 addr s) (r.block.leftHalves r.cnt) := by
      refine freePieces_gives (b := r.block) rfl (by decide) hn.cnt_le haddr hn.fits hd ?_
      intro x hx hrest
      rw [hn.count x (hpages ▸ ⟨hx, hrest⟩)]
      simp [AuthRecord.block]
    have hdisj := Block.leftHalves_disjoint (b := r.block) hn.cnt_le
    refine ⟨_, hg, h.gives_all hg hdisj (fun x => ?_) fun b hb => ?_⟩
    · rw [hpages]
      exact Block.mem_leftHalves_iff hn.cnt_le
    · exact .inr ⟨_, (hn.cut hcut.2).2, r.cnt, hn.cnt_le, .inl hb⟩
  · have hcnt : r.cnt = 0 := by
      by_contra hne
      exact hcut ⟨(hn.cut hne).1, hne⟩
    exact ⟨_, h.freeBlock hn hcnt haddr⟩

/-- At an address outside of the memory the kernel stops. -/
theorem freeRecordPages_eq_bug (hd : s.down = false)
    (hv : cfg.maxMapnr ≤ virtToPage addr) : s.freeRecordPages cfg r addr = s.bug := by
  unfold freeRecordPages
  split_ifs with hcut
  · obtain ⟨n, hn⟩ := exists_eq_succ_of_ne_zero hcut.2
    rw [hn, freePieces, if_neg (by simp [hd])]
    dsimp only
    rw [if_neg (by simp), freePages_eq_bug hv, freePieces_of_down rfl]
  · exact freePages_eq_bug hv

/-! ## Objects -/

/-- An object is lent, with a record. -/
theorem Owns.kmalloc (h : s.Owns cfg L ∅) (hf : s.FreshObject cfg r.addr) (hr : r.IsObject)
    (hsig : r.signature = pliSignature) (hdrv : r.owner ≠ driverId) :
    ({ s with objs := r.addr :: s.objs } : AuthState).Owns cfg (r :: L) ∅ :=
  { h with
    named := by
      refine List.forall_mem_cons.2 ⟨⟨hsig, fun ho => absurd ho hdrv, fun _ => ⟨hf.word, hf.valid,
        List.mem_cons_self⟩, fun hp => absurd hr hp⟩, fun r' hr' => ?_⟩
      exact (h.named r' hr').keep rfl rfl (List.Subset.refl _) fun ho =>
        List.mem_cons_of_mem _ ((h.named r' hr').object ho).live
    apart := List.pairwise_cons.2 ⟨fun r' hr' => ⟨fun _ ho =>
      (hf.fresh _ ((h.named r' hr').object ho).live).symm, fun hp => absurd hr hp⟩, h.apart⟩
    hand_apart := fun _ _ _ => disjoint_empty _
    covered := fun hd x hx => (h.covered hd x hx).imp_right fun ⟨r', hr', hx⟩ =>
      ⟨r', List.mem_cons_of_mem _ hr', hx⟩
    objs := List.forall_mem_cons.2 ⟨hf.page, h.objs⟩ }

/-- The object of a record is given back. -/
theorem Owns.kfree (h : s.Owns cfg (r :: L) ∅) (hr : r.IsObject)
    (haddr : virtToPage addr < cfg.maxMapnr → addr / 4 = r.addr / 4) :
    (s.kfree cfg addr).Owns cfg L ∅ := by
  obtain ⟨hapart, hL⟩ := List.pairwise_cons.1 h.apart
  have hcov : s.down = false → ∀ x ∈ s.lent,
      x ∈ (∅ : Set ℕ) ∨ ∃ r ∈ L, ¬r.IsObject ∧ x ∈ r.pages := by
    intro hd x hx
    obtain ⟨r', hr', hp, hx⟩ := (h.covered hd x hx).resolve_left id
    rcases List.mem_cons.1 hr' with rfl | hr'
    exacts [absurd hr hp, .inr ⟨r', hr', hp, hx⟩]
  have hnamed : ∀ r' ∈ L, r'.Named cfg s := fun r' hr' => h.named r' (List.mem_cons_of_mem _ hr')
  have hdrop : s.Owns cfg L ∅ := ⟨h.legal, h.order, hnamed, hL, h.hand,
    fun _ _ _ => disjoint_empty _, hcov, h.objs⟩
  unfold AuthState.kfree
  split_ifs with hv
  · exact hdrop.bug
  · have haddr := haddr (not_le.1 hv)
    refine ⟨h.legal, h.order, fun r' hr' => ?_, hL, h.hand, fun _ _ _ => disjoint_empty _, hcov,
      fun o ho => h.objs o (List.mem_of_mem_filter ho)⟩
    have hn := hnamed r' hr'
    refine hn.keep rfl rfl (List.Subset.refl _) fun ho =>
      List.mem_filter.2 ⟨(hn.object ho).live, decide_eq_true ?_⟩
    rw [haddr]
    exact ((hapart r' hr').object hr ho).symm

end AuthState

end OpenHMR
