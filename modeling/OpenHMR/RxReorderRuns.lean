import Mathlib.Data.Nat.Bitwise
import OpenHMR.Runs
import OpenHMR.RxReorder

/-!
# Packets are indicated once and in order

`RxTs.Window` is the invariant of a stream : its pending packets have falling numbers, between
`RxIndicateSeq` and the end of the window. In the window the comparison modulo 4096 is the one of
the numbers (`snLess_iff`), so that the lists of the code are those of `Reorder`
(`addReorderEntry_eq`, `collect_eq`). `Delivers` says what a call does : it moves the window
forward, passes entries and packets on without loss, and indicates packets between the old and the
new `RxIndicateSeq`. The run is `reorder_run`.
-/

namespace OpenHMR

open Reorder List Function Nat

/-! ## Comparison -/

/-- `SN_LESS` looks at half of the numbers. -/
theorem snLess_iff_dist {a b : ℕ} (ha : a < 4096) (hb : b < 4096) :
    SnLess a b ↔ 2048 ≤ (a + 4096 - b) % 4096 := by
  have hbit : ∀ n : ℕ, n &&& 0x800 ≠ 0 ↔ n / 2048 % 2 = 1 := by
    intro n
    have hand : 0x800 &&& n = 0x800 * (n.testBit 11).toNat := two_pow_and n 11
    rw [Nat.and_comm, hand, testBit_eq_decide_div_mod_eq]
    simp
  rw [SnLess, hbit]
  omega

/-- Numbers that are near are compared by their remainders. -/
theorem snLess_iff {x y : ℕ} (h1 : x < y + 2048) (h2 : y < x + 2048) :
    SnLess (x % 4096) (y % 4096) ↔ x < y := by
  rw [snLess_iff_dist (mod_lt _ (by decide)) (mod_lt _ (by decide))]
  omega

theorem mod_eq_iff {x y : ℕ} (h1 : x < y + 2048) (h2 : y < x + 2048) :
    x % 4096 = y % 4096 ↔ x = y := by
  omega

/-! ## The lists -/

section Lists

variable {key : RxReorderEntry → ℕ} {x : RxReorderEntry} {w : ℕ}

theorem addReorderEntry_eq (key : RxReorderEntry → ℕ) (hx : x.seqNum = key x % 4096) :
    ∀ {l : List RxReorderEntry}, (∀ e ∈ l, e.seqNum = key e % 4096) →
    (∀ e ∈ l, key x < key e + 2048 ∧ key e < key x + 2048) →
    addReorderEntry x l = insertDesc key x l
  | [], _, _ => rfl
  | e :: l, hseq, hnear => by
    obtain ⟨h1, h2⟩ := hnear e mem_cons_self
    have ih := addReorderEntry_eq key hx (fun a ha => hseq a (mem_cons_of_mem e ha))
      fun a ha => hnear a (mem_cons_of_mem e ha)
    simp only [addReorderEntry, insertDesc, hx, hseq e mem_cons_self, snLess_iff h1 h2,
      mod_eq_iff h1 h2, ih]

/-- The loop takes what `drain` takes, if the array is long enough. -/
theorem collect_eq {bounded : Bool} : ∀ {l : List RxReorderEntry} {w index : ℕ},
    l.Pairwise (fun a b => key a < key b) → (∀ e ∈ l, e.seqNum = key e % 4096) →
    (∀ e ∈ l, key e < w + 2048 ∧ w < key e + 2048) → index + l.length ≤ reorderWinSize →
    collect bounded (w % 4096) index l = ⟨(drain key w l).1, (drain key w l).2.1 % 4096,
      (drain key w l).2.2, decide ((drain key w l).2.2 ≠ [])⟩
  | [], _, _, _, _, _, _ => rfl
  | e :: l, w, index, hl, hseq, hnear, hlen => by
    obtain ⟨he, hl⟩ := pairwise_cons.1 hl
    obtain ⟨h1, h2⟩ := hnear e mem_cons_self
    have hlt : ¬ (bounded = true ∧ reorderWinSize ≤ index) := by
      rintro ⟨-, h⟩
      rw [length_cons] at hlen
      omega
    rw [collect, hseq e mem_cons_self]
    simp only [snLess_iff h1 h2, mod_eq_iff h1 h2, if_neg hlt]
    by_cases hle : key e ≤ w
    · rw [if_pos (lt_or_eq_of_le hle), drain_of_le hle]
      have hnext : (if key e = w then (w % 4096 + 1) % 4096 else w % 4096) =
          (if key e = w then w + 1 else w) % 4096 := by
        split_ifs <;> omega
      rw [hnext, collect_eq hl (fun a ha => hseq a (mem_cons_of_mem e ha)) ?_ ?_]
      · intro a ha
        have := hnear a (mem_cons_of_mem e ha)
        have := he a ha
        split_ifs <;> omega
      · rw [length_cons] at hlen
        omega
    · rw [if_neg (by omega), drain_of_gt hle]
      simp

end Lists

/-! ## The window of a stream -/

/-- The pending packets of a stream whose `RxIndicateSeq` has the number `base`. -/
structure RxTs.Window (number : ℕ → ℕ) (base : ℕ) (ts : RxTs) : Prop where
  seq : ts.rxIndicateSeq = base % 4096
  seqNum : ∀ e ∈ ts.pending, e.seqNum = number e.prxb % 4096
  above : ∀ e ∈ ts.pending, base < number e.prxb
  below : ∀ e ∈ ts.pending, number e.prxb < base + rxReorderWinSize
  sorted : ts.pending.Pairwise (fun a b => number b.prxb < number a.prxb)

/-- A call with the packets `new` loses no entry and no packet, and indicates packets between `base`
and `base'`. -/
structure Passes (number : ℕ → ℕ) (base base' : ℕ) (unused : List ℕ) (ts : RxTs)
    (new : List ℕ) (r : RxResult) : Prop where
  le : base ≤ base'
  lt : base' < base + 4096
  entries : (unused : Multiset ℕ) + (ts.pending.map (·.num) : List ℕ) =
    (r.unused : Multiset ℕ) + (r.ts.pending.map (·.num) : List ℕ)
  packets : (new : Multiset ℕ) + (ts.pending.map (·.prxb) : List ℕ) =
    ((r.ts.pending.map (·.prxb) : List ℕ) : Multiset ℕ) + r.indicated + r.freed
  length_le : r.indicated.length ≤ rxReorderWinSize
  rising : (r.indicated.map number).Pairwise (· < ·)
  ge_base : ∀ p ∈ r.indicated, base ≤ number p
  lt_base : ∀ p ∈ r.indicated, number p < base'

/-- The call moves the window from `base` to `base'`. -/
structure Delivers (number : ℕ → ℕ) (base base' : ℕ) (unused : List ℕ) (ts : RxTs)
    (new : List ℕ) (r : RxResult) : Prop extends Passes number base base' unused ts new r where
  window : r.ts.Window number base'

section Calls

variable {number : ℕ → ℕ} {base w : ℕ} {unused unused0 first freed new : List ℕ} {ts ts0 : RxTs}

theorem length_array (first : List ℕ) (c : Collected) :
    (first ++ c.out.map (·.prxb)).length = first.length + c.out.length := by
  rw [length_append, length_map]

/-- The packets in the array are indicated, as it does not overflow. -/
theorem indicate_eq (unused : List ℕ) (ts : RxTs) (freed : List ℕ) {c : Collected}
    (h : first.length + c.out.length ≤ reorderWinSize) :
    (indicate unused ts first freed c).unused = unused ++ c.out.map (·.num) ∧
      (indicate unused ts first freed c).ts.rxIndicateSeq = c.seq ∧
      (indicate unused ts first freed c).ts.pending = c.rest.reverse ∧
      (indicate unused ts first freed c).indicated = first ++ c.out.map (·.prxb) ∧
      (indicate unused ts first freed c).freed = freed := by
  have hlen := length_array first c
  unfold indicate
  simp only []
  split_ifs with h1 h2
  · omega
  · simp
  all_goals
    have hnil : first ++ c.out.map (·.prxb) = [] := eq_nil_of_length_eq_zero (by omega)
    simp only [hnil, and_self]

/-- A call that began with `unused0` and `ts0` has moved `RxIndicateSeq` to the number `w`, and put
its packet into the array, into the pending list or to those that are freed. -/
structure Ready (number : ℕ → ℕ) (base w : ℕ) (unused0 : List ℕ) (ts0 : RxTs)
    (new unused : List ℕ) (ts : RxTs) (first freed : List ℕ) : Prop where
  le : base ≤ w
  lt : w < base + 2048
  seqNum : ∀ e ∈ ts.pending, e.seqNum = number e.prxb % 4096
  above : ∀ e ∈ ts.pending, base < number e.prxb
  below : ∀ e ∈ ts.pending, number e.prxb < w + rxReorderWinSize
  sorted : ts.pending.Pairwise (fun a b => number b.prxb < number a.prxb)
  array : first = [] ∨ ∃ p, first = [p] ∧ number p = base ∧ w = base + 1
  length_le : first.length + ts.pending.length ≤ rxReorderWinSize
  entries : (unused0 : Multiset ℕ) + (ts0.pending.map (·.num) : List ℕ) =
    (unused : Multiset ℕ) + (ts.pending.map (·.num) : List ℕ)
  packets : (new : Multiset ℕ) + (ts0.pending.map (·.prxb) : List ℕ) =
    (first : Multiset ℕ) + (ts.pending.map (·.prxb) : List ℕ) + freed

section

variable (h : Ready number base w unused0 ts0 new unused ts first freed)

include h

/-- What the call does then. -/
theorem Ready.delivers_indicate {c : Collected} {w' : ℕ} (hc : c.seq = w' % 4096)
    (hd : Drained (fun e => number e.prxb) w ts.pending.reverse c.out w' c.rest) :
    Delivers number base w' unused0 ts0 new (indicate unused ts first freed c) := by
  obtain ⟨hbase, hw, hseq, habove, hbelow, hsorted, hfirst, hlen, hentries, hpackets⟩ := h
  have hpending : ts.pending = c.rest.reverse ++ c.out.reverse := by
    rw [← reverse_append, hd.append, reverse_reverse]
  have hout : ∀ e ∈ c.out, e ∈ ts.pending := fun e he => by simp [hpending, he]
  have hrest : ∀ e ∈ c.rest.reverse, e ∈ ts.pending := fun e he => by
    rw [hpending]
    exact mem_append_left _ he
  have hparts : ∀ f : RxReorderEntry → ℕ, ((ts.pending.map f : List ℕ) : Multiset ℕ) =
      ((c.rest.reverse.map f : List ℕ) : Multiset ℕ) + (c.out.map f : List ℕ) := by
    intro f
    rw [hpending, map_append, map_reverse (l := c.out), ← Multiset.coe_add, Multiset.coe_reverse]
  have hlength : ts.pending.length = c.rest.length + c.out.length := by simp [hpending]
  have hw' := hd.le_add
  have hsize : rxReorderWinSize = 64 := rfl
  have hfits : first.length + c.out.length ≤ reorderWinSize := by
    rw [reorderWinSize]
    omega
  obtain ⟨h1, h2, h3, h4, h5⟩ := indicate_eq unused ts freed hfits
  have hwindow : (indicate unused ts first freed c).ts.Window number w' := by
    refine ⟨h2.trans hc, ?_, ?_, ?_, ?_⟩ <;> rw [h3]
    · exact fun e he => hseq e (hrest e he)
    · exact fun e he => hd.gt e (mem_reverse.1 he)
    · intro e he
      exact (hbelow e (hrest e he)).trans_le (Nat.add_le_add_right hd.le _)
    · exact hsorted.sublist (hpending ▸ sublist_append_left _ _)
  -- the packets of the array, and their numbers
  have hmem : ∀ p ∈ (indicate unused ts first freed c).indicated,
      number p = base ∧ base < w' ∨ ∃ e ∈ c.out, e.prxb = p := by
    intro p hp
    rw [h4, mem_append] at hp
    rcases hp with hp | hp
    · rcases hfirst with rfl | ⟨q, rfl, hq, rfl⟩
      · cases hp
      · obtain rfl := mem_singleton.1 hp
        exact .inl ⟨hq, hd.le⟩
    · exact .inr (mem_map.1 hp)
  have hrising : ((indicate unused ts first freed c).indicated.map number).Pairwise (· < ·) := by
    have hsorted' : (c.out.map (·.prxb) |>.map number).Pairwise (· < ·) := by
      rw [map_map, pairwise_map]
      exact pairwise_reverse.1 (hsorted.sublist (hpending ▸ sublist_append_right _ _))
    rw [h4, map_append]
    rcases hfirst with rfl | ⟨q, rfl, hq, -⟩
    · exact hsorted'
    · refine pairwise_cons.2 ⟨fun n hn => ?_, hsorted'⟩
      rw [map_map] at hn
      obtain ⟨e, he, rfl⟩ := mem_map.1 hn
      exact hq ▸ habove e (hout e he)
  refine ⟨⟨hbase.trans hd.le, by omega, ?_, ?_, ?_, hrising, ?_, ?_⟩, hwindow⟩
  · rw [hentries, hparts, h1, h3, ← Multiset.coe_add]
    ac_rfl
  · rw [hpackets, hparts, h3, h4, h5, ← Multiset.coe_add]
    ac_rfl
  · rw [h4, length_append, length_map]
    omega
  · intro p hp
    rcases hmem p hp with ⟨h, -⟩ | ⟨e, he, rfl⟩
    exacts [h.ge, (habove e (hout e he)).le]
  · intro p hp
    rcases hmem p hp with ⟨h, h'⟩ | ⟨e, he, rfl⟩
    exacts [h ▸ h', hd.lt e he]

/-- The loop collects what is in order. -/
theorem Ready.collect_eq
    (bounded : Bool) : collect bounded (w % 4096) first.length ts.pending.reverse =
      ⟨(drain (fun e => number e.prxb) w ts.pending.reverse).1,
        (drain (fun e => number e.prxb) w ts.pending.reverse).2.1 % 4096,
        (drain (fun e => number e.prxb) w ts.pending.reverse).2.2,
        decide ((drain (fun e => number e.prxb) w ts.pending.reverse).2.2 ≠ [])⟩ := by
  have hsize : rxReorderWinSize = 64 := rfl
  refine OpenHMR.collect_eq (pairwise_reverse.2 h.sorted) ?_ ?_ ?_
  · exact fun e he => h.seqNum e (mem_reverse.1 he)
  · intro e he
    have h1 := h.above e (mem_reverse.1 he)
    have h2 := h.below e (mem_reverse.1 he)
    have h3 := h.lt
    omega
  · have hlen := h.length_le
    rw [length_reverse, reorderWinSize]
    omega

/-- Both calls, from the loop on. -/
theorem Ready.delivers (bounded : Bool) : ∃ base', Delivers number base base' unused0 ts0 new
      (indicate unused ts first freed
        (collect bounded (w % 4096) first.length ts.pending.reverse)) := by
  have hd := drained w (pairwise_reverse.2 h.sorted)
  rw [h.collect_eq bounded]
  exact ⟨_, h.delivers_indicate rfl hd⟩

theorem Ready.delivers_indicateFrom (hseq : ts.rxIndicateSeq = w % 4096) :
    ∃ base', Delivers number base base' unused0 ts0 new (ts.indicateFrom unused first freed) := by
  rw [RxTs.indicateFrom, hseq]
  exact h.delivers true

end

theorem RxTs.Window.length_le (h : ts.Window number base) :
    ts.pending.length ≤ rxReorderWinSize - 1 := by
  have hlen := length_le_of_sorted h.sorted h.above h.below
  omega

variable {prxb seqNum : ℕ}

/-- A packet with the number that is due, also for a new stream. -/
theorem ready_due (unused : List ℕ) (hseq : ∀ e ∈ ts.pending, e.seqNum = number e.prxb % 4096)
    (habove : ∀ e ∈ ts.pending, base < number e.prxb)
    (hbelow : ∀ e ∈ ts.pending, number e.prxb < base + rxReorderWinSize)
    (hsorted : ts.pending.Pairwise (fun a b => number b.prxb < number a.prxb))
    (hp : number prxb = base) :
    Ready number base (base + 1) unused ts [prxb] unused
      { ts with rxIndicateSeq := (base + 1) % 4096 } [prxb] [] := by
  have hsize : rxReorderWinSize = 64 := rfl
  have hlen := length_le_of_sorted hsorted habove hbelow
  refine ⟨le_succ _, by omega, hseq, habove, ?_, hsorted, .inr ⟨prxb, rfl, hp, rfl⟩, ?_, rfl, ?_⟩
  · exact fun e he => lt_succ_of_lt (hbelow e he)
  · change 1 + ts.pending.length ≤ _
    omega
  · rw [Multiset.coe_nil, add_zero]

/-- A packet that is not put into the list. -/
theorem ready_refused (h : ts.Window number base) (hw : base ≤ w) (hlt : w < base + 2048)
    {unused' : List ℕ} (hunused : (unused' : Multiset ℕ) = unused) :
    Ready number base w unused ts [prxb] unused' { ts with rxIndicateSeq := w % 4096 } []
      [prxb] := by
  have hlen := h.length_le
  refine ⟨hw, hlt, h.seqNum, h.above, ?_, h.sorted, .inl rfl, ?_, by rw [hunused], ?_⟩
  · exact fun e he => (h.below e he).trans_le (Nat.add_le_add_right hw _)
  · change 0 + ts.pending.length ≤ _
    omega
  · rw [Multiset.coe_nil, zero_add, add_comm]

variable {l : List RxReorderEntry} {d : ℕ} {r : RxResult} {e : RxReorderEntry}

/-- A packet that is put into the list. -/
theorem ready_inserted (h : ts.Window number base) (hw : base ≤ w)
    (hp : seqNum = number prxb % 4096) (hwp : w < number prxb)
    (hpw : number prxb < w + rxReorderWinSize) (hnear : number prxb < base + 2048) {num : ℕ}
    (hl : insertDesc (fun e : RxReorderEntry => number e.prxb) ⟨num, seqNum, prxb⟩ ts.pending =
      some l) :
    Ready number base w (num :: unused) ts [prxb] unused
      { ts with rxIndicateSeq := w % 4096, pending := l } [] [] := by
  have hlen := h.length_le
  have hperm := insertDesc_perm hl
  have hmem : ∀ e ∈ l, e = ⟨num, seqNum, prxb⟩ ∨ e ∈ ts.pending := fun e he =>
    mem_cons.1 (hperm.mem_iff.1 he)
  have hmap : ∀ f : RxReorderEntry → ℕ, ((l.map f : List ℕ) : Multiset ℕ) =
      f ⟨num, seqNum, prxb⟩ ::ₘ ((ts.pending.map f : List ℕ) : Multiset ℕ) := fun f =>
    Multiset.coe_eq_coe.2 (hperm.map f)
  refine ⟨hw, by omega, ?_, ?_, ?_, insertDesc_sorted h.sorted hl, .inl rfl, ?_, ?_, ?_⟩
  · intro e he
    rcases hmem e he with rfl | he
    exacts [hp, h.seqNum e he]
  · intro e he
    rcases hmem e he with rfl | he
    exacts [hw.trans_lt hwp, h.above e he]
  · intro e he
    rcases hmem e he with rfl | he
    exacts [hpw, (h.below e he).trans_le (Nat.add_le_add_right hw _)]
  · change 0 + l.length ≤ _
    rw [hperm.length_eq, length_cons]
    omega
  · rw [hmap, ← Multiset.cons_coe, Multiset.cons_add, Multiset.add_cons]
  · rw [hmap, Multiset.coe_nil, zero_add, add_zero]
    rfl

/-- What `RxReorderIndicatePacket` does with a packet at the distance `d` from `RxIndicateSeq`. -/
inductive Received (number : ℕ → ℕ) (base d : ℕ) (unused : List ℕ) (ts : RxTs) (prxb seqNum : ℕ) :
    RxResult → Prop
  /-- It is behind the window. -/
  | late (hd : 2048 ≤ d) : Received number base d unused ts prxb seqNum ⟨unused, ts, [], [prxb]⟩
  | due (hd : d = 0)
      (h : Ready number base (base + 1) unused ts [prxb] unused
        { ts with rxIndicateSeq := (base + 1) % 4096 } [prxb] []) :
      Received number base d unused ts prxb seqNum
        ({ ts with rxIndicateSeq := (base + 1) % 4096 }.indicateFrom unused [prxb] [])
  /-- There is no entry for it, or its number is pending. -/
  | refused (hd : 0 < d) (hlt : d < 2048) (w : ℕ) (hw : w = if 64 ≤ d then base + d - 63 else base)
      (unused' : List ℕ) (hwhy : unused = [] ∨ ∃ e ∈ ts.pending, number e.prxb = base + d)
      (h : Ready number base w unused ts [prxb] unused' { ts with rxIndicateSeq := w % 4096 } []
        [prxb]) :
      Received number base d unused ts prxb seqNum
        ({ ts with rxIndicateSeq := w % 4096 }.indicateFrom unused' [] [prxb])
  | inserted (hd : 0 < d) (hlt : d < 2048) (w : ℕ)
      (hw : w = if 64 ≤ d then base + d - 63 else base) (num : ℕ) (unused' : List ℕ)
      (hunused : unused = num :: unused') (l : List RxReorderEntry)
      (hl : insertDesc (fun e : RxReorderEntry => number e.prxb) ⟨num, seqNum, prxb⟩ ts.pending =
        some l)
      (h : Ready number base w unused ts [prxb] unused'
        { ts with rxIndicateSeq := w % 4096, pending := l } [] []) :
      Received number base d unused ts prxb seqNum
        ({ ts with rxIndicateSeq := w % 4096, pending := l }.indicateFrom unused' [] [])

/-- A packet that comes too early. The window has moved to `w`, so that its number is in it. -/
theorem received_early (unused : List ℕ) (h : ts.Window number base)
    (hp : seqNum = number prxb % 4096) (hd : number prxb = base + d) (h0 : 0 < d) (hlt : d < 2048)
    (hw : w = if 64 ≤ d then base + d - 63 else base) :
    Received number base d unused ts prxb seqNum
      (match unused with
        | [] => { ts with rxIndicateSeq := w % 4096 }.indicateFrom [] [] [prxb]
        | num :: unused =>
          match addReorderEntry ⟨num, seqNum, prxb⟩ ts.pending with
          | none => { ts with rxIndicateSeq := w % 4096 }.indicateFrom (unused ++ [num]) [] [prxb]
          | some pending =>
            { ts with rxIndicateSeq := w % 4096, pending }.indicateFrom unused [] []) := by
  have hsize : rxReorderWinSize = 64 := rfl
  obtain ⟨hbase, hwp, hpw⟩ : base ≤ w ∧ w < number prxb ∧ number prxb < w + 64 := by
    rw [hw]
    split_ifs <;> omega
  cases unused with
  | nil => exact .refused h0 hlt w hw [] (.inl rfl) (ready_refused h hbase (by omega) rfl)
  | cons num unused =>
    have hadd := addReorderEntry_eq (fun e => number e.prxb) (x := ⟨num, seqNum, prxb⟩) hp
      h.seqNum fun e he => by
        have h1 := h.above e he
        have h2 := h.below e he
        simp only []
        omega
    cases hl : insertDesc (fun e : RxReorderEntry => number e.prxb) ⟨num, seqNum, prxb⟩
        ts.pending with
    | none =>
      obtain ⟨e, he, hep⟩ := exists_of_insertDesc_eq_none hl
      simp only [hadd, hl]
      refine .refused h0 hlt w hw _ (.inr ⟨e, he, hep.trans hd⟩)
        (ready_refused h hbase (by omega) ?_)
      exact Multiset.coe_eq_coe.2 (perm_append_singleton num unused)
    | some l =>
      simp only [hadd, hl]
      exact .inserted h0 hlt w hw num unused rfl l hl
        (ready_inserted h hbase hp hwp hpw (by omega) hl)

/-- Where the window moves for a packet that comes too early. -/
theorem shift_eq (hseq : seqNum < 4096) (hd : d = (seqNum + 4096 - base % 4096) % 4096)
    (h0 : 0 < d) (hlt : d < 2048) :
    (if SnLess ((base % 4096 + rxReorderWinSize - 1) % 4096) seqNum then
      if rxReorderWinSize - 1 ≤ seqNum then seqNum + 1 - rxReorderWinSize
      else 4095 - (rxReorderWinSize - (seqNum + 1)) + 1
    else base % 4096) = (if 64 ≤ d then base + d - 63 else base) % 4096 := by
  have hsize : rxReorderWinSize = 64 := rfl
  simp only [snLess_iff_dist (mod_lt _ (by decide : 0 < 4096)) hseq]
  split_ifs <;> omega

/-- A packet for a stream that has a window. -/
theorem received (unused : List ℕ) (h : ts.Window number base) (hseq : seqNum < 4096)
    (hd : d = (seqNum + 4096 - ts.rxIndicateSeq) % 4096) (hp : number prxb = base + d) :
    Received number base d unused ts prxb seqNum
      (rxReorderIndicatePacket unused ts prxb seqNum) := by
  have hlt : base % 4096 < 4096 := mod_lt _ (by decide)
  have hts : ts = { ts with rxIndicateSeq := base % 4096 } := by rw [← h.seq]
  rw [h.seq] at hd
  unfold rxReorderIndicatePacket
  simp only [h.seq, if_neg (show base % 4096 ≠ 0xffff by omega), snLess_iff_dist hseq hlt, ← hd]
  by_cases hold : 2048 ≤ d
  · rw [if_pos hold, ← hts]
    exact .late hold
  rw [if_neg hold]
  by_cases hdue : seqNum = base % 4096
  · rw [if_pos hdue, mod_add_mod]
    exact .due (by omega) (ready_due unused h.seqNum h.above h.below h.sorted (by omega))
  · rw [if_neg hdue, shift_eq hseq hd (by omega) (by omega)]
    exact received_early unused h (by omega) hp (by omega) (by omega) rfl

/-- The first packet of a stream. -/
theorem received_first (unused : List ℕ) (hts : ts.rxIndicateSeq = 0xffff)
    (hnil : ts.pending = []) (hseq : seqNum < 4096) (hp : number prxb = seqNum) :
    Ready number seqNum (seqNum + 1) unused ts [prxb] unused
        { ts with rxIndicateSeq := (seqNum + 1) % 4096 } [prxb] [] ∧
      rxReorderIndicatePacket unused ts prxb seqNum =
        { ts with rxIndicateSeq := (seqNum + 1) % 4096 }.indicateFrom unused [prxb] [] := by
  refine ⟨ready_due unused ?_ ?_ ?_ ?_ hp, ?_⟩
  · simp [hnil]
  · simp [hnil]
  · simp [hnil]
  · simp [hnil]
  · unfold rxReorderIndicatePacket
    simp only [if_pos hts, snLess_iff_dist hseq hseq, if_true]
    rw [if_neg (by omega)]

/-- A call that indicates nothing. -/
theorem passes_nothing (base : ℕ)
    (hentries : (unused : Multiset ℕ) + (ts.pending.map (·.num) : List ℕ) =
      (r.unused : Multiset ℕ) + (r.ts.pending.map (·.num) : List ℕ))
    (hpackets : (new : Multiset ℕ) + (ts.pending.map (·.prxb) : List ℕ) =
      ((r.ts.pending.map (·.prxb) : List ℕ) : Multiset ℕ) + r.freed) (hnil : r.indicated = []) :
    Passes number base base unused ts new r := by
  refine ⟨le_rfl, by omega, hentries, ?_, ?_, ?_, ?_, ?_⟩ <;> rw [hnil]
  · rwa [Multiset.coe_nil, add_zero]
  · exact zero_le _
  · exact List.Pairwise.nil
  · exact fun p hp => nomatch hp
  · exact fun p hp => nomatch hp

theorem Received.delivers (hw : ts.Window number base)
    (h : Received number base d unused ts prxb seqNum r) :
    ∃ base', Delivers number base base' unused ts [prxb] r := by
  cases h with
  | late hd => exact ⟨base, passes_nothing base rfl (add_comm _ _) rfl, hw⟩
  | due _ h | refused _ _ _ _ _ _ h | inserted _ _ _ _ _ _ _ _ _ h =>
    exact h.delivers_indicateFrom rfl

theorem rxReorderIndicatePacket_delivers (unused : List ℕ) (h : ts.Window number base)
    (hseq : seqNum < 4096) (hp : number prxb = base + (seqNum + 4096 - ts.rxIndicateSeq) % 4096) :
    ∃ base', Delivers number base base' unused ts [prxb]
      (rxReorderIndicatePacket unused ts prxb seqNum) :=
  (received unused h hseq rfl hp).delivers h

theorem rxReorderIndicatePacket_delivers_first (unused : List ℕ) (hts : ts.rxIndicateSeq = 0xffff)
    (hnil : ts.pending = []) (hseq : seqNum < 4096) (hp : number prxb = seqNum) :
    ∃ base', Delivers number seqNum base' unused ts [prxb]
      (rxReorderIndicatePacket unused ts prxb seqNum) := by
  obtain ⟨h, heq⟩ := received_first unused hts hnil hseq hp
  rw [heq]
  exact h.delivers_indicateFrom rfl

/-- A call that only stops the timer. -/
theorem passes_disarm (base : ℕ) :
    Passes number base base unused ts [] ⟨unused, { ts with armed := false }, [], []⟩ :=
  passes_nothing base rfl (by rw [Multiset.coe_nil, zero_add, add_zero]) rfl

theorem rxPktPendingTimeout_of_nil (hnil : ts.pending = []) :
    rxPktPendingTimeout unused ts = ⟨unused, { ts with armed := false }, [], []⟩ := by
  simp [rxPktPendingTimeout, indicate, hnil]

theorem removeTsEntry_of_nil (hnil : ts.pending = []) :
    removeTsEntry unused ts = ⟨unused, { ts with armed := false }, [], []⟩ := by
  simp [removeTsEntry, hnil]

/-- The timer expires : `RxIndicateSeq` moves to the last entry. -/
theorem ready_timeout (unused : List ℕ) (h : ts.Window number base) (he : e ∈ ts.pending) :
    Ready number base (number e.prxb) unused ts [] unused { ts with armed := false } [] [] := by
  have habove := h.above e he
  have hbelow := h.below e he
  have hlen := h.length_le
  have hsize : rxReorderWinSize = 64 := rfl
  refine ⟨habove.le, by omega, h.seqNum, h.above, ?_, h.sorted, .inl rfl, ?_, rfl, ?_⟩
  · intro a ha
    have := h.below a ha
    omega
  · change 0 + ts.pending.length ≤ _
    omega
  · rw [Multiset.coe_nil, zero_add, add_zero]

theorem rxPktPendingTimeout_of_cons (hset : ts.rxTimeoutIndicateSeq ≠ 0xffff)
    (hl : ts.pending.reverse = e :: l) :
    rxPktPendingTimeout unused ts = indicate unused { ts with armed := false } [] []
      (collect false e.seqNum 0 ts.pending.reverse) := by
  simp only [rxPktPendingTimeout, if_pos hset, hl]

/-- A timeout delivers what is in order. -/
theorem rxPktPendingTimeout_delivers (unused : List ℕ) (h : ts.Window number base) :
    ∃ base', Delivers number base base' unused ts [] (rxPktPendingTimeout unused ts) := by
  have hstay :
      Delivers number base base unused ts [] ⟨unused, { ts with armed := false }, [], []⟩ :=
    ⟨passes_disarm base, { h with }⟩
  cases hl : ts.pending.reverse with
  | nil =>
    rw [rxPktPendingTimeout_of_nil (reverse_eq_nil_iff.1 hl)]
    exact ⟨base, hstay⟩
  | cons e l =>
    by_cases hset : ts.rxTimeoutIndicateSeq ≠ 0xffff
    · have he : e ∈ ts.pending := mem_reverse.1 (hl ▸ mem_cons_self)
      rw [rxPktPendingTimeout_of_cons hset hl, h.seqNum e he]
      exact (ready_timeout unused h he).delivers false
    · simp only [rxPktPendingTimeout, if_neg hset]
      exact ⟨base, hstay⟩

theorem removeTsEntry_delivers (unused : List ℕ) (h : ts.Window number base) :
    ∃ base', Delivers number base base' unused ts [] (removeTsEntry unused ts) := by
  have hwindow : (removeTsEntry unused ts).ts.Window number base :=
    ⟨h.seq, by simp [removeTsEntry], by simp [removeTsEntry], by simp [removeTsEntry],
      by simp [removeTsEntry]⟩
  refine ⟨base, passes_nothing base ?_ ?_ rfl, hwindow⟩
  · simp only [removeTsEntry, map_reverse, map_nil, Multiset.coe_nil, add_zero,
      ← Multiset.coe_add, Multiset.coe_reverse]
  · simp only [removeTsEntry, map_reverse, map_nil, Multiset.coe_nil, zero_add,
      Multiset.coe_reverse]

end Calls

/-! ## Runs -/

/-- The sum over the streams when one of them changes. -/
theorem sum_update {n : ℕ} {β : Type*} (f : Fin n → β) (i : Fin n) (v : β) (F : β → Multiset ℕ) :
    ∑ j, F (update f i v j) + F (f i) = ∑ j, F (f j) + F v := by
  have hrest : ∑ j ∈ Finset.univ.erase i, F (update f i v j) =
      ∑ j ∈ Finset.univ.erase i, F (f j) := by
    refine Finset.sum_congr rfl fun j hj => ?_
    rw [update_of_ne (Finset.ne_of_mem_erase hj)]
  rw [← Finset.add_sum_erase _ _ (Finset.mem_univ i), hrest, update_self,
    ← Finset.add_sum_erase _ (fun j => F (f j)) (Finset.mem_univ i)]
  ac_rfl

/-- How far an entry is from `RxIndicateSeq`. -/
def RxTs.dist (ts : RxTs) (e : RxReorderEntry) : ℕ :=
  (e.seqNum + 4096 - ts.rxIndicateSeq) % 4096

theorem RxTs.Window.dist_eq {number : ℕ → ℕ} {base : ℕ} {ts : RxTs} (h : ts.Window number base)
    {e : RxReorderEntry} (he : e ∈ ts.pending) : ts.dist e = number e.prxb - base := by
  have h1 := h.above e he
  have h2 := h.below e he
  have hsize : rxReorderWinSize = 64 := rfl
  rw [RxTs.dist, h.seqNum e he, h.seq]
  omega

theorem RxTs.Window.congr {number number' : ℕ → ℕ} {base : ℕ} {ts : RxTs}
    (h : ts.Window number base) (heq : ∀ e ∈ ts.pending, number' e.prxb = number e.prxb) :
    ts.Window number' base := by
  refine ⟨h.seq, ?_, ?_, ?_, ?_⟩
  · exact fun e he => (heq e he).symm ▸ h.seqNum e he
  · exact fun e he => (heq e he).symm ▸ h.above e he
  · exact fun e he => (heq e he).symm ▸ h.below e he
  · refine h.sorted.imp_of_mem fun {a b} ha hb hab => ?_
    rwa [heq a ha, heq b hb]

namespace RxTrace

/-- The entries and the packets are all somewhere, the windows are right, and what was indicated is
before them. -/
structure Inv (t : RxTrace) : Prop where
  streams : ∀ i, ((t.sys.rxTs i).rxIndicateSeq = 0xffff ∧ (t.sys.rxTs i).pending = [] ∧
      t.sys.indicated i = []) ∨ (t.sys.rxTs i).Window t.number (t.base i)
  entries : (t.sys.unused : Multiset ℕ) +
    ∑ i, (((t.sys.rxTs i).pending.map (·.num) : List ℕ) : Multiset ℕ) =
      Multiset.range reorderEntryNum
  packets : ∑ i, (((t.sys.rxTs i).pending.map (·.prxb) : List ℕ) : Multiset ℕ) +
    ∑ i, (t.sys.indicated i : Multiset ℕ) + t.sys.freed = Multiset.range t.sys.handed
  rising : ∀ i, ((t.sys.indicated i).map t.number).Pairwise (· < ·)
  lt_base : ∀ i, ∀ p ∈ t.sys.indicated i, t.number p < t.base i

theorem inv_init : init.Inv where
  streams := fun _ => .inl ⟨rfl, rfl, rfl⟩
  entries := by
    simp [init, RxSys.init, Multiset.range]
  packets := by
    simp [init, RxSys.init]
  rising := fun _ => List.Pairwise.nil
  lt_base := fun _ _ hp => nomatch hp

variable {t : RxTrace}

section

variable {i : Fin totalTsNum}

theorem Inv.lt_handed_of_pending (h : t.Inv) {e : RxReorderEntry}
    (he : e ∈ (t.sys.rxTs i).pending) : e.prxb < t.sys.handed := by
  rw [← Multiset.mem_range, ← h.packets]
  refine Multiset.mem_add.2 (.inl (Multiset.mem_add.2 (.inl ?_)))
  exact Multiset.mem_sum.2 ⟨i, Finset.mem_univ i, Multiset.mem_coe.2 (mem_map_of_mem he)⟩

theorem Inv.lt_handed_of_indicated (h : t.Inv) {p : ℕ}
    (hp : p ∈ t.sys.indicated i) : p < t.sys.handed := by
  rw [← Multiset.mem_range, ← h.packets]
  refine Multiset.mem_add.2 (.inl (Multiset.mem_add.2 (.inr ?_)))
  exact Multiset.mem_sum.2 ⟨i, Finset.mem_univ i, Multiset.mem_coe.2 hp⟩

/-- A call that passes packets on keeps the invariant. -/
theorem Inv.of_passes (h : t.Inv) {r : RxResult} {new : List ℕ}
    {number : ℕ → ℕ} {base base' handed : ℕ}
    (hd : Passes number base base' t.sys.unused (t.sys.rxTs i) new r)
    (hstream : r.ts.rxIndicateSeq = 0xffff ∧ r.ts.pending = [] ∧
      t.sys.indicated i ++ r.indicated = [] ∨ r.ts.Window number base')
    (hnumber : ∀ p < t.sys.handed, number p = t.number p)
    (hbase : ∀ p ∈ t.sys.indicated i, t.number p < base)
    (hnew : Multiset.range t.sys.handed + new = Multiset.range handed) :
    Inv ⟨⟨r.unused, update t.sys.rxTs i r.ts, handed,
      update t.sys.indicated i (t.sys.indicated i ++ r.indicated),
      t.sys.freed ++ r.freed⟩, update t.base i base', number⟩ := by
  have hmap : ∀ j, (t.sys.indicated j).map number = (t.sys.indicated j).map t.number := fun j =>
    map_congr_left fun p hp => hnumber p (h.lt_handed_of_indicated hp)
  refine ⟨fun j => ?_, ?_, ?_, fun j => ?_, fun j => ?_⟩
  · by_cases hj : j = i
    · subst hj
      simp only [update_self]
      exact hstream
    · simp only [update_of_ne hj]
      refine (h.streams j).imp id fun hw => hw.congr fun e he => ?_
      exact hnumber _ (h.lt_handed_of_pending he)
  · have hsum := sum_update t.sys.rxTs i r.ts fun ts => Multiset.ofList (ts.pending.map (·.num))
    refine add_right_cancel (b := Multiset.ofList ((t.sys.rxTs i).pending.map (·.num))) ?_
    simp only [add_assoc, hsum]
    rw [add_left_comm, ← hd.entries, ← h.entries]
    ac_rfl
  · have hsum := sum_update t.sys.rxTs i r.ts fun ts => Multiset.ofList (ts.pending.map (·.prxb))
    have hsum' := sum_update t.sys.indicated i (t.sys.indicated i ++ r.indicated) Multiset.ofList
    have hind : ∑ j, Multiset.ofList (update t.sys.indicated i
        (t.sys.indicated i ++ r.indicated) j) = ∑ j, (t.sys.indicated j : Multiset ℕ) +
          r.indicated := by
      refine add_right_cancel (b := Multiset.ofList (t.sys.indicated i)) ?_
      rw [hsum', ← Multiset.coe_add]
      ac_rfl
    refine add_right_cancel (b := Multiset.ofList ((t.sys.rxTs i).pending.map (·.prxb))) ?_
    rw [← hnew, ← h.packets, add_assoc _ (new : Multiset ℕ), hd.packets, hind, ← Multiset.coe_add]
    rw [show ∀ a b c d e : Multiset ℕ, a + (b + c) + d + e = a + e + (b + c + d) by
      intros; ac_rfl, hsum]
    ac_rfl
  · by_cases hj : j = i
    · subst hj
      simp only [update_self, map_append, pairwise_append, hmap]
      refine ⟨h.rising j, hd.rising, fun a ha b hb => ?_⟩
      obtain ⟨p, hp, rfl⟩ := mem_map.1 ha
      obtain ⟨q, hq, rfl⟩ := mem_map.1 hb
      exact (hbase p hp).trans_le (hd.ge_base q hq)
    · simp only [update_of_ne hj, hmap]
      exact h.rising j
  · intro p hp
    by_cases hj : j = i
    · subst hj
      simp only [update_self, mem_append] at hp ⊢
      rcases hp with hp | hp
      · rw [hnumber p (h.lt_handed_of_indicated hp)]
        exact (hbase p hp).trans_le hd.le
      · exact hd.lt_base p hp
    · simp only [update_of_ne hj] at hp ⊢
      rw [hnumber p (h.lt_handed_of_indicated hp)]
      exact h.lt_base j p hp

/-- `base` moves to the number of the new `RxIndicateSeq`. -/
theorem base_eq {number : ℕ → ℕ} {base base' start : ℕ} {unused new : List ℕ} {ts : RxTs}
    {r : RxResult} (hd : Delivers number base base' unused ts new r)
    (hstart : start = base % 4096) :
    base + (r.ts.rxIndicateSeq + 4096 - start) % 4096 = base' := by
  have h1 := hd.le
  have h2 := hd.lt
  rw [hd.window.seq]
  omega

/-- A packet arrives, where `RxIndicateSeq` has the number `base`. -/
theorem Inv.receive_of_start (h : t.Inv) {seqNum : Fin 4096} {start base : ℕ}
    (hstart : t.start i seqNum = (start, base)) (hmod : start = base % 4096)
    (hbase : ∀ p ∈ t.sys.indicated i, t.number p < base)
    (hd : ∀ number : ℕ → ℕ, (∀ p < t.sys.handed, number p = t.number p) →
      number t.sys.handed = base + (seqNum + 4096 - start) % 4096 →
      ∃ base', Delivers number base base' t.sys.unused (t.sys.rxTs i) [t.sys.handed]
        (rxReorderIndicatePacket t.sys.unused (t.sys.rxTs i) t.sys.handed seqNum)) :
    (t.step (.receive i seqNum)).Inv := by
  have hnumber : ∀ p < t.sys.handed, update t.number t.sys.handed
      (base + (seqNum + 4096 - start) % 4096) p = t.number p := fun p hp =>
    update_of_ne hp.ne _ _
  obtain ⟨base', hd⟩ := hd _ hnumber (update_self ..)
  have hhanded :
      Multiset.range t.sys.handed + [t.sys.handed] = Multiset.range (t.sys.handed + 1) := by
    rw [Multiset.range_succ, add_comm]
    rfl
  have hstep := h.of_passes hd.toPasses (.inr hd.window) hnumber hbase hhanded
  rw [← base_eq hd hmod] at hstep
  simpa only [RxTrace.step, hstart, RxSys.step, RxSys.result, RxEvent.stream,
    update_self] using hstep

/-- A packet arrives. -/
theorem Inv.receive (h : t.Inv) (i : Fin totalTsNum) (seqNum : Fin 4096) :
    (t.step (.receive i seqNum)).Inv := by
  rcases h.streams i with ⟨hseq, hnil, hind⟩ | hwindow
  · refine h.receive_of_start (if_pos hseq) (mod_eq_of_lt seqNum.2).symm ?_ ?_
    · rw [hind]
      exact fun p hp => nomatch hp
    · intro number _ hp
      refine rxReorderIndicatePacket_delivers_first _ hseq hnil seqNum.2 ?_
      omega
  · have hne : ¬ (t.sys.rxTs i).rxIndicateSeq = 0xffff := by
      rw [hwindow.seq]
      omega
    refine h.receive_of_start (if_neg hne) hwindow.seq (h.lt_base i) fun number hnumber hp => ?_
    exact rxReorderIndicatePacket_delivers _
      (hwindow.congr fun e he => hnumber _ (h.lt_handed_of_pending he)) seqNum.2 hp

/-- A call that hands in no packet. -/
theorem Inv.step_of_passes (h : t.Inv) {e : RxEvent} (he : ∀ i seqNum, e ≠ .receive i seqNum)
    {base' : ℕ} (hd : Passes t.number (t.base e.stream) base' t.sys.unused (t.sys.rxTs e.stream) []
      (t.sys.result e))
    (hbase : t.base e.stream + ((t.sys.result e).ts.rxIndicateSeq + 4096 -
      (t.sys.rxTs e.stream).rxIndicateSeq) % 4096 = base')
    (hstream : (t.sys.result e).ts.rxIndicateSeq = 0xffff ∧ (t.sys.result e).ts.pending = [] ∧
      t.sys.indicated e.stream ++ (t.sys.result e).indicated = [] ∨
        (t.sys.result e).ts.Window t.number base') : (t.step e).Inv := by
  have hstep := h.of_passes hd hstream (fun _ _ => rfl) (h.lt_base _) (add_zero _)
  rw [← hbase] at hstep
  cases e with
  | receive i seqNum => exact absurd rfl (he i seqNum)
  | timeout | remove => simpa only [RxTrace.step, RxSys.step, update_self] using hstep

theorem Inv.step_other (h : t.Inv) {e : RxEvent} (he : ∀ i seqNum, e ≠ .receive i seqNum)
    (hidle : (t.sys.rxTs e.stream).pending = [] →
      t.sys.result e = ⟨t.sys.unused, { t.sys.rxTs e.stream with armed := false }, [], []⟩)
    (hwindow : (t.sys.rxTs e.stream).Window t.number (t.base e.stream) →
      ∃ base', Delivers t.number (t.base e.stream) base' t.sys.unused (t.sys.rxTs e.stream) []
        (t.sys.result e)) : (t.step e).Inv := by
  rcases h.streams e.stream with ⟨hseq, hnil, hind⟩ | hw
  · have hresult := hidle hnil
    refine h.step_of_passes he (hresult ▸ passes_disarm _) ?_ (.inl ?_) <;> rw [hresult]
    · simp
    · exact ⟨hseq, hnil, by rw [hind]; rfl⟩
  · obtain ⟨base', hd⟩ := hwindow hw
    exact h.step_of_passes he hd.toPasses (base_eq hd hw.seq) (.inr hd.window)

theorem Inv.step (h : t.Inv) : ∀ e : RxEvent, (t.step e).Inv
  | .receive i seqNum => h.receive i seqNum
  | .timeout _ => h.step_other (fun _ _ he => nomatch he) rxPktPendingTimeout_of_nil
      (rxPktPendingTimeout_delivers _)
  | .remove _ => h.step_other (fun _ _ he => nomatch he) removeTsEntry_of_nil
      (removeTsEntry_delivers _)

theorem Inv.run (events : List RxEvent) : (RxTrace.run events).Inv :=
  Runs.foldl_of_step (fun _ e h => h.step e) events inv_init

/-- A packet for a stream that has a window, with the number that it gets. -/
theorem Inv.received (h : t.Inv)
    (hw : (t.sys.rxTs i).Window t.number (t.base i)) (seqNum : Fin 4096) {d : ℕ}
    (hd : d = (seqNum + 4096 - (t.sys.rxTs i).rxIndicateSeq) % 4096) :
    ∃ number, (t.sys.rxTs i).Window number (t.base i) ∧ number t.sys.handed = t.base i + d ∧
      Received number (t.base i) d t.sys.unused (t.sys.rxTs i) t.sys.handed seqNum
        (t.sys.result (.receive i seqNum)) := by
  have hnumber := update_self t.sys.handed (t.base i + d) t.number
  have hw' : (t.sys.rxTs i).Window (update t.number t.sys.handed (t.base i + d))
      (t.base i) := hw.congr fun e he => update_of_ne (h.lt_handed_of_pending he).ne _ _
  exact ⟨_, hw', hnumber, OpenHMR.received _ hw' seqNum.2 hd hnumber⟩

end

theorem Inv.length_le (h : t.Inv) (e : RxEvent) :
    (t.sys.result e).indicated.length ≤ rxReorderWinSize := by
  cases e with
  | receive i seqNum =>
    rcases h.streams i with ⟨hseq, hnil, -⟩ | hw
    · obtain ⟨base', hd⟩ : ∃ base', Delivers (fun _ => (seqNum : ℕ)) seqNum base' t.sys.unused
          (t.sys.rxTs i) [t.sys.handed] (t.sys.result (.receive i seqNum)) :=
        rxReorderIndicatePacket_delivers_first _ hseq hnil seqNum.2 rfl
      exact hd.length_le
    · obtain ⟨number, hw', -, hreceived⟩ := h.received hw seqNum rfl
      obtain ⟨base', hd⟩ := hreceived.delivers hw'
      exact hd.length_le
  | timeout i =>
    rcases h.streams i with ⟨-, hnil, -⟩ | hw
    · rw [RxSys.result, rxPktPendingTimeout_of_nil hnil]
      exact zero_le _
    · obtain ⟨base', hd⟩ := rxPktPendingTimeout_delivers t.sys.unused hw
      exact hd.length_le
  | remove i => exact zero_le _

/-- What is expected of the device at any time : each packet that was handed in is pending,
indicated or freed, once; each entry is unused or in a pending list, once; the pending lists are
strictly ordered, and in the window; a call indicates as many packets as the window has at most; and
the packets of a stream were indicated with rising numbers. -/
structure Reorders (t : RxTrace) : Prop where
  packets : ∑ i, (((t.sys.rxTs i).pending.map (·.prxb) : List ℕ) : Multiset ℕ) +
    ∑ i, (t.sys.indicated i : Multiset ℕ) + t.sys.freed = Multiset.range t.sys.handed
  entries : (t.sys.unused : Multiset ℕ) +
    ∑ i, (((t.sys.rxTs i).pending.map (·.num) : List ℕ) : Multiset ℕ) =
      Multiset.range reorderEntryNum
  sorted : ∀ i, (t.sys.rxTs i).pending.Pairwise fun a b =>
    (t.sys.rxTs i).dist b < (t.sys.rxTs i).dist a
  window : ∀ i, ∀ e ∈ (t.sys.rxTs i).pending,
    1 ≤ (t.sys.rxTs i).dist e ∧ (t.sys.rxTs i).dist e ≤ 63
  length_le : ∀ e, (t.sys.result e).indicated.length ≤ 64
  rising : ∀ i, ((t.sys.indicated i).map t.number).Pairwise (· < ·)

/-- In every run each packet is in one place, and each stream gets its packets in order. -/
theorem reorder_run (events : List RxEvent) : (run events).Reorders := by
  have h := Inv.run events
  refine ⟨h.packets, h.entries, fun i => ?_, fun i e he => ?_, h.length_le, h.rising⟩
  · rcases h.streams i with ⟨-, hnil, -⟩ | hw
    · rw [hnil]
      exact List.Pairwise.nil
    · refine hw.sorted.imp_of_mem fun {a b} ha hb hab => ?_
      rw [hw.dist_eq ha, hw.dist_eq hb]
      have := hw.above b hb
      omega
  · rcases h.streams i with ⟨-, hnil, -⟩ | hw
    · rw [hnil] at he
      cases he
    · rw [hw.dist_eq he]
      have h1 := hw.above e he
      have h2 := hw.below e he
      have hsize : rxReorderWinSize = 64 := rfl
      omega

end RxTrace

end OpenHMR
