import OpenHMR.SeOverrun

/-!
# What calls append to the command ring

When the ring is never full, the calls of `WriteCmd` come to their end, at any speed of the engine,
after as many ticks of the processor as they have work (`work`). They have then stored their words
at consecutive places (`appends_run`), and if the last of them has `go`, `SeCmdWritePtr` is behind
the last word.
-/

open Circular Runs List

namespace OpenHMR

open Nat

/-- The words of calls. -/
def callWords (calls : List SeCmd) : List UInt32 :=
  calls.flatMap SeCmd.words

/-- Words at consecutive places, from the word `w` on. -/
def placed : ℕ → List UInt32 → List (ℕ × UInt32)
  | _, [] => []
  | w, x :: l => (w, x) :: placed (place seCommandEntries w 1) l

theorem placed_append_singleton (x : UInt32) : ∀ (l : List UInt32) {w : ℕ}, w < seCommandEntries →
    placed w (l ++ [x]) = placed w l ++ [(place seCommandEntries w l.length, x)]
  | [], w, hw => by
    rw [length_nil, place_zero hw]
    rfl
  | y :: l, w, hw => by
    rw [cons_append, placed, placed, placed_append_singleton x l (place_lt hw), place_place,
      length_cons, add_comm 1, cons_append]

/-- All words are published after the calls, when `staged` words are not yet. -/
def Closes : ℕ → List SeCmd → Prop
  | staged, [] => staged = 0
  | staged, cmd :: calls => Closes (if cmd.go then 0 else staged + cmd.words.length) calls

theorem closes_emissions : ∀ es : List SeEmission, Closes 0 (seCalls es)
  | [] => rfl
  | .whole _ :: es | .split _ _ :: es => closes_emissions es

/-- The ticks of the processor that calls take. -/
def callsWork : List SeCmd → ℕ
  | [] => 0
  | cmd :: calls => (if cmd.words = [] then 1 else cmd.words.length + 3) + callsWork calls

namespace SeRing

/-- The ticks of the processor that are left. -/
def work (s : SeRing) : ℕ :=
  match s.call with
  | .idle => callsWork s.calls
  | .space cmd _ => cmd.words.length + 2 + callsWork s.calls
  | .store cmd i _ => cmd.words.length - i + 1 + callsWork s.calls

/-- If there is a test for room, it passes. -/
def passes (s : SeRing) : Bool :=
  match s.call with
  | .space cmd writePointer => s.hasRoom cmd.words.length writePointer
  | _ => true

/-- The ring is never full when the processor looks. -/
def NeverFull (b : SeBuf) (s : SeRing) (ticks : List Bool) : Prop :=
  Each (tick b) (fun s processor => processor = true → s.passes = true) s ticks

end SeRing

/-- What holds of a call when the words `stored` were stored from the word `w` on, of which the
first `published` are published, and the words `left` follow. -/
def SeCall.Appends (b : SeBuf) (wrptr w : ℕ) (calls : List SeCmd) (stored left : List UInt32)
    (published : ℕ) : SeCall → Prop
  | .idle => wrptr = place seCommandEntries w stored.length * 4 ∧ left = callWords calls ∧
    ∃ staged, stored.length = published + staged ∧ Closes staged calls
  | .space cmd _ => wrptr = place seCommandEntries w stored.length * 4 ∧
    left = callWords (cmd :: calls) ∧
    ∃ staged, stored.length = published + staged ∧ Closes staged (cmd :: calls)
  | .store cmd i pWptr => pWptr = b.cmdBuf + place seCommandEntries w stored.length * 4 ∧
    i ≤ cmd.words.length ∧ left = cmd.words.drop i ++ callWords calls ∧
    ∃ staged, stored.length = published + staged + i ∧ Closes staged (cmd :: calls)

namespace SeRing

/-- The words `stored` were stored from the word `w` on, and the words `left` follow. -/
structure Appends (b : SeBuf) (w : ℕ) (stores : List (ℕ × UInt32)) (s : SeRing)
    (stored left : List UInt32) (published : ℕ) : Prop where
  w_lt : w < seCommandEntries
  stores_eq : s.stores = stores ++ placed w stored
  seCmdWritePtr : s.seCmdWritePtr = b.cmdBase + place seCommandEntries w published * 4
  call : s.call.Appends b s.wrptr w s.calls stored left published

variable {b : SeBuf} {w : ℕ} {stores : List (ℕ × UInt32)} {s : SeRing}
  {stored left : List UInt32} {published : ℕ}

/-- The words of `all` are being appended, and `k` ticks of the processor are left. -/
def Appending (b : SeBuf) (w : ℕ) (stores : List (ℕ × UInt32)) (all : List UInt32) (k : ℕ)
    (s : SeRing) : Prop :=
  ∃ stored left published, Appends b w stores s stored left published ∧ stored ++ left = all ∧
    s.work = k

section

variable (h : Appends b w stores s stored left published)

include h

theorem Appends.engine :
    Appends b w stores (s.engine b) stored left published ∧ (s.engine b).work = s.work := by
  rw [SeRing.engine]
  by_cases heq : s.seCmdReadPtr = s.seCmdWritePtr
  · rw [if_pos heq]
    exact ⟨h, rfl⟩
  · rw [if_neg heq]
    exact ⟨{ h with }, rfl⟩

variable {cmd : SeCmd} {i pWptr : ℕ}

/-- A call is made. -/
theorem Appends.begin (hb : b.Fits)
    (hc : s.call = .idle) {calls : List SeCmd} (hcalls : s.calls = cmd :: calls) :
    Appending b w stores (stored ++ left) (s.work - 1) (s.begin b cmd calls) := by
  have hcall := h.call
  rw [hc, hcalls] at hcall
  obtain ⟨hwrptr, hleft, staged, hstaged, hcloses⟩ := hcall
  have hwork : s.work = callsWork (cmd :: calls) := by rw [work, hc, hcalls]
  rw [hwork, callsWork]
  by_cases hnil : cmd.words = []
  · have hleft' : left = callWords calls := by
      rw [hleft, callWords, flatMap_cons, hnil, nil_append]
      rfl
    rw [Closes, hnil, length_nil, add_zero] at hcloses
    rw [SeRing.begin, if_pos hnil, if_pos hnil, Nat.add_sub_cancel_left]
    simp only []
    cases hgo : cmd.go with
    | true =>
      rw [if_pos rfl, hwrptr, publish_eq hb _ (place_lt h.w_lt)]
      rw [hgo, if_pos rfl] at hcloses
      refine ⟨stored, left, stored.length, ⟨h.w_lt, h.stores_eq, rfl, ?_⟩, rfl, ?_⟩
      · simp only [hc]
        exact ⟨rfl, hleft', 0, rfl, hcloses⟩
      · simp only [work, hc]
    | false =>
      rw [if_neg Bool.false_ne_true]
      rw [hgo, if_neg Bool.false_ne_true] at hcloses
      refine ⟨stored, left, published, ⟨h.w_lt, h.stores_eq, h.seCmdWritePtr, ?_⟩, rfl, ?_⟩
      · simp only [hc]
        exact ⟨hwrptr, hleft', staged, hstaged, hcloses⟩
      · simp only [work, hc]
  · have hptr : s.seCmdWritePtr ≠ 0 := by
      have hpos := hb.cmdBase.1
      rw [h.seCmdWritePtr]
      omega
    rw [SeRing.begin, if_neg hnil, if_neg hptr, if_neg hnil]
    refine ⟨stored, left, published, ⟨h.w_lt, h.stores_eq, h.seCmdWritePtr,
      hwrptr, hleft, staged, hstaged, hcloses⟩, rfl, ?_⟩
    change cmd.words.length + 2 + callsWork calls = _
    omega

/-- A word is stored. -/
theorem Appends.store (hb : b.Fits) (hc : s.call = .store cmd i pWptr) (hi : i < cmd.words.length) :
    Appending b w stores (stored ++ left) (s.work - 1)
      (s.storeWord b cmd i pWptr cmd.words[i]) := by
  have hcall := h.call
  rw [hc] at hcall
  obtain ⟨rfl, -, hleft, staged, hstaged, hcloses⟩ := hcall
  have hpl := place_lt (k := stored.length) h.w_lt
  have hlen : (stored ++ [cmd.words[i]]).length = stored.length + 1 := length_append
  refine ⟨stored ++ [cmd.words[i]], cmd.words.drop (i + 1) ++ callWords s.calls, published,
    ⟨h.w_lt, ?_, h.seCmdWritePtr, ?_, hi, rfl, staged, by omega, hcloses⟩, ?_, ?_⟩
  · change s.stores ++ [(wordAt b (storeAddr _), _)] = _
    rw [wordAt_store hb hpl, h.stores_eq, placed_append_singleton _ _ h.w_lt, append_assoc]
  · exact (CommandRing.next_word_sub b.cmdBuf hpl).trans (by rw [place_place, hlen])
  · rw [hleft, drop_eq_getElem_cons hi, append_assoc]
    rfl
  · have hwork : s.work = cmd.words.length - i + 1 + callsWork s.calls := by rw [work, hc]
    change cmd.words.length - (i + 1) + 1 + callsWork s.calls = _
    omega

/-- The end of a call. -/
theorem Appends.finish (hb : b.Fits) (hc : s.call = .store cmd i pWptr)
    (hi : cmd.words.length ≤ i) :
    Appending b w stores (stored ++ left) (s.work - 1) (s.finish b cmd pWptr) := by
  have hcall := h.call
  rw [hc] at hcall
  obtain ⟨rfl, hile, hleft, staged, hstaged, hcloses⟩ := hcall
  obtain rfl : i = cmd.words.length := le_antisymm hile hi
  rw [drop_length, nil_append] at hleft
  have hwork : s.work - 1 = callsWork s.calls := by
    rw [work, hc]
    simp only []
    omega
  rw [Closes] at hcloses
  rw [hwork, SeRing.finish, Nat.add_sub_cancel_left]
  cases hgo : cmd.go with
  | true =>
    rw [if_pos rfl, publish_eq hb _ (place_lt h.w_lt)]
    rw [hgo, if_pos rfl] at hcloses
    exact ⟨stored, left, stored.length, ⟨h.w_lt, h.stores_eq, rfl, rfl, hleft, 0, rfl, hcloses⟩,
      rfl, rfl⟩
  | false =>
    rw [if_neg Bool.false_ne_true]
    rw [hgo, if_neg Bool.false_ne_true] at hcloses
    exact ⟨stored, left, published, ⟨h.w_lt, h.stores_eq, h.seCmdWritePtr, rfl, hleft,
      staged + cmd.words.length, by omega, hcloses⟩, rfl, rfl⟩

/-- One step of the processor. -/
theorem Appends.cpu (hb : b.Fits)
    (hpass : s.passes = true) : Appending b w stores (stored ++ left) (s.work - 1) (s.cpu b) := by
  rw [SeRing.cpu]
  cases hc : s.call with
  | idle =>
    cases hcalls : s.calls with
    | nil =>
      simp only []
      refine ⟨stored, left, published, h, rfl, ?_⟩
      rw [work, hc, hcalls]
      rfl
    | cons cmd calls => exact h.begin hb hc hcalls
  | space cmd writePointer =>
    have hcall := h.call
    rw [hc] at hcall
    obtain ⟨hwrptr, hleft, staged, hstaged, hcloses⟩ := hcall
    rw [passes, hc] at hpass
    simp only [] at hpass ⊢
    rw [if_pos hpass]
    refine ⟨stored, left, published, ⟨h.w_lt, h.stores_eq, h.seCmdWritePtr, ?_, zero_le _,
      hleft, staged, hstaged, hcloses⟩, rfl, ?_⟩
    · rw [hwrptr]
    · rw [work, work, hc]
      simp only []
      omega
  | store cmd i pWptr =>
    rcases lt_or_ge i cmd.words.length with hi | hi
    · simp only [List.getElem?_eq_getElem hi]
      exact h.store hb hc hi
    · simp only [List.getElem?_eq_none_iff.2 hi]
      exact h.finish hb hc hi

end

/-- Each tick of the processor is one of those that are left. -/
theorem Appending.run (hb : b.Fits) {all : List UInt32} : ∀ (ticks : List Bool) {k : ℕ}
    {s : SeRing}, Appending b w stores all k s → NeverFull b s ticks →
    Appending b w stores all (k - ticks.count true) (ticks.foldl (SeRing.tick b) s)
  | [], _, _, h, _ => h
  | false :: ticks, k, s, h, hfull => by
    obtain ⟨stored, left, published, h, hall, hwork⟩ := h
    obtain ⟨hnext, hsame⟩ := h.engine
    rw [count_cons_of_ne Bool.false_ne_true]
    exact Appending.run hb ticks ⟨stored, left, published, hnext, hall, hsame.trans hwork⟩ hfull.2
  | true :: ticks, k, s, h, hfull => by
    obtain ⟨stored, left, published, h, rfl, rfl⟩ := h
    rw [count_cons_self, add_comm, ← Nat.sub_sub]
    exact Appending.run hb ticks (h.cpu hb (hfull.1 rfl)) hfull.2

/-- Nothing is left to do. -/
theorem Appending.done {all : List UInt32} (h : Appending b w stores all 0 s) :
    s.call = .idle ∧ s.calls = [] ∧ s.stores = stores ++ placed w all ∧
      s.wrptr = place seCommandEntries w all.length * 4 ∧
      s.seCmdWritePtr = b.cmdBase + place seCommandEntries w all.length * 4 := by
  obtain ⟨stored, left, published, h, rfl, hwork⟩ := h
  have hcall := h.call
  unfold work at hwork
  cases hc : s.call with
  | idle =>
    rw [hc] at hwork hcall
    obtain ⟨hwrptr, hleft, staged, hstaged, hcloses⟩ := hcall
    cases hcalls : s.calls with
    | nil =>
      rw [hcalls] at hleft hcloses
      obtain rfl : left = [] := hleft
      obtain rfl : staged = 0 := hcloses
      obtain rfl : published = stored.length := hstaged.symm
      rw [append_nil]
      exact ⟨rfl, rfl, h.stores_eq, hwrptr, h.seCmdWritePtr⟩
    | cons cmd calls =>
      simp only [hcalls, callsWork] at hwork
      split_ifs at hwork <;> omega
  | space cmd writePointer =>
    rw [hc] at hwork
    exact absurd hwork (by simp only []; omega)
  | store cmd i pWptr =>
    rw [hc] at hwork
    exact absurd hwork (by simp only []; omega)

/-- When the ring is never full, emissions are carried out : their words are stored at consecutive
places, and `SeCmdWritePtr` is set behind the last. -/
theorem appends_run (hb : b.Fits) (hw : w < seCommandEntries) (hidle : s.call = .idle)
    (hwrptr : s.wrptr = w * 4) (hptr : s.seCmdWritePtr = b.cmdBase + w * 4) (es : List SeEmission)
    (hcalls : s.calls = seCalls es) {ticks : List Bool} (hfull : NeverFull b s ticks)
    (hticks : callsWork (seCalls es) ≤ ticks.count true) :
    let s' := ticks.foldl (SeRing.tick b) s
    s'.call = .idle ∧ s'.calls = [] ∧ s'.stores = s.stores ++ placed w (callWords (seCalls es)) ∧
      s'.wrptr = place seCommandEntries w (callWords (seCalls es)).length * 4 ∧
      s'.seCmdWritePtr =
        b.cmdBase + place seCommandEntries w (callWords (seCalls es)).length * 4 := by
  have hstart : Appending b w s.stores (callWords (seCalls es)) (callsWork (seCalls es)) s := by
    refine ⟨[], callWords (seCalls es), 0, ⟨hw, ?_, ?_, ?_⟩, rfl, ?_⟩
    · rw [placed, append_nil]
    · rw [place_zero hw, hptr]
    · rw [hidle, hcalls]
      refine ⟨?_, rfl, 0, rfl, closes_emissions es⟩
      rw [length_nil, place_zero hw, hwrptr]
    · rw [work, hidle, hcalls]
  have hend := hstart.run hb ticks hfull
  rw [Nat.sub_eq_zero_of_le hticks] at hend
  exact hend.done

end SeRing

end OpenHMR
