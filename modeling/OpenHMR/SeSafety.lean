import OpenHMR.SeVsync

/-!
# Safety of the command ring

The driver gives words to the command ring in `se_irq_handler` and in `se_write`. No word may be
overwritten before the engine has read it, at any speed of the engine. A record that goes beyond the
end of its queue is given by two calls, and the test for room of the second does not count the words
of the first. So `seDriver_iff` : no unread word is overwritten, whatever is written afterwards, if
and only if each such record comes when all the words that may still be in the ring leave room for
it (`SafeOps`).
-/

open Circular List

namespace OpenHMR

open Nat

/-! ## What the driver does -/

/-- A vsync, with the content of the queues. The payloads are smaller than the ring. -/
structure SeVsync where
  /-- The word at `0xA00000DC`. -/
  flag : UInt32
  mem : ℕ → UInt32
  num : ℕ
  /-- The number of words of a buffer. -/
  n : ℕ
  rd : ℕ → ℕ
  recs : ℕ → List SeRecord
  holds : VsyncQueues mem num n rd recs
  small : ∀ ii < num, ∀ words, .payload words ∈ recs ii → words.length < seCommandEntries

/-- An operation of the driver. -/
inductive SeOp where
  | vsync (v : SeVsync)
  /-- `se_write`, of words that can have room in the ring. -/
  | write (words : List UInt32) (h : words.length < seCommandEntries)

/-- The calls of `WriteCmd` for an operation. -/
def SeOp.calls : SeOp → Option (List SeCmd)
  | .vsync v => (seIrqHandler v.n v.num v.flag v.mem).map fun r => r.2.2
  | .write words _ => some [⟨words, true⟩]

/-- The calls for operations, which are executed one at a time. -/
def opsCalls : List SeOp → Option (List SeCmd)
  | [] => some []
  | op :: ops =>
    match op.calls, opsCalls ops with
    | some calls, some rest => some (calls ++ rest)
    | _, _ => none

/-! ## Records that leave room -/

/-- Each record of a frame that goes beyond the end of its queue leaves room, when at most `total`
words are in the ring before the frame. -/
def SafeRecords (n : ℕ) : ℕ → ℕ → List SeRecord → Prop
  | _, _, [] => True
  | _, _, .marker :: _ => True
  | total, rd, .payload words :: recs =>
    (n < place n rd 1 + words.length → total + words.length < seCommandEntries) ∧
      SafeRecords n (total + words.length) (place n rd (words.length + 1)) recs

/-- The frames of the first `num` queues. -/
def SafeQueues (v : SeVsync) (total : ℕ) : ℕ → Prop
  | 0 => True
  | num + 1 => SafeQueues v total num ∧ (vsyncGo v.mem ((v.n + 5) * num) ≠ 0 →
    SafeRecords v.n (total + (passWords v.mem v.n v.recs num).length) (v.rd num) (v.recs num))

/-- The words that a vsync gives to the ring. -/
def SeVsync.words (v : SeVsync) : List UInt32 :=
  if v.flag &&& endianSwap32 2 = 0 then [] else passWords v.mem v.n v.recs v.num

/-- The operations are safe, when at most `total` words are in the ring before them. -/
def SafeOps : ℕ → List SeOp → Prop
  | _, [] => True
  | total, .vsync v :: ops =>
    (v.flag &&& endianSwap32 2 ≠ 0 → SafeQueues v total v.num) ∧
      SafeOps (total + v.words.length) ops
  | total, .write words _ :: ops => SafeOps (total + words.length) ops

/-! ## Emissions of operations -/

def SeOp.emissions : SeOp → List SeEmission
  | .vsync v =>
    if v.flag &&& endianSwap32 2 = 0 then [] else passEmissions v.mem v.n v.rd v.recs v.num
  | .write words _ => [.whole words]

def opsEmissions (ops : List SeOp) : List SeEmission :=
  ops.flatMap SeOp.emissions

theorem seOp_calls (op : SeOp) : op.calls = some (seCalls op.emissions) := by
  cases op with
  | write words h => rfl
  | vsync v =>
    rw [SeOp.calls, SeOp.emissions, seIrqHandler]
    by_cases hflag : v.flag &&& endianSwap32 2 = 0
    · rw [if_pos hflag, if_pos hflag]
      rfl
    · obtain ⟨s, heq, -, hcalls, -⟩ := vsyncQueues_eq v.holds (le_refl v.n) v.num
        (le_refl v.num)
      rw [if_neg hflag, if_neg hflag, heq, ← hcalls]
      rfl

theorem opsCalls_eq : ∀ ops : List SeOp, opsCalls ops = some (seCalls (opsEmissions ops))
  | [] => rfl
  | op :: ops => by
    rw [opsCalls, seOp_calls, opsCalls_eq ops]
    simp only [opsEmissions, seCalls, flatMap_cons, flatMap_append]

theorem length_callWords : ∀ es : List SeEmission, (callWords (seCalls es)).length = seWords es
  | [] => rfl
  | e :: es => by
    rw [seCalls, flatMap_cons, callWords, flatMap_append, length_append, ← callWords,
      callWords_emission, seWords, ← length_callWords es]
    rfl

theorem safeFrom_append : ∀ (es es' : List SeEmission) (total : ℕ),
    SafeFrom total (es ++ es') ↔ SafeFrom total es ∧ SafeFrom (total + seWords es) es'
  | [], es', total => by
    rw [nil_append, seWords, add_zero, SafeFrom]
    exact (and_iff_right trivial).symm
  | .whole words :: es, es', total => by
    rw [cons_append, SafeFrom, SafeFrom, safeFrom_append es es', seWords, SeEmission.words,
      add_assoc]
  | .split first second :: es, es', total => by
    rw [cons_append, SafeFrom, SafeFrom, safeFrom_append es es', seWords, SeEmission.words,
      length_append, and_assoc, add_assoc, add_assoc, add_assoc]

/-- A payload is safe if it does not go beyond the end, or leaves room. -/
theorem safeFrom_emission {n p : ℕ} (hp : p < n) (words : List UInt32) (es : List SeEmission)
    (total : ℕ) : SafeFrom total (emission n p words :: es) ↔
      (n < p + words.length → total + words.length < seCommandEntries) ∧
        SafeFrom (total + words.length) es := by
  unfold emission
  by_cases hle : n ≤ p + words.length
  · have hsum : total + (words.take (n - p)).length + (words.drop (n - p)).length =
        total + words.length := by
      rw [length_take, length_drop]
      omega
    have hfirst : words.take (n - p) ≠ [] := by
      rw [← length_pos_iff, length_take]
      omega
    have hsecond : words.drop (n - p) = [] ↔ ¬n < p + words.length := by
      rw [drop_eq_nil_iff]
      omega
    rw [if_pos hle, SafeFrom, hsum, hsecond, or_iff_right hfirst, ← imp_iff_not_or]
  · rw [if_neg hle, SafeFrom]
    exact (and_iff_right fun hlt => absurd hlt.le hle).symm

theorem safeFrom_emissions {n : ℕ} : ∀ (recs : List SeRecord) {rd : ℕ}, rd < n → ∀ total : ℕ,
    SafeFrom total (emissions n rd recs) ↔ SafeRecords n total rd recs
  | [], _, _, _ => Iff.rfl
  | .marker :: _, _, _, _ => Iff.rfl
  | .payload words :: recs, rd, hrd, total => by
    rw [emissions, safeFrom_emission (place_lt hrd), SafeRecords,
      safeFrom_emissions recs (place_lt hrd)]

theorem safeFrom_pass (v : SeVsync) (total : ℕ) : ∀ num ≤ v.num,
    SafeFrom total (passEmissions v.mem v.n v.rd v.recs num) ↔ SafeQueues v total num
  | 0, _ => Iff.rfl
  | num + 1, hnum => by
    rw [passEmissions, safeFrom_append, safeFrom_pass v total num (by omega), SafeQueues,
      queueEmissions, ← length_callWords, callWords_pass]
    refine and_congr_right fun _ => ?_
    split_ifs with hgo
    · exact iff_of_true trivial fun hne => absurd hgo hne
    · rw [safeFrom_emissions _ (v.holds.holds num hnum).rd_lt]
      exact (imp_iff_right hgo).symm

theorem safeFrom_ops : ∀ (ops : List SeOp) (total : ℕ),
    SafeFrom total (opsEmissions ops) ↔ SafeOps total ops
  | [], _ => Iff.rfl
  | .write words h :: ops, total => safeFrom_ops ops (total + words.length)
  | .vsync v :: ops, total => by
    rw [opsEmissions, flatMap_cons, safeFrom_append, SafeOps, ← safeFrom_ops ops,
      ← length_callWords, SeOp.emissions, SeVsync.words]
    by_cases hflag : v.flag &&& endianSwap32 2 = 0
    · rw [if_pos hflag, if_pos hflag]
      exact and_congr_left fun _ => iff_of_true trivial fun hne => absurd hflag hne
    · rw [if_neg hflag, if_neg hflag, callWords_pass, safeFrom_pass v total v.num (le_refl _)]
      exact and_congr_left fun _ => (imp_iff_right hflag).symm

/-! ## All runs of the driver -/

theorem emissions_lt {n : ℕ} : ∀ (recs : List SeRecord) (rd : ℕ),
    (∀ words, .payload words ∈ recs → words.length < seCommandEntries) →
    ∀ e ∈ emissions n rd recs, e.words.length < seCommandEntries
  | [], _, _, _, he => absurd he not_mem_nil
  | .marker :: _, _, _, _, he => absurd he not_mem_nil
  | .payload words :: recs, rd, h, e, he => by
    rcases mem_cons.1 he with rfl | he
    · rw [emission_words]
      exact h words mem_cons_self
    · exact emissions_lt recs _ (fun w hw => h w (mem_cons_of_mem _ hw)) e he

theorem passEmissions_lt (v : SeVsync) : ∀ num ≤ v.num,
    ∀ e ∈ passEmissions v.mem v.n v.rd v.recs num, e.words.length < seCommandEntries
  | 0, _, _, he => absurd he not_mem_nil
  | num + 1, hnum, e, he => by
    rcases mem_append.1 he with he | he
    · exact passEmissions_lt v num (by omega) e he
    · rw [queueEmissions] at he
      split_ifs at he
      · exact absurd he not_mem_nil
      · exact emissions_lt _ _ (v.small num hnum) e he

theorem opsEmissions_lt (ops : List SeOp) :
    ∀ e ∈ opsEmissions ops, e.words.length < seCommandEntries := by
  intro e he
  obtain ⟨op, -, he⟩ := mem_flatMap.1 he
  cases op with
  | write words h =>
    rw [mem_singleton.1 he]
    exact h
  | vsync v =>
    rw [SeOp.emissions] at he
    split_ifs at he
    · exact absurd he not_mem_nil
    · exact passEmissions_lt v v.num (le_refl _) e he

/-- The ring holds `p` words from the word `rd` on. Operations, and all calls of `se_write` that may
follow, overwrite no unread word at any speed of the engine, if and only if each record that goes
beyond the end of its queue leaves room. -/
theorem seDriver_iff {b : SeBuf} (hb : b.Fits) (mem : ℕ → UInt32) {rd p : ℕ}
    (hrd : rd < seCommandEntries) (hp : p < seCommandEntries) (ops : List SeOp) :
    ∃ calls, opsCalls ops = some calls ∧
      ((∀ writes : List (List UInt32), (∀ words ∈ writes, words.length < seCommandEntries) →
        SeRing.Keeps b (SeRing.holding b mem rd p (calls ++ writes.map (⟨·, true⟩)))) ↔
          SafeOps p ops) := by
  refine ⟨_, opsCalls_eq ops, ?_⟩
  rw [← safeFrom_ops, ← SeRing.seRing_iff hb mem hrd hp _ (opsEmissions_lt ops)]
  refine forall_congr' fun writes => imp_congr_right fun _ => ?_
  have hcalls : seCalls (opsEmissions ops ++ writes.map .whole) =
      seCalls (opsEmissions ops) ++ writes.map (⟨·, true⟩) := by
    rw [seCalls, flatMap_append, flatMap_map]
    exact congrArg _ (flatMap_pure_eq_map ..)
  rw [hcalls]

/-! ## A record that does not leave room -/

/-- A queue of eight words, with a record whose last two words are beyond the end. -/
def splitVsync : SeVsync where
  flag := endianSwap32 2
  mem a := [0, 32, 20, 8, 1, 3, 4, 0, 0, 0, 20, 1, 2].getD a 0
  num := 1
  n := 8
  rd _ := 5
  recs _ := [.payload [1, 2, 3, 4]]
  holds := by
    refine ⟨by decide, fun ii hii => ?_⟩
    obtain rfl : ii = 0 := Nat.lt_one_iff.1 hii
    exact ⟨rfl, by decide, rfl, rfl, by decide, by decide⟩
  small := by
    intro _ _ words hmem
    obtain rfl : words = [1, 2, 3, 4] := by simpa using hmem
    decide

/-- In an empty ring, the record leaves room. -/
theorem seDriver_iff_empty : SafeOps 0 [.vsync splitVsync] ∧
    ∃ calls, opsCalls [.vsync splitVsync] = some calls ∧
      ((∀ writes : List (List UInt32), (∀ words ∈ writes, words.length < seCommandEntries) →
        SeRing.Keeps (seOpen 0x80100000) (SeRing.holding (seOpen 0x80100000) (fun _ => 0) 0 0
          (calls ++ writes.map (⟨·, true⟩)))) ↔ SafeOps 0 [.vsync splitVsync]) := by
  refine ⟨⟨fun _ => ⟨trivial, fun _ => ⟨fun _ => by decide, trivial⟩⟩, trivial⟩, ?_⟩
  exact seDriver_iff (seOpen_fits ⟨by decide, by decide⟩) _ (by decide) (by decide) _

/-- When 4093 words are in the ring and the engine does not go on, the fourth word of the record is
stored on the first of them. -/
theorem seDriver_overwrites :
    opsCalls [.vsync splitVsync] = some [⟨[1, 2], false⟩, ⟨[3, 4], true⟩] ∧
      ((replicate 9 true).foldl (SeRing.tick (seOpen 0x80100000))
        (SeRing.holding (seOpen 0x80100000) (fun _ => 0) 0 4093
          [⟨[1, 2], false⟩, ⟨[3, 4], true⟩])).overwritten = true := by
  exact ⟨by decide +kernel, by decide +kernel⟩

end OpenHMR
