import Mathlib.Data.List.Induction
import OpenHMR.SeRing

/-!
# Overruns of the command ring

The calls of the driver come from whole records and from records that are split at the end of their
queue, the first piece without `go` (`SeEmission`). The engine may be so slow that any number of the
words that were given are still in the ring (`reaches_pending`). So if a split record could fill the
ring, there is a run in which it does, and an unread word is overwritten, by this record or by the
next word. `seRing_iff` says that a list of emissions is safe, at every speed of the engine and
whatever words follow, if and only if this cannot be.
-/

open Circular CommandRing List

namespace OpenHMR

open Nat

/-- The words of a call of `se_write` or of a record. -/
inductive SeEmission where
  /-- By one call. -/
  | whole (words : List UInt32)
  /-- By two calls, of which the second has `go`. -/
  | split (first second : List UInt32)
  deriving DecidableEq

namespace SeEmission

def words : SeEmission → List UInt32
  | whole words => words
  | split first second => first ++ second

def calls : SeEmission → List SeCmd
  | whole words => [⟨words, true⟩]
  | split first second => [⟨first, false⟩, ⟨second, true⟩]

end SeEmission

/-- The calls of emissions. -/
def seCalls (es : List SeEmission) : List SeCmd :=
  es.flatMap SeEmission.calls

/-- The number of words of emissions. -/
def seWords : List SeEmission → ℕ
  | [] => 0
  | e :: es => e.words.length + seWords es

theorem calls_lt (es : List SeEmission) (h : ∀ e ∈ es, e.words.length < seCommandEntries) :
    ∀ cmd ∈ seCalls es, cmd.words.length < seCommandEntries := by
  intro cmd hcmd
  obtain ⟨e, he, hcmd⟩ := mem_flatMap.1 hcmd
  have hlen := h e he
  cases e with
  | whole words =>
    rw [mem_singleton.1 hcmd]
    exact hlen
  | split first second =>
    rw [SeEmission.words, length_append] at hlen
    rcases mem_cons.1 hcmd with rfl | hcmd
    · exact lt_of_le_of_lt (le_add_right _ _) hlen
    · rw [mem_singleton.1 hcmd]
      exact lt_of_le_of_lt (le_add_left _ _) hlen

theorem seWords_append : ∀ es es' : List SeEmission,
    seWords (es ++ es') = seWords es + seWords es'
  | [], _ => (zero_add _).symm
  | e :: es, es' => by
    rw [cons_append, seWords, seWords, seWords_append es es', add_assoc]

/-- With at most `total` words in the ring, no split record can fill it. -/
def SafeFrom : ℕ → List SeEmission → Prop
  | _, [] => True
  | total, .whole words :: es => SafeFrom (total + words.length) es
  | total, .split first second :: es =>
    (first = [] ∨ second = [] ∨
        total + first.length + second.length < seCommandEntries) ∧
      SafeFrom (total + first.length + second.length) es

/-- Whole words may follow. -/
theorem SafeFrom.append_whole (writes : List (List UInt32)) : ∀ (es : List SeEmission) {total : ℕ},
    SafeFrom total es → SafeFrom total (es ++ writes.map .whole)
  | [], total, _ => by
    induction writes generalizing total with
    | nil => trivial
    | cons words writes ih => exact ih (total + words.length) trivial
  | .whole _ :: es, _, h => SafeFrom.append_whole writes es h
  | .split _ _ :: es, _, h => ⟨h.1, SafeFrom.append_whole writes es h.2⟩

/-- If emissions are not safe, a split record can fill the ring. -/
theorem exists_of_not_safeFrom : ∀ (es : List SeEmission) {total : ℕ}, ¬SafeFrom total es →
    ∃ es1 first second es2, es = es1 ++ .split first second :: es2 ∧ first ≠ [] ∧ second ≠ [] ∧
      seCommandEntries ≤ total + seWords es1 + first.length + second.length
  | [], _, h => absurd trivial h
  | .whole words :: es, total, h => by
    obtain ⟨es1, first, second, es2, rfl, hfirst, hsecond, hfull⟩ := exists_of_not_safeFrom es h
    refine ⟨.whole words :: es1, first, second, es2, rfl, hfirst, hsecond, ?_⟩
    rw [seWords, SeEmission.words]
    omega
  | .split first second :: es, total, h => by
    by_cases hthis : first = [] ∨ second = [] ∨
        total + first.length + second.length < seCommandEntries
    · have hrest : ¬SafeFrom (total + first.length + second.length) es := fun hrest =>
        h ⟨hthis, hrest⟩
      obtain ⟨es1, first', second', es2, rfl, hfirst, hsecond, hfull⟩ :=
        exists_of_not_safeFrom es hrest
      refine ⟨.split first second :: es1, first', second', es2, rfl, hfirst, hsecond, ?_⟩
      rw [seWords, SeEmission.words, length_append]
      omega
    · obtain ⟨hfirst, hthis⟩ := not_or.1 hthis
      obtain ⟨hsecond, hfull⟩ := not_or.1 hthis
      exact ⟨[], first, second, es, rfl, hfirst, hsecond, by rw [seWords]; omega⟩

theorem SafeFrom.safeCalls : ∀ (es : List SeEmission) {total : ℕ}, SafeFrom total es →
    SafeCalls total 0 (seCalls es)
  | [], _, _ => trivial
  | .whole _ :: es, _, h => ⟨Or.inl rfl, SafeFrom.safeCalls es h⟩
  | .split first second :: es, total, h => by
    obtain ⟨hsafe, hrest⟩ := h
    refine ⟨Or.inl rfl, ?_, SafeFrom.safeCalls es hrest⟩
    rcases hsafe with hnil | hnil | hlt
    · exact Or.inl (by rw [hnil]; rfl)
    · exact Or.inr (Or.inl hnil)
    · exact Or.inr (Or.inr hlt)

/-! ## Runs that reach a state -/

namespace SeRing

/-- Some ticks lead from `s` to `s'`. -/
def Reaches (b : SeBuf) (s s' : SeRing) : Prop :=
  ∃ ticks : List Bool, ticks.foldl (SeRing.tick b) s = s'

variable {b : SeBuf} {s s' s'' : SeRing} {rd w : ℕ} {pending staged : List UInt32}

theorem Reaches.refl (b : SeBuf) (s : SeRing) : Reaches b s s :=
  ⟨[], rfl⟩

theorem Reaches.trans (h : Reaches b s s') (h' : Reaches b s' s'') : Reaches b s s'' := by
  obtain ⟨ticks, rfl⟩ := h
  obtain ⟨ticks', rfl⟩ := h'
  exact ⟨ticks ++ ticks', foldl_append⟩

theorem reaches_cpu (b : SeBuf) (s : SeRing) : Reaches b s (s.cpu b) :=
  ⟨[true], rfl⟩

theorem reaches_engine (b : SeBuf) (s : SeRing) : Reaches b s (s.engine b) :=
  ⟨[false], rfl⟩

/-- The ring is idle, with `pending` words and the calls `calls` to be made. -/
def Waiting (b : SeBuf) (s : SeRing) (pending staged : ℕ) (calls : List SeCmd) : Prop :=
  ∃ rd w l l', Inv b s rd w l l' ∧ l.length = pending ∧ l'.length = staged ∧ s.call = .idle ∧
    s.calls = calls

section Reach

variable {p u q : ℕ} {calls : List SeCmd}

/-- The engine reads until `q` words are pending. -/
theorem Waiting.reads (h : Waiting b s p u calls) (hq : q ≤ p) :
    ∃ s', Reaches b s s' ∧ Waiting b s' q u calls := by
  induction p generalizing s with
  | zero =>
    obtain rfl : q = 0 := le_zero.1 hq
    exact ⟨s, .refl b s, h⟩
  | succ p ih =>
    rcases lt_or_ge p q with hlt | hge
    · obtain rfl : q = p + 1 := by omega
      exact ⟨s, .refl b s, h⟩
    · obtain ⟨rd, w, l, l', hinv, hl, hl', hidle, hcalls⟩ := h
      cases l with
      | nil => exact absurd hl (by simp)
      | cons x l =>
        have hsame := engine_call b s
        obtain ⟨s', hreach, hwait⟩ := ih ⟨_, w, l, l', hinv.engine_cons,
          Nat.succ.inj hl, hl', hsame.1.trans hidle, hsame.2.trans hcalls⟩ hge
        exact ⟨s', (reaches_engine b s).trans hreach, hwait⟩

/-- The words of a call are stored. -/
theorem Inv.stores (hb : b.Fits) {cmd : SeCmd} : ∀ (k : ℕ) {s : SeRing} {staged : List UInt32}
    {i pWptr : ℕ}, Inv b s rd w pending staged → s.call = .store cmd i pWptr →
    i + k = cmd.words.length → ∃ s' pWptr', Reaches b s s' ∧
      Inv b s' rd w pending (staged ++ cmd.words.drop i) ∧
      s'.call = .store cmd cmd.words.length pWptr' ∧ s'.calls = s.calls
  | 0, s, staged, i, pWptr, h, hc, hk => by
    obtain rfl : i = cmd.words.length := hk
    rw [drop_length, append_nil]
    exact ⟨s, pWptr, .refl b s, h, hc, rfl⟩
  | k + 1, s, staged, i, pWptr, h, hc, hk => by
    have hlt : i < cmd.words.length := by omega
    obtain ⟨heq, hinv⟩ := h.cpu_store hb hc (List.getElem?_eq_getElem hlt)
    have hcalls : (s.cpu b).calls = s.calls := by
      rw [heq]
      rfl
    obtain ⟨s', pWptr', hreach, hinv', hcall', hcalls'⟩ := Inv.stores hb k hinv
      (by rw [heq]; rfl) (by omega)
    rw [append_assoc, singleton_append, ← drop_eq_getElem_cons hlt] at hinv'
    exact ⟨s', pWptr', (reaches_cpu b s).trans hreach, hinv', hcall', hcalls'.trans hcalls⟩

/-- A call is carried out, if there is room for its words. -/
theorem Waiting.call (hb : b.Fits) {cmd : SeCmd} (h : Waiting b s p u (cmd :: calls))
    (hroom : p + u + cmd.words.length < seCommandEntries) :
    ∃ s', Reaches b s s' ∧
      if cmd.go then Waiting b s' (p + u + cmd.words.length) 0 calls
      else Waiting b s' p (u + cmd.words.length) calls := by
  obtain ⟨rd, w, l, l', hinv, rfl, rfl, hidle, hcalls⟩ := h
  by_cases hnil : cmd.words = []
  · obtain ⟨hidle', hcalls', hinv'⟩ := hinv.begin_nil hb hidle hnil calls
    refine ⟨s.begin b cmd calls, cpu_begin hidle hcalls ▸ reaches_cpu b s, ?_⟩
    rw [hnil, length_nil, add_zero, add_zero]
    split_ifs at hinv' ⊢
    · exact ⟨_, _, _, _, hinv', length_append, rfl, hidle', hcalls'⟩
    · exact ⟨_, _, _, _, hinv', rfl, rfl, hidle', hcalls'⟩
  · obtain ⟨heq, hinv1⟩ := hinv.begin hb hidle hnil calls
    have hreach1 : Reaches b s (s.begin b cmd calls) :=
      cpu_begin hidle hcalls ▸ reaches_cpu b s
    have hspace : (s.begin b cmd calls).call = .space cmd (b.cmdBase + w * 4) := by rw [heq]
    have hinv2 := hinv1.store_zero hspace hroom
    have hreach2 := reaches_cpu b (s.begin b cmd calls)
    rw [hinv1.cpu_space hb hspace, if_pos (by omega)] at hreach2
    obtain ⟨s3, pWptr, hreach3, hinv3, hcall3, hcalls3⟩ :=
      hinv2.stores hb cmd.words.length rfl (zero_add _)
    obtain ⟨hidle', hcalls', hinv'⟩ :=
      hinv3.cpu_finish hb hcall3 (List.getElem?_eq_none_iff.2 (le_refl _))
    have hrest : (s3.cpu b).calls = calls := by
      rw [hcalls', hcalls3]
      simp only [heq]
    refine ⟨s3.cpu b, ((hreach1.trans hreach2).trans hreach3).trans (reaches_cpu b s3), ?_⟩
    rw [drop_zero] at hinv'
    split_ifs at hinv' ⊢
    · refine ⟨_, _, _, _, hinv', ?_, rfl, hidle', hrest⟩
      rw [length_append, length_append, add_assoc]
    · exact ⟨_, _, _, _, hinv', rfl, length_append, hidle', hrest⟩

/-- An emission is carried out, if there is room for its words. -/
theorem Waiting.emission (hb : b.Fits) {e : SeEmission} (h : Waiting b s p 0 (e.calls ++ calls))
    (hroom : p + e.words.length < seCommandEntries) :
    ∃ s', Reaches b s s' ∧ Waiting b s' (p + e.words.length) 0 calls := by
  cases e with
  | whole words => exact h.call hb hroom
  | split first second =>
    rw [SeEmission.words, length_append] at hroom ⊢
    obtain ⟨s1, hreach1, h1⟩ := h.call hb (by
      change p + 0 + first.length < _
      omega)
    obtain ⟨s2, hreach2, h2⟩ := Waiting.call hb h1 (by
      change p + (0 + first.length) + second.length < _
      omega)
    refine ⟨s2, hreach1.trans hreach2, ?_⟩
    have hsum : p + (0 + first.length) + second.length = p + (first.length + second.length) := by
      omega
    exact hsum ▸ h2

/-- After emissions, any number of the words up to `total` may be pending. -/
theorem Waiting.reaches_pending (hb : b.Fits) (es : List SeEmission)
    (hlegal : ∀ e ∈ es, e.words.length < seCommandEntries)
    (h : Waiting b s p 0 (seCalls es ++ calls)) (hq : q ≤ p + seWords es)
    (hlt : q < seCommandEntries) : ∃ s', Reaches b s s' ∧ Waiting b s' q 0 calls := by
  -- The last emission finds as many words as then make up `q`, or else the engine reads some.
  induction es using reverseRecOn generalizing q calls with
  | nil => exact h.reads hq
  | append_singleton es e ih =>
    have hcalls : seCalls (es ++ [e]) ++ calls = seCalls es ++ (e.calls ++ calls) := by
      rw [seCalls, flatMap_append, flatMap_singleton, append_assoc]
      rfl
    rw [hcalls] at h
    rw [seWords_append, seWords, seWords] at hq
    have hlegal' : ∀ e' ∈ es, e'.words.length < seCommandEntries := fun e' he' =>
      hlegal e' (mem_append_left _ he')
    have hwords : e.words.length < seCommandEntries := hlegal e (by simp)
    rcases le_total e.words.length q with hle | hge
    · obtain ⟨s1, hreach1, h1⟩ := ih (q := q - e.words.length) hlegal' h (by omega) (by omega)
      obtain ⟨s2, hreach2, h2⟩ := h1.emission hb (by omega)
      rw [Nat.sub_add_cancel hle] at h2
      exact ⟨s2, hreach1.trans hreach2, h2⟩
    · obtain ⟨s1, hreach1, h1⟩ := ih (q := 0) hlegal' h (by omega) (by omega)
      obtain ⟨s2, hreach2, h2⟩ := h1.emission hb (by omega)
      obtain ⟨s3, hreach3, h3⟩ := h2.reads (q := q) (by omega)
      exact ⟨s3, (hreach1.trans hreach2).trans hreach3, h3⟩

end Reach

/-! ## A ring that is filled -/

/-- The call has stored `i` words, and the `m` words from `rd` on are unread. -/
structure Filling (b : SeBuf) (s : SeRing) (cmd : SeCmd) (i rd m : ℕ) : Prop where
  call : s.call = .store cmd i (b.cmdBuf + place seCommandEntries rd m * 4)
  rd_lt : rd < seCommandEntries
  unread : Unread seCommandEntries rd m s.unread
  seCmdReadPtr : s.seCmdReadPtr = b.cmdBase + rd * 4

/-- The ring is idle and full, but the registers say that it is empty. -/
structure Brim (b : SeBuf) (s : SeRing) (rd : ℕ) (calls : List SeCmd) : Prop where
  rd_lt : rd < seCommandEntries
  call : s.call = .idle
  calls_eq : s.calls = calls
  wrptr : s.wrptr = rd * 4
  seCmdReadPtr : s.seCmdReadPtr = b.cmdBase + rd * 4
  seCmdWritePtr : s.seCmdWritePtr = b.cmdBase + rd * 4
  unread : s.unread rd = true

section Full

variable {cmd : SeCmd} {calls : List SeCmd} {i m : ℕ}

theorem place_self (h : rd < seCommandEntries) :
    place seCommandEntries rd seCommandEntries = rd := by
  rw [place, add_mod_right, mod_eq_of_lt h]

theorem Filling.cpu (h : Filling b s cmd i rd m) (hi : i < cmd.words.length) :
    s.cpu b = s.storeWord b cmd i (b.cmdBuf + place seCommandEntries rd m * 4) cmd.words[i] := by
  rw [SeRing.cpu, h.call]
  simp only [List.getElem?_eq_getElem hi]

theorem Filling.next (hb : b.Fits) (h : Filling b s cmd i rd m) (hi : i < cmd.words.length) :
    Filling b (s.cpu b) cmd (i + 1) rd (m + 1) ∧ (s.cpu b).calls = s.calls := by
  have hpl := place_lt (k := m) h.rd_lt
  rw [h.cpu hi]
  refine ⟨⟨?_, h.rd_lt, ?_, h.seCmdReadPtr⟩, rfl⟩
  · change SeCall.store cmd (i + 1) _ = _
    rw [seRingSize, next_word_sub b.cmdBuf hpl, place_place]
  · change Unread _ _ _ (Function.update s.unread (wordAt b (storeAddr _)) true)
    rw [wordAt_store hb hpl]
    exact h.unread.store

/-- In a full ring, the next word is stored on an unread one. -/
theorem Filling.overrun (hb : b.Fits) (h : Filling b s cmd i rd seCommandEntries)
    (hi : i < cmd.words.length) : (s.cpu b).overwritten = true := by
  have hmark : s.unread rd = true := (h.unread rd h.rd_lt).2 ⟨0, by decide, place_zero h.rd_lt⟩
  rw [h.cpu hi]
  change (s.overwritten || s.unread (wordAt b (storeAddr _))) = true
  rw [place_self h.rd_lt, wordAt_store hb h.rd_lt, hmark, Bool.or_true]

theorem Filling.fill (hb : b.Fits) : ∀ (k : ℕ) {s : SeRing} {i m : ℕ}, Filling b s cmd i rd m →
    i + k ≤ cmd.words.length →
      ∃ s', Reaches b s s' ∧ Filling b s' cmd (i + k) rd (m + k) ∧ s'.calls = s.calls
  | 0, s, _, _, h, _ => ⟨s, .refl b s, h, rfl⟩
  | k + 1, s, i, m, h, hk => by
    obtain ⟨hnext, hcalls⟩ := h.next hb (by omega)
    obtain ⟨s', hreach, hfill, hcalls'⟩ := Filling.fill hb k hnext (by omega)
    refine ⟨s', (reaches_cpu b s).trans hreach, ?_, hcalls'.trans hcalls⟩
    rw [add_right_comm i, add_right_comm m] at hfill
    exact hfill

/-- A call with `go` that has filled the ring. -/
theorem Filling.brim (hb : b.Fits) (h : Filling b s cmd i rd seCommandEntries)
    (hi : i = cmd.words.length) (hgo : cmd.go = true) : Brim b (s.cpu b) rd s.calls := by
  have hcpu : s.cpu b = s.finish b cmd (b.cmdBuf + rd * 4) := by
    rw [SeRing.cpu, h.call, place_self h.rd_lt]
    simp only [List.getElem?_eq_none_iff.2 hi.ge]
  rw [hcpu, finish, hgo, if_pos rfl, Nat.add_sub_cancel_left, publish_eq hb _ h.rd_lt]
  exact ⟨h.rd_lt, rfl, rfl, rfl, h.seCmdReadPtr, rfl,
    (h.unread rd h.rd_lt).2 ⟨0, by decide, place_zero h.rd_lt⟩⟩

/-- A call without words leaves the ring as it is. -/
theorem Brim.begin_nil (hb : b.Fits) (h : Brim b s rd (cmd :: calls)) (hnil : cmd.words = []) :
    Brim b (s.begin b cmd calls) rd calls := by
  rw [SeRing.begin, if_pos hnil]
  simp only []
  split_ifs
  · rw [h.wrptr, publish_eq hb _ h.rd_lt]
    exact ⟨h.rd_lt, h.call, rfl, rfl, h.seCmdReadPtr, rfl, h.unread⟩
  · exact { h with calls_eq := rfl }

/-- A call with words stores its first word on an unread one. -/
theorem Brim.begin (hb : b.Fits) (h : Brim b s rd (cmd :: calls)) (hne : cmd.words ≠ [])
    (hlen : cmd.words.length < seCommandEntries) :
    ∃ s', Reaches b (s.begin b cmd calls) s' ∧ s'.overwritten = true := by
  have hpos := hb.cmdBase.1
  have hptr : s.seCmdWritePtr ≠ 0 := by
    rw [h.seCmdWritePtr]
    omega
  have hbegin : s.begin b cmd calls =
      { s with call := .space cmd (b.cmdBase + rd * 4), calls := calls } := by
    rw [SeRing.begin, if_neg hne, if_neg hptr, h.seCmdWritePtr]
  have hroom : (s.begin b cmd calls).hasRoom cmd.words.length (b.cmdBase + rd * 4) = true := by
    rw [hbegin, hasRoom, decide_eq_true_iff]
    simp only [h.seCmdReadPtr]
    rw [if_pos (le_refl _), seRingSize]
    omega
  have hspace : (s.begin b cmd calls).cpu b =
      { s with call := .store cmd 0 (b.cmdBuf + rd * 4), calls := calls } := by
    have hcall : (s.begin b cmd calls).call = .space cmd (b.cmdBase + rd * 4) := by rw [hbegin]
    rw [SeRing.cpu, hcall]
    simp only [hroom, if_true]
    rw [hbegin, ← h.wrptr]
  refine ⟨((s.begin b cmd calls).cpu b).cpu b, (reaches_cpu b _).trans (reaches_cpu b _), ?_⟩
  rw [hspace, SeRing.cpu]
  simp only [List.getElem?_eq_getElem (length_pos_iff.2 hne)]
  change (s.overwritten || s.unread (wordAt b (storeAddr _))) = true
  rw [wordAt_store hb h.rd_lt, h.unread, Bool.or_true]

/-- The next word is stored on an unread one. -/
theorem Brim.overrun (hb : b.Fits) : ∀ (calls : List SeCmd) {s : SeRing}, Brim b s rd calls →
    (∀ cmd ∈ calls, cmd.words.length < seCommandEntries) → (∃ cmd ∈ calls, cmd.words ≠ []) →
      ∃ s', Reaches b s s' ∧ s'.overwritten = true
  | [], _, _, _, ⟨_, hmem, _⟩ => absurd hmem not_mem_nil
  | cmd :: calls, s, h, hlegal, ⟨cmd', hmem, hne⟩ => by
    have hreach : Reaches b s (s.begin b cmd calls) :=
      cpu_begin h.call h.calls_eq ▸ reaches_cpu b s
    by_cases hnil : cmd.words = []
    · have hmem' : cmd' ∈ calls := by
        rcases mem_cons.1 hmem with rfl | hmem'
        · exact absurd hnil hne
        · exact hmem'
      obtain ⟨s', hreach', hover⟩ := Brim.overrun hb calls (h.begin_nil hb hnil)
        (fun c hc => hlegal c (mem_cons_of_mem _ hc)) ⟨cmd', hmem', hne⟩
      exact ⟨s', hreach.trans hreach', hover⟩
    · obtain ⟨s', hreach', hover⟩ := h.begin hb hnil (hlegal cmd mem_cons_self)
      exact ⟨s', hreach.trans hreach', hover⟩

end Full

/-! ## Split records -/

/-- A call that finds room by the registers but not with what is staged. -/
theorem Waiting.filling (hb : b.Fits) {cmd : SeCmd} {calls : List SeCmd} {p u : ℕ}
    (h : Waiting b s p u (cmd :: calls)) (hne : cmd.words ≠ [])
    (hroom : p + cmd.words.length < seCommandEntries) :
    ∃ s' rd, Reaches b s s' ∧ Filling b s' cmd 0 rd (p + u) ∧ s'.calls = calls := by
  obtain ⟨rd, w, l, l', hinv, rfl, rfl, hidle, hcalls⟩ := h
  obtain ⟨heq, hinv1⟩ := hinv.begin hb hidle hne calls
  have hreach1 : Reaches b s (s.begin b cmd calls) := cpu_begin hidle hcalls ▸ reaches_cpu b s
  have hspace : (s.begin b cmd calls).call = .space cmd (b.cmdBase + w * 4) := by rw [heq]
  have hreach2 := reaches_cpu b (s.begin b cmd calls)
  rw [hinv1.cpu_space hb hspace, if_pos hroom] at hreach2
  have hcall := hinv1.call
  rw [hspace] at hcall
  refine ⟨_, rd, hreach1.trans hreach2, ⟨?_, hinv1.holds.rd_lt, hinv1.unread,
    hinv1.seCmdReadPtr⟩, by simp only [heq]⟩
  rw [hcall.1, hinv1.holds.place_wr]

/-- A split record of which each piece passes its test, while there is no room for both, fills the
ring. An unread word is overwritten, at the latest by the next word. -/
theorem Waiting.overrun (hb : b.Fits) {first second : List UInt32} {calls : List SeCmd} {p : ℕ}
    (h : Waiting b s p 0 ((SeEmission.split first second).calls ++ calls)) (hne : second ≠ [])
    (hfirst : p + first.length < seCommandEntries) (hsecond : p + second.length < seCommandEntries)
    (hfull : seCommandEntries ≤ p + first.length + second.length)
    (hlegal : ∀ cmd ∈ calls, cmd.words.length < seCommandEntries)
    (hmore : ∃ cmd ∈ calls, cmd.words ≠ []) : ∃ s', Reaches b s s' ∧ s'.overwritten = true := by
  obtain ⟨s1, hreach1, h1⟩ := h.call hb hfirst
  obtain ⟨s2, rd, hreach2, hfill, hcalls2⟩ := Waiting.filling hb h1 hne hsecond
  obtain ⟨s3, hreach3, hfill3, hcalls3⟩ :=
    hfill.fill hb (seCommandEntries - (p + first.length)) (by
      change 0 + (seCommandEntries - (p + first.length)) ≤ second.length
      omega)
  have hsum : p + (0 + first.length) + (seCommandEntries - (p + first.length)) =
      seCommandEntries := by omega
  rw [hsum, zero_add] at hfill3
  have hreach := (hreach1.trans hreach2).trans hreach3
  rcases lt_or_ge (seCommandEntries - (p + first.length)) second.length with hlt | hge
  · exact ⟨s3.cpu b, hreach.trans (reaches_cpu b s3), hfill3.overrun hb hlt⟩
  · have hend : seCommandEntries - (p + first.length) = second.length := by omega
    have hbrim := hfill3.brim hb hend rfl
    rw [hcalls3, hcalls2] at hbrim
    obtain ⟨s4, hreach4, hover⟩ := Brim.overrun hb calls hbrim hlegal hmore
    exact ⟨s4, (hreach.trans (reaches_cpu b s3)).trans hreach4, hover⟩

/-- A ring that holds the `p` words of `mem` from the word `rd` on, with calls to be made. -/
def holding (b : SeBuf) (mem : ℕ → UInt32) (rd p : ℕ) (calls : List SeCmd) : SeRing where
  wrptr := place seCommandEntries rd p * 4
  seCmdReadPtr := b.cmdBase + rd * 4
  seCmdWritePtr := b.cmdBase + place seCommandEntries rd p * 4
  mem := mem
  call := .idle
  calls := calls
  stores := []
  unread := fun q => (range p).any fun k => place seCommandEntries rd k == q
  overwritten := false

/-- The calls of such a state wait. -/
theorem holding_waiting (b : SeBuf) (mem : ℕ → UInt32) {rd p : ℕ} (hrd : rd < seCommandEntries)
    (hp : p < seCommandEntries) (calls : List SeCmd) :
    Waiting b (holding b mem rd p calls) p 0 calls := by
  have hlen : (stretch mem seCommandEntries rd p).length = p := length_stretch ..
  refine ⟨rd, place seCommandEntries rd p, stretch mem seCommandEntries rd p, [],
    ⟨⟨hrd, by rw [hlen], ?_, ?_⟩, ?_, rfl, rfl, ?_, rfl⟩, hlen, rfl, rfl, rfl⟩
  · rw [hlen]
    exact hp
  · rw [hlen, append_nil]
    rfl
  · intro q _
    rw [hlen]
    change ((range p).any fun k => place seCommandEntries rd k == q) = true ↔ _
    simp only [any_eq_true, mem_range, beq_iff_eq]
    rfl
  · change place _ _ _ * 4 = place _ _ _ * 4
    rw [length_nil, place_zero (place_lt hrd)]

/-- No unread word is overwritten, at any speed of the engine. -/
def Keeps (b : SeBuf) (s : SeRing) : Prop :=
  ∀ ticks : List Bool, (ticks.foldl (SeRing.tick b) s).overwritten = false

/-- Emissions, and all words that may follow, overwrite no unread word if and only if no split
record can fill the ring. -/
theorem seRing_iff (hb : b.Fits) (mem : ℕ → UInt32) {rd p : ℕ} (hrd : rd < seCommandEntries)
    (hp : p < seCommandEntries) (es : List SeEmission)
    (hlegal : ∀ e ∈ es, e.words.length < seCommandEntries) :
    (∀ writes : List (List UInt32), (∀ words ∈ writes, words.length < seCommandEntries) →
      Keeps b (holding b mem rd p (seCalls (es ++ writes.map .whole)))) ↔ SafeFrom p es := by
  constructor
  · intro hkeeps
    by_contra hunsafe
    obtain ⟨es1, first, second, es2, rfl, hfirst, hsecond, hfull⟩ :=
      exists_of_not_safeFrom es hunsafe
    have hsplit : (first ++ second).length < seCommandEntries :=
      hlegal (.split first second) (by simp)
    rw [length_append] at hsplit
    have hpos1 := length_pos_iff.2 hfirst
    have hpos2 := length_pos_iff.2 hsecond
    have hcalls : seCalls ((es1 ++ .split first second :: es2) ++ [[0]].map SeEmission.whole) =
        seCalls es1 ++ ((SeEmission.split first second).calls ++
          seCalls (es2 ++ [.whole [0]])) := by
      rw [seCalls, seCalls, seCalls, append_assoc, flatMap_append]
      rfl
    have hwait := holding_waiting b mem hrd hp
      (seCalls ((es1 ++ .split first second :: es2) ++ [[0]].map SeEmission.whole))
    rw [hcalls] at hwait
    -- The engine leaves as many words as let each of the pieces pass its test.
    obtain ⟨q, hq, hq1, hq2, hqfull⟩ : ∃ q, q ≤ p + seWords es1 ∧
        q + first.length < seCommandEntries ∧ q + second.length < seCommandEntries ∧
        seCommandEntries ≤ q + first.length + second.length :=
      ⟨min (p + seWords es1) (seCommandEntries - 1 - max first.length second.length),
        by omega, by omega, by omega, by omega⟩
    obtain ⟨s1, hreach1, h1⟩ := hwait.reaches_pending hb es1
      (fun e he => hlegal e (mem_append_left _ he)) hq (by omega)
    have hlegal2 : ∀ cmd ∈ seCalls (es2 ++ [.whole [0]]),
        cmd.words.length < seCommandEntries := by
      refine calls_lt _ fun e he => ?_
      rcases mem_append.1 he with he | he
      · exact hlegal e (mem_append_right _ (mem_cons_of_mem _ he))
      · rw [mem_singleton.1 he]
        decide
    obtain ⟨s2, hreach2, hover⟩ := h1.overrun hb hsecond hq1 hq2 hqfull hlegal2
      ⟨⟨[0], true⟩, by simp [seCalls, SeEmission.calls], by simp⟩
    obtain ⟨ticks, rfl⟩ := hreach1.trans hreach2
    have hkept := hkeeps [[0]] (by decide) ticks
    rw [hcalls, hover] at hkept
    exact Bool.noConfusion hkept
  · intro hsafe writes _
    obtain ⟨rd', w, l, l', hinv, rfl, hl', hidle, hcalls⟩ := holding_waiting b mem hrd hp
      (seCalls (es ++ writes.map .whole))
    refine fun ticks => SafeInv.run hb ⟨rd', w, l, l', hinv, ?_⟩ ticks
    rw [hidle, hcalls, hl']
    exact ⟨l.length, le_refl _, (hsafe.append_whole writes es).safeCalls⟩

end SeRing

end OpenHMR
