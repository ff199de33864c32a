import OpenHMR.EfuseLog
import OpenHMR.Runs

/-!
# Writing the log of the efuse

A call of `efuse_PgPacketWrite` on a log looks for the first packet of its section that is blank and
has one of its words (`PgPkt.Reusable`). Without one it appends a packet, and repeats what was not
programmed (`pgLoop_mends`). Otherwise it writes into this packet (`pgLoop_reuse`), and this goes
wrong in three ways : the packet is hidden by a later one with the same word, the words that are
left are dropped after three repetitions in all calls since the driver was loaded, or the packet
lies across the address 256, where `efuse_OneByteWrite` takes the wrong address. In a run in which
programming succeeds and no call meets one of these (`Efuse.Clear`) the map is as it should be after
each call (`efuse_runs`).
-/

namespace OpenHMR

open Memory Overlay Runs List Option Nat UInt8 Efuse

/-! ## Programming -/

/-- Programming always succeeds. -/
def EfuseHw.Sound (hw : EfuseHw) : Prop :=
  ∀ n, hw.stuck n = 0

namespace Efuse

/-- The bytes `l` are programmed at `addr`. -/
structure Writes (e e' : Efuse) (addr : ℕ) (l : List UInt8) : Prop where
  fuse : e'.fuse = write e.fuse addr l
  repeatTimes : e'.repeatTimes = e.repeatTimes
  programmed : ∀ a ∈ e'.programmed, a ∈ e.programmed ∨ addr ≤ a ∧ a < addr + l.length

variable {hw : EfuseHw} {e e' e'' : Efuse} {addr : ℕ} {l l' : List UInt8}

theorem writes_nil (e : Efuse) (addr : ℕ) : e.Writes e addr [] :=
  ⟨(write_nil _ _).symm, rfl, fun _ h => .inl h⟩

theorem Writes.trans (h : e.Writes e' addr l) (h' : e'.Writes e'' (addr + l.length) l') :
    e.Writes e'' addr (l ++ l') := by
  refine ⟨?_, h'.repeatTimes.trans h.repeatTimes, fun a ha => ?_⟩
  · rw [h'.fuse, h.fuse, write_append]
  · rw [length_append]
    rcases h'.programmed a ha with ha | ha
    · rcases h.programmed a ha with ha | ha
      · exact .inl ha
      · exact .inr (by omega)
    · exact .inr (by omega)

theorem Writes.select (h : e.Writes e' addr l) (a : ℕ) : e.Writes (e'.select a) addr l :=
  { h with }

/-- The address register has no bit too many. -/
theorem page_or {page : ℕ} (hpage : page ≤ addr / 256) (hlt : addr < efuseMaxSize) :
    page ||| addr / 256 % 4 = addr / 256 := by
  unfold efuseMaxSize at hlt
  obtain h | h : addr / 256 = 0 ∨ addr / 256 = 1 := by omega
  · rw [h] at hpage ⊢
    obtain rfl := le_zero.1 hpage
    rfl
  · rw [h] at hpage ⊢
    obtain rfl | rfl : page = 0 ∨ page = 1 := by omega
    · rfl
    · rfl

theorem blank_and (b : UInt8) : 0xFF &&& b = b := by
  rw [show (0xFF : UInt8) = -1 from rfl]
  simp

/-- A byte is programmed, with the bits that fail. -/
theorem oneByteWrite_writes (hw : EfuseHw) (data : UInt8) (hblank : e.fuse addr = 0xFF)
    (hpage : e.page ≤ addr / 256) (hlt : addr < efuseMaxSize) :
    e.Writes (e.oneByteWrite hw addr data) addr [data ||| hw.stuck e.programmed.length] ∧
      (e.oneByteWrite hw addr data).page = addr / 256 := by
  have hpage' := page_or hpage hlt
  have hplace : addr / 256 * 256 + addr % 256 = addr := by omega
  refine ⟨⟨funext fun i => ?_, rfl, fun a ha => ?_⟩, hpage'⟩
  · simp only [oneByteWrite, hpage', hplace]
    split_ifs with hi
    · rw [hi, hblank, blank_and]
      exact (write_add e.fuse addr (l := [_]) one_pos).symm
    · exact (write_of_outside _ (by simp; omega)).symm
  · simp only [oneByteWrite, hpage', hplace, mem_cons] at ha
    rcases ha with rfl | ha
    · exact .inr ⟨le_rfl, by simp⟩
    · exact .inl ha

/-- A word is written into a part that is blank, and it is bad if it is not read back. -/
theorem wordWrite_writes (hw : EfuseHw) (data : PgData) (bad : UInt8) (w : Fin 4)
    (hblank : ∀ i < 2, e.fuse (addr + i) = 0xFF) (hpage : e.page ≤ addr / 256)
    (hle : addr + 2 ≤ efuseMaxSize) :
    ∃ e' v, wordWrite hw data (e, addr, bad) w =
        (e', addr + 2, if v ≠ data w then bad &&& ~~~wordBit w else bad) ∧
      e.Writes e' addr [v.1, v.2] ∧ e'.page ≤ (addr + 2) / 256 ∧ (hw.Sound → v = data w) := by
  have hblank0 : e.fuse addr = 0xFF := hblank 0 (by omega)
  obtain ⟨h1, hpage1⟩ := oneByteWrite_writes hw (data w).1 hblank0 hpage (by omega)
  have hblank1 : (e.oneByteWrite hw addr (data w).1).fuse (addr + 1) = 0xFF := by
    rw [h1.fuse, write_of_ge _ (by simp)]
    exact hblank 1 (by omega)
  obtain ⟨h2, hpage2⟩ := oneByteWrite_writes hw (data w).2 hblank1 (by omega) (by omega)
  generalize hlow : (data w).1 ||| hw.stuck e.programmed.length = low at h1
  generalize hhigh : (data w).2 ||| hw.stuck _ = high at h2
  have hword : e.Writes _ addr [low, high] := h1.trans h2
  have hread : write e.fuse addr [low, high] addr = low :=
    write_add e.fuse addr (i := 0) (by simp)
  have hread' : write e.fuse addr [low, high] (addr + 1) = high := write_add e.fuse addr (by simp)
  refine ⟨_, (low, high), ?_, hword.select (addr + 1), ?_, fun hs => ?_⟩
  · simp only [wordWrite, hword.fuse, hread, hread']
  · change (addr + 1) / 256 % 4 ≤ _
    omega
  · rw [← hlow, ← hhigh, hs, hs, UInt8.or_zero, UInt8.or_zero]

/-- One more word is bad. -/
theorem badWord {bad : UInt8} : bad < 16 → ∀ w, bad &&& ~~~wordBit w < 16 ∧
    ∀ w', WordEnabled (bad &&& ~~~wordBit w) w' ↔ w' = w ∨ WordEnabled bad w' :=
  forall_nibble (p := fun bad => ∀ w, bad &&& ~~~wordBit w < 16 ∧
    ∀ w', WordEnabled (bad &&& ~~~wordBit w) w' ↔ w' = w ∨ WordEnabled bad w') (by decide +kernel)

/-- Words are written into a part that is blank. -/
theorem foldl_wordWrite (hw : EfuseHw) (data : PgData) :
    ∀ (ws : List (Fin 4)) {e : Efuse} {addr : ℕ} {bad : UInt8}, ws.Nodup →
      (∀ i < 2 * ws.length, e.fuse (addr + i) = 0xFF) → e.page ≤ addr / 256 →
        addr + 2 * ws.length ≤ efuseMaxSize → bad < 16 →
          ∃ e' data' bad', ws.foldl (wordWrite hw data) (e, addr, bad) =
              (e', addr + 2 * ws.length, bad') ∧
            e.Writes e' addr (wordBytes data' ws) ∧ bad' < 16 ∧
            (∀ w, WordEnabled bad' w ↔ WordEnabled bad w ∨ w ∈ ws ∧ data' w ≠ data w) ∧
            (hw.Sound → ∀ w ∈ ws, data' w = data w)
  | [], e, addr, bad, _, _, _, _, hbad =>
    ⟨e, data, bad, rfl, writes_nil e addr, hbad, by simp, by simp⟩
  | w :: ws, e, addr, bad, hnodup, hblank, hpage, hle, hbad => by
    obtain ⟨hnew, hnodup⟩ := nodup_cons.1 hnodup
    rw [length_cons] at hblank hle ⊢
    obtain ⟨e1, v, hstep, h1, hpage1, hv⟩ := wordWrite_writes hw data bad w
      (fun i hi => hblank i (by omega)) hpage (by omega)
    have hblank1 : ∀ i < 2 * ws.length, e1.fuse (addr + 2 + i) = 0xFF := by
      intro i hi
      rw [h1.fuse, write_of_ge _ (by simp), add_assoc]
      exact hblank _ (by omega)
    generalize hbad1 : (if v ≠ data w then bad &&& ~~~wordBit w else bad) = bad1 at hstep
    have hword : bad1 < 16 ∧ ∀ w', WordEnabled bad1 w' ↔
        w' = w ∧ v ≠ data w ∨ WordEnabled bad w' := by
      rw [← hbad1]
      split_ifs with hne
      · simpa only [hne, and_true, ne_eq, not_false_eq_true] using badWord hbad w
      · exact ⟨hbad, fun w' => by simp [hne]⟩
    obtain ⟨e2, data', bad', hfold, h2, hbad', henabled, hsound⟩ :=
      foldl_wordWrite hw data ws hnodup hblank1 hpage1 (by omega) hword.1
    have hsame : ∀ w' ∈ ws, (if w' = w then v else data' w') = data' w' := by
      rintro w' hw'
      exact if_neg (by rintro rfl; exact hnew hw')
    refine ⟨e2, fun w' => if w' = w then v else data' w', bad', ?_, ?_, hbad', fun w' => ?_,
      fun hs w' hw' => ?_⟩
    · rw [foldl_cons, hstep, hfold]
      simp only [Prod.mk.injEq, true_and, and_true]
      omega
    · have hbytes : wordBytes (fun w' => if w' = w then v else data' w') (w :: ws) =
          [v.1, v.2] ++ wordBytes data' ws := by
        rw [wordBytes, flatMap_cons, if_pos rfl]
        exact congrArg _ (flatMap_congr fun w' hw' => by rw [hsame w' hw'])
      rw [hbytes]
      exact h1.trans h2
    · rw [henabled, hword.2]
      by_cases hw' : w' = w
      · subst hw'
        simp [hnew, or_comm]
      · simp [hw']
    · rcases mem_cons.1 hw' with rfl | hw'
      · exact (if_pos rfl).trans (hv hs)
      · exact (hsame w' hw').trans (hsound hs w' hw')

/-- What `efuse_WordEnableDataWrite` leaves, and the words that are bad. -/
structure WordsAt (hw : EfuseHw) (e e' : Efuse) (addr : ℕ) (wordEn : UInt8) (data data' : PgData)
    (bad : UInt8) : Prop where
  writes : e.Writes e' addr (wordBytes data' (enabledWords wordEn))
  lt : bad < 16
  enabled : ∀ w, WordEnabled bad w ↔ WordEnabled wordEn w ∧ data' w ≠ data w
  sound : hw.Sound → bad &&& 0x0F = 0x0F

/-- No word is bad. -/
theorem noWords_iff {bad : UInt8} : bad < 16 → (bad &&& 0x0F = 0x0F ↔ ∀ w, ¬ WordEnabled bad w) :=
  forall_nibble (p := fun bad => bad &&& 0x0F = 0x0F ↔ ∀ w, ¬ WordEnabled bad w)
    (by decide +kernel)

/-- `efuse_WordEnableDataWrite` into a part that is blank. -/
theorem wordEnableDataWrite_writes (hw : EfuseHw) (data : PgData) (wordEn : UInt8)
    (hblank : ∀ i < 2 * calculateWordCnts wordEn, e.fuse (addr + i) = 0xFF)
    (hpage : e.page ≤ addr / 256) (hle : addr + 2 * calculateWordCnts wordEn ≤ efuseMaxSize) :
    ∃ e' data' bad, e.wordEnableDataWrite hw addr wordEn data = (e', bad) ∧
      WordsAt hw e e' addr wordEn data data' bad := by
  obtain ⟨e', data', bad, hfold, h, hlt, henabled, hsound⟩ := foldl_wordWrite hw data
    (enabledWords wordEn) ((nodup_finRange 4).filter _) hblank hpage hle
    (by decide : (0x0F : UInt8) < 16)
  have hnone : ∀ w, ¬ WordEnabled 0x0F w := by decide
  have henabled' : ∀ w, WordEnabled bad w ↔ WordEnabled wordEn w ∧ data' w ≠ data w := by
    intro w
    rw [henabled, or_iff_right (hnone w), mem_enabledWords]
  refine ⟨e', data', bad, ?_, h, hlt, henabled', fun hs => (noWords_iff hlt).2 fun w hw => ?_⟩
  · rw [wordEnableDataWrite, hfold]
  · obtain ⟨hen, hne⟩ := (henabled' w).1 hw
    exact hne (hsound hs w (mem_enabledWords.2 hen))

/-- No word is bad, and all are as they should be. -/
theorem WordsAt.good {wordEn bad : UInt8} {data data' : PgData}
    (h : WordsAt hw e e' addr wordEn data data' bad) (hgood : bad &&& 0x0F = 0x0F) :
    ∀ w, WordEnabled wordEn w → data' w = data w := by
  intro w hw
  by_contra hne
  exact (noWords_iff h.lt).1 hgood w ((h.enabled w).2 ⟨hw, hne⟩)

/-- The words are written into a packet that is there. -/
def reuse (hw : EfuseHw) (target : PgData) (addr : ℕ) (wordEn : UInt8) (e : Efuse) :
    Efuse × UInt8 :=
  (e.select (addr + calculateWordCnts wordEn * 2)).wordEnableDataWrite hw (addr + 1) wordEn target

/-- A packet is appended at `addr` in `n` attempts at most. A header that is still blank is
programmed again, and the words that are bad are put into another packet, whose place is right if
`target_word_cnts` is the number of the words. -/
def mends (hw : EfuseHw) (offset : UInt8) (target : PgData) :
    ℕ → ℕ → UInt8 → ℕ → Efuse → Bool
  | 0, _, _, _, _ => false
  | n + 1, cnts, wordEn, addr, e =>
    let e := (e.select addr).oneByteWrite hw addr (pgHeader offset wordEn)
    if e.fuse addr = pgHeader offset wordEn then
      let r := e.wordEnableDataWrite hw (addr + 1) wordEn target
      r.2 &&& 0x0F = 0x0F || cnts = calculateWordCnts wordEn && addr + 2 * cnts + 1 < efuseLimit &&
        r.1.count.repeatTimes ≤ efuseRepeatThreshold &&
          mends hw offset target n (calculateWordCnts r.2) r.2 (addr + 2 * cnts + 1) r.1.count
    else
      e.fuse addr = 0xFF && e.count.repeatTimes ≤ efuseRepeatThreshold &&
        mends hw offset target n cnts wordEn addr e.count

end Efuse

/-! ## The loop of `efuse_PgPacketWrite` -/

namespace PgPkt

variable {p : PgPkt} {offset wordEn : UInt8}

/-- No bit of its words is cleared. -/
def Blank (p : PgPkt) : Prop :=
  ∀ w, WordEnabled p.wordEn w → p.data w = blankWord

/-- A blank packet of the section with one of the words. -/
def Reusable (offset wordEn : UInt8) (p : PgPkt) : Prop :=
  p.offset = offset ∧ p.Blank ∧ ∃ w, WordEnabled wordEn w ∧ WordEnabled p.wordEn w

instance (p : PgPkt) : Decidable p.Blank :=
  inferInstanceAs (Decidable (∀ _, _))

instance (offset wordEn : UInt8) (p : PgPkt) : Decidable (p.Reusable offset wordEn) :=
  inferInstanceAs (Decidable (_ ∧ _))

theorem mem_words {b : UInt8} : b ∈ p.words ↔
    ∃ w, WordEnabled p.wordEn w ∧ (b = (p.data w).1 ∨ b = (p.data w).2) := by
  simp [words, wordBytes]

theorem blank_iff : p.Blank ↔ ∀ b ∈ p.words, b = 0xFF := by
  constructor
  · intro h b hb
    obtain ⟨w, hw, rfl | rfl⟩ := mem_words.1 hb
    · rw [h w hw]
      rfl
    · rw [h w hw]
      rfl
  · intro h w hw
    exact Prod.ext (h _ (mem_words.2 ⟨w, hw, .inl rfl⟩)) (h _ (mem_words.2 ⟨w, hw, .inr rfl⟩))

end PgPkt

theorem logSize_setData (l₁ l₂ : List PgPkt) (p : PgPkt) (data : PgData) :
    logSize (l₁ ++ p.setData data :: l₂) = logSize (l₁ ++ p :: l₂) := by
  simp [logSize_append, logSize_cons]

/-- The words of a packet of the log are blank. -/
theorem dataEmpty_content (l₁ l₂ : List PgPkt) (p : PgPkt) :
    DataEmpty (content (l₁ ++ p :: l₂)) (logSize l₁) (calculateWordCnts p.wordEn) ↔ p.Blank := by
  have hlen := p.length_words
  rw [PgPkt.blank_iff, forall_mem_iff_forall_getElem]
  constructor
  · intro h i hi
    rw [← content_word l₁ l₂ p hi]
    exact h i (by omega)
  · intro h i hi
    rw [content_word l₁ l₂ p (by omega)]
    exact h i (by omega)

theorem matchWordEn_ne {target tmp : UInt8} (ht : target < 16) (htmp : tmp < 16) :
    matchWordEn target tmp &&& 0x0F ≠ 0x0F ↔
      ∃ w, WordEnabled target w ∧ WordEnabled tmp w :=
  forall_nibbles (p := fun target tmp => matchWordEn target tmp &&& 0x0F ≠ 0x0F ↔
    ∃ w, WordEnabled target w ∧ WordEnabled tmp w) (by decide +kernel) ht htmp

theorem calculateWordCnts_le (wordEn : UInt8) : calculateWordCnts wordEn ≤ 4 :=
  (length_filter_le _ _).trans (by simp)

theorem logMap_concat (log : List PgPkt) (p : PgPkt) (k : UInt8 × Fin 4) :
    logMap (log ++ [p]) k = (p.entry k).getD (logMap log k) := by
  simp [logMap, replay_append, apply]

/-- The words of a section are replaced in the log. -/
structure Replaces (offset wordEn : UInt8) (data : PgData) (e e' : Efuse)
    (log log' : List PgPkt) : Prop where
  fuse : e'.fuse = content log'
  le : logSize log ≤ logSize log'
  size : logSize log' ≤ efuseMaxSize
  map : ∀ k, logMap log' k =
    if k.1 = offset ∧ WordEnabled wordEn k.2 then data k.2 else logMap log k
  programmed : ∀ a ∈ e'.programmed, a ∈ e.programmed ∨ a < logSize log'

section Loop

variable (hw : EfuseHw) (n : ℕ) {offset : UInt8} (target : PgData) {st : PgWrite} {e : Efuse}
  {l₁ l₂ log : List PgPkt} {p : PgPkt}

/-- A packet that cannot be used is skipped. -/
theorem pgLoop_skip (hfuse : e.fuse = content (l₁ ++ p :: l₂)) (haddr : st.addr = logSize l₁)
    (hstate : st.dataState = false) (hen : st.wordEn < 16) (hlt : logSize l₁ < efuseLimit)
    (hskip : ¬ p.Reusable offset st.wordEn) :
    ∃ page, pgLoop hw (n + 1) offset target st e =
      pgLoop hw n offset target { st with addr := logSize (l₁ ++ [p]) }
        { e with page := page } := by
  have hheader : e.fuse st.addr = p.header := by
    rw [hfuse, haddr]
    exact content_header l₁ l₂ p
  have hempty : DataEmpty e.fuse st.addr (calculateWordCnts p.wordEn) ↔ p.Blank := by
    rw [hfuse, haddr]
    exact dataEmpty_content l₁ l₂ p
  have hnext : st.addr + calculateWordCnts p.wordEn * 2 + 1 = logSize (l₁ ++ [p]) := by
    rw [logSize_concat, haddr]
  have hlimit : ¬ efuseLimit ≤ st.addr := by omega
  simp only [pgLoop, select, hlimit, hstate, hheader, p.header_ne, p.headerOffset_header,
    p.headerWordEn_header, hnext, hempty, if_false, if_true, ne_eq, not_false_eq_true,
    Bool.false_eq_true]
  by_cases hoffset : p.offset = offset
  · by_cases hblank : p.Blank
    · have hmatch : ¬ ¬ matchWordEn st.wordEn p.wordEn &&& 0x0F = 0x0F :=
        fun h => hskip ⟨hoffset, hblank, (matchWordEn_ne hen p.wordEn_lt_sixteen).1 h⟩
      simp only [hoffset, hblank, hmatch, not_true_eq_false, if_false]
      exact ⟨_, rfl⟩
    · simp only [hoffset, hblank, not_true_eq_false, not_false_eq_true, if_true, if_false]
      exact ⟨_, rfl⟩
  · simp only [hoffset, not_false_eq_true, if_true]
    exact ⟨_, rfl⟩

/-- The packets before the first that can be used. -/
theorem pgLoop_scan : ∀ (l₂ l₁ : List PgPkt) {l₃ : List PgPkt} (st : PgWrite) (e : Efuse),
    e.fuse = content (l₁ ++ l₂ ++ l₃) → st.addr = logSize l₁ → st.dataState = false →
      st.wordEn < 16 → logSize (l₁ ++ l₂ ++ l₃) < efuseLimit →
        (∀ p ∈ l₂, ¬ p.Reusable offset st.wordEn) →
          ∃ page, pgLoop hw (n + l₂.length) offset target st e =
            pgLoop hw n offset target { st with addr := logSize (l₁ ++ l₂) }
              { e with page := page }
  | [], l₁, l₃, st, e, _, haddr, _, _, _, _ => by
    refine ⟨e.page, ?_⟩
    rw [append_nil, ← haddr]
    rfl
  | p :: l₂, l₁, l₃, st, e, hfuse, haddr, hstate, hen, hlt, hskip => by
    have hsplit : l₁ ++ p :: l₂ ++ l₃ = l₁ ++ [p] ++ l₂ ++ l₃ := by simp
    have hsplit' : l₁ ++ p :: l₂ ++ l₃ = l₁ ++ p :: (l₂ ++ l₃) := by simp
    have hlt' : logSize l₁ < efuseLimit := by
      rw [hsplit', logSize_append] at hlt
      omega
    obtain ⟨page, hfirst⟩ := pgLoop_skip hw (n + l₂.length) target
      (by rw [hfuse, hsplit']) haddr hstate hen hlt' (hskip p mem_cons_self)
    have hlog : ∀ q ∈ l₂, ¬ q.Reusable offset st.wordEn :=
      fun q hq => hskip q (mem_cons_of_mem p hq)
    obtain ⟨page', hrest⟩ := pgLoop_scan l₂ (l₁ ++ [p])
      { st with addr := logSize (l₁ ++ [p]) } { e with page := page }
      (by rw [← hsplit]; exact hfuse) rfl hstate hen (by rwa [← hsplit]) hlog
    refine ⟨page', ?_⟩
    rw [length_cons, ← add_assoc, hfirst, hrest]
    simp

section Append

variable {wordEn : UInt8} (hoffset : offset < 16)

theorem fuse_logSize (hfuse : e.fuse = content log) : e.fuse (logSize log) = 0xFF := by
  rw [hfuse, content_of_ge le_rfl]

/-- The efuse after the header of a packet is programmed at the end of the log. -/
theorem header_writes (hw : EfuseHw) (offset wordEn : UInt8) (hfuse : e.fuse = content log)
    (hlt : logSize log < efuseLimit) :
    let e1 := (e.select (logSize log)).oneByteWrite hw (logSize log) (pgHeader offset wordEn)
    e.Writes e1 (logSize log) [e1.fuse (logSize log)] ∧ e1.page = logSize log / 256 ∧
      (hw.Sound → e1.fuse (logSize log) = pgHeader offset wordEn) := by
  have hmax : efuseLimit + 14 = efuseMaxSize := rfl
  have hblank : (e.select (logSize log)).fuse (logSize log) = 0xFF := fuse_logSize hfuse
  obtain ⟨hwrites, hpage⟩ := (e.select (logSize log)).oneByteWrite_writes hw
    (pgHeader offset wordEn) hblank (by change logSize log / 256 % 4 ≤ _; omega) (by omega)
  have hread := (congrFun hwrites.fuse (logSize log)).trans
    (write_add e.fuse (logSize log) (l := [_]) one_pos)
  refine ⟨?_, hpage, fun hs => ?_⟩
  · rw [hread]
    exact { hwrites with }
  · rw [hread, getElem_cons_zero, hs, UInt8.or_zero]

/-- The words of a packet at the end of the log. -/
theorem words_writes {e1 : Efuse} (hen : wordEn < 15) (hfuse : e.fuse = content log)
    (hlt : logSize log < efuseLimit)
    (hwrites : e.Writes e1 (logSize log) [pgHeader offset wordEn])
    (hpage : e1.page = logSize log / 256) :
    ∃ e2 data bad, e1.wordEnableDataWrite hw (logSize log + 1) wordEn target = (e2, bad) ∧
      e2.fuse = content (log ++ [⟨offset, wordEn, data, hoffset, hen⟩]) ∧
      e1.WordsAt hw e2 (logSize log + 1) wordEn target data bad := by
  have hmax : efuseLimit + 14 = efuseMaxSize := rfl
  have hcnts := calculateWordCnts_le wordEn
  have hblank : ∀ i < 2 * calculateWordCnts wordEn, e1.fuse (logSize log + 1 + i) = 0xFF := by
    intro i _
    rw [hwrites.fuse, write_of_ge _ (by simp), hfuse]
    exact content_of_ge (by omega)
  obtain ⟨e2, data, bad, hwrite, hwords⟩ := e1.wordEnableDataWrite_writes hw target wordEn hblank
    (by omega) (by omega)
  refine ⟨e2, data, bad, hwrite, ?_, hwords⟩
  rw [content_concat, ← hfuse]
  exact (hwrites.trans hwords.writes).fuse

include hoffset in
/-- Without failures a packet is appended in one attempt. -/
theorem mends_of_sound (hs : hw.Sound) (hen : wordEn < 15) (hfuse : e.fuse = content log)
    (hlt : logSize log < efuseLimit) (cnts : ℕ) :
    mends hw offset target (n + 1) cnts wordEn (logSize log) e = true := by
  obtain ⟨hwrites, hpage, hheader⟩ := header_writes hw offset wordEn hfuse hlt
  rw [hheader hs] at hwrites
  obtain ⟨e2, data, bad, hwrite, -, hwords⟩ := words_writes hw target hoffset hen hfuse hlt hwrites
    hpage
  simp [mends, hheader hs, hwrite, hwords.sound hs]

/-- The words are replaced if all are good, or if the bad ones are replaced afterwards. -/
theorem Replaces.concat {e1 e2 e' : Efuse} {data : PgData} {bad : UInt8} {log' : List PgPkt}
    (hen : wordEn < 15) (hwords : e1.WordsAt hw e2 (logSize log + 1) wordEn target data bad)
    (hprog : ∀ a ∈ e1.programmed, a ∈ e.programmed ∨ a < logSize log + 1)
    (h : Replaces offset bad target e2 e' (log ++ [⟨offset, wordEn, data, hoffset, hen⟩]) log') :
    Replaces offset wordEn target e e' log log' ∧ logSize log < logSize log' := by
  have hle := h.le
  rw [logSize_concat] at hle
  refine ⟨⟨h.fuse, by omega, h.size, fun k => ?_, fun a ha => ?_⟩, by omega⟩
  · rw [h.map, logMap_concat, PgPkt.entry]
    have henabled := hwords.enabled k.2
    by_cases hk : k.1 = offset <;> by_cases hw' : WordEnabled wordEn k.2 <;>
      by_cases hbad : data k.2 = target k.2 <;> simp [hk, hw', hbad, henabled]
  · rcases h.programmed a ha with ha | ha
    · rcases hwords.writes.programmed a ha with ha | ha
      · exact (hprog a ha).imp_right fun _ => by omega
      · rw [length_wordBytes] at ha
        change _ ∧ a < logSize log + 1 + 2 * calculateWordCnts wordEn at ha
        exact .inr (by change logSize log + calculateWordCnts wordEn * 2 + 1 ≤ _ at hle; omega)
    · exact .inr ha

include hoffset in
/-- At the end of the log the words are appended, in some attempts. -/
theorem pgLoop_mends : ∀ (m : ℕ) {n : ℕ} (st : PgWrite) {e : Efuse} {log : List PgPkt},
    st.wordEn < 15 → e.fuse = content log → st.addr = logSize log → st.dataState = false →
      logSize log < efuseLimit →
        mends hw offset target m st.wordCnts st.wordEn (logSize log) e = true →
          ∃ e' log', pgLoop hw (n + 2 * m) offset target st e = some e' ∧
            Replaces offset st.wordEn target e e' log log' ∧ logSize log < logSize log'
  | m + 1, n, ⟨addr, dataState, wordEn, wordCnts, original⟩, e, log, hen, hfuse, haddr, hstate, hlt,
      hmends => by
    obtain rfl : addr = logSize log := haddr
    obtain rfl : dataState = false := hstate
    have hmax : efuseLimit + 14 = efuseMaxSize := rfl
    have hcnts := calculateWordCnts_le wordEn
    have hlimit : ¬ efuseLimit ≤ logSize log := by omega
    have hblank : (e.select (logSize log)).fuse (logSize log) = 0xFF := fuse_logSize hfuse
    obtain ⟨hwrites, hpage, -⟩ := header_writes hw offset wordEn hfuse hlt
    rw [mends] at hmends
    generalize he1 : (e.select (logSize log)).oneByteWrite hw (logSize log)
      (pgHeader offset wordEn) = e1 at hwrites hpage hmends
    have hprog : ∀ a ∈ e1.programmed, a ∈ e.programmed ∨ a < logSize log + 1 :=
      fun a ha => (hwrites.programmed a ha).imp_right And.right
    simp only [] at hmends
    split_ifs at hmends with hheader
    · rw [hheader] at hwrites
      obtain ⟨e2, data, bad, hwrite, hfuse2, hwords⟩ := words_writes hw target hoffset hen hfuse hlt
        hwrites hpage
      have hsize := logSize_concat log ⟨offset, wordEn, data, hoffset, hen⟩
      simp only at hsize
      -- the round of the header, and the round of the words
      have hfirst : pgLoop hw (n + 2 * (m + 1)) offset target
          ⟨logSize log, false, wordEn, wordCnts, original⟩ e =
            pgLoop hw (n + 2 * m + 1) offset target
              ⟨logSize log, true, wordEn, wordCnts, original⟩ e1 := by
        rw [show n + 2 * (m + 1) = n + 2 * m + 1 + 1 by omega, pgLoop]
        simp only [hlimit, hblank, he1, hheader, if_false, if_true, ne_eq, not_true_eq_false,
          Bool.false_eq_true]
      rw [hfirst, pgLoop]
      simp only [hlimit, hwrite, if_false, if_true]
      simp only [hwrite, Bool.or_eq_true, Bool.and_eq_true, decide_eq_true_eq] at hmends
      by_cases hgood : bad &&& 0x0F = 0x0F
      · refine ⟨e2, _, if_pos hgood, Replaces.concat hw target hoffset hen hwords hprog
          ⟨hfuse2, le_rfl, hsize.trans_le (by omega), fun k => ?_, fun a ha => .inl ha⟩⟩
        rw [if_neg fun h => (noWords_iff hwords.lt).1 hgood k.2 h.2]
      · obtain ⟨⟨⟨rfl, hnext⟩, hcount⟩, hmends⟩ := hmends.resolve_left hgood
        have haddr : logSize log + 2 * calculateWordCnts wordEn + 1 =
            logSize (log ++ [⟨offset, wordEn, data, hoffset, hen⟩]) := by omega
        have hbad : bad < 15 := forall_nibble (p := fun bad => bad &&& 0x0F ≠ 0x0F → bad < 15)
          (by decide +kernel) hwords.lt hgood
        rw [haddr] at hmends hnext ⊢
        obtain ⟨e', log', hloop, h, -⟩ := pgLoop_mends m (n := n)
          ⟨logSize (log ++ [⟨offset, wordEn, data, hoffset, hen⟩]), false, bad,
            calculateWordCnts bad, original⟩ hbad (e := e2.count) hfuse2 rfl rfl hnext hmends
        refine ⟨e', log', ?_, Replaces.concat hw target hoffset hen hwords hprog { h with }⟩
        rw [if_neg hgood, if_neg (not_lt.2 hcount)]
        exact hloop
    · simp only [Bool.and_eq_true, decide_eq_true_eq] at hmends
      obtain ⟨⟨hsame, hcount⟩, hmends⟩ := hmends
      rw [hsame] at hheader
      have hfuse1 : e1.fuse = content log := by
        rw [hwrites.fuse, hsame, hfuse]
        funext i
        by_cases hi : i = logSize log
        · rw [hi, content_of_ge le_rfl]
          exact write_add (content log) (logSize log) (l := [_]) one_pos
        · exact write_of_outside _ (by simp; omega)
      obtain ⟨e', log', hloop, h, hgrows⟩ := pgLoop_mends m (n := n + 1)
        ⟨logSize log, false, wordEn, wordCnts, original⟩ (e := e1.count) hen hfuse1 rfl rfl hlt
        hmends
      refine ⟨e', log', ?_, { h with programmed := fun a ha => ?_ }, hgrows⟩
      · rw [show n + 2 * (m + 1) = n + 1 + 2 * m + 1 by omega, pgLoop]
        simp only [hlimit, hblank, he1, hsame, hheader, not_lt.2 hcount, if_false, if_true, ne_eq,
          not_true_eq_false, Bool.false_eq_true]
        exact hloop
      · rcases h.programmed a ha with ha | ha
        · exact (hprog a ha).imp_right fun _ => by omega
        · exact .inr ha

end Append

/-- The words are written into a blank packet. -/
theorem reuse_writes (hfuse : e.fuse = content (l₁ ++ p :: l₂))
    (hlt : logSize (l₁ ++ p :: l₂) < efuseLimit) (hblank : p.Blank)
    (hpage : (logSize l₁ + calculateWordCnts p.wordEn * 2) / 256 ≤ (logSize l₁ + 1) / 256) :
    ∃ e1 data bad, e.reuse hw target (logSize l₁) p.wordEn = (e1, bad) ∧
      e.WordsAt hw e1 (logSize l₁ + 1) p.wordEn target data bad ∧
      (bad &&& 0x0F = 0x0F → e1.fuse = content (l₁ ++ p.setData target :: l₂)) := by
  have hempty : DataEmpty e.fuse (logSize l₁) (calculateWordCnts p.wordEn) := by
    rw [hfuse]
    exact (dataEmpty_content l₁ l₂ p).2 hblank
  have hmax : efuseLimit + 14 = efuseMaxSize := rfl
  have hcnts := calculateWordCnts_le p.wordEn
  have hsize := logSize_append l₁ (p :: l₂)
  -- the address register is as after the last byte of the packet
  obtain ⟨e1, data, bad, hwrite, hwords⟩ := wordEnableDataWrite_writes hw target p.wordEn
    (e := e.select (logSize l₁ + calculateWordCnts p.wordEn * 2))
    (fun i hi => hempty i (by omega))
    (by
      change (logSize l₁ + calculateWordCnts p.wordEn * 2) / 256 % 4 ≤ _
      omega) (by omega)
  have hwrites := hwords.writes
  refine ⟨e1, data, bad, hwrite, ⟨{ hwrites with },
    hwords.lt, hwords.enabled, hwords.sound⟩, fun hgood => ?_⟩
  have hbytes : wordBytes data (enabledWords p.wordEn) = wordBytes target (enabledWords p.wordEn) :=
    flatMap_congr fun w hw => by rw [hwords.good hgood w (mem_enabledWords.1 hw)]
  rw [hwrites.fuse, hbytes, ← write_words, ← hfuse]
  rfl

/-- The loop goes on with the words that are not in the packet. -/
theorem pgLoop_reuse (st : PgWrite) (e : Efuse) {e1 : Efuse} {bad : UInt8} (hen : st.wordEn < 16)
    (hfuse : e.fuse = content (l₁ ++ p :: l₂)) (haddr : st.addr = logSize l₁)
    (hstate : st.dataState = false) (hlt : logSize (l₁ ++ p :: l₂) < efuseLimit)
    (huse : p.Reusable offset st.wordEn)
    (hreuse : e.reuse hw target (logSize l₁) p.wordEn = (e1, bad)) (hgood : bad &&& 0x0F = 0x0F)
    (hfuse1 : e1.fuse = content (l₁ ++ p.setData target :: l₂)) :
    (restWordEn st.wordEn (matchWordEn st.wordEn p.wordEn) &&& 0x0F ≠ 0x0F →
      ¬ efuseRepeatThreshold < e1.count.repeatTimes →
        pgLoop hw (n + 1) offset target st e =
          pgLoop hw n offset target { st with
            addr := logSize (l₁ ++ p :: l₂)
            wordEn := restWordEn st.wordEn (matchWordEn st.wordEn p.wordEn) } e1.count) ∧
    (restWordEn st.wordEn (matchWordEn st.wordEn p.wordEn) &&& 0x0F = 0x0F →
      pgLoop hw (n + 1) offset target st e = some e1.count) := by
  have hheader : (e.select st.addr).fuse st.addr = p.header := by
    change e.fuse st.addr = p.header
    rw [hfuse, haddr]
    exact content_header l₁ l₂ p
  have hempty : DataEmpty (e.select st.addr).fuse st.addr (calculateWordCnts p.wordEn) := by
    change DataEmpty e.fuse st.addr _
    rw [hfuse, haddr]
    exact (dataEmpty_content l₁ l₂ p).2 huse.2.1
  have hmatch := (matchWordEn_ne hen p.wordEn_lt_sixteen).2 huse.2.2
  have hmax : efuseLimit + 14 = efuseMaxSize := rfl
  have hsize := logSize_append l₁ (p :: l₂)
  have hlimit : ¬ efuseLimit ≤ st.addr := by omega
  have hsize1 : getCurrentSize e1.fuse = logSize (l₁ ++ p :: l₂) := by
    have hsame := logSize_setData l₁ l₂ p target
    rw [hfuse1, getCurrentSize_content (by omega), hsame]
  have hwrite : ((e.select st.addr).select
      (st.addr + calculateWordCnts p.wordEn * 2)).wordEnableDataWrite hw (st.addr + 1) p.wordEn
        target = (e1, bad) := by
    rw [haddr]
    exact hreuse
  simp only [pgLoop, hlimit, hstate, hheader, p.header_ne, p.headerOffset_header,
    p.headerWordEn_header, huse.1, hempty, hmatch, hwrite, hgood, if_false, if_true, ne_eq,
    not_false_eq_true, not_true_eq_false, Bool.false_eq_true, bind_some, hsize1]
  refine ⟨fun hrest hcount => ?_, fun hrest => ?_⟩
  · simp only [hrest, hcount, not_false_eq_true, if_true, if_false]
  · simp only [hrest, not_true_eq_false, if_false]

end Loop

/-! ## Calls -/

/-- The arguments of `efuse_PgPacketWrite`. -/
structure EfuseCall where
  offset : UInt8
  wordEn : UInt8
  data : PgData
  offset_lt : offset < 16
  wordEn_lt : wordEn < 15

namespace EfuseCall

variable {c : EfuseCall}

theorem wordEn_lt_sixteen (c : EfuseCall) : c.wordEn < 16 :=
  UInt8.lt_trans c.wordEn_lt (by decide)

/-- `target_pkt.data`. -/
abbrev target (c : EfuseCall) : PgData :=
  targetData c.wordEn c.data

theorem target_of_enabled {w : Fin 4} (h : WordEnabled c.wordEn w) : c.target w = c.data w :=
  if_pos h

theorem target_of_not {w : Fin 4} (h : ¬ WordEnabled c.wordEn w) : c.target w = blankWord :=
  if_neg h

/-- The packet is one that the call writes into. -/
abbrev Finds (c : EfuseCall) (p : PgPkt) : Prop :=
  p.Reusable c.offset c.wordEn

/-- The byte `i` of the map is one of the call. -/
def Has (c : EfuseCall) (i : ℕ) : Prop :=
  i / 8 = c.offset.toNat ∧ WordEnabled c.wordEn (Fin.ofNat 4 (i % 8 / 2))

instance (c : EfuseCall) (i : ℕ) : Decidable (c.Has i) :=
  inferInstanceAs (Decidable (_ ∧ _))

/-- All words of the call are `word`. -/
def ofWord (offset wordEn : UInt8) (word : UInt8 × UInt8)
    (h : offset < 16 ∧ wordEn < 15 := by decide) : EfuseCall :=
  ⟨offset, wordEn, fun _ => word, h.1, h.2⟩

end EfuseCall

section Calls

variable {hw : EfuseHw} {n : ℕ} {c : EfuseCall} {e : Efuse} {log l₁ l₂ : List PgPkt} {p : PgPkt}

/-- A call that finds a packet to use : the packet is not hidden by a later one, the other words are
not dropped, and it does not lie across the address 256. -/
structure EfuseCall.ClearAt (c : EfuseCall) (repeatTimes : ℕ) (l₁ : List PgPkt) (p : PgPkt)
    (l₂ : List PgPkt) : Prop where
  last : ∀ q ∈ l₂, q.offset = c.offset →
    ∀ w, WordEnabled c.wordEn w → WordEnabled p.wordEn w → ¬ WordEnabled q.wordEn w
  rest : (∃ w, WordEnabled c.wordEn w ∧ ¬ WordEnabled p.wordEn w) →
    repeatTimes < efuseRepeatThreshold
  page : (logSize l₁ + calculateWordCnts p.wordEn * 2) / 256 ≤ (logSize l₁ + 1) / 256

/-- What is asked of the packet of a log that the call finds. -/
def EfuseCall.ClearLog (c : EfuseCall) (repeatTimes : ℕ) (log : List PgPkt) : Prop :=
  ∀ l₁ p l₂, log = l₁ ++ p :: l₂ → (∀ q ∈ l₁, ¬ c.Finds q) →
    c.Finds p → c.ClearAt repeatTimes l₁ p l₂

/-- The programmings of the call succeed after its repetitions. -/
structure EfuseCall.Programs (c : EfuseCall) (hw : EfuseHw) (e : Efuse) (log : List PgPkt) :
    Prop where
  append : (∀ p ∈ log, ¬ c.Finds p) →
    mends hw c.offset c.target 5 (calculateWordCnts c.wordEn) c.wordEn
      (logSize log) e = true
  reuse : ∀ l₁ p l₂, log = l₁ ++ p :: l₂ → (∀ q ∈ l₁, ¬ c.Finds q) →
    c.Finds p →
      let r := e.reuse hw c.target (logSize l₁) p.wordEn
      let rest := restWordEn c.wordEn (matchWordEn c.wordEn p.wordEn)
      r.2 &&& 0x0F = 0x0F ∧ (rest &&& 0x0F ≠ 0x0F →
        mends hw c.offset c.target 5 (calculateWordCnts c.wordEn) rest
          (logSize log) r.1.count = true)

/-- The call leads from a log to another one, with its words in the map. -/
def EfuseCall.Done (c : EfuseCall) : Efuse → Efuse → List PgPkt → List PgPkt → Prop :=
  Replaces c.offset c.wordEn c.target

/-- The words that are not in the old packet. -/
structure RestWords (target tmp rest : UInt8) : Prop where
  lt : rest &&& 0x0F ≠ 0x0F → rest < 15
  ne : rest &&& 0x0F ≠ 0x0F ↔ ∃ w, WordEnabled target w ∧ ¬ WordEnabled tmp w
  enabled : ∀ w, WordEnabled rest w ↔ WordEnabled target w ∧ ¬ WordEnabled tmp w

theorem restWords_nibbles : ∀ a b : Fin 16,
    let rest := restWordEn (ofNat a) (matchWordEn (ofNat a) (ofNat b))
    (rest &&& 0x0F ≠ 0x0F → rest < 15) ∧
      (rest &&& 0x0F ≠ 0x0F ↔ ∃ w, WordEnabled (ofNat a) w ∧ ¬ WordEnabled (ofNat b) w) ∧
      ∀ w, WordEnabled rest w ↔
        WordEnabled (ofNat a) w ∧ ¬ WordEnabled (ofNat b) w := by
  decide +kernel

theorem restWords {target tmp : UInt8} (ht : target < 16) (htmp : tmp < 16) :
    RestWords target tmp (restWordEn target (matchWordEn target tmp)) := by
  refine forall_nibbles (p := fun target tmp =>
    RestWords target tmp (restWordEn target (matchWordEn target tmp))) ?_ ht htmp
  intro a b
  obtain ⟨hlt, hne, henabled⟩ := restWords_nibbles a b
  exact ⟨hlt, hne, henabled⟩

/-- The map after the words are written into an old packet. -/
theorem logMap_reuse (l₁ : List PgPkt) (huse : c.Finds p) (hlast : ∀ q ∈ l₂, q.offset = c.offset →
      ∀ w, WordEnabled c.wordEn w → WordEnabled p.wordEn w → ¬ WordEnabled q.wordEn w)
    (k : UInt8 × Fin 4) :
    logMap (l₁ ++ p.setData c.target :: l₂) k =
      if (k.1 = c.offset ∧ WordEnabled c.wordEn k.2) ∧ WordEnabled p.wordEn k.2 then
        c.target k.2
      else logMap (l₁ ++ p :: l₂) k := by
  obtain ⟨hoffset, hblank, -⟩ := huse
  simp only [logMap, map_append, map_cons]
  split_ifs with hk
  · obtain ⟨⟨hk, hw⟩, hp⟩ := hk
    refine replay_of_last ?_ ?_
    · exact (p.setData c.target).entry_eq_some ⟨hk.trans hoffset.symm, hp⟩
    · intro f hf
      obtain ⟨q, hq, rfl⟩ := mem_map.1 hf
      exact q.entry_eq_none fun h => hlast q hq (h.1.symm.trans hk) k.2 hw hp h.2
  · refine replay_of_eq ?_
    by_cases hp : k.1 = p.offset ∧ WordEnabled p.wordEn k.2
    · -- a word of the packet that the call does not have
      have hw : ¬ WordEnabled c.wordEn k.2 := fun hw => hk ⟨⟨hp.1.trans hoffset, hw⟩, hp.2⟩
      rw [p.entry_eq_some hp, (p.setData c.target).entry_eq_some hp,
        PgPkt.data_setData, EfuseCall.target_of_not hw, hblank k.2 hp.2]
    · rw [p.entry_eq_none hp, (p.setData c.target).entry_eq_none hp]

/-- The loop before the packet that can be used, or the end of the log. -/
theorem pgPacketWrite_scan (hw : EfuseHw) (hn : efuseMaxSize ≤ n)
    (hfuse : e.fuse = content (l₁ ++ l₂)) (hlt : logSize (l₁ ++ l₂) < efuseLimit)
    (hnone : ∀ q ∈ l₁, ¬ c.Finds q) :
    ∃ m page, pgPacketWrite hw n c.offset c.wordEn c.data e =
      (pgLoop hw (m + 2 * 5 + 1) c.offset c.target
        ⟨logSize l₁, false, c.wordEn, calculateWordCnts c.wordEn, hw.stack e.calls⟩
        { e with calls := e.calls + 1, page := page }).map (true, ·) := by
  have hmax : efuseLimit + 14 = efuseMaxSize := rfl
  have hlen := length_le_logSize l₁
  have hsplit := logSize_append l₁ l₂
  have hlimit : efuseLimit = 498 := rfl
  have hsize : ¬ efuseLimit ≤ getCurrentSize e.fuse := by
    rw [hfuse, getCurrentSize_content (by omega)]
    omega
  obtain ⟨m, rfl⟩ : ∃ m, n = m + 2 * 5 + 1 + l₁.length := ⟨n - 11 - l₁.length, by omega⟩
  obtain ⟨page, hscan⟩ := pgLoop_scan hw (m + 2 * 5 + 1) c.target l₁ []
    (.start hw c.wordEn e) { e with calls := e.calls + 1 } hfuse rfl rfl c.wordEn_lt_sixteen hlt
    hnone
  refine ⟨m, page, ?_⟩
  rw [nil_append] at hscan
  rw [pgPacketWrite, if_neg hsize, hscan]
  rfl

/-- A call that finds no packet to use appends one. -/
theorem pgPacketWrite_append (hn : efuseMaxSize ≤ n) (hfuse : e.fuse = content log)
    (hlt : logSize log < efuseLimit) (hnone : ∀ p ∈ log, ¬ c.Finds p)
    (hprog : c.Programs hw { e with calls := e.calls + 1 } log) :
    ∃ e' log', pgPacketWrite hw n c.offset c.wordEn c.data e = some (true, e') ∧
      c.Done e e' log log' := by
  rw [← append_nil log] at hfuse hlt
  obtain ⟨m, page, hscan⟩ := pgPacketWrite_scan hw hn hfuse hlt hnone
  rw [append_nil] at hfuse hlt
  obtain ⟨e', log', hloop, h, -⟩ := pgLoop_mends hw c.target c.offset_lt 5
    (n := m + 1) ⟨logSize log, false, c.wordEn, calculateWordCnts c.wordEn, hw.stack e.calls⟩
    (e := { e with calls := e.calls + 1, page := page }) c.wordEn_lt hfuse rfl rfl hlt
    (hprog.append hnone)
  refine ⟨e', log', ?_, h.fuse, h.le, h.size, h.map, h.programmed⟩
  rw [hscan, show m + 2 * 5 + 1 = m + 1 + 2 * 5 by omega, hloop]
  rfl

/-- A call that writes into an old packet. -/
theorem pgPacketWrite_reuse (hn : efuseMaxSize ≤ n)
    (hfuse : e.fuse = content (l₁ ++ p :: l₂)) (hlt : logSize (l₁ ++ p :: l₂) < efuseLimit)
    (hnone : ∀ q ∈ l₁, ¬ c.Finds q) (huse : c.Finds p)
    (hclear : c.ClearAt e.repeatTimes l₁ p l₂)
    (hprog : c.Programs hw { e with calls := e.calls + 1 } (l₁ ++ p :: l₂)) :
    ∃ e' log', pgPacketWrite hw n c.offset c.wordEn c.data e = some (true, e') ∧
      c.Done e e' (l₁ ++ p :: l₂) log' := by
  have hmax : efuseLimit + 14 = efuseMaxSize := rfl
  obtain ⟨m, page, hscan⟩ := pgPacketWrite_scan hw hn hfuse hlt hnone
  obtain ⟨e1, data, bad, hreuse, hwords, hfuse1⟩ := reuse_writes hw c.target
    (e := { e with calls := e.calls + 1, page := page }) hfuse hlt huse.2.1 hclear.page
  obtain ⟨hgood, hmends⟩ := hprog.reuse l₁ p l₂ rfl hnone huse
  rw [show Efuse.reuse hw c.target (logSize l₁) p.wordEn
    { e with calls := e.calls + 1 } = (e1, bad) from hreuse] at hgood hmends
  have hfuse1 := hfuse1 hgood
  obtain ⟨hgo, hstop⟩ := pgLoop_reuse hw (m + 2 * 5) c.target
    ⟨logSize l₁, false, c.wordEn, calculateWordCnts c.wordEn, hw.stack e.calls⟩
    { e with calls := e.calls + 1, page := page } c.wordEn_lt_sixteen hfuse rfl rfl hlt huse hreuse
    hgood hfuse1
  have hrest := restWords c.wordEn_lt_sixteen p.wordEn_lt_sixteen
  generalize hlog1 : l₁ ++ p.setData c.target :: l₂ = log1 at hfuse1
  have hsize1 : logSize log1 = logSize (l₁ ++ p :: l₂) := hlog1 ▸ logSize_setData ..
  have hmap := logMap_reuse l₁ huse hclear.last
  rw [hlog1] at hmap
  -- the old packet is in the log
  have hold : ∀ a ∈ e1.count.programmed, a ∈ e.programmed ∨ a < logSize (l₁ ++ p :: l₂) := by
    intro a ha
    refine (hwords.writes.programmed a ha).imp_right fun hlt => ?_
    rw [length_wordBytes] at hlt
    have hp := logSize_cons p l₂
    have hsplit := logSize_append l₁ (p :: l₂)
    change _ ∧ a < logSize l₁ + 1 + 2 * calculateWordCnts p.wordEn at hlt
    omega
  by_cases hne : restWordEn c.wordEn (matchWordEn c.wordEn p.wordEn) &&& 0x0F = 0x0F
  · refine ⟨e1.count, log1, ?_, hfuse1, hsize1.ge, by omega, fun k => ?_, fun a ha => ?_⟩
    · rw [hscan, hstop hne]
      rfl
    · rw [hmap k]
      refine if_congr (and_iff_left_of_imp fun hk => ?_) rfl rfl
      by_contra hp
      exact hrest.ne.2 ⟨k.2, hk.2, hp⟩ hne
    · rw [hsize1]
      exact hold a ha
  · have hcount : ¬ efuseRepeatThreshold < e1.count.repeatTimes := by
      have hless := hclear.rest (hrest.ne.1 hne)
      have hrepeat : e1.repeatTimes = e.repeatTimes := hwords.writes.repeatTimes
      simp only [Efuse.count, efuseRepeatThreshold, hrepeat] at hless ⊢
      omega
    have hmends := hmends hne
    rw [← hsize1] at hmends hlt
    obtain ⟨e2, log2, hloop, h, -⟩ := pgLoop_mends hw c.target c.offset_lt 5
      (n := m) ⟨logSize log1, false, restWordEn c.wordEn (matchWordEn c.wordEn p.wordEn),
        calculateWordCnts c.wordEn, hw.stack e.calls⟩ (e := e1.count) (hrest.lt hne) hfuse1 rfl rfl
      hlt hmends
    have hle := h.le
    refine ⟨e2, log2, ?_, h.fuse, by omega, h.size, fun k => ?_, fun a ha => ?_⟩
    · rw [hscan, hgo hne hcount, ← hsize1]
      exact congrArg (Option.map (true, ·)) hloop
    · rw [h.map, hmap k]
      by_cases hk : k.1 = c.offset <;> by_cases hw : WordEnabled c.wordEn k.2 <;>
        by_cases hp : WordEnabled p.wordEn k.2 <;> simp [hrest.enabled k.2, hk, hw, hp]
    · rcases h.programmed a ha with ha | ha
      · exact (hold a ha).imp_right fun hlt => by omega
      · exact .inr ha

/-- A call on a log, whether it finds a packet to use or not. -/
theorem pgPacketWrite_log (hn : efuseMaxSize ≤ n) (hfuse : e.fuse = content log)
    (hlt : logSize log < efuseLimit)
    (hclear : c.ClearLog e.repeatTimes log)
    (hprog : c.Programs hw { e with calls := e.calls + 1 } log) :
    ∃ e' log', pgPacketWrite hw n c.offset c.wordEn c.data e = some (true, e') ∧
      c.Done e e' log log' := by
  cases hfind : log.find? (c.Finds ·) with
  | none =>
    have hnone : ∀ p ∈ log, ¬ c.Finds p := by simpa using hfind
    exact pgPacketWrite_append hn hfuse hlt hnone hprog
  | some p =>
    obtain ⟨huse, l₁, l₂, rfl, hnone⟩ := List.find?_eq_some_iff_append.1 hfind
    have huse : c.Finds p := by simpa using huse
    have hnone : ∀ q ∈ l₁, ¬ c.Finds q := by simpa using hnone
    exact pgPacketWrite_reuse hn hfuse hlt hnone huse (hclear l₁ p l₂ rfl hnone huse) hprog

/-- Without failures all programmings succeed. -/
theorem EfuseCall.programs_of_sound (hs : hw.Sound) (hfuse : e.fuse = content log)
    (hlt : logSize log < efuseLimit) (hclear : c.ClearLog e.repeatTimes log) :
    c.Programs hw e log := by
  refine ⟨fun _ => mends_of_sound hw 4 _ c.offset_lt hs c.wordEn_lt hfuse hlt _, ?_⟩
  rintro l₁ p l₂ rfl hnone huse
  obtain ⟨e1, data, bad, hreuse, hwords, hfuse1⟩ := reuse_writes hw c.target
    hfuse hlt huse.2.1 (hclear l₁ p l₂ rfl hnone huse).page
  have hgood := hwords.sound hs
  simp only [hreuse]
  refine ⟨hgood, fun hne => ?_⟩
  rw [← logSize_setData l₁ l₂ p c.target] at hlt ⊢
  exact mends_of_sound hw 4 _ c.offset_lt hs
    ((restWords c.wordEn_lt_sixteen p.wordEn_lt_sixteen).lt hne) (e := e1.count)
    (hfuse1 hgood) hlt _

end Calls

/-! ## Runs -/

/-- The fuse has no bit cleared. -/
def Efuse.IsBlank (e : Efuse) : Prop :=
  ∀ i, e.fuse i = 0xFF

/-- The efuse after a call. -/
def efuseStep (hw : EfuseHw) (n : ℕ) (e : Efuse) (c : EfuseCall) : Efuse :=
  ((pgPacketWrite hw n c.offset c.wordEn c.data e).map Prod.snd).getD e

/-- The call returns, and the map that is read after it is the map before with the words of the call
replaced. -/
def Efuse.Updates (hw : EfuseHw) (n : ℕ) (e : Efuse) (c : EfuseCall) : Prop :=
  ∃ e', pgPacketWrite hw n c.offset c.wordEn c.data e = some (true, e') ∧
    ∃ map map', readEFuse e.fuse 0 128 = some map ∧ readEFuse e'.fuse 0 128 = some map' ∧
      map.length = 128 ∧ map'.length = 128 ∧
        ∀ i < 128, map'[i]? =
          if c.Has i then some (efuseTbl (fun _ => c.data) i) else map[i]?

/-- The log ends below the limit, and a packet that the call finds to use is not hidden by a later
one, the words that it does not have are not dropped, and it does not lie across the address 256. -/
structure Efuse.Clear (e : Efuse) (c : EfuseCall) : Prop where
  below : getCurrentSize e.fuse < efuseLimit
  clear : ∀ l₁ p l₂, e.fuse = content (l₁ ++ p :: l₂) →
    (∀ q ∈ l₁, ¬ c.Finds q) → c.Finds p →
      c.ClearAt e.repeatTimes l₁ p l₂

theorem Efuse.Clear.clearLog {e : Efuse} {c : EfuseCall} {log : List PgPkt} (h : e.Clear c)
    (hfuse : e.fuse = content log) : c.ClearLog e.repeatTimes log :=
  fun l₁ p l₂ hsplit => h.clear l₁ p l₂ (by rw [hfuse, hsplit])

/-- A blank packet is the only one. -/
theorem Efuse.clear_of_single {e : Efuse} {c : EfuseCall}
    (hbelow : getCurrentSize e.fuse < efuseLimit)
    (hoffset : headerOffset (e.fuse 0) = c.offset)
    (hempty : DataEmpty e.fuse 0 (calculateWordCnts (headerWordEn (e.fuse 0))))
    (hend : e.fuse (calculateWordCnts (headerWordEn (e.fuse 0)) * 2 + 1) = 0xFF)
    (huse : ∃ w, WordEnabled c.wordEn w ∧ WordEnabled (headerWordEn (e.fuse 0)) w)
    (hrepeat : e.repeatTimes < efuseRepeatThreshold) : e.Clear c := by
  have hfirst : ∀ q l, e.fuse = content (q :: l) →
      e.fuse 0 = q.header ∧ c.Finds q := by
    intro q l hfuse
    have hheader : e.fuse 0 = q.header := by
      rw [hfuse]
      exact content_header [] l q
    rw [hheader, q.headerWordEn_header] at hempty huse
    rw [hheader, q.headerOffset_header] at hoffset
    rw [hfuse] at hempty
    exact ⟨hheader, hoffset, (dataEmpty_content [] l q).1 hempty, huse⟩
  refine ⟨hbelow, fun l₁ p l₂ hfuse hnone hp => ?_⟩
  cases l₁ with
  | cons q l₁ => exact absurd (hfirst q _ hfuse).2 (hnone q mem_cons_self)
  | nil =>
    have hheader := (hfirst p l₂ hfuse).1
    have hcnts := calculateWordCnts_le p.wordEn
    rw [hheader, p.headerWordEn_header] at hend
    refine ⟨fun q hq => ?_, fun _ => hrepeat, by rw [logSize_nil]; omega⟩
    obtain ⟨r, l, rfl⟩ := exists_cons_of_ne_nil (ne_nil_of_mem hq)
    have hnext := content_header [p] l r
    rw [logSize_cons, logSize_nil, add_zero] at hnext
    rw [hfuse] at hend
    exact absurd (hnext.symm.trans hend) r.header_ne

/-- The fuse is a log. -/
def Efuse.IsLog (e : Efuse) : Prop :=
  ∃ log, e.fuse = content log ∧ logSize log ≤ efuseMaxSize

theorem Efuse.IsBlank.isLog {e : Efuse} (h : e.IsBlank) : e.IsLog :=
  ⟨[], funext fun i => (h i).trans (content_of_ge (zero_le i)).symm, zero_le _⟩

/-- A blank efuse has no packet. -/
theorem Efuse.IsBlank.ne_content {e : Efuse} (h : e.IsBlank) (l₁ : List PgPkt) (p : PgPkt)
    (l₂ : List PgPkt) : e.fuse ≠ content (l₁ ++ p :: l₂) := by
  intro hfuse
  refine p.header_ne ?_
  rw [← content_header l₁ l₂ p, ← hfuse, h]

/-- `ReadEFuse` of the whole map. -/
theorem readEFuse_content {log : List PgPkt} (h : logSize log ≤ efuseMaxSize) :
    readEFuse (content log) 0 128 =
      some ((range 128).map fun i => efuseTbl (fun o w => logMap log (o, w)) i) := by
  simp [readEFuse, readEFuseWords_content h]

theorem ofNat_eq_iff {m : ℕ} {o : UInt8} (h : m < 256) : UInt8.ofNat m = o ↔ m = o.toNat := by
  constructor
  · rintro rfl
    exact (UInt8.toNat_ofNat_of_lt' h).symm
  · rintro rfl
    exact UInt8.ofNat_toNat

/-- The bytes of the map after a call. -/
theorem EfuseCall.Done.efuseTbl_eq {c : EfuseCall} {e e' : Efuse} {log log' : List PgPkt}
    (h : c.Done e e' log log') {i : ℕ} (hi : i < 128) :
    efuseTbl (fun o w => logMap log' (o, w)) i =
      if c.Has i then efuseTbl (fun _ => c.data) i
      else efuseTbl (fun o w => logMap log (o, w)) i := by
  have hoffset : ofNat (i / 8) = c.offset ↔ i / 8 = c.offset.toNat :=
    ofNat_eq_iff (by omega)
  simp only [efuseTbl, h.map, hoffset, EfuseCall.Has]
  by_cases hk : i / 8 = c.offset.toNat ∧ WordEnabled c.wordEn (Fin.ofNat 4 (i % 8 / 2))
  · rw [if_pos hk, if_pos hk, EfuseCall.target_of_enabled hk.2]
  · rw [if_neg hk, if_neg hk]

/-- A call keeps the log. -/
theorem Efuse.IsLog.updates {hw : EfuseHw} {n : ℕ} {e : Efuse} {c : EfuseCall} (hs : hw.Sound)
    (hn : efuseMaxSize ≤ n) (hlog : e.IsLog) (hclear : e.Clear c) :
    e.Updates hw n c ∧ (efuseStep hw n e c).IsLog := by
  obtain ⟨log, hfuse, hsize⟩ := hlog
  have hlt : logSize log < efuseLimit := by
    rw [← getCurrentSize_content hsize, ← hfuse]
    exact hclear.below
  have hclear' := hclear.clearLog hfuse
  obtain ⟨e', log', hwrite, hdone⟩ := pgPacketWrite_log hn hfuse hlt hclear'
    (EfuseCall.programs_of_sound hs hfuse hlt hclear')
  have hsize' : logSize log' ≤ efuseMaxSize := hdone.size
  refine ⟨⟨e', hwrite, _, _, by rw [hfuse, readEFuse_content hsize], by
    rw [hdone.fuse, readEFuse_content hsize'], by simp, by simp, fun i hi => ?_⟩, log', ?_, hsize'⟩
  · simp only [List.getElem?_map, List.getElem?_range hi, map_some, hdone.efuseTbl_eq hi]
    split_ifs <;> rfl
  · rw [efuseStep, hwrite]
    exact hdone.fuse

/-- In a run from a blank efuse, in which no call finds the log beyond the limit or a packet to use
that is not clear, each call updates the map. -/
theorem efuse_runs {hw : EfuseHw} (hs : hw.Sound) {n : ℕ} (hn : efuseMaxSize ≤ n) {e : Efuse}
    (hblank : e.IsBlank) (calls : List EfuseCall)
    (hclear : Each (efuseStep hw n) Efuse.Clear e calls) :
    Each (efuseStep hw n) (Efuse.Updates hw n) e calls :=
  Each.imp_of_inv (fun _ _ hlog hc => hlog.updates hs hn hc) hblank.isLog hclear

/-- Programming always succeeds. -/
def EfuseHw.perfect : EfuseHw :=
  ⟨fun _ => 0, fun _ _ => (0, 0)⟩

/-- The efuse before the first call. -/
def Efuse.blank : Efuse :=
  ⟨fun _ => 0xFF, 0, [], 0, 0⟩

/-- Word 0 of section 0 is blank, and then words 0 and 1 are written, the first of them into the
packet that is there. -/
theorem efuse_runs_reuse : Each (efuseStep .perfect 512) (Efuse.Updates .perfect 512) .blank
    [.ofWord 0 0x0E blankWord, .ofWord 0 0x0C (0x34, 0x12)] := by
  have hblank : blank.IsBlank := fun _ => rfl
  refine efuse_runs (fun _ => rfl) le_rfl hblank _ ⟨⟨by decide +kernel, ?_⟩, ?_, trivial⟩
  · intro l₁ p l₂ hfuse
    exact absurd hfuse (hblank.ne_content l₁ p l₂)
  · exact clear_of_single (by decide +kernel) (by decide +kernel) (by decide +kernel)
      (by decide +kernel) (by decide +kernel) (by decide +kernel)

/-- What is read after a call. -/
theorem Efuse.Updates.byte {hw : EfuseHw} {n : ℕ} {e : Efuse} {c : EfuseCall} (h : e.Updates hw n c)
    {i : ℕ} (hi : i < 128) (hword : c.Has i) :
    (readEFuse (efuseStep hw n e c).fuse 0 128).bind (·[i]?) =
      some (efuseTbl (fun _ => c.data) i) := by
  obtain ⟨e', hwrite, map, map', -, hread, -, -, hmap⟩ := h
  rw [efuseStep, hwrite]
  simp only [map_some, getD_some, hread, bind_some, hmap i hi, hword, if_true]

/-- The last call of a run writes word 1 of section 0 into a packet that a later one hides, and the
last call of another run drops word 1 of section 3, as the counter of repetitions is 4. -/
theorem not_efuse_runs :
    (¬ Each (efuseStep .perfect 512) (Efuse.Updates .perfect 512) .blank
      [.ofWord 0 0x0E blankWord,
        .ofWord 0 0x0D blankWord,
        .ofWord 0 0x0C (0x34, 0x12),
        .ofWord 0 0x0D (0x78, 0x56)]) ∧
    ¬ Each (efuseStep .perfect 512) (Efuse.Updates .perfect 512) .blank
      [.ofWord 0 0x0E blankWord,
        .ofWord 0 0x0C (0x34, 0x12),
        .ofWord 1 0x0E blankWord,
        .ofWord 1 0x0C (0x34, 0x12),
        .ofWord 2 0x0E blankWord,
        .ofWord 2 0x0C (0x34, 0x12),
        .ofWord 3 0x0E blankWord,
        .ofWord 3 0x0C (0x34, 0x12)] := by
  constructor
  · rintro ⟨-, -, -, h, -⟩
    have hbyte := h.byte (i := 2) (by decide) (by decide)
    revert hbyte
    decide +kernel
  · rintro ⟨-, -, -, -, -, -, -, h, -⟩
    have hbyte := h.byte (i := 26) (by decide) (by decide)
    revert hbyte
    decide +kernel

end OpenHMR
