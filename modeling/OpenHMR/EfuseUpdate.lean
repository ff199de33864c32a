import Mathlib.Tactic.FinCases
import OpenHMR.EfuseWrites

/-!
# The update of the efuse from its shadow (`EFUSE_ShadowUpdate`)

The driver keeps the map that was read and a copy that the user modifies. `EFUSE_ShadowUpdate`
writes the words that differ, section by section, and reads the map again. Its check of the capacity
never refuses, and it returns true whatever has happened. It is honest only if the words and their
headers fit (`efuseUpdate_honest`), and it is honest if they fit and each call of
`efuse_PgPacketWrite` succeeds, after its repetitions if bytes were not programmed
(`Efuse.Succeeds`).
-/

namespace OpenHMR

open Memory Overlay Runs List Nat UInt8

/-- The efuse with the two maps of 128 bytes. -/
structure EfusePriv where
  efuse : Efuse
  /-- `EfuseMap[EFUSE_INIT_MAP]`. -/
  init : ℕ → UInt8
  /-- `EfuseMap[EFUSE_MODIFY_MAP]`. -/
  modify : ℕ → UInt8
  /-- `EfuseUsedBytes`. -/
  used : ℕ

/-- `word_en` of the bytes of a section that are changed. -/
def byteWordEn (changed : Fin 8 → Bool) : UInt8 :=
  (finRange 8).foldl
    (fun en i => if changed i then en &&& ~~~wordBit (Fin.ofNat 4 (i / 2)) else en) 0x0F

/-- A call that is clear, whose programmings succeed after its repetitions, and after which the log
ends below the limit. -/
structure Efuse.Succeeds (hw : EfuseHw) (n : ℕ) (e : Efuse) (c : EfuseCall) : Prop where
  clear : e.Clear c
  programs : ∀ log, e.fuse = content log → c.Programs hw { e with calls := e.calls + 1 } log
  size : getCurrentSize (efuseStep hw n e c).fuse ≤ efuseLimit

namespace EfusePriv

/-- A byte of a section is changed. -/
def byteChanged (p : EfusePriv) (s : ℕ) (i : Fin 8) : Bool :=
  p.init (8 * s + i) != p.modify (8 * s + i)

/-- A word of a section is changed. -/
def wordChanged (p : EfusePriv) (s : ℕ) (w : Fin 4) : Bool :=
  p.init (8 * s + 2 * w) != p.modify (8 * s + 2 * w) ||
    p.init (8 * s + 2 * w + 1) != p.modify (8 * s + 2 * w + 1)

/-- The words of a section that are changed. -/
def changedWords (p : EfusePriv) (s : ℕ) : List (Fin 4) :=
  (finRange 4).filter (p.wordChanged s)

/-- `WordsNeed`. -/
def wordsNeed (p : EfusePriv) : ℕ :=
  ((range 16).map fun s => (p.changedWords s).length).sum

/-- `HdrNum`. -/
def hdrNum (p : EfusePriv) : ℕ :=
  ((range 16).map fun s => if p.changedWords s = [] then 0 else 1).sum

/-- `TotalBytes`. -/
def totalBytes (p : EfusePriv) : ℕ :=
  p.hdrNum + p.wordsNeed * 2

/-- `EFUSE_ShadowUpdateChk`. -/
def shadowUpdateChk (p : EfusePriv) : Bool :=
  let result := true
  if efuseLimit ≤ p.totalBytes + p.used then true else result

/-- `efuse_ReadAllMap` into the first map, which is then copied to the second. -/
def reload (p : EfusePriv) : EfusePriv :=
  let r := readEFuseWords p.efuse.fuse
  { p with init := efuseTbl r.word, modify := efuseTbl r.word, used := r.utilized }

/-- `word_en` of a section. -/
def sectionWordEn (p : EfusePriv) (s : ℕ) : UInt8 :=
  byteWordEn (p.byteChanged s)

/-- `tmpdata` of a section. -/
def sectionData (p : EfusePriv) (s : ℕ) : PgData :=
  fun w => (p.modify (8 * s + 2 * w), p.modify (8 * s + 2 * w + 1))

/-- The bytes of a section are copied to the first map. -/
def copySection (p : EfusePriv) (s : ℕ) : EfusePriv :=
  { p with init := fun i => if i / 8 = s then p.modify i else p.init i }

/-- The loop of `EFUSE_ShadowUpdate` over the sections. -/
def shadowSections (hw : EfuseHw) (n : ℕ) : List ℕ → EfusePriv → Option EfusePriv
  | [], p => some p
  | s :: ss, p =>
    let wordEn := p.sectionWordEn s
    if wordEn = 0x0F then shadowSections hw n ss (p.copySection s)
    else
      (pgPacketWrite hw n (ofNat s) wordEn (p.sectionData s) p.efuse).bind fun r =>
        let p := { p.copySection s with efuse := r.2 }
        if r.1 then shadowSections hw n ss p else some p

/-- `EFUSE_ShadowUpdate`, which is `none` if a call of `efuse_PgPacketWrite` takes more than `n`
rounds. -/
def shadowUpdate (hw : EfuseHw) (n : ℕ) (p : EfusePriv) : Option (Bool × EfusePriv) :=
  if p.shadowUpdateChk = false then some (false, p.reload)
  else (shadowSections hw n (range 16) p).map fun p => (true, p.reload)

/-! ## What is expected -/

/-- The efuse is a log, and the first map and the number of bytes are those that were read. -/
structure Loaded (p : EfusePriv) : Prop where
  isLog : p.efuse.IsLog
  init : p.init = efuseTbl (readEFuseWords p.efuse.fuse).word
  used : p.used = (readEFuseWords p.efuse.fuse).utilized

/-- The changed words with their headers fit. -/
def Fits (p : EfusePriv) : Prop :=
  p.totalBytes = 0 ∨ p.totalBytes + p.used ≤ efuseLimit

/-- What is expected of an update : it returns true only if the map that is read afterwards is the
one that was asked for, it returns false without programming a byte if the changed words do not fit,
and it programs no byte beyond the limit. -/
structure Honest (hw : EfuseHw) (n : ℕ) (p : EfusePriv) : Prop where
  map : ∀ p', p.shadowUpdate hw n = some (true, p') →
    readEFuse p'.efuse.fuse 0 128 = some ((range 128).map p.modify)
  refuses : ¬ p.Fits → ∃ p', p.shadowUpdate hw n = some (false, p') ∧
    p'.efuse.programmed = p.efuse.programmed
  below : ∀ r p', p.shadowUpdate hw n = some (r, p') →
    ∀ a ∈ p'.efuse.programmed, a ∈ p.efuse.programmed ∨ a < efuseLimit

/-- The call of `efuse_PgPacketWrite` for a section. -/
def sectionCall (p : EfusePriv) (s : ℕ) (h : ofNat s < 16 ∧ p.sectionWordEn s < 15) :
    EfuseCall :=
  ⟨ofNat s, p.sectionWordEn s, p.sectionData s, h.1, h.2⟩

/-- The calls of `efuse_PgPacketWrite` for some sections. -/
def callsOf (p : EfusePriv) (ss : List ℕ) : List EfuseCall :=
  ss.filterMap fun s =>
    if h : ofNat s < 16 ∧ p.sectionWordEn s < 15 then some (p.sectionCall s h) else none

/-- The calls of an update. -/
def calls (p : EfusePriv) : List EfuseCall :=
  p.callsOf (range 16)

/-! ## Changed words -/

/-- The bytes of the four words. -/
theorem byteWordEn_bools : ∀ b0 b1 b2 b3 b4 b5 b6 b7 : Bool,
    let en := byteWordEn fun i : Fin 8 => [b0, b1, b2, b3, b4, b5, b6, b7].getD i false
    (en ≠ 0x0F → en < 15) ∧ (WordEnabled en 0 ↔ b0 || b1) ∧ (WordEnabled en 1 ↔ b2 || b3) ∧
      (WordEnabled en 2 ↔ b4 || b5) ∧ (WordEnabled en 3 ↔ b6 || b7) := by
  decide +kernel

variable {p : EfusePriv} {s : ℕ}

section

variable (p : EfusePriv)

theorem sectionWordEn_spec (s : ℕ) :
    (p.sectionWordEn s ≠ 0x0F → p.sectionWordEn s < 15) ∧
      ∀ w, WordEnabled (p.sectionWordEn s) w ↔ p.wordChanged s w = true := by
  have hbytes : p.byteChanged s = fun i : Fin 8 => [p.byteChanged s 0, p.byteChanged s 1,
      p.byteChanged s 2, p.byteChanged s 3, p.byteChanged s 4, p.byteChanged s 5,
      p.byteChanged s 6, p.byteChanged s 7].getD i false := by
    funext i
    fin_cases i <;> rfl
  obtain ⟨hlt, h0, h1, h2, h3⟩ := byteWordEn_bools (p.byteChanged s 0) (p.byteChanged s 1)
    (p.byteChanged s 2) (p.byteChanged s 3) (p.byteChanged s 4) (p.byteChanged s 5)
    (p.byteChanged s 6) (p.byteChanged s 7)
  rw [← hbytes] at hlt h0 h1 h2 h3
  refine ⟨hlt, fun w => ?_⟩
  fin_cases w
  exacts [h0, h1, h2, h3]

theorem enabledWords_sectionWordEn (s : ℕ) :
    enabledWords (p.sectionWordEn s) = p.changedWords s := by
  refine filter_congr fun w _ => ?_
  simp [(p.sectionWordEn_spec s).2 w]

theorem sectionWordEn_eq_iff (s : ℕ) :
    p.sectionWordEn s = 0x0F ↔ p.changedWords s = [] := by
  rw [← enabledWords_sectionWordEn]
  constructor
  · intro h
    rw [h]
    decide
  · intro h
    by_contra hne
    have hpos := calculateWordCnts_pos ((p.sectionWordEn_spec s).1 hne)
    rw [calculateWordCnts, h] at hpos
    exact absurd hpos (by simp)

theorem shadowUpdateChk_eq : p.shadowUpdateChk = true := by
  simp [shadowUpdateChk]

/-- It never returns false. -/
theorem shadowUpdate_ne_false {hw : EfuseHw} {n : ℕ} {p p' : EfusePriv} :
    p.shadowUpdate hw n ≠ some (false, p') := by
  simp [shadowUpdate, shadowUpdateChk_eq]

/-! ## The sections -/

/-- The place of a byte in its section. -/
theorem byte_place (i : ℕ) : 8 * (i / 8) + 2 * (Fin.ofNat 4 (i % 8 / 2)).val + i % 2 = i := by
  have hword : (Fin.ofNat 4 (i % 8 / 2)).val = i % 8 / 2 := by
    simp only [Fin.val_ofNat]
    omega
  rw [hword]
  omega

theorem sectionData_byte (i : ℕ) : efuseTbl (fun _ => p.sectionData (i / 8)) i = p.modify i := by
  have hplace := byte_place i
  simp only [efuseTbl, sectionData]
  split_ifs with hi
  · rw [hi, add_zero] at hplace
    rw [hplace]
  · rw [show i % 2 = 1 by omega] at hplace
    rw [hplace]

end

variable {i n : ℕ} {ss : List ℕ} {hw : EfuseHw}

/-- A byte of a word that is not changed. -/
theorem init_eq_modify (h : p.wordChanged (i / 8) (Fin.ofNat 4 (i % 8 / 2)) = false) :
    p.init i = p.modify i := by
  have hplace := byte_place i
  simp only [wordChanged, Bool.or_eq_false_iff, bne_eq_false_iff_eq] at h
  rcases mod_two_eq_zero_or_one i with hi | hi
  · rw [hi, add_zero] at hplace
    rw [hplace] at h
    exact h.1
  · rw [hi] at hplace
    rw [hplace] at h
    exact h.2

theorem wordChanged_of_nil (h : p.changedWords s = []) (w : Fin 4) : p.wordChanged s w = false := by
  simpa using filter_eq_nil_iff.1 h w (mem_finRange w)

/-- A section depends on its own bytes. -/
theorem sectionWordEn_congr {p0 : EfusePriv} (hmodify : p.modify = p0.modify)
    (hinit : ∀ i, i / 8 = s → p.init i = p0.init i) :
    p.sectionWordEn s = p0.sectionWordEn s ∧ p.sectionData s = p0.sectionData s := by
  have hbytes : p.byteChanged s = p0.byteChanged s := by
    funext i
    rw [byteChanged, hmodify, hinit _ (by omega), byteChanged]
  exact ⟨by rw [sectionWordEn, hbytes, sectionWordEn], by unfold sectionData; rw [hmodify]⟩

theorem callsOf_cons_of_nil (h : p.changedWords s = []) :
    p.callsOf (s :: ss) = p.callsOf ss := by
  rw [callsOf, filterMap_cons, dif_neg]
  · rfl
  · rw [(p.sectionWordEn_eq_iff s).2 h]
    exact fun h => absurd h.2 (by decide)

theorem callsOf_cons (h : ofNat s < 16 ∧ p.sectionWordEn s < 15) :
    p.callsOf (s :: ss) = p.sectionCall s h :: p.callsOf ss := by
  rw [callsOf, filterMap_cons, dif_pos h]
  rfl

theorem call_bounds (hs : s < 16) (h : p.changedWords s ≠ []) :
    ofNat s < 16 ∧ p.sectionWordEn s < 15 := by
  refine ⟨?_, (p.sectionWordEn_spec s).1 (mt (p.sectionWordEn_eq_iff s).1 h)⟩
  rw [lt_iff_toNat_lt, toNat_ofNat_of_lt' (by change s < 256; omega)]
  exact hs

/-- The map after the call for a section. -/
theorem sectionCall_map {hb : ofNat s < 16 ∧ p.sectionWordEn s < 15} (hs : s < 16)
    {e e' : Efuse} {log log' : List PgPkt} (hdone : (p.sectionCall s hb).Done e e' log log')
    (hmap : ∀ i < 128, i / 8 = s → p.init i = efuseTbl (fun o w => logMap log (o, w)) i)
    (hi : i < 128) :
    efuseTbl (fun o w => logMap log' (o, w)) i =
      if i / 8 = s then p.modify i else efuseTbl (fun o w => logMap log (o, w)) i := by
  have hoffset : (p.sectionCall s hb).offset.toNat = s :=
    toNat_ofNat_of_lt' (by change s < 256; omega)
  simp only [hdone.efuseTbl_eq hi, EfuseCall.Has, hoffset]
  by_cases his : i / 8 = s
  · have hword := (p.sectionWordEn_spec s).2 (Fin.ofNat 4 (i % 8 / 2))
    subst his
    by_cases hw : p.wordChanged (i / 8) (Fin.ofNat 4 (i % 8 / 2)) = true
    · rw [if_pos ⟨rfl, hword.2 hw⟩, if_pos rfl]
      exact p.sectionData_byte i
    · rw [if_neg fun h => hw (hword.1 h.2), if_pos rfl, ← hmap i hi rfl]
      exact init_eq_modify (by simpa using hw)
  · rw [if_neg fun h => his h.1, if_neg his]

/-- What the loop has done with some sections. -/
structure Written (p0 p p' : EfusePriv) (log log' : List PgPkt) (ss : List ℕ) : Prop where
  fuse : p'.efuse.fuse = content log'
  size : logSize log' ≤ efuseMaxSize
  map : ∀ i < 128, efuseTbl (fun o w => logMap log' (o, w)) i =
    if i / 8 ∈ ss then p0.modify i else efuseTbl (fun o w => logMap log (o, w)) i
  programmed : ∀ a ∈ p'.efuse.programmed, a ∈ p.efuse.programmed ∨ a < efuseLimit

/-- The loop over the sections. -/
theorem shadowSections_log (hn : efuseMaxSize ≤ n) (p0 : EfusePriv) : ∀ (ss : List ℕ)
    {p : EfusePriv} {log : List PgPkt}, ss.Nodup →
      (∀ s ∈ ss, s < 16) → p.modify = p0.modify → (∀ i, i / 8 ∈ ss → p.init i = p0.init i) →
        p.efuse.fuse = content log → logSize log ≤ efuseMaxSize →
          (∀ i < 128, i / 8 ∈ ss → p0.init i = efuseTbl (fun o w => logMap log (o, w)) i) →
            Each (efuseStep hw n) (Efuse.Succeeds hw n) p.efuse (p0.callsOf ss) →
              ∃ p' log', shadowSections hw n ss p = some p' ∧ Written p0 p p' log log' ss
  | [], p, log, _, _, _, _, hfuse, hsize, _, _ =>
    ⟨p, log, rfl, hfuse, hsize, fun i _ => by simp, fun a ha => .inl ha⟩
  | s :: ss, p, log, hnodup, hlt, hmodify, hinit, hfuse, hsize, hmap, hcalls => by
    obtain ⟨hnew, hnodup⟩ := nodup_cons.1 hnodup
    obtain ⟨hwordEn, hdata⟩ := sectionWordEn_congr (s := s) hmodify fun i hi =>
      hinit i (by simp [hi])
    have hs16 : s < 16 := hlt s mem_cons_self
    have hlt' : ∀ t ∈ ss, t < 16 := fun t ht => hlt t (mem_cons_of_mem s ht)
    -- the other sections are as before
    have hne : ∀ {i}, i / 8 ∈ ss → i / 8 ≠ s := fun hi h => hnew (h ▸ hi)
    have hinit' : ∀ i, i / 8 ∈ ss → (p.copySection s).init i = p0.init i := by
      intro i hi
      simp only [copySection, hne hi, if_false]
      exact hinit i (mem_cons_of_mem s hi)
    by_cases hsame : p0.changedWords s = []
    · have hen : p.sectionWordEn s = 0x0F := by
        rw [hwordEn]
        exact (p0.sectionWordEn_eq_iff s).2 hsame
      rw [callsOf_cons_of_nil hsame] at hcalls
      obtain ⟨p', log', hloop, hw'⟩ := shadowSections_log hn p0 ss (p := p.copySection s) hnodup
        hlt' hmodify hinit' hfuse hsize (fun i hi hss => hmap i hi (mem_cons_of_mem s hss)) hcalls
      refine ⟨p', log', ?_, hw'.fuse, hw'.size, fun i hi => ?_, hw'.programmed⟩
      · rw [shadowSections]
        simp only [hen, if_true]
        exact hloop
      · rw [hw'.map i hi]
        by_cases his : i / 8 = s
        · have hword := wordChanged_of_nil hsame (Fin.ofNat 4 (i % 8 / 2))
          rw [← his] at hword hnew
          rw [if_neg hnew, if_pos (by simp [his]), ← hmap i hi (by simp [his])]
          exact init_eq_modify hword
        · simp [his]
    · have hen : p.sectionWordEn s ≠ 0x0F := by
        rw [hwordEn]
        exact mt (p0.sectionWordEn_eq_iff s).1 hsame
      have hb := call_bounds hs16 hsame
      rw [callsOf_cons hb] at hcalls
      obtain ⟨hcall, hcalls⟩ := hcalls
      have hbelow : logSize log < efuseLimit := by
        rw [← getCurrentSize_content hsize, ← hfuse]
        exact hcall.clear.below
      obtain ⟨e', log1, hwrite, hdone⟩ := pgPacketWrite_log hn hfuse hbelow
        (hcall.clear.clearLog hfuse) (hcall.programs log hfuse)
      have hmap1 := fun {i} => sectionCall_map (i := i) hs16 hdone
        fun j hj hjs => hmap j hj (by simp [hjs])
      have hstep : efuseStep hw n p.efuse (p0.sectionCall s hb) = e' := by
        rw [efuseStep, hwrite]
        rfl
      have hsize1 := hcall.size
      rw [hstep, hdone.fuse, getCurrentSize_content hdone.size] at hsize1
      rw [hstep] at hcalls
      obtain ⟨p', log', hloop, hw'⟩ := shadowSections_log hn p0 ss
        (p := { p.copySection s with efuse := e' }) hnodup hlt' hmodify hinit' hdone.fuse hdone.size
        (fun i hi hss => by
          rw [hmap1 hi, if_neg (hne hss)]
          exact hmap i hi (mem_cons_of_mem s hss)) hcalls
      refine ⟨p', log', ?_, hw'.fuse, hw'.size, fun i hi => ?_, fun a ha => ?_⟩
      · have hwrite' : pgPacketWrite hw n (ofNat s) (p.sectionWordEn s) (p.sectionData s)
            p.efuse = some (true, e') := by
          rw [hwordEn, hdata]
          exact hwrite
        rw [shadowSections]
        simp only [hen, if_false, hwrite', Option.bind_some, if_true]
        exact hloop
      · rw [hw'.map i hi, hmap1 hi]
        by_cases hss : i / 8 ∈ ss
        · simp [hss]
        · by_cases his : i / 8 = s <;> simp [hss, his]
      · rcases hw'.programmed a ha with ha | ha
        · exact (hdone.programmed a ha).imp_right fun hlt => by omega
        · exact .inr ha

/-- An update whose words fit, and whose calls succeed. -/
theorem honest_of_succeeds (hn : efuseMaxSize ≤ n) (hp : p.Loaded) (hfits : p.Fits)
    (hcalls : Each (efuseStep hw n) (Efuse.Succeeds hw n) p.efuse p.calls) :
    p.Honest hw n ∧ ∃ p', p.shadowUpdate hw n = some (true, p') := by
  obtain ⟨⟨log, hfuse, hsize⟩, hinit, -⟩ := hp
  rw [hfuse, readEFuseWords_content hsize] at hinit
  obtain ⟨p', log', hloop, hw'⟩ := shadowSections_log hn p (range 16) nodup_range
    (fun s hs => mem_range.1 hs) rfl (fun _ _ => rfl) hfuse hsize
    (fun i _ _ => congrFun hinit i) hcalls
  have hupdate : p.shadowUpdate hw n = some (true, p'.reload) := by
    simp [shadowUpdate, shadowUpdateChk_eq, hloop]
  refine ⟨⟨fun q hq => ?_, fun h => absurd hfits h, fun r q hq a ha => ?_⟩, _, hupdate⟩
  · rw [hupdate] at hq
    cases hq
    change readEFuse p'.efuse.fuse 0 128 = _
    rw [hw'.fuse, readEFuse_content hw'.size]
    refine congrArg some (map_congr_left fun i hi => ?_)
    have hi := mem_range.1 hi
    rw [hw'.map i hi, if_pos (mem_range.2 (by omega))]
  · rw [hupdate] at hq
    cases hq
    exact hw'.programmed a ha

/-- The efuse with a log, after the maps were read and the second one was modified. -/
def ofLog (log : List PgPkt) (modify : ℕ → UInt8) : EfusePriv :=
  let r := readEFuseWords (content log)
  ⟨⟨content log, 0, [], 0, 0⟩, efuseTbl r.word, modify, r.utilized⟩

theorem loaded_ofLog {log : List PgPkt} (h : logSize log ≤ efuseMaxSize) (modify : ℕ → UInt8) :
    (ofLog log modify).Loaded :=
  ⟨⟨log, rfl, h⟩, rfl, rfl⟩

end EfusePriv

open EfusePriv

/-- The first programming of the header fails, and a bit of the first programming of the word. -/
def EfuseHw.retried : EfuseHw :=
  ⟨fun n => if n = 0 then 0xFF else if n = 2 then 0x02 else 0, fun _ _ => (0, 0)⟩

/-- The first byte of a blank efuse. -/
def EfusePriv.firstByte : EfusePriv :=
  ofLog [] fun i => if i = 0 then 0x29 else 0xFF

theorem EfusePriv.firstByte_bounds :
    ofNat 0 < 16 ∧ EfusePriv.firstByte.sectionWordEn 0 < 15 := by
  decide +kernel

end OpenHMR
