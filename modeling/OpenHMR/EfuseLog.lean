import Mathlib.Order.Nat
import OpenHMR.Efuse
import OpenHMR.Memory
import OpenHMR.Overlay

/-!
# The log of the efuse

The efuse holds a list of packets, one after the other, and is blank after them (`content`). The
functions that read find the end of this list (`getCurrentSize_content`) and the map that its replay
gives (`readEFuseWords_content`).
-/

namespace OpenHMR

open Memory Overlay List Nat

/-! ## Headers and words -/

theorem forall_nibble {p : UInt8 → Prop} (h : ∀ a : Fin 16, p (UInt8.ofNat a)) {a : UInt8}
    (ha : a < 16) : p a := by
  have hp := h ⟨a.toNat, by simpa [UInt8.lt_iff_toNat_lt] using ha⟩
  rwa [UInt8.ofNat_toNat] at hp

theorem forall_nibbles {p : UInt8 → UInt8 → Prop}
    (h : ∀ a b : Fin 16, p (UInt8.ofNat a) (UInt8.ofNat b)) {a b : UInt8} (ha : a < 16)
    (hb : b < 16) : p a b :=
  forall_nibble (fun b => forall_nibble (p := fun a => p a (UInt8.ofNat b)) (h · b) ha) hb

variable {offset wordEn : UInt8} {log : List PgPkt}

theorem headerOffset_pgHeader : offset < 16 → wordEn < 16 →
    headerOffset (pgHeader offset wordEn) = offset :=
  forall_nibbles (p := fun o en => headerOffset (pgHeader o en) = o) (by decide +kernel)

theorem headerWordEn_pgHeader : offset < 16 → wordEn < 16 →
    headerWordEn (pgHeader offset wordEn) = wordEn :=
  forall_nibbles (p := fun o en => headerWordEn (pgHeader o en) = en) (by decide +kernel)

@[simp] theorem mem_enabledWords {w : Fin 4} :
    w ∈ enabledWords wordEn ↔ WordEnabled wordEn w := by
  simp [enabledWords]

/-! ## Packets -/

/-- A packet of the log. The words that are not in it have no meaning. -/
structure PgPkt where
  offset : UInt8
  wordEn : UInt8
  data : PgData
  offset_lt : offset < 16
  wordEn_lt : wordEn < 15

/-- The bytes of some words. -/
def wordBytes (data : PgData) (ws : List (Fin 4)) : List UInt8 :=
  ws.flatMap fun w => [(data w).1, (data w).2]

@[simp] theorem length_wordBytes (data : PgData) :
    ∀ ws : List (Fin 4), (wordBytes data ws).length = 2 * ws.length
  | [] => rfl
  | w :: ws => by
    have ih := length_wordBytes data ws
    simp only [wordBytes, flatMap_cons, length_append, length_cons, length_nil]
      at ih ⊢
    omega

namespace PgPkt

/-- The header. -/
def header (p : PgPkt) : UInt8 :=
  pgHeader p.offset p.wordEn

/-- The bytes after the header. -/
def words (p : PgPkt) : List UInt8 :=
  wordBytes p.data (enabledWords p.wordEn)

/-- The bytes of the packet. -/
def bytes (p : PgPkt) : List UInt8 :=
  p.header :: p.words

/-- The packet with other words. -/
def setData (p : PgPkt) (data : PgData) : PgPkt :=
  { p with data := data }

variable (p : PgPkt)

@[simp] theorem offset_setData (data : PgData) :
    (p.setData data).offset = p.offset := rfl

@[simp] theorem wordEn_setData (data : PgData) :
    (p.setData data).wordEn = p.wordEn := rfl

@[simp] theorem data_setData (data : PgData) : (p.setData data).data = data := rfl

/-- What the packet says about the map. -/
def entry (p : PgPkt) (k : UInt8 × Fin 4) : Option (UInt8 × UInt8) :=
  if k.1 = p.offset ∧ WordEnabled p.wordEn k.2 then some (p.data k.2) else none

theorem entry_eq_some {k : UInt8 × Fin 4} (h : k.1 = p.offset ∧ WordEnabled p.wordEn k.2) :
    p.entry k = some (p.data k.2) :=
  if_pos h

theorem entry_eq_none {k : UInt8 × Fin 4}
    (h : ¬ (k.1 = p.offset ∧ WordEnabled p.wordEn k.2)) : p.entry k = none :=
  if_neg h

theorem wordEn_lt_sixteen : p.wordEn < 16 :=
  UInt8.lt_trans p.wordEn_lt (by decide)

@[simp] theorem headerOffset_header : headerOffset p.header = p.offset :=
  headerOffset_pgHeader p.offset_lt p.wordEn_lt_sixteen

@[simp] theorem headerWordEn_header : headerWordEn p.header = p.wordEn :=
  headerWordEn_pgHeader p.offset_lt p.wordEn_lt_sixteen

theorem header_ne : p.header ≠ 0xFF := by
  intro h
  have hen := p.headerWordEn_header
  rw [h] at hen
  have hlt := p.wordEn_lt
  rw [← hen] at hlt
  exact absurd hlt (by decide)

theorem length_words : p.words.length = 2 * calculateWordCnts p.wordEn :=
  length_wordBytes _ _

theorem length_bytes : p.bytes.length = calculateWordCnts p.wordEn * 2 + 1 := by
  rw [bytes, length_cons, length_words]
  omega

end PgPkt

/-! ## The log -/

/-- The bytes of a log. -/
def encode (log : List PgPkt) : List UInt8 :=
  log.flatMap PgPkt.bytes

/-- The number of its bytes. -/
def logSize (log : List PgPkt) : ℕ :=
  (encode log).length

/-- The memory with the log. -/
def content (log : List PgPkt) : ℕ → UInt8 :=
  write (fun _ => 0xFF) 0 (encode log)

/-- The map after the log. -/
def logMap (log : List PgPkt) : UInt8 × Fin 4 → UInt8 × UInt8 :=
  replay (fun _ => blankWord) (log.map PgPkt.entry)

@[simp] theorem logSize_nil : logSize [] = 0 := rfl

theorem logSize_append (l₁ l₂ : List PgPkt) : logSize (l₁ ++ l₂) = logSize l₁ + logSize l₂ := by
  simp [logSize, encode]

theorem logSize_cons (p : PgPkt) (l : List PgPkt) :
    logSize (p :: l) = calculateWordCnts p.wordEn * 2 + 1 + logSize l := by
  simp [logSize, encode, p.length_bytes]

theorem logSize_concat (l : List PgPkt) (p : PgPkt) :
    logSize (l ++ [p]) = logSize l + calculateWordCnts p.wordEn * 2 + 1 := by
  simp [logSize_append, logSize_cons]
  omega

section Content

variable (l₁ l₂ : List PgPkt)

/-- A packet is appended. -/
theorem content_concat (l : List PgPkt) (p : PgPkt) :
    content (l ++ [p]) = write (content l) (logSize l) p.bytes := by
  have hencode : encode (l ++ [p]) = encode l ++ p.bytes := by simp [encode]
  rw [content, hencode, write_append, zero_add]
  rfl

variable {log : List PgPkt} {i : ℕ}

/-- After the log the memory is blank. -/
theorem content_of_ge (h : logSize log ≤ i) : content log i = 0xFF :=
  write_of_ge _ (by rw [zero_add]; exact h)

theorem content_add (h : i < (encode log).length) :
    content log i = (encode log)[i] := by
  have hadd := write_add (fun _ => (0xFF : UInt8)) 0 h
  rwa [zero_add] at hadd

theorem encode_split (p : PgPkt) :
    encode (l₁ ++ p :: l₂) = encode l₁ ++ (p.header :: (p.words ++ encode l₂)) := by
  simp [encode, PgPkt.bytes]

theorem content_header (p : PgPkt) :
    content (l₁ ++ p :: l₂) (logSize l₁) = p.header := by
  have hlt : logSize l₁ < (encode (l₁ ++ p :: l₂)).length := by
    rw [encode_split, length_append, length_cons]
    exact Nat.lt_add_of_pos_right (Nat.succ_pos _)
  rw [content_add hlt]
  simp [encode_split, logSize]

theorem content_word (p : PgPkt) (h : i < p.words.length) :
    content (l₁ ++ p :: l₂) (logSize l₁ + 1 + i) = p.words[i] := by
  have hlt : logSize l₁ + 1 + i < (encode (l₁ ++ p :: l₂)).length := by
    rw [encode_split, length_append, length_cons, length_append]
    change (encode l₁).length + 1 + i < _
    omega
  rw [content_add hlt]
  simp only [encode_split, logSize]
  rw [getElem_append_right (by omega)]
  simp only [show (encode l₁).length + 1 + i - (encode l₁).length = i + 1 by omega,
    getElem_cons_succ]
  rw [getElem_append_left h]

/-- The words of a packet are written over. -/
theorem write_words (p : PgPkt) (data : PgData) :
    write (content (l₁ ++ p :: l₂)) (logSize l₁ + 1) (wordBytes data (enabledWords p.wordEn)) =
      content (l₁ ++ p.setData data :: l₂) := by
  have hlen : (wordBytes data (enabledWords p.wordEn)).length = p.words.length := by
    rw [p.length_words, length_wordBytes]
    rfl
  have hsplit : encode (l₁ ++ p :: l₂) = (encode l₁ ++ [p.header]) ++ (p.words ++ encode l₂) := by
    simp [encode_split]
  have hfront : (encode l₁ ++ [p.header]).length = logSize l₁ + 1 := by simp [logSize]
  have hle : logSize l₁ + 1 + (wordBytes data (enabledWords p.wordEn)).length ≤
      (encode (l₁ ++ p :: l₂)).length := by
    rw [hsplit, length_append, hfront, length_append, hlen]
    omega
  have hwrite := write_write (fun _ => (0xFF : UInt8)) 0 hle
  rw [zero_add] at hwrite
  rw [content, hwrite, content]
  congr 1
  rw [hsplit, take_left' hfront, hlen, ← drop_drop, drop_left' hfront, drop_left' rfl, encode_split]
  simp [PgPkt.header, PgPkt.words]

end Content

/-! ## Reading -/

theorem calculateWordCnts_pos (h : wordEn < 15) :
    0 < calculateWordCnts wordEn := by
  have hall : ∀ n : Fin 15, 0 < calculateWordCnts (UInt8.ofNat n) := by decide +kernel
  have hn := hall ⟨wordEn.toNat, by simpa [UInt8.lt_iff_toNat_lt] using h⟩
  rwa [UInt8.ofNat_toNat] at hn

/-- A packet has three bytes at least. -/
theorem length_le_logSize : ∀ l : List PgPkt, 3 * l.length ≤ logSize l
  | [] => le_rfl
  | p :: l => by
    have hpos := calculateWordCnts_pos p.wordEn_lt
    have ih := length_le_logSize l
    rw [logSize_cons, length_cons]
    omega

/-- The size of the log is found. -/
theorem currentSizeFrom_content : ∀ (l₂ l₁ : List PgPkt) {n : ℕ}, l₂.length < n →
    logSize (l₁ ++ l₂) ≤ efuseMaxSize →
      currentSizeFrom (content (l₁ ++ l₂)) n (logSize l₁) = logSize (l₁ ++ l₂)
  | [], l₁, n + 1, _, _ => by
    have hblank : content l₁ (logSize l₁) = 0xFF := content_of_ge le_rfl
    simp [currentSizeFrom, hblank]
  | p :: l₂, l₁, n + 1, hn, hle => by
    have hheader := content_header l₁ l₂ p
    have hsize := hle
    rw [logSize_append, logSize_cons] at hsize
    have hlt : logSize l₁ < efuseMaxSize := by omega
    have hnext : logSize l₁ + calculateWordCnts p.wordEn * 2 + 1 = logSize (l₁ ++ [p]) :=
      (logSize_concat l₁ p).symm
    have hsplit : l₁ ++ p :: l₂ = (l₁ ++ [p]) ++ l₂ := by simp
    rw [currentSizeFrom, if_pos ⟨hlt, by rw [hheader]; exact p.header_ne⟩, hheader,
      p.headerWordEn_header, hnext, hsplit]
    exact currentSizeFrom_content l₂ (l₁ ++ [p]) (by simpa using hn) (by rwa [← hsplit])

/-- `efuse_GetCurrentSize` is the size of the log. -/
theorem getCurrentSize_content (h : logSize log ≤ efuseMaxSize) :
    getCurrentSize (content log) = logSize log := by
  have hlen := length_le_logSize log
  have hpos : 0 < efuseMaxSize := by decide
  exact currentSizeFrom_content log [] (by omega) h

namespace EfuseReader

/-- The words of a packet that are in the memory. -/
theorem readWords_eq (fuse : ℕ → UInt8) (offset : UInt8) (data : PgData) :
    ∀ (ws : List (Fin 4)) (r : EfuseReader), read fuse r.addr (2 * ws.length) = wordBytes data ws →
      r.addr + 2 * ws.length ≤ efuseMaxSize →
        readWords fuse offset ws r =
          ⟨fun o w => if o = offset ∧ w ∈ ws then data w else r.word o w,
            r.addr + 2 * ws.length, r.utilized + 2 * ws.length⟩
  | [], r, _, _ => by simp [readWords]
  | w :: ws, r, hread, hle => by
    have hparts : read fuse r.addr (2 * (w :: ws).length) =
        [fuse r.addr, fuse (r.addr + 1)] ++ read fuse (r.addr + 2) (2 * ws.length) := by
      rw [length_cons, show 2 * (ws.length + 1) = 2 + 2 * ws.length by omega, read_add]
      rfl
    have hbytes : wordBytes data (w :: ws) = [(data w).1, (data w).2] ++ wordBytes data ws := rfl
    rw [hparts, hbytes] at hread
    obtain ⟨hword, hrest⟩ := append_inj hread rfl
    simp only [cons.injEq, and_true] at hword
    rw [length_cons] at hle ⊢
    have hmid : ¬ efuseMaxSize ≤ r.addr + 1 := by omega
    have hset : ∀ o w', (if o = offset ∧ w' = w then (data w) else
        if o = offset ∧ w' = w then ((data w).1, 0) else r.word o w') =
          if o = offset ∧ w' = w then data w else r.word o w' := by
      intro o w'
      split_ifs <;> rfl
    simp only [readWords, advance, setWord, hword, hmid, if_false, Prod.mk.eta, hset]
    split_ifs with hend
    · -- the loop is left, and there are no other words
      obtain rfl : ws = [] := eq_nil_of_length_eq_zero (by omega)
      simp only [mk.injEq]
      refine ⟨funext fun o => funext fun w' => ?_, rfl, rfl⟩
      by_cases ho : o = offset <;> by_cases hw : w' = w <;> simp [ho, hw]
    · rw [readWords_eq fuse offset data ws _ hrest (by simp only; omega)]
      simp only [mk.injEq]
      refine ⟨funext fun o => funext fun w' => ?_, by omega, by omega⟩
      by_cases ho : o = offset <;> by_cases hw : w' = w <;> simp [ho, hw]

theorem readFrom_blank (fuse : ℕ → UInt8) (r : EfuseReader) : ∀ n, readFrom fuse n 0xFF r = r
  | 0 => rfl
  | n + 1 => by simp [readFrom]

/-- The packets of the rest of the log. -/
theorem readFrom_content : ∀ (l₂ l₁ : List PgPkt) {n : ℕ} (r : EfuseReader), l₂.length < n →
    r.addr = logSize l₁ → logSize (l₁ ++ l₂) ≤ efuseMaxSize →
      (let fuse := content (l₁ ++ l₂)
       let header := fuse r.addr
       if header ≠ 0xFF ∧ r.addr < efuseMaxSize then readFrom fuse n header r.advance
       else readFrom fuse n header r) =
        ⟨fun o w => replay (fun k => r.word k.1 k.2) (l₂.map PgPkt.entry) (o, w),
          logSize (l₁ ++ l₂), r.utilized + logSize l₂⟩
  | [], l₁, n + 1, r, _, haddr, _ => by
    have hblank : content l₁ r.addr = 0xFF := content_of_ge haddr.ge
    simp [hblank, readFrom_blank, ← haddr]
  | p :: l₂, l₁, n + 1, r, hn, haddr, hle => by
    have hsize := hle
    rw [logSize_append, logSize_cons] at hsize
    have hpos := calculateWordCnts_pos p.wordEn_lt
    have hheader : content (l₁ ++ p :: l₂) r.addr = p.header := by
      rw [haddr]
      exact content_header l₁ l₂ p
    have hlt : r.addr < efuseMaxSize := by omega
    have hlt' : r.advance.addr < efuseMaxSize := by
      change r.addr + 1 < efuseMaxSize
      omega
    have hread : read (content (l₁ ++ p :: l₂)) r.advance.addr
        (2 * (enabledWords p.wordEn).length) = p.words := by
      refine ext_getElem (by rw [length_read, p.length_words]; rfl) fun i h1 h2 => ?_
      have hget := content_word l₁ l₂ p h2
      simpa [Memory.read, advance, haddr] using hget
    have hwords := readWords_eq (content (l₁ ++ p :: l₂)) p.offset p.data _ _ hread
      (by
        change r.addr + 1 + 2 * calculateWordCnts p.wordEn ≤ efuseMaxSize
        omega)
    have hsplit : l₁ ++ p :: l₂ = (l₁ ++ [p]) ++ l₂ := by simp
    simp only []
    rw [hheader, if_pos ⟨p.header_ne, hlt⟩, readFrom, if_pos ⟨p.header_ne, hlt'⟩,
      p.headerOffset_header, p.headerWordEn_header, hwords]
    -- the reader after this packet
    generalize hr' : EfuseReader.mk _ _ _ = r'
    have haddr' : r'.addr = logSize (l₁ ++ [p]) := by
      rw [← hr', logSize_concat]
      change r.addr + 1 + 2 * calculateWordCnts p.wordEn = _
      omega
    have hrest := readFrom_content l₂ (l₁ ++ [p]) (n := n) r' (by simpa using hn) haddr'
      (by rwa [← hsplit])
    rw [← hsplit] at hrest
    refine hrest.trans ?_
    simp only [mk.injEq, map_cons, replay_cons]
    refine ⟨funext fun o => funext fun w => replay_congr ?_, trivial, ?_⟩
    · simp only [← hr', mem_enabledWords, apply, PgPkt.entry]
      split_ifs <;> rfl
    · rw [← hr', logSize_cons]
      change r.utilized + 1 + 2 * calculateWordCnts p.wordEn + logSize l₂ = _
      omega

end EfuseReader

/-- `ReadEFuse` replays the log. -/
theorem readEFuseWords_content (h : logSize log ≤ efuseMaxSize) :
    readEFuseWords (content log) = ⟨fun o w => logMap log (o, w), logSize log, logSize log⟩ := by
  have hlen := length_le_logSize log
  have hread := EfuseReader.readFrom_content log [] (n := efuseMaxSize + 1)
    ⟨fun _ _ => blankWord, 0, 0⟩ (by omega) rfl h
  rw [nil_append, zero_add] at hread
  rw [logMap, ← hread, readEFuseWords]
  have hpos : 0 < efuseMaxSize := by decide
  by_cases hblank : content log 0 = 0xFF <;> simp [hblank, hpos]

end OpenHMR
