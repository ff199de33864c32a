import OpenHMR.SeAppend

/-!
# The vsync queues of the streaming engine

At each vsync, `se_irq_handler` drains the queues that have `go` set. A queue is a circular buffer
of records. A record is a length in bytes that includes itself, followed by the words of its
payload, or the length 0, which marks the end of a frame. The payloads up to the first marker are
given to `WriteCmd`, a payload that goes beyond the end of the buffer by two calls.

The queues lie one behind the other in memory, which is modelled by words, from
`dev->p_vsync_queue` on.
-/

open Circular List Function Nat UInt32

namespace OpenHMR

/-- `endian_swap_32`. -/
def endianSwap32 (a : UInt32) : UInt32 :=
  (a >>> 24) ||| ((a >>> 8) &&& (0xFF00 : UInt32)) ||| ((a <<< 8) &&& (0xFF0000 : UInt32)) |||
    ((a <<< 24) &&& (0xFF000000 : UInt32))

/-! ## The fields of a queue, which begins at the word `q` -/

section Fields

variable (mem : ℕ → UInt32) (q : ℕ)

def u32Size : UInt32 :=
  mem (q + 1)

def u32RdPtr : UInt32 :=
  mem (q + 2)

def u32WrPtr : UInt32 :=
  mem (q + 3)

def vsyncGo : UInt32 :=
  mem (q + 4)

/-- The word of the buffer at the word `k`. -/
def u8Buf (k : ℕ) : UInt32 :=
  mem (q + 5 + k)

def setRdPtr (x : UInt32) : ℕ → UInt32 :=
  update mem (q + 2) x

def clearGo : ℕ → UInt32 :=
  update mem (q + 4) 0

/-- The words that `WriteCmd` reads at `&buf[start]`. -/
def bufWords (start len : UInt32) : List UInt32 :=
  (range ((len.toNat + 3) / 4)).map fun k => u8Buf mem q (start.toNat / 4 + k)

end Fields

/-! ## The handler -/

/-- The memory, the calls that were made, and the flag `dirty`. -/
structure VsyncPass where
  mem : ℕ → UInt32
  calls : List SeCmd
  dirty : Bool

/-- The loop over the records of a queue. -/
def drainQueue (q : ℕ) (size : UInt32) : ℕ → UInt32 → VsyncPass → Option VsyncPass
  | 0, _, _ => none
  | fuel + 1, rdptr, s =>
    if u32RdPtr s.mem q = u32WrPtr s.mem q then some s
    else
      let len := u8Buf s.mem q (rdptr.toNat / 4)
      if len = 0 then
        let next := u32RdPtr s.mem q + 4
        let next := if u32Size s.mem q ≤ next then next - u32Size s.mem q else next
        some { s with mem := setRdPtr s.mem q next, dirty := true }
      else
        let len := len - 4
        let rdptr := rdptr + 4
        let rdptr := if size ≤ rdptr then rdptr - size else rdptr
        if size ≤ rdptr + len then
          let next := rdptr + len - size
          drainQueue q size fuel next
            ⟨setRdPtr s.mem q next, s.calls ++ [⟨bufWords s.mem q rdptr (size - rdptr), false⟩,
              ⟨bufWords s.mem q 0 next, true⟩], true⟩
        else
          let next := rdptr + len
          drainQueue q size fuel next
            ⟨setRdPtr s.mem q next, s.calls ++ [⟨bufWords s.mem q rdptr len, true⟩], true⟩

/-- The queue `ii`. -/
def vsyncQueue (fuel : ℕ) (s : VsyncPass) (ii : ℕ) : Option VsyncPass :=
  let q := ((u32Size s.mem 0 + 20) * ofNat ii).toNat / 4
  if vsyncGo s.mem q = 0 then some s
  else
    match drainQueue q (u32Size s.mem q) fuel (u32RdPtr s.mem q) s with
    | none => none
    | some s =>
      if u32RdPtr s.mem q = u32WrPtr s.mem q then some { s with mem := clearGo s.mem q }
      else some s

/-- The queues up to `u32_max_queue_num`. -/
def vsyncQueues (fuel : ℕ) (s : VsyncPass) : ℕ → Option VsyncPass
  | 0 => some s
  | num + 1 =>
    match vsyncQueues fuel s num with
    | none => none
    | some s => vsyncQueue fuel s num

/-- `se_irq_handler` on Mars : the word at `0xA00000DC`, the memory, and the calls that are made. -/
def seIrqHandler (fuel num : ℕ) (flag : UInt32) (mem : ℕ → UInt32) :
    Option (UInt32 × (ℕ → UInt32) × List SeCmd) :=
  if flag &&& endianSwap32 2 = 0 then some (flag, mem, [])
  else
    match vsyncQueues fuel ⟨mem, [], false⟩ num with
    | none => none
    | some s =>
      let flag := endianSwap32 1
      some (if s.dirty then flag else flag &&& endianSwap32 0, s.mem, s.calls)

/-! ## Records -/

/-- A record of a queue. -/
inductive SeRecord where
  | payload (words : List UInt32)
  /-- The end of a frame. -/
  | marker
  deriving DecidableEq

namespace SeRecord

/-- The words of a record. -/
def encode : SeRecord → List UInt32
  | payload words => ofNat (4 * (words.length + 1)) :: words
  | marker => [0]

theorem encode_pos (r : SeRecord) : 0 < r.encode.length := by
  cases r <;> exact succ_pos _

end SeRecord

/-- The words of records. -/
def encodeRecords (recs : List SeRecord) : List UInt32 :=
  recs.flatMap SeRecord.encode

/-- The payloads before the first marker. -/
def framePayloads : List SeRecord → List (List UInt32)
  | [] => []
  | .marker :: _ => []
  | .payload words :: recs => words :: framePayloads recs

/-- The number of words up to the first marker, which is included. -/
def frameLength : List SeRecord → ℕ
  | [] => 0
  | .marker :: _ => 1
  | .payload words :: recs => words.length + 1 + frameLength recs

/-- The records behind the first marker. -/
def afterFrame : List SeRecord → List SeRecord
  | [] => []
  | .marker :: recs => recs
  | .payload _ :: recs => afterFrame recs

/-- The words of a payload that begins at the word `p` of a buffer of `n` words. -/
def emission (n p : ℕ) (words : List UInt32) : SeEmission :=
  if n ≤ p + words.length then .split (words.take (n - p)) (words.drop (n - p)) else .whole words

/-- The emissions of a queue that is drained, from the word `rd` on. -/
def emissions (n : ℕ) : ℕ → List SeRecord → List SeEmission
  | _, [] => []
  | _, .marker :: _ => []
  | rd, .payload words :: recs =>
    emission n (place n rd 1) words :: emissions n (place n rd (words.length + 1)) recs

theorem emission_words (n p : ℕ) (words : List UInt32) : (emission n p words).words = words := by
  unfold emission
  split_ifs
  · exact take_append_drop ..
  · rfl

theorem callWords_emission (e : SeEmission) : callWords e.calls = e.words := by
  cases e with
  | whole words => exact append_nil words
  | split first second =>
    change first ++ (second ++ []) = _
    rw [append_nil, SeEmission.words]

theorem callWords_emissions (n : ℕ) : ∀ (recs : List SeRecord) (rd : ℕ),
    callWords (seCalls (emissions n rd recs)) = (framePayloads recs).flatten
  | [], _ => rfl
  | .marker :: _, _ => rfl
  | .payload words :: recs, rd => by
    rw [emissions, seCalls, flatMap_cons, callWords, flatMap_append, ← callWords,
      callWords_emission, emission_words, framePayloads, flatten_cons,
      ← callWords_emissions n recs (place n rd (words.length + 1))]
    rfl

/-! ## The content of a queue -/

/-- The queue at the word `q` has a buffer of `n` words, and holds `recs` from the word `rd` on. -/
structure QueueHolds (mem : ℕ → UInt32) (q n rd : ℕ) (recs : List SeRecord) : Prop where
  size : u32Size mem q = ofNat (4 * n)
  rd_lt : rd < n
  rdPtr : u32RdPtr mem q = ofNat (4 * rd)
  wrPtr : u32WrPtr mem q = ofNat (4 * place n rd (encodeRecords recs).length)
  room : (encodeRecords recs).length < n
  content : stretch (u8Buf mem q) n rd (encodeRecords recs).length = encodeRecords recs

section Queue

variable {mem : ℕ → UInt32} {q n rd : ℕ} {recs : List SeRecord}

theorem toNat_ofNat {a : ℕ} (ha : a < 0x100000000) : (ofNat a).toNat = a :=
  toNat_ofNat_of_lt' ha

theorem ofNat_inj {a b : ℕ} (ha : a < 0x100000000) (hb : b < 0x100000000)
    (h : ofNat a = ofNat b) : a = b := by
  have := congrArg toNat h
  rwa [toNat_ofNat ha, toNat_ofNat hb] at this

theorem ofNat_le {a b : ℕ} (ha : a < 0x100000000) (hb : b < 0x100000000) :
    ofNat a ≤ ofNat b ↔ a ≤ b := by
  rw [le_iff_toNat_le, toNat_ofNat ha, toNat_ofNat hb]

theorem ofNat_sub {a b : ℕ} (hba : b ≤ a) :
    UInt32.ofNat a - UInt32.ofNat b = UInt32.ofNat (a - b) := by
  rw [← Nat.sub_add_cancel hba, UInt32.ofNat_add, Nat.add_sub_cancel, UInt32.add_sub_cancel]

/-- A pointer of a queue goes on by a word. -/
theorem next_ptr (hn : 4 * n ≤ 0x20000000) {x : ℕ} (hx : x < n) :
    (if ofNat (4 * n) ≤ ofNat (4 * x) + 4 then
      ofNat (4 * x) + 4 - ofNat (4 * n) else ofNat (4 * x) + 4) =
    ofNat (4 * place n x 1) := by
  have hadd : ofNat (4 * x) + 4 = ofNat (4 * x + 4) := (ofNat_add ..).symm
  rw [hadd]
  by_cases hle : 4 * n ≤ 4 * x + 4
  · rw [if_pos ((ofNat_le (by omega) (by omega)).2 hle), ofNat_sub hle,
      place_of_le hx (by omega) (by omega)]
    exact congrArg ofNat (by omega)
  · rw [if_neg (mt (ofNat_le (by omega) (by omega)).1 hle), place_of_lt (by omega)]
    exact congrArg ofNat (by omega)

/-- Words that do not go beyond the end of the buffer. -/
theorem bufWords_eq (mem : ℕ → UInt32) (q : ℕ) (hn : 4 * n ≤ 0x20000000) {p len : ℕ}
    (hlen : p + len ≤ n) :
    bufWords mem q (ofNat (4 * p)) (ofNat (4 * len)) =
      stretch (u8Buf mem q) n p len := by
  have hcount : (4 * len + 3) / 4 = len := by omega
  have hstart : 4 * p / 4 = p := by omega
  rw [bufWords, toNat_ofNat (by omega), toNat_ofNat (by omega), hcount, hstart, stretch]
  refine map_congr_left fun k hk => ?_
  rw [place_of_lt (by have := mem_range.1 hk; omega)]

theorem u8Buf_setRdPtr (mem : ℕ → UInt32) (q : ℕ) (x : UInt32) :
    u8Buf (setRdPtr mem q x) q = u8Buf mem q := by
  funext k
  exact update_of_ne (by omega) _ _

theorem setRdPtr_self (h : QueueHolds mem q n rd recs) :
    setRdPtr mem q (ofNat (4 * rd)) = mem := by
  rw [← h.rdPtr]
  exact update_eq_self ..

theorem setRdPtr_setRdPtr (mem : ℕ → UInt32) (q : ℕ) (x y : UInt32) :
    setRdPtr (setRdPtr mem q x) q y = setRdPtr mem q y :=
  update_idem ..

namespace QueueHolds

variable {r : SeRecord}

/-- The first record, and those behind it. -/
theorem cut (h : QueueHolds mem q n rd (r :: recs)) :
    stretch (u8Buf mem q) n rd r.encode.length = r.encode ∧
      stretch (u8Buf mem q) n (place n rd r.encode.length) (encodeRecords recs).length =
        encodeRecords recs := by
  have hcontent := h.content
  rw [encodeRecords, flatMap_cons, length_append, stretch_add] at hcontent
  exact append_inj hcontent (length_stretch ..)

/-- The read pointer goes on to the next record. -/
theorem advance (h : QueueHolds mem q n rd (r :: recs)) :
    QueueHolds (setRdPtr mem q (ofNat (4 * place n rd r.encode.length))) q n
      (place n rd r.encode.length) recs := by
  have hlen : (encodeRecords (r :: recs)).length =
      r.encode.length + (encodeRecords recs).length := by
    rw [encodeRecords, flatMap_cons, length_append]
    rfl
  have hroom := h.room
  have hwrPtr := h.wrPtr
  rw [hlen] at hroom hwrPtr
  refine ⟨?_, place_lt h.rd_lt, update_self .., ?_, by omega, ?_⟩
  · exact (update_of_ne (by omega) _ _).trans h.size
  · rw [place_place]
    exact (update_of_ne (by omega) _ _).trans hwrPtr
  · rw [u8Buf_setRdPtr]
    exact h.cut.2

/-- The queue is empty if the pointers agree. -/
theorem empty_iff (hn : 4 * n ≤ 0x20000000) (h : QueueHolds mem q n rd recs) :
    u32RdPtr mem q = u32WrPtr mem q ↔ recs = [] := by
  rw [h.rdPtr, h.wrPtr]
  constructor
  · intro heq
    have hlt := h.rd_lt
    have hpl := place_lt (k := (encodeRecords recs).length) h.rd_lt
    have hrd := ofNat_inj (by omega) (by omega) heq
    have hzero : 0 = (encodeRecords recs).length := by
      refine place_inj (p := rd) (zero_lt_of_lt h.rd_lt) h.room ?_
      rw [place_zero h.rd_lt]
      omega
    cases recs with
    | nil => rfl
    | cons r recs =>
      have hpos := r.encode_pos
      rw [encodeRecords, flatMap_cons, length_append] at hzero
      omega
  · rintro rfl
    change _ = ofNat (4 * place n rd 0)
    rw [place_zero h.rd_lt]

/-- What the handler finds for a payload. -/
theorem payload {words : List UInt32} (h : QueueHolds mem q n rd (.payload words :: recs)) :
    u8Buf mem q rd = ofNat (4 * (words.length + 1)) ∧
      stretch (u8Buf mem q) n (place n rd 1) words.length = words ∧
      words.length + 1 < n := by
  have hcut := h.cut.1
  have hroom := h.room
  rw [encodeRecords, flatMap_cons, length_append, SeRecord.encode, length_cons] at hroom
  have hone : stretch (u8Buf mem q) n rd 1 = [u8Buf mem q rd] := by
    rw [stretch, range_one, map_singleton, place_zero h.rd_lt]
  rw [SeRecord.encode, length_cons, add_comm, stretch_add, hone, singleton_append,
    add_comm 1] at hcut
  obtain ⟨hhead, htail⟩ := cons.inj hcut
  exact ⟨hhead, htail, by omega⟩

theorem marker (h : QueueHolds mem q n rd (.marker :: recs)) : u8Buf mem q rd = 0 := by
  have hcut := h.cut.1
  change stretch _ _ _ 1 = [0] at hcut
  rw [stretch, range_one, map_singleton, place_zero h.rd_lt] at hcut
  exact (cons.inj hcut).1

end QueueHolds

/-- The calls for a payload that begins at the word `p`, and the pointer behind it. -/
theorem drainQueue_payload (hn : 4 * n ≤ 0x20000000) {words : List UInt32} {s : VsyncPass}
    (h : QueueHolds s.mem q n rd (.payload words :: recs)) (fuel : ℕ) :
    drainQueue q (ofNat (4 * n)) (fuel + 1) (ofNat (4 * rd)) s =
      drainQueue q (ofNat (4 * n)) fuel
        (ofNat (4 * place n rd (words.length + 1)))
        ⟨setRdPtr s.mem q (ofNat (4 * place n rd (words.length + 1))),
          s.calls ++ (emission n (place n rd 1) words).calls, true⟩ := by
  obtain ⟨hhead, htail, hlt⟩ := h.payload
  have hrd := h.rd_lt
  have hp := place_lt (k := 1) hrd
  have hne : ¬u32RdPtr s.mem q = u32WrPtr s.mem q := mt (h.empty_iff hn).1 (cons_ne_nil _ _)
  have hword : 4 * rd / 4 = rd := by omega
  have hlen : ofNat (4 * (words.length + 1)) - 4 = ofNat (4 * words.length) :=
    (ofNat_sub (b := 4) (by omega)).trans (congrArg ofNat (by omega))
  have hpos : ofNat (4 * (words.length + 1)) ≠ 0 := fun heq => by
    have := ofNat_inj (b := 0) (by omega) (by omega) heq
    omega
  rw [drainQueue, if_neg hne, toNat_ofNat (by omega), hword, hhead]
  simp only []
  rw [if_neg hpos, next_ptr hn hrd, hlen, ← ofNat_add]
  have hnext : place n rd (words.length + 1) = place n (place n rd 1) words.length := by
    rw [place_place, add_comm]
  generalize place n rd 1 = p at *
  rw [hnext]
  unfold emission
  by_cases hle : n ≤ p + words.length
  · have hend : place n p words.length = p + words.length - n := place_of_le hp (by omega) hle
    have hzero : place n p (n - p) = 0 := by
      rw [place_of_le hp (by omega) (by omega)]
      omega
    have hrest : words.length - (n - p) = p + words.length - n := by omega
    have hfirst : stretch (u8Buf s.mem q) n p (n - p) = words.take (n - p) := by
      rw [← take_stretch _ _ _ (Nat.sub_le_iff_le_add'.2 hle), htail]
    have hsecond : bufWords s.mem q 0 (ofNat (4 * (p + words.length - n))) =
        words.drop (n - p) := by
      refine (bufWords_eq (p := 0) s.mem q hn (by omega)).trans ?_
      rw [← hrest, ← hzero, ← drop_stretch _ _ _ (Nat.sub_le_iff_le_add'.2 hle), htail]
    rw [if_pos ((ofNat_le (by omega) (by omega)).2 (by omega)), if_pos hle,
      ofNat_sub (by omega), ofNat_sub (by omega), hend, ← Nat.mul_add, ← Nat.mul_sub,
      ← Nat.mul_sub, bufWords_eq _ _ hn (by omega), hfirst, hsecond]
    rfl
  · rw [if_neg (mt (ofNat_le (by omega) (by omega)).1 (by omega)), if_neg hle,
      place_of_lt (by omega), bufWords_eq _ _ hn (by omega), htail, ← mul_add]
    rfl

/-- The records before the first marker are given to the engine, and the read pointer goes behind
the marker. -/
theorem drainQueue_eq (hn : 4 * n ≤ 0x20000000) : ∀ (recs : List SeRecord) {fuel rd : ℕ}
    {s : VsyncPass}, recs.length < fuel → QueueHolds s.mem q n rd recs →
    drainQueue q (ofNat (4 * n)) fuel (ofNat (4 * rd)) s =
      some ⟨setRdPtr s.mem q (ofNat (4 * place n rd (frameLength recs))),
        s.calls ++ seCalls (emissions n rd recs), s.dirty || !recs.isEmpty⟩
  | _, 0, _, _, hfuel, _ => absurd hfuel (not_lt_zero _)
  | [], fuel + 1, rd, s, _, h => by
    rw [drainQueue, if_pos ((h.empty_iff hn).2 rfl), frameLength, place_zero h.rd_lt,
      setRdPtr_self h, emissions, seCalls, flatMap_nil, append_nil, isEmpty_nil, Bool.not_true,
      Bool.or_false]
  | .marker :: recs, fuel + 1, rd, s, _, h => by
    have hrd := h.rd_lt
    have hne : ¬u32RdPtr s.mem q = u32WrPtr s.mem q := mt (h.empty_iff hn).1 (cons_ne_nil _ _)
    have hword : 4 * rd / 4 = rd := by omega
    rw [drainQueue, if_neg hne, toNat_ofNat (by omega), hword, h.marker]
    simp only [if_true]
    rw [h.size, h.rdPtr, next_ptr hn hrd, frameLength, emissions, seCalls, flatMap_nil,
      append_nil, isEmpty_cons, Bool.not_false, Bool.or_true]
  | .payload words :: recs, fuel + 1, rd, s, hfuel, h => by
    have hnext := h.advance
    rw [SeRecord.encode, length_cons] at hnext
    rw [drainQueue_payload hn h, drainQueue_eq hn recs (lt_of_succ_lt_succ hfuel) hnext]
    simp only []
    rw [setRdPtr_setRdPtr, place_place, frameLength, emissions, seCalls, seCalls,
      flatMap_cons, append_assoc, isEmpty_cons, Bool.not_false, Bool.or_true,
      Bool.true_or]

/-- What is left in the queue. -/
theorem QueueHolds.drained : ∀ (recs : List SeRecord) {mem : ℕ → UInt32} {rd : ℕ},
    QueueHolds mem q n rd recs →
    QueueHolds (setRdPtr mem q (ofNat (4 * place n rd (frameLength recs)))) q n
      (place n rd (frameLength recs)) (afterFrame recs)
  | [], mem, rd, h => by
    rw [frameLength, place_zero h.rd_lt, setRdPtr_self h]
    exact h
  | .marker :: _, _, _, h => h.advance
  | .payload words :: recs, mem, rd, h => by
    have hnext := h.advance
    rw [SeRecord.encode, length_cons] at hnext
    have hrest := QueueHolds.drained recs hnext
    rw [setRdPtr_setRdPtr, place_place] at hrest
    exact hrest

end Queue

/-! ## A pass -/

/-- The memory holds `num` queues with buffers of `n` words, one behind the other. -/
structure VsyncQueues (mem : ℕ → UInt32) (num n : ℕ) (rd : ℕ → ℕ) (recs : ℕ → List SeRecord) :
    Prop where
  /-- They lie in memory that is not cached. -/
  fits : (4 * n + 20) * num ≤ 0x20000000
  holds : ∀ ii < num, QueueHolds mem ((n + 5) * ii) n (rd ii) (recs ii)

/-- A queue that had `go` set was drained up to the first marker, and `go` is cleared if it is
empty. A queue that had not is as it was. -/
structure Drained (n : ℕ) (mem mem' : ℕ → UInt32) (q rd : ℕ) (recs : List SeRecord) : Prop where
  holds : vsyncGo mem q ≠ 0 →
    QueueHolds mem' q n (place n rd (frameLength recs)) (afterFrame recs)
  no_marker : vsyncGo mem q ≠ 0 → .marker ∉ recs → u32RdPtr mem' q = u32WrPtr mem' q
  go : vsyncGo mem q ≠ 0 → (vsyncGo mem' q = 0 ↔ u32RdPtr mem' q = u32WrPtr mem' q)
  rest : ∀ k < n + 5, vsyncGo mem q = 0 ∨ k ≠ 2 ∧ k ≠ 4 → mem' (q + k) = mem (q + k)

/-- The emissions of the queue at the word `q`. -/
def queueEmissions (mem : ℕ → UInt32) (n q rd : ℕ) (recs : List SeRecord) : List SeEmission :=
  if vsyncGo mem q = 0 then [] else emissions n rd recs

/-- The emissions of the first `num` queues. -/
def passEmissions (mem : ℕ → UInt32) (n : ℕ) (rd : ℕ → ℕ) (recs : ℕ → List SeRecord) :
    ℕ → List SeEmission
  | 0 => []
  | num + 1 => passEmissions mem n rd recs num ++
    queueEmissions mem n ((n + 5) * num) (rd num) (recs num)

section Pass

variable {mem : ℕ → UInt32} {num n fuel : ℕ} {rd : ℕ → ℕ} {recs : ℕ → List SeRecord}

/-- The address of a queue. -/
theorem queue_address (hfits : (4 * n + 20) * num ≤ 0x20000000) {ii : ℕ} (hii : ii < num) :
    ((ofNat (4 * n) + 20) * ofNat ii).toNat / 4 = (n + 5) * ii := by
  have hle : (4 * n + 20) * ii ≤ (4 * n + 20) * num := mul_le_mul_left _ hii.le
  have hprod : (4 * n + 20) * ii = 4 * ((n + 5) * ii) := by
    rw [← mul_assoc]
    exact congrArg (· * ii) (by omega)
  have haddr :
      (ofNat (4 * n) + 20) * ofNat ii = ofNat (4 * ((n + 5) * ii)) := by
    rw [← hprod, ofNat_mul (4 * n + 20), ofNat_add]
    rfl
  rw [haddr, toNat_ofNat (by omega), Nat.mul_div_cancel_left _ (by decide)]

/-- The content of a queue does not depend on `go`, nor on other words. -/
theorem QueueHolds.congr {mem' : ℕ → UInt32} {q rd : ℕ} {recs : List SeRecord}
    (h : QueueHolds mem q n rd recs) (hsame : ∀ k < n + 5, k ≠ 4 → mem' (q + k) = mem (q + k)) :
    QueueHolds mem' q n rd recs := by
  have hpos := zero_lt_of_lt h.rd_lt
  refine ⟨?_, h.rd_lt, ?_, ?_, h.room, ?_⟩
  · exact (hsame 1 (by omega) (by decide)).trans h.size
  · exact (hsame 2 (by omega) (by decide)).trans h.rdPtr
  · exact (hsame 3 (by omega) (by decide)).trans h.wrPtr
  · refine (stretch_congr fun k _ => ?_).trans h.content
    have hpl := place_lt (k := k) h.rd_lt
    rw [u8Buf, u8Buf, add_assoc]
    exact hsame _ (by omega) (by omega)

theorem afterFrame_of_no_marker : ∀ recs : List SeRecord, .marker ∉ recs → afterFrame recs = []
  | [], _ => rfl
  | .marker :: _, h => absurd mem_cons_self h
  | .payload _ :: recs, h =>
    afterFrame_of_no_marker recs fun hmem => h (mem_cons_of_mem _ hmem)

theorem length_le_encode : ∀ recs : List SeRecord, recs.length ≤ (encodeRecords recs).length
  | [] => le_refl 0
  | r :: recs => by
    have hpos := r.encode_pos
    have hrest := length_le_encode recs
    rw [encodeRecords, flatMap_cons, length_append, length_cons, ← encodeRecords]
    omega

namespace Drained

variable {mem' mem'' : ℕ → UInt32} {q rd : ℕ} {recs : List SeRecord}

/-- What is done to other words does not matter. -/
theorem congr (h : Drained n mem mem' q rd recs) (hpos : 0 < n)
    (hsame : ∀ k < n + 5, mem'' (q + k) = mem' (q + k)) : Drained n mem mem'' q rd recs := by
  have hrd : u32RdPtr mem'' q = u32RdPtr mem' q := hsame 2 (by omega)
  have hwr : u32WrPtr mem'' q = u32WrPtr mem' q := hsame 3 (by omega)
  have hgo : vsyncGo mem'' q = vsyncGo mem' q := hsame 4 (by omega)
  refine ⟨fun hne => (h.holds hne).congr fun k hk _ => hsame k hk, ?_, ?_,
    fun k hk hk' => (hsame k hk).trans (h.rest k hk hk')⟩
  · rw [hrd, hwr]
    exact h.no_marker
  · rw [hrd, hwr, hgo]
    exact h.go

/-- What was done to other words does not matter. -/
theorem congr_left (h : Drained n mem' mem'' q rd recs) (hpos : 0 < n)
    (hsame : ∀ k < n + 5, mem' (q + k) = mem (q + k)) : Drained n mem mem'' q rd recs := by
  have hgo : vsyncGo mem' q = vsyncGo mem q := hsame 4 (by omega)
  refine ⟨hgo ▸ h.holds, hgo ▸ h.no_marker, hgo ▸ h.go, fun k hk hk' => ?_⟩
  exact (h.rest k hk (hgo ▸ hk')).trans (hsame k hk)

end Drained

/-- A queue is drained, and the words of the other queues are left as they are. -/
theorem vsyncQueue_eq {s : VsyncPass} {q ii rd : ℕ} {recs : List SeRecord}
    (hn : 4 * n ≤ 0x20000000) (hq : ((u32Size s.mem 0 + 20) * ofNat ii).toNat / 4 = q)
    (hfuel : recs.length < fuel) (h : QueueHolds s.mem q n rd recs) :
    ∃ s', vsyncQueue fuel s ii = some s' ∧ Drained n s.mem s'.mem q rd recs ∧
      s'.calls = s.calls ++ seCalls (queueEmissions s.mem n q rd recs) ∧
      (∀ a, a ≠ q + 2 → a ≠ q + 4 → s'.mem a = s.mem a) := by
  rw [vsyncQueue, hq, queueEmissions]
  by_cases hgo : vsyncGo s.mem q = 0
  · rw [if_pos hgo, if_pos hgo, seCalls, flatMap_nil, append_nil]
    exact ⟨s, rfl, ⟨fun hne => absurd hgo hne, fun hne => absurd hgo hne,
      fun hne => absurd hgo hne, fun _ _ _ => rfl⟩, rfl, fun _ _ _ => rfl⟩
  · rw [if_neg hgo, if_neg hgo, h.size, h.rdPtr, drainQueue_eq hn recs hfuel h]
    have hdrained := h.drained recs
    have hmem (a : ℕ) (ha : a ≠ q + 2) : setRdPtr s.mem q
        (ofNat (4 * place n rd (frameLength recs))) a = s.mem a :=
      update_of_ne ha _ _
    generalize setRdPtr s.mem q (ofNat (4 * place n rd (frameLength recs))) = mem1 at *
    have hmarker (hno : .marker ∉ recs) : u32RdPtr mem1 q = u32WrPtr mem1 q :=
      (hdrained.empty_iff hn).2 (afterFrame_of_no_marker recs hno)
    simp only []
    by_cases hempty : u32RdPtr mem1 q = u32WrPtr mem1 q
    · rw [if_pos hempty]
      have hclear (a : ℕ) (ha : a ≠ q + 4) : clearGo mem1 q a = mem1 a :=
        update_of_ne ha _ _
      have hptrs : u32RdPtr (clearGo mem1 q) q = u32WrPtr (clearGo mem1 q) q := by
        rw [u32RdPtr, u32WrPtr, hclear _ (by omega), hclear _ (by omega)]
        exact hempty
      refine ⟨_, rfl, ⟨fun _ => hdrained.congr fun k _ hk => hclear _ (by omega),
        fun _ _ => hptrs, fun _ => iff_of_true (update_self ..) hptrs, ?_⟩, rfl, ?_⟩
      · rintro k _ (hzero | ⟨hk2, hk4⟩)
        · exact absurd hzero hgo
        · exact (hclear _ (by omega)).trans (hmem _ (by omega))
      · exact fun a ha2 ha4 => (hclear a ha4).trans (hmem a ha2)
    · rw [if_neg hempty]
      have hgo' : vsyncGo mem1 q ≠ 0 := by
        rw [vsyncGo, hmem _ (by omega)]
        exact hgo
      refine ⟨_, rfl, ⟨fun _ => hdrained, fun _ => hmarker, fun _ => iff_of_false hgo' hempty, ?_⟩,
        rfl, fun a ha2 _ => hmem a ha2⟩
      rintro k _ (hzero | ⟨hk2, hk4⟩)
      · exact absurd hzero hgo
      · exact hmem _ (by omega)

/-- The first queues are drained, and the others are as they were. -/
theorem vsyncQueues_eq (h : VsyncQueues mem num n rd recs) (hfuel : n ≤ fuel) : ∀ m ≤ num,
    ∃ s, vsyncQueues fuel ⟨mem, [], false⟩ m = some s ∧
      (∀ ii < m, Drained n mem s.mem ((n + 5) * ii) (rd ii) (recs ii)) ∧
      s.calls = seCalls (passEmissions mem n rd recs m) ∧
      ∀ a, a = 1 ∨ (n + 5) * m ≤ a → s.mem a = mem a
  | 0, _ => ⟨⟨mem, [], false⟩, rfl, fun _ hii => absurd hii (not_lt_zero _), rfl, fun _ _ => rfl⟩
  | m + 1, hm => by
    obtain ⟨s, heq, hdrained, hcalls, hsame⟩ := vsyncQueues_eq h hfuel m (by omega)
    have hholds := h.holds m hm
    have hpos := zero_lt_of_lt hholds.rd_lt
    have hn : 4 * n ≤ 0x20000000 := by
      have hle : (4 * n + 20) * 1 ≤ (4 * n + 20) * num := mul_le_mul_left _ (by omega)
      have := h.fits
      omega
    have hsize : u32Size s.mem 0 = ofNat (4 * n) :=
      (hsame 1 (Or.inl rfl)).trans (h.holds 0 (by omega)).size
    have hregion (k : ℕ) : s.mem ((n + 5) * m + k) = mem ((n + 5) * m + k) :=
      hsame _ (Or.inr (le_add_right _ _))
    have hq : ((u32Size s.mem 0 + 20) * ofNat m).toNat / 4 = (n + 5) * m := by
      rw [hsize]
      exact queue_address h.fits hm
    have hlen : (recs m).length < fuel :=
      (length_le_encode _).trans_lt (hholds.room.trans_le hfuel)
    obtain ⟨s', heq', hdrained', hcalls', hsame'⟩ :=
      vsyncQueue_eq hn hq hlen (hholds.congr fun k _ _ => hregion k)
    refine ⟨s', ?_, ?_, ?_, ?_⟩
    · rw [vsyncQueues, heq]
      exact heq'
    · intro ii hii
      rcases Nat.lt_succ_iff_lt_or_eq.1 hii with hlt | rfl
      · have hle : (n + 5) * (ii + 1) ≤ (n + 5) * m := mul_le_mul_left _ hlt
        rw [mul_succ] at hle
        exact (hdrained ii hlt).congr hpos fun k hk => hsame' _ (by omega) (by omega)
      · exact hdrained'.congr_left hpos fun k _ => hregion k
    · have hgo : vsyncGo s.mem ((n + 5) * m) = vsyncGo mem ((n + 5) * m) := hregion 4
      rw [hcalls', hcalls, passEmissions, seCalls, seCalls, seCalls, flatMap_append,
        queueEmissions, queueEmissions, hgo]
    · intro a ha
      rw [mul_succ] at ha
      rw [hsame' a (by omega) (by omega)]
      exact hsame a (by omega)

/-- The payload words of the first `num` queues before the first markers, for queues with `go`. -/
def passWords (mem : ℕ → UInt32) (n : ℕ) (recs : ℕ → List SeRecord) : ℕ → List UInt32
  | 0 => []
  | num + 1 => passWords mem n recs num ++
    if vsyncGo mem ((n + 5) * num) = 0 then [] else (framePayloads (recs num)).flatten

theorem callWords_pass (mem : ℕ → UInt32) (n : ℕ) (rd : ℕ → ℕ) (recs : ℕ → List SeRecord) :
    ∀ num, callWords (seCalls (passEmissions mem n rd recs num)) = passWords mem n recs num
  | 0 => rfl
  | num + 1 => by
    rw [passEmissions, seCalls, flatMap_append, callWords, flatMap_append, ← seCalls,
      ← callWords, callWords_pass mem n rd recs num, passWords, queueEmissions]
    split_ifs
    · rfl
    · rw [← callWords_emissions n (recs num) (rd num)]
      rfl

/-- A pass drains the queues that have `go` set. When the ring is never full, the payload words
before the first markers are appended to it, and `SeCmdWritePtr` is set behind the last of them. -/
theorem seIrqHandler_drains {b : SeBuf} (hb : b.Fits) (h : VsyncQueues mem num n rd recs)
    (hfuel : n ≤ fuel) {flag : UInt32} (hflag : flag &&& endianSwap32 2 ≠ 0) :
    ∃ flag' mem' calls, seIrqHandler fuel num flag mem = some (flag', mem', calls) ∧
      (∀ ii < num, Drained n mem mem' ((n + 5) * ii) (rd ii) (recs ii)) ∧
      ∀ (s : SeRing) (w : ℕ) (ticks : List Bool), w < seCommandEntries → s.call = .idle →
        s.calls = calls → s.wrptr = w * 4 → s.seCmdWritePtr = b.cmdBase + w * 4 →
        s.NeverFull b ticks → callsWork calls ≤ ticks.count true →
        let s' := ticks.foldl (SeRing.tick b) s
        s'.call = .idle ∧ s'.calls = [] ∧
          s'.stores = s.stores ++ placed w (passWords mem n recs num) ∧
          s'.wrptr = place seCommandEntries w (passWords mem n recs num).length * 4 ∧
          s'.seCmdWritePtr =
            b.cmdBase + place seCommandEntries w (passWords mem n recs num).length * 4 := by
  obtain ⟨s, heq, hdrained, hcalls, -⟩ := vsyncQueues_eq h hfuel num (le_refl num)
  refine ⟨_, s.mem, s.calls, by rw [seIrqHandler, if_neg hflag, heq], hdrained, ?_⟩
  intro r w ticks hw hidle hcalls' hwrptr hptr hfull hwork
  rw [hcalls] at hcalls' hwork
  have hrun := SeRing.appends_run hb hw hidle hwrptr hptr _ hcalls' hfull hwork
  rw [callWords_pass] at hrun
  exact hrun

end Pass

/-- A queue of eight words : a record that goes beyond the end, a marker and another record. -/
def wrappedQueue (a : ℕ) : UInt32 :=
  [0, 32, 20, 16, 1, 30, 0, 8, 7, 0, 16, 10, 20].getD a 0

theorem wrappedQueue_holds : VsyncQueues wrappedQueue 1 8 (fun _ => 5)
    fun _ => [.payload [10, 20, 30], .marker, .payload [7]] := by
  refine ⟨by decide, fun ii hii => ?_⟩
  obtain rfl : ii = 0 := lt_one_iff.1 hii
  exact ⟨rfl, by decide, rfl, rfl, by decide, by decide⟩

/-- `wrappedQueue` up to its marker : the words of the record that wraps are stored in the ring. -/
theorem seIrqHandler_drains_wrapped : ∃ flag mem calls,
    seIrqHandler 8 1 (endianSwap32 2) wrappedQueue = some (flag, mem, calls) ∧
      Drained 8 wrappedQueue mem 0 5 [.payload [10, 20, 30], .marker, .payload [7]] ∧
      ((replicate 9 true).foldl (SeRing.tick (seOpen 0x80100000))
        (SeRing.holding (seOpen 0x80100000) (fun _ => 0) 4094 0 calls)).stores =
          [(4094, 10), (4095, 20), (0, 30)] := by
  have hb : (seOpen 0x80100000).Fits := seOpen_fits ⟨by decide, by decide⟩
  have hflag : endianSwap32 2 &&& endianSwap32 2 ≠ 0 := by decide
  obtain ⟨flag, mem, calls, heq, hdrained, hrun⟩ :=
    seIrqHandler_drains hb wrappedQueue_holds (le_refl 8) hflag
  obtain rfl : calls = [⟨[10, 20], false⟩, ⟨[30], true⟩] :=
    (congrArg (fun r => r.2.2) (Option.some.inj heq)).symm
  have hfull : (SeRing.holding (seOpen 0x80100000) (fun _ => 0) 4094 0
      [⟨[10, 20], false⟩, ⟨[30], true⟩]).NeverFull (seOpen 0x80100000) (replicate 9 true) :=
    ⟨fun _ => rfl, fun _ => rfl, fun _ => rfl, fun _ => rfl, fun _ => rfl, fun _ => rfl,
      fun _ => rfl, fun _ => rfl, fun _ => rfl, trivial⟩
  refine ⟨flag, mem, _, heq, hdrained 0 (by decide), ?_⟩
  exact (hrun _ 4094 _ (by decide) rfl rfl rfl rfl hfull (by decide)).2.2.1

end OpenHMR
