import OpenHMR.CommandRing
import OpenHMR.Runs

/-!
# The command ring of the streaming engine

`WriteCmd` of `se.c` puts words into a ring of `SE_COMMAND_ENTRIES` words. It waits until there is
room, going by the registers `SeCmdReadPtr` and `SeCmdWritePtr`, and stores the words from
`dev->wrptr` on. Only a call with `go` moves `SeCmdWritePtr`, up to which the engine reads. So the
words of a call without `go` are in the ring, but the next call does not see them when it looks for
room.

`SeRing` is the ring with the calls that are made. A run is safe if each word that is stored behind
words of a call without `go` fits even when the engine reads nothing (`SafeCalls`).
-/

open Circular CommandRing Runs List Function

namespace OpenHMR

open Nat

/-- `SE_COMMAND_ENTRIES`. -/
def seCommandEntries : ℕ :=
  4096

/-- `dev->size`. -/
def seRingSize : ℕ :=
  seCommandEntries * 4

/-! ## Addresses -/

/-- The addresses of the ring. -/
structure SeBuf where
  cmdBuf : ℕ
  /-- The address for the engine. -/
  cmdBase : ℕ
  /-- `dev->v_to_p_offset`, as an unsigned number. -/
  vToPOffset : ℕ

/-- The addresses that `se_open` sets for the memory at `cmdBuf`. -/
def seOpen (cmdBuf : ℕ) : SeBuf :=
  let physicalAddress := (cmdBuf + 0x100000000 - 0x80000000) % 0x100000000
  ⟨cmdBuf, physicalAddress, (cmdBuf + 0x100000000 - physicalAddress) % 0x100000000⟩

/-- The memory at `cmdBuf` is one that `kmalloc` gives, among the 256 MB of the board. -/
def SeKmalloced (cmdBuf : ℕ) : Prop :=
  0x80000000 < cmdBuf ∧ cmdBuf + seRingSize ≤ 0x90000000

/-- The addresses stand for the same memory. -/
structure SeBuf.Fits (b : SeBuf) : Prop where
  cmdBuf : b.cmdBuf = b.cmdBase + 0x80000000
  vToPOffset : b.vToPOffset = 0x80000000
  cmdBase : 0 < b.cmdBase ∧ b.cmdBase + seRingSize ≤ 0x10000000

theorem seOpen_fits {cmdBuf : ℕ} (h : SeKmalloced cmdBuf) : (seOpen cmdBuf).Fits := by
  obtain ⟨hlow, hhigh⟩ := h
  unfold seRingSize seCommandEntries at hhigh
  have hbase := sub_addr hlow.le (show cmdBuf < 0x100000000 by omega)
  refine ⟨?_, ?_, ?_⟩ <;> simp only [seOpen, hbase]
  · omega
  · rw [sub_addr (Nat.sub_le _ _) (by omega)]
    omega
  · unfold seRingSize seCommandEntries
    omega

/-! ## The ring -/

/-- A call of `WriteCmd`. -/
structure SeCmd where
  words : List UInt32
  go : Bool
  deriving DecidableEq

/-- Where a call is. -/
inductive SeCall where
  | idle
  /-- It waits for room. -/
  | space (cmd : SeCmd) (writePointer : ℕ)
  /-- It has stored `i` words. -/
  | store (cmd : SeCmd) (i pWptr : ℕ)

/-- The ring, the registers and the call under way. -/
structure SeRing where
  /-- `dev->wrptr`. -/
  wrptr : ℕ
  seCmdReadPtr : ℕ
  seCmdWritePtr : ℕ
  /-- The words of the ring. -/
  mem : ℕ → UInt32
  call : SeCall
  /-- The calls that follow. -/
  calls : List SeCmd
  /-- The words that were stored, with their places. -/
  stores : List (ℕ × UInt32)
  /-- The words that were stored and not yet read. -/
  unread : ℕ → Bool
  /-- An unread word was overwritten. -/
  overwritten : Bool

namespace SeRing

/-- The word at a physical address. -/
def wordAt (b : SeBuf) (addr : ℕ) : ℕ :=
  (addr - b.cmdBase) / 4

/-- The physical address of a store through `pWptr`, which is made not cached. -/
def storeAddr (pWptr : ℕ) : ℕ :=
  (pWptr ||| 0xA0000000) - 0xA0000000

/-- There is room for `len` words, by the pointer that was read. -/
def hasRoom (s : SeRing) (len writePointer : ℕ) : Bool :=
  let readPointer := if s.seCmdReadPtr ≤ writePointer then s.seCmdReadPtr + seRingSize
    else s.seCmdReadPtr
  decide (s.seCmdReadPtr ≠ 0 ∧ writePointer + len * 4 < readPointer)

/-- `SeCmdWritePtr` is set. -/
def publish (b : SeBuf) (s : SeRing) (pWptr : ℕ) : SeRing :=
  { s with seCmdWritePtr := (pWptr + 0x100000000 - b.vToPOffset) % 0x100000000 }

/-- A call is made. -/
def begin (b : SeBuf) (s : SeRing) (cmd : SeCmd) (calls : List SeCmd) : SeRing :=
  if cmd.words = [] then
    let s := { s with calls := calls }
    if cmd.go then s.publish b (b.cmdBuf + s.wrptr) else s
  else if s.seCmdWritePtr = 0 then s
  else { s with call := .space cmd s.seCmdWritePtr, calls := calls }

/-- A word is stored. -/
def storeWord (b : SeBuf) (s : SeRing) (cmd : SeCmd) (i pWptr : ℕ) (word : UInt32) : SeRing :=
  let p := wordAt b (storeAddr pWptr)
  { s with
    mem := update s.mem p word
    stores := s.stores ++ [(p, word)]
    overwritten := s.overwritten || s.unread p
    unread := update s.unread p true
    call := .store cmd (i + 1)
      (if b.cmdBuf + seRingSize ≤ pWptr + 4 then pWptr + 4 - seRingSize else pWptr + 4) }

/-- The end of a call. -/
def finish (b : SeBuf) (s : SeRing) (cmd : SeCmd) (pWptr : ℕ) : SeRing :=
  let s := { s with wrptr := pWptr - b.cmdBuf, call := .idle }
  if cmd.go then s.publish b pWptr else s

/-- The processor goes on. -/
def cpu (b : SeBuf) (s : SeRing) : SeRing :=
  match s.call with
  | .idle =>
    match s.calls with
    | [] => s
    | cmd :: calls => s.begin b cmd calls
  | .space cmd writePointer =>
    if s.hasRoom cmd.words.length writePointer then
      { s with call := .store cmd 0 (b.cmdBuf + s.wrptr) }
    else s
  | .store cmd i pWptr =>
    match cmd.words[i]? with
    | some word => s.storeWord b cmd i pWptr word
    | none => s.finish b cmd pWptr

/-- The engine reads a word, if there is one. -/
def engine (b : SeBuf) (s : SeRing) : SeRing :=
  if s.seCmdReadPtr = s.seCmdWritePtr then s
  else
    { s with
      seCmdReadPtr :=
        if b.cmdBase + seRingSize ≤ s.seCmdReadPtr + 4 then b.cmdBase else s.seCmdReadPtr + 4
      unread := update s.unread (wordAt b s.seCmdReadPtr) false }

/-- A tick of the processor, or of the engine. -/
def tick (b : SeBuf) (s : SeRing) (processor : Bool) : SeRing :=
  if processor then s.cpu b else s.engine b

end SeRing

/-! ## The invariant -/

/-- What holds of a call, when the published words end at the word `w`. -/
def SeCall.Fits (b : SeBuf) (wrptr w : ℕ) (pending staged : List UInt32) : SeCall → Prop
  | .idle => wrptr = place seCommandEntries w staged.length * 4
  | .space cmd writePointer => wrptr = place seCommandEntries w staged.length * 4 ∧
    cmd.words ≠ [] ∧ writePointer = b.cmdBase + w * 4
  | .store cmd i pWptr => i ≤ cmd.words.length ∧
    pWptr = b.cmdBuf + place seCommandEntries w staged.length * 4 ∧
    ∃ before, staged = before ++ cmd.words.take i ∧
      pending.length + before.length + cmd.words.length < seCommandEntries

/-- A call is not disturbed by the engine. -/
theorem SeCall.Fits.read {b : SeBuf} {wrptr w : ℕ} {x : UInt32} {pending staged : List UInt32}
    {c : SeCall} (h : c.Fits b wrptr w (x :: pending) staged) :
    c.Fits b wrptr w pending staged := by
  cases c with
  | idle | space => exact h
  | store cmd i pWptr =>
    obtain ⟨hi, hp, before, hstaged, hroom⟩ := h
    rw [length_cons] at hroom
    exact ⟨hi, hp, before, hstaged, by omega⟩

namespace SeRing

/-- The ring holds `pending`, which is published, and `staged`, which is not. -/
structure Inv (b : SeBuf) (s : SeRing) (rd w : ℕ) (pending staged : List UInt32) : Prop where
  holds : CommandRing.Holds seCommandEntries s.mem rd w pending staged
  unread : Unread seCommandEntries rd (pending.length + staged.length) s.unread
  seCmdWritePtr : s.seCmdWritePtr = b.cmdBase + w * 4
  seCmdReadPtr : s.seCmdReadPtr = b.cmdBase + rd * 4
  call : s.call.Fits b s.wrptr w pending staged
  kept : s.overwritten = false

variable {b : SeBuf} {s : SeRing} {rd w : ℕ} {pending staged : List UInt32}

theorem wordAt_base (b : SeBuf) (k : ℕ) : wordAt b (b.cmdBase + k * 4) = k :=
  word_of_addr b.cmdBase k

/-- A cached address, made not cached. -/
theorem or_uncached {x : ℕ} (hx : x < 2 ^ 29) : 0x80000000 + x ||| 0xA0000000 = 0xA0000000 + x := by
  have h : 4 <<< 29 + x ||| 5 <<< 29 = 5 <<< 29 + x := by
    rw [Nat.shiftLeft_add_eq_or_of_lt hx 4, Nat.or_assoc, Nat.or_comm x, ← Nat.or_assoc,
      ← shiftLeft_or_distrib, shiftLeft_add_eq_or_of_lt hx 5]
    rfl
  simpa only [Nat.reduceShiftLeft] using h

theorem wordAt_store (hb : b.Fits) {k : ℕ} (hk : k < seCommandEntries) :
    wordAt b (storeAddr (b.cmdBuf + k * 4)) = k := by
  have hbase := hb.cmdBase.2
  have hbuf := hb.cmdBuf
  unfold seRingSize seCommandEntries at hbase
  unfold seCommandEntries at hk
  have hsum : b.cmdBuf + k * 4 = 0x80000000 + (b.cmdBase + k * 4) := by omega
  have haddr : storeAddr (b.cmdBuf + k * 4) = b.cmdBase + k * 4 := by
    have hor := or_uncached (x := b.cmdBase + k * 4) (by omega)
    rw [← hsum] at hor
    unfold storeAddr
    omega
  rw [haddr, wordAt_base]

theorem publish_eq (hb : b.Fits) (s : SeRing) {k : ℕ} (hk : k < seCommandEntries) :
    s.publish b (b.cmdBuf + k * 4) = { s with seCmdWritePtr := b.cmdBase + k * 4 } := by
  have hbase := hb.cmdBase.2
  unfold seRingSize seCommandEntries at hbase
  unfold seCommandEntries at hk
  have hphys : (b.cmdBuf + k * 4 + 0x100000000 - b.vToPOffset) % 0x100000000 =
      b.cmdBase + k * 4 := by
    rw [hb.cmdBuf, hb.vToPOffset]
    omega
  rw [publish, hphys]

/-- There is room for the words if the test says so, apart from what is staged. -/
theorem hasRoom_iff (hb : b.Fits) (h : Inv b s rd w pending staged) (len : ℕ) :
    s.hasRoom len (b.cmdBase + w * 4) = true ↔ pending.length + len < seCommandEntries := by
  have hpos := hb.cmdBase.1
  rw [hasRoom, decide_eq_true_iff, h.seCmdReadPtr, ← h.holds.room_iff b.cmdBase len]
  exact and_iff_right (by omega)

/-! ### Steps -/

/-- The engine reads a word that is pending. -/
theorem Inv.engine_cons {x : UInt32} (h : Inv b s rd w (x :: pending) staged) :
    Inv b (s.engine b) (place seCommandEntries rd 1) w pending staged := by
  have hne : s.seCmdReadPtr ≠ s.seCmdWritePtr := by
    rw [h.seCmdReadPtr, h.seCmdWritePtr]
    have hne : rd ≠ w := fun heq => absurd (h.holds.rd_eq_wr_iff.1 heq) (by simp)
    omega
  obtain ⟨-, hread⟩ := h.holds.read
  have hroom := h.holds.room
  rw [length_cons] at hroom
  have hunread := h.unread
  rw [length_cons, add_right_comm] at hunread
  rw [engine, if_neg hne]
  refine ⟨hread, ?_, h.seCmdWritePtr, ?_, h.call.read, h.kept⟩
  · rw [h.seCmdReadPtr, wordAt_base]
    exact hunread.read h.holds.rd_lt (by omega)
  · change (if _ ≤ s.seCmdReadPtr + 4 then _ else s.seCmdReadPtr + 4) = _
    rw [h.seCmdReadPtr]
    exact next_word b.cmdBase h.holds.rd_lt

theorem engine_call (b : SeBuf) (s : SeRing) :
    (s.engine b).call = s.call ∧ (s.engine b).calls = s.calls := by
  unfold engine
  split_ifs <;> exact ⟨rfl, rfl⟩

theorem Inv.engine_nil (h : Inv b s rd w [] staged) : s.engine b = s := by
  have heq : rd = w := h.holds.rd_eq_wr_iff.2 rfl
  rw [engine, if_pos (by rw [h.seCmdReadPtr, h.seCmdWritePtr, heq])]

section Calls

variable {cmd : SeCmd}

theorem cpu_begin {calls : List SeCmd} (hc : s.call = .idle) (hcalls : s.calls = cmd :: calls) :
    s.cpu b = s.begin b cmd calls := by
  rw [cpu, hc]
  simp only []
  rw [hcalls]

variable (h : Inv b s rd w pending staged)

include h

/-- A call with words is made. -/
theorem Inv.begin (hb : b.Fits) (hc : s.call = .idle) (hne : cmd.words ≠ []) (calls : List SeCmd) :
    s.begin b cmd calls = { s with call := .space cmd (b.cmdBase + w * 4), calls := calls } ∧
      Inv b (s.begin b cmd calls) rd w pending staged := by
  have hcall := h.call
  rw [hc] at hcall
  have hptr : s.seCmdWritePtr ≠ 0 := by
    rw [h.seCmdWritePtr]
    have := hb.cmdBase.1
    omega
  rw [SeRing.begin, if_neg hne, if_neg hptr, ← h.seCmdWritePtr]
  exact ⟨rfl, h.holds, h.unread, h.seCmdWritePtr, h.seCmdReadPtr, ⟨hcall, hne, h.seCmdWritePtr⟩,
    h.kept⟩

/-- A call without words publishes what is staged, if it has `go`. -/
theorem Inv.begin_nil (hb : b.Fits) (hc : s.call = .idle)
    (hnil : cmd.words = []) (calls : List SeCmd) :
    (s.begin b cmd calls).call = .idle ∧ (s.begin b cmd calls).calls = calls ∧
      if cmd.go then Inv b (s.begin b cmd calls) rd (place seCommandEntries w staged.length)
        (pending ++ staged) []
      else Inv b (s.begin b cmd calls) rd w pending staged := by
  have hcall := h.call
  rw [hc] at hcall
  have hwrptr : s.wrptr = place seCommandEntries w staged.length * 4 := hcall
  have hpl := place_lt (k := staged.length) h.holds.wr_lt
  rw [SeRing.begin, if_pos hnil]
  simp only []
  cases hgo : cmd.go with
  | true =>
    rw [if_pos rfl, if_pos rfl, hwrptr, publish_eq hb _ hpl]
    refine ⟨hc, rfl, h.holds.publish, ?_, rfl, h.seCmdReadPtr, ?_, h.kept⟩
    · rw [length_append, length_nil, add_zero]
      exact h.unread
    · simp only [hc]
      change _ * 4 = place _ _ _ * 4
      rw [length_nil, place_zero hpl]
  | false =>
    rw [if_neg Bool.false_ne_true, if_neg Bool.false_ne_true]
    refine ⟨hc, rfl, h.holds, h.unread, h.seCmdWritePtr, h.seCmdReadPtr, ?_, h.kept⟩
    simp only [hc]
    exact hwrptr

variable {writePointer i pWptr : ℕ}

/-- The wait ends when there is room, apart from what is staged. -/
theorem Inv.cpu_space (hb : b.Fits) (hc : s.call = .space cmd writePointer) :
    s.cpu b = if pending.length + cmd.words.length < seCommandEntries then
      { s with call := .store cmd 0 (b.cmdBuf + s.wrptr) } else s := by
  have hcall := h.call
  rw [hc] at hcall
  obtain ⟨-, -, rfl⟩ := hcall
  rw [cpu, hc]
  simp only [hasRoom_iff hb h]

/-- If there is also room for what is staged, the words can be stored. -/
theorem Inv.store_zero (hc : s.call = .space cmd writePointer)
    (hroom : pending.length + staged.length + cmd.words.length < seCommandEntries) :
    Inv b { s with call := .store cmd 0 (b.cmdBuf + s.wrptr) } rd w pending staged := by
  have hcall := h.call
  rw [hc] at hcall
  refine ⟨h.holds, h.unread, h.seCmdWritePtr, h.seCmdReadPtr,
    ⟨zero_le _, ?_, staged, ?_, hroom⟩, h.kept⟩
  · rw [hcall.1]
  · rw [take_zero, append_nil]

/-- A word is stored into a free place. -/
theorem Inv.cpu_store (hb : b.Fits)
    (hc : s.call = .store cmd i pWptr) {word : UInt32} (hword : cmd.words[i]? = some word) :
    s.cpu b = s.storeWord b cmd i pWptr word ∧ Inv b (s.cpu b) rd w pending (staged ++ [word]) := by
  have hcall := h.call
  rw [hc] at hcall
  obtain ⟨hi, rfl, before, rfl, hroom⟩ := hcall
  obtain ⟨hlt, hget⟩ := List.getElem?_eq_some_iff.1 hword
  have hlen : (before ++ cmd.words.take i).length = before.length + i := by
    rw [length_append, length_take_of_le hi]
  have hsucc : (before ++ cmd.words.take i ++ [word]).length =
      (before ++ cmd.words.take i).length + 1 := length_append
  have hpl := place_lt (k := (before ++ cmd.words.take i).length) h.holds.wr_lt
  have hcpu : s.cpu b = s.storeWord b cmd i (b.cmdBuf + place seCommandEntries w
      (before ++ cmd.words.take i).length * 4) word := by
    rw [cpu, hc]
    simp only [hword]
  refine ⟨hcpu, ?_⟩
  rw [hcpu]
  have hfree := h.unread.free h.holds.rd_lt h.holds.room
  rw [← h.holds.place_wr] at hfree
  have hmarks := h.unread.store
  rw [← h.holds.place_wr] at hmarks
  have hp := wordAt_store hb hpl
  refine ⟨?_, ?_, h.seCmdWritePtr, h.seCmdReadPtr, ⟨hlt, ?_, before, ?_, hroom⟩, ?_⟩
  · change CommandRing.Holds _ (update s.mem (wordAt b (storeAddr _)) word) _ _ _ _
    rw [hp]
    exact h.holds.store (by omega) word
  · change Unread _ _ _ (update s.unread (wordAt b (storeAddr _)) true)
    rw [hp, hsucc, ← add_assoc]
    exact hmarks
  · exact (next_word_sub b.cmdBuf hpl).trans (by rw [place_place, hsucc])
  · rw [take_add_one, hword, Option.toList_some, append_assoc]
  · change (s.overwritten || s.unread (wordAt b (storeAddr _))) = false
    rw [hp, hfree, h.kept]
    rfl

/-- The end of a call. -/
theorem Inv.cpu_finish (hb : b.Fits)
    (hc : s.call = .store cmd i pWptr) (hword : cmd.words[i]? = none) :
    (s.cpu b).call = .idle ∧ (s.cpu b).calls = s.calls ∧
      if cmd.go then
        Inv b (s.cpu b) rd (place seCommandEntries w staged.length) (pending ++ staged) []
      else Inv b (s.cpu b) rd w pending staged := by
  have hcall := h.call
  rw [hc] at hcall
  obtain ⟨hi, rfl, -⟩ := hcall
  have hpl := place_lt (k := staged.length) h.holds.wr_lt
  have hcpu : s.cpu b =
      s.finish b cmd (b.cmdBuf + place seCommandEntries w staged.length * 4) := by
    rw [cpu, hc]
    simp only [hword]
  rw [hcpu, finish, Nat.add_sub_cancel_left]
  cases hgo : cmd.go with
  | true =>
    rw [if_pos rfl, if_pos rfl, publish_eq hb _ hpl]
    refine ⟨rfl, rfl, h.holds.publish, ?_, rfl, h.seCmdReadPtr, ?_, h.kept⟩
    · rw [length_append, length_nil, add_zero]
      exact h.unread
    · change _ * 4 = place _ _ _ * 4
      rw [length_nil, place_zero hpl]
  | false =>
    rw [if_neg Bool.false_ne_true, if_neg Bool.false_ne_true]
    exact ⟨rfl, rfl, h.holds, h.unread, h.seCmdWritePtr, h.seCmdReadPtr, rfl, h.kept⟩

end Calls

end SeRing

/-! ## Safe calls -/

/-- The calls are safe, when at most `total` words are in the ring and `staged` of them are not
published. -/
def SafeCalls : ℕ → ℕ → List SeCmd → Prop
  | _, _, [] => True
  | total, staged, cmd :: calls =>
    (staged = 0 ∨ cmd.words = [] ∨ total + cmd.words.length < seCommandEntries) ∧
      SafeCalls (total + cmd.words.length) (if cmd.go then 0 else staged + cmd.words.length) calls

/-- The calls that follow are safe. -/
def SeCall.Safe (pending staged : ℕ) (calls : List SeCmd) : SeCall → Prop
  | .idle => ∃ total ≥ pending + staged, SafeCalls total staged calls
  | .space cmd _ => ∃ total ≥ pending + staged, SafeCalls total staged (cmd :: calls)
  | .store cmd i _ => ∃ before, staged = before + i ∧
    ∃ total ≥ pending + before + cmd.words.length,
      SafeCalls total (if cmd.go then 0 else before + cmd.words.length) calls

theorem SeCall.Safe.read {pending staged : ℕ} {calls : List SeCmd} {c : SeCall}
    (h : c.Safe (pending + 1) staged calls) : c.Safe pending staged calls := by
  cases c with
  | idle =>
    obtain ⟨total, htotal, hsafe⟩ := h
    exact ⟨total, by omega, hsafe⟩
  | space cmd writePointer =>
    obtain ⟨total, htotal, hsafe⟩ := h
    exact ⟨total, by omega, hsafe⟩
  | store cmd i pWptr =>
    obtain ⟨before, hstaged, total, htotal, hsafe⟩ := h
    exact ⟨before, hstaged, total, by omega, hsafe⟩

namespace SeRing

variable {b : SeBuf} {s : SeRing} {rd w : ℕ} {pending staged : List UInt32}

/-- The ring and what follows. -/
def SafeInv (b : SeBuf) (s : SeRing) : Prop :=
  ∃ rd w pending staged, Inv b s rd w pending staged ∧
    s.call.Safe pending.length staged.length s.calls

theorem Inv.safe_engine (h : Inv b s rd w pending staged)
    (hsafe : s.call.Safe pending.length staged.length s.calls) : SafeInv b (s.engine b) := by
  cases pending with
  | nil =>
    rw [h.engine_nil]
    exact ⟨rd, w, [], staged, h, hsafe⟩
  | cons x pending =>
    refine ⟨_, w, pending, staged, h.engine_cons, ?_⟩
    rw [(engine_call b s).1, (engine_call b s).2]
    exact hsafe.read

/-- One step of the processor. -/
theorem Inv.safe_cpu (hb : b.Fits) (h : Inv b s rd w pending staged)
    (hsafe : s.call.Safe pending.length staged.length s.calls) : SafeInv b (s.cpu b) := by
  cases hc : s.call with
  | idle =>
    rw [hc] at hsafe
    obtain ⟨total, htotal, hsafe⟩ := hsafe
    cases hcalls : s.calls with
    | nil =>
      have hsame : s.cpu b = s := by
        rw [cpu, hc]
        simp only [hcalls]
      rw [hsame]
      refine ⟨rd, w, pending, staged, h, ?_⟩
      rw [hc, hcalls]
      exact ⟨total, htotal, trivial⟩
    | cons cmd calls =>
      rw [hcalls] at hsafe
      rw [cpu_begin hc hcalls]
      by_cases hnil : cmd.words = []
      · obtain ⟨hidle, hrest, hinv⟩ := h.begin_nil hb hc hnil calls
        obtain ⟨-, hsafe⟩ := hsafe
        rw [hnil, length_nil] at hsafe
        cases hgo : cmd.go with
        | true =>
          rw [hgo, if_pos rfl] at hinv hsafe
          refine ⟨_, _, _, _, hinv, ?_⟩
          rw [hidle, hrest, length_append]
          exact ⟨total, htotal, hsafe⟩
        | false =>
          rw [hgo, if_neg Bool.false_ne_true] at hinv hsafe
          refine ⟨_, _, _, _, hinv, ?_⟩
          rw [hidle, hrest]
          exact ⟨total, htotal, hsafe⟩
      · obtain ⟨heq, hinv⟩ := h.begin hb hc hnil calls
        refine ⟨rd, w, pending, staged, hinv, ?_⟩
        rw [heq]
        exact ⟨total, htotal, hsafe⟩
  | space cmd writePointer =>
    rw [hc] at hsafe
    obtain ⟨total, htotal, hsafe⟩ := hsafe
    rw [h.cpu_space hb hc]
    split_ifs with htest
    · have hcall := h.call
      rw [hc] at hcall
      have hroom : pending.length + staged.length + cmd.words.length < seCommandEntries := by
        rcases hsafe.1 with hzero | hnil | hlt
        · omega
        · exact absurd hnil hcall.2.1
        · omega
      refine ⟨rd, w, pending, staged, h.store_zero hc hroom, staged.length, rfl,
        total + cmd.words.length, by omega, hsafe.2⟩
    · refine ⟨rd, w, pending, staged, h, ?_⟩
      rw [hc]
      exact ⟨total, htotal, hsafe⟩
  | store cmd i pWptr =>
    have hcall := h.call
    rw [hc] at hsafe hcall
    obtain ⟨before, hstaged, total, htotal, hsafe⟩ := hsafe
    cases hword : cmd.words[i]? with
    | some word =>
      obtain ⟨heq, hinv⟩ := h.cpu_store hb hc hword
      refine ⟨rd, w, pending, _, hinv, ?_⟩
      rw [heq, length_append, length_singleton]
      exact ⟨before, by omega, total, htotal, hsafe⟩
    | none =>
      have hi : i = cmd.words.length :=
        le_antisymm hcall.1 (List.getElem?_eq_none_iff.1 hword)
      obtain ⟨hidle, hrest, hinv⟩ := h.cpu_finish hb hc hword
      cases hgo : cmd.go with
      | true =>
        rw [hgo, if_pos rfl] at hinv hsafe
        refine ⟨_, _, _, _, hinv, ?_⟩
        rw [hidle, hrest, length_append]
        exact ⟨total, by rw [length_nil]; omega, hsafe⟩
      | false =>
        rw [hgo, if_neg Bool.false_ne_true] at hinv hsafe
        refine ⟨_, _, _, _, hinv, ?_⟩
        rw [hidle, hrest, hstaged, hi]
        exact ⟨total, by omega, hsafe⟩

theorem SafeInv.tick (hb : b.Fits) (h : SafeInv b s) (processor : Bool) :
    SafeInv b (s.tick b processor) := by
  obtain ⟨rd, w, pending, staged, hinv, hsafe⟩ := h
  unfold SeRing.tick
  split_ifs
  · exact hinv.safe_cpu hb hsafe
  · exact hinv.safe_engine hsafe

/-- Safe calls overwrite no unread word. -/
theorem SafeInv.run (hb : b.Fits) (h : SafeInv b s) (ticks : List Bool) :
    (ticks.foldl (SeRing.tick b) s).overwritten = false := by
  have hrun : SafeInv b (ticks.foldl (SeRing.tick b) s) :=
    foldl_of_step (fun _ processor h => h.tick hb processor) ticks h
  obtain ⟨_, _, _, _, hinv, _⟩ := hrun
  exact hinv.kept

end SeRing

end OpenHMR
