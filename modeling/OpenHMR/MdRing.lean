import OpenHMR.CommandRing
import OpenHMR.Runs

/-!
# The command ring of the move-data engine

`WriteCmd` of `md.c` puts a command into a ring of `SMQ_COMMAND_ENTRIES` words. It waits until
there is room, going by the registers `CmdRdptr` and `CmdWrptr`, stores the words through a pointer
of its own and then moves `CmdWrptr`. The engine reads the ring up to `CmdWrptr` at any time.
`MdRing` is the ring with a call under way. `mdRing_always` says that in every run the engine reads
the words of the commands of all calls in their order, that no word is overwritten before that, and
that every call ends if the engine goes on reading.
-/

open Circular CommandRing Runs List Function

namespace OpenHMR

open Nat

/-- `SMQ_COMMAND_ENTRIES`. -/
def smqCommandEntries : ℕ :=
  4096

/-- `dev->size`. -/
def mdRingSize : ℕ :=
  smqCommandEntries * 4

/-! ## Addresses -/

/-- The addresses of the ring. -/
structure MdBuf where
  /-- The address for stores, which are not cached. -/
  cmdBuf : ℕ
  /-- The address for the engine. -/
  cmdBase : ℕ
  /-- `dev->v_to_p_offset`, as an unsigned number. -/
  vToPOffset : ℕ

/-- The addresses that `md_open` sets for the memory at `cachedCmdBuf`. -/
def mdOpen (cachedCmdBuf : ℕ) : MdBuf :=
  let cmdBuf := cachedCmdBuf &&& 0x0FFFFFFF ||| 0xA0000000
  let physAddr := (cachedCmdBuf + 0x100000000 - 0x80000000) % 0x100000000
  ⟨cmdBuf, physAddr, (cmdBuf + 0x100000000 - physAddr) % 0x100000000⟩

/-- The memory at `cachedCmdBuf` is one that `kmalloc` gives, among the 256 MB of the board. -/
def Kmalloced (cachedCmdBuf : ℕ) : Prop :=
  0x80000000 ≤ cachedCmdBuf ∧ cachedCmdBuf + mdRingSize ≤ 0x90000000

/-- The addresses stand for the same memory. -/
structure MdBuf.Fits (b : MdBuf) : Prop where
  cmdBuf : b.cmdBuf = b.cmdBase + 0xA0000000
  vToPOffset : b.vToPOffset = 0xA0000000
  cmdBase : b.cmdBase + mdRingSize ≤ 0x10000000

/-- The ring that `md_open` allocates. -/
theorem mdOpen_fits {cachedCmdBuf : ℕ} (h : Kmalloced cachedCmdBuf) :
    (mdOpen cachedCmdBuf).Fits := by
  obtain ⟨hlow, hhigh⟩ := h
  unfold mdRingSize smqCommandEntries at hhigh
  have hand : cachedCmdBuf &&& 0x0FFFFFFF = cachedCmdBuf - 0x80000000 := by
    rw [show (0x0FFFFFFF : ℕ) = 2 ^ 28 - 1 from rfl, and_two_pow_sub_one_eq_mod]
    omega
  have hor : cachedCmdBuf - 0x80000000 ||| 0xA0000000 = cachedCmdBuf - 0x80000000 + 0xA0000000 := by
    have h := shiftLeft_add_eq_or_of_lt (show cachedCmdBuf - 0x80000000 < 2 ^ 28 by omega) 10
    rw [Nat.or_comm, Nat.add_comm]
    exact h.symm
  have hbase := sub_addr hlow (show cachedCmdBuf < 0x100000000 by omega)
  refine ⟨?_, ?_, ?_⟩ <;> simp only [mdOpen, hand, hor, hbase]
  · rw [sub_addr (le_add_right _ _) (by omega), Nat.add_sub_cancel_left]
  · unfold mdRingSize smqCommandEntries
    omega

/-! ## The ring -/

/-- Where a call of `WriteCmd` is. -/
inductive MdCall where
  | idle
  /-- It waits for the ring to be empty, as the command reaches the end of it. -/
  | drain (cmd : List UInt32) (writeptr : ℕ)
  /-- It waits for room. -/
  | space (cmd : List UInt32) (writeptr : ℕ)
  /-- It has stored `i` words. -/
  | store (cmd : List UInt32) (i pWptr : ℕ)
  deriving DecidableEq

/-- The ring, the registers and the call under way. -/
structure MdRing where
  /-- `dev->wrptr`. -/
  wrptr : ℕ
  cmdRdptr : ℕ
  cmdWrptr : ℕ
  /-- The words of the ring. -/
  mem : ℕ → UInt32
  call : MdCall
  /-- The commands that were put into the ring. -/
  given : List (List UInt32)
  /-- The words that the engine has read. -/
  seen : List UInt32
  /-- The words that were stored and not yet read. -/
  unread : ℕ → Bool

/-- What happens to the ring. -/
inductive MdRingEvent where
  /-- A call of `WriteCmd`. -/
  | call (cmd : List UInt32)
  /-- The call goes on. -/
  | cpu
  /-- The engine reads a word, if there is one. -/
  | engine

/-- The length of a command is positive and less than the size of the ring. -/
def MdLegal (cmd : List UInt32) : Prop :=
  cmd ≠ [] ∧ cmd.length * 4 < mdRingSize

instance (cmd : List UInt32) : Decidable (MdLegal cmd) :=
  inferInstanceAs (Decidable (_ ∧ _))

namespace MdRing

/-- The word at a physical address. -/
def wordAt (b : MdBuf) (addr : ℕ) : ℕ :=
  (addr - b.cmdBase) / 4

/-- The physical address of an address that is not cached. -/
def uncached (addr : ℕ) : ℕ :=
  addr - 0xA0000000

/-- The ring after `md_open`. -/
def start (b : MdBuf) (mem : ℕ → UInt32) : MdRing :=
  ⟨0, b.cmdBase, b.cmdBase, mem, .idle, [], [], fun _ => false⟩

/-- `WriteCmd` is called. -/
def writeCmd (s : MdRing) (cmd : List UInt32) : MdRing :=
  { s with
    call := if mdRingSize ≤ s.wrptr + cmd.length * 4 then .drain cmd s.cmdWrptr
      else .space cmd s.cmdWrptr }

/-- There is room for the command, by the pointer that was read. -/
def hasRoom (s : MdRing) (cmd : List UInt32) (writeptr : ℕ) : Bool :=
  let readptr := if s.cmdRdptr ≤ writeptr then s.cmdRdptr + mdRingSize else s.cmdRdptr
  decide (writeptr + cmd.length * 4 < readptr)

/-- A word is stored. -/
def storeWord (b : MdBuf) (s : MdRing) (cmd : List UInt32) (i pWptr : ℕ) (word : UInt32) : MdRing :=
  { s with
    mem := update s.mem (wordAt b (uncached pWptr)) word
    unread := update s.unread (wordAt b (uncached pWptr)) true
    call := .store cmd (i + 1)
      (if b.cmdBuf + mdRingSize ≤ pWptr + 4 then b.cmdBuf else pWptr + 4) }

/-- The end of the call. -/
def publish (b : MdBuf) (s : MdRing) (cmd : List UInt32) (pWptr : ℕ) : MdRing :=
  let wrptr := s.wrptr + cmd.length * 4
  { s with
    wrptr := if mdRingSize ≤ wrptr then wrptr - mdRingSize else wrptr
    cmdWrptr := (pWptr + 0x100000000 - b.vToPOffset) % 0x100000000
    call := .idle
    given := s.given ++ [cmd] }

/-- The call under way goes on. -/
def cpu (b : MdBuf) (s : MdRing) : MdRing :=
  match s.call with
  | .idle => s
  | .drain cmd writeptr =>
    if writeptr = s.cmdRdptr then { s with call := .space cmd writeptr } else s
  | .space cmd writeptr =>
    if s.hasRoom cmd writeptr then { s with call := .store cmd 0 (b.cmdBuf + s.wrptr) } else s
  | .store cmd i pWptr =>
    match cmd[i]? with
    | some word => s.storeWord b cmd i pWptr word
    | none => s.publish b cmd pWptr

/-- The engine reads a word. -/
def engine (b : MdBuf) (s : MdRing) : MdRing :=
  if s.cmdRdptr = s.cmdWrptr then s
  else
    { s with
      cmdRdptr :=
        if b.cmdBase + mdRingSize ≤ s.cmdRdptr + 4 then b.cmdBase else s.cmdRdptr + 4
      seen := s.seen ++ [s.mem (wordAt b s.cmdRdptr)]
      unread := update s.unread (wordAt b s.cmdRdptr) false }

def step (b : MdBuf) (s : MdRing) : MdRingEvent → MdRing
  | .call cmd =>
    match s.call with
    | .idle => if MdLegal cmd then s.writeCmd cmd else s
    | _ => s
  | .cpu => s.cpu b
  | .engine => s.engine b

/-- The command of a call under way. -/
def underWay (s : MdRing) : List (List UInt32) :=
  match s.call with
  | .idle => []
  | .drain cmd _ | .space cmd _ | .store cmd _ _ => [cmd]

/-- The command of an event that is a call of `WriteCmd`. It is not made while another one is under
way. -/
def accepts (s : MdRing) : MdRingEvent → List (List UInt32)
  | .call cmd => if s.call = .idle ∧ MdLegal cmd then [cmd] else []
  | .cpu | .engine => []

/-- The commands of all calls in a run. -/
def accepted (b : MdBuf) : MdRing → List MdRingEvent → List (List UInt32)
  | _, [] => []
  | s, ev :: evs => s.accepts ev ++ accepted b (s.step b ev) evs

/-- The next step of the call overwrites a word that the engine has not read. -/
def Overwrites (b : MdBuf) (s : MdRing) : Prop :=
  match s.call with
  | .store cmd i pWptr => i < cmd.length ∧ s.unread (wordAt b (uncached pWptr)) = true
  | _ => False

/-- The ring works as it should. -/
structure Works (b : MdBuf) (s : MdRing) : Prop where
  keeps : ¬s.Overwrites b
  cmdWrptr : s.cmdWrptr = b.cmdBase + s.wrptr
  wrptr : 4 ∣ s.wrptr ∧ s.wrptr < mdRingSize
  order : s.seen <+: s.given.flatten
  empty : s.cmdRdptr = s.cmdWrptr ↔ s.seen = s.given.flatten

end MdRing

/-! ## The invariant -/

/-- What holds of a call, when the writer is at the word `w`. -/
def MdCall.Fits (b : MdBuf) (w : ℕ) (pending staged : List UInt32) : MdCall → Prop
  | .idle => staged = []
  | .drain cmd writeptr => staged = [] ∧ MdLegal cmd ∧ writeptr = b.cmdBase + w * 4
  | .space cmd writeptr => staged = [] ∧ MdLegal cmd ∧ writeptr = b.cmdBase + w * 4
  | .store cmd i pWptr => i ≤ cmd.length ∧ staged = cmd.take i ∧
    pending.length + cmd.length < smqCommandEntries ∧
    pWptr = b.cmdBuf + place smqCommandEntries w i * 4

/-- A call is not disturbed by the engine. -/
theorem MdCall.Fits.read {b : MdBuf} {w : ℕ} {x : UInt32} {pending staged : List UInt32}
    {c : MdCall} (h : c.Fits b w (x :: pending) staged) : c.Fits b w pending staged := by
  cases c with
  | idle | drain | space => exact h
  | store cmd i pWptr =>
    obtain ⟨hi, hstaged, hroom, hp⟩ := h
    rw [length_cons] at hroom
    exact ⟨hi, hstaged, by omega, hp⟩

namespace MdRing

/-- The ring holds `pending` and `staged`. -/
structure Inv (b : MdBuf) (s : MdRing) (rd w : ℕ) (pending staged : List UInt32) : Prop where
  holds : CommandRing.Holds smqCommandEntries s.mem rd w pending staged
  unread : Unread smqCommandEntries rd (pending.length + staged.length) s.unread
  wrptr : s.wrptr = w * 4
  cmdWrptr : s.cmdWrptr = b.cmdBase + w * 4
  cmdRdptr : s.cmdRdptr = b.cmdBase + rd * 4
  given : s.given.flatten = s.seen ++ pending
  call : s.call.Fits b w pending staged

variable {b : MdBuf} {s : MdRing} {rd w : ℕ} {pending staged : List UInt32}

theorem wordAt_base (b : MdBuf) (k : ℕ) : wordAt b (b.cmdBase + k * 4) = k :=
  word_of_addr b.cmdBase k

theorem wordAt_uncached (hb : b.Fits) (k : ℕ) : wordAt b (uncached (b.cmdBuf + k * 4)) = k := by
  have h : uncached (b.cmdBuf + k * 4) = b.cmdBase + k * 4 := by
    have := hb.cmdBuf
    unfold uncached
    omega
  rw [h, wordAt_base]

theorem Inv.start (b : MdBuf) (mem : ℕ → UInt32) : Inv b (start b mem) 0 0 [] [] :=
  ⟨.empty mem (by decide), .none _ _, rfl, rfl, rfl, rfl, rfl⟩

section

variable (h : Inv b s rd w pending staged)

include h

/-- The invariant says that the ring works. -/
theorem Inv.works (hb : b.Fits) : Works b s := by
  have hw := h.holds.wr_lt
  refine ⟨fun hover => ?_, ?_, ⟨⟨w, by rw [h.wrptr, mul_comm]⟩, ?_⟩, ?_, ?_⟩
  · have hcall := h.call
    unfold Overwrites at hover
    cases hc : s.call with
    | store cmd i pWptr =>
      rw [hc] at hover hcall
      obtain ⟨hlt, hmark⟩ := hover
      obtain ⟨hi, hstaged, hroom, hp⟩ := hcall
      have hlen : staged.length = i := by rw [hstaged, length_take_of_le hi]
      rw [hp, wordAt_uncached hb, ← hlen, h.holds.place_wr,
        h.unread.free h.holds.rd_lt h.holds.room] at hmark
      exact Bool.noConfusion hmark
    | idle | drain | space => rw [hc] at hover; exact hover
  · rw [h.cmdWrptr, h.wrptr]
  · rw [h.wrptr, mdRingSize]
    omega
  · rw [h.given]
    exact prefix_append _ _
  · have hiff : rd = w ↔ s.cmdRdptr = s.cmdWrptr := by
      rw [h.cmdRdptr, h.cmdWrptr]
      omega
    rw [← hiff, h.holds.rd_eq_wr_iff, h.given, self_eq_append_right]

/-- The engine reads. -/
theorem Inv.engine :
    ∃ rd' pending', Inv b (s.engine b) rd' w pending' staged := by
  unfold MdRing.engine
  by_cases heq : s.cmdRdptr = s.cmdWrptr
  · rw [if_pos heq]
    exact ⟨rd, pending, h⟩
  · rw [if_neg heq]
    have hne : rd ≠ w := fun he => heq (by rw [h.cmdRdptr, h.cmdWrptr, he])
    cases pending with
    | nil => exact absurd (h.holds.rd_eq_wr_iff.2 rfl) hne
    | cons x pending =>
      obtain ⟨hx, hread⟩ := h.holds.read
      have hroom := h.holds.room
      rw [length_cons] at hroom
      have hunread := h.unread
      rw [length_cons, add_right_comm] at hunread
      refine ⟨place smqCommandEntries rd 1, pending, hread, ?_, h.wrptr, h.cmdWrptr, ?_, ?_,
        h.call.read⟩
      · rw [h.cmdRdptr, wordAt_base]
        exact hunread.read h.holds.rd_lt (by omega)
      · change (if _ ≤ s.cmdRdptr + 4 then _ else s.cmdRdptr + 4) = _
        rw [h.cmdRdptr]
        exact next_word b.cmdBase h.holds.rd_lt
      · rw [h.given, h.cmdRdptr, wordAt_base, hx, append_assoc, singleton_append]

/-- The test says whether there is room. -/
theorem Inv.hasRoom_iff (cmd : List UInt32) :
    s.hasRoom cmd (b.cmdBase + w * 4) = true ↔
      pending.length + cmd.length < smqCommandEntries := by
  rw [hasRoom, decide_eq_true_iff, h.cmdRdptr, ← h.holds.room_iff b.cmdBase cmd.length]
  rfl

/-- The call goes on. -/
theorem Inv.cpu (hb : b.Fits) :
    ∃ w' pending' staged', Inv b (s.cpu b) rd w' pending' staged' := by
  have hcall := h.call
  unfold MdRing.cpu
  cases hc : s.call with
  | idle => exact ⟨w, pending, staged, h⟩
  | drain cmd writeptr =>
    rw [hc] at hcall
    simp only []
    split_ifs
    · exact ⟨w, pending, staged, h.holds, h.unread, h.wrptr, h.cmdWrptr, h.cmdRdptr, h.given, hcall⟩
    · exact ⟨w, pending, staged, h⟩
  | space cmd writeptr =>
    rw [hc] at hcall
    obtain ⟨rfl, hlegal, rfl⟩ := hcall
    simp only []
    split_ifs with hroom
    · refine ⟨w, pending, [], h.holds, h.unread, h.wrptr, h.cmdWrptr, h.cmdRdptr, h.given,
        zero_le _, rfl, (h.hasRoom_iff cmd).1 hroom, ?_⟩
      rw [h.wrptr, place_zero h.holds.wr_lt]
    · exact ⟨w, pending, [], h⟩
  | store cmd i pWptr =>
    rw [hc] at hcall
    obtain ⟨hi, rfl, hroom, rfl⟩ := hcall
    have hlen : (cmd.take i).length = i := length_take_of_le hi
    simp only []
    cases hword : cmd[i]? with
    | some word =>
      obtain ⟨hlt, hget⟩ := List.getElem?_eq_some_iff.1 hword
      have hstore := h.holds.store (by omega) word
      have hmarks := h.unread.store
      rw [hlen] at hstore hmarks
      rw [← h.holds.place_wr] at hmarks
      refine ⟨w, pending, cmd.take i ++ [word], ?_, ?_, h.wrptr, h.cmdWrptr, h.cmdRdptr, h.given,
        hlt, ?_, hroom, ?_⟩
      · change CommandRing.Holds _ (update s.mem (wordAt b (uncached _)) word) _ _ _ _
        rw [wordAt_uncached hb]
        exact hstore
      · change Unread _ _ _ (update s.unread (wordAt b (uncached _)) true)
        rw [wordAt_uncached hb, length_append, hlen, length_singleton, ← add_assoc]
        exact hmarks
      · rw [take_add_one, hword, Option.toList_some]
      · exact (next_word b.cmdBuf (place_lt h.holds.wr_lt)).trans (by rw [place_place])
    | none =>
      obtain rfl : i = cmd.length := le_antisymm hi (List.getElem?_eq_none_iff.1 hword)
      have hpub := h.holds.publish
      rw [hlen, take_length] at hpub
      have hw := h.holds.wr_lt
      have hpl := place_lt (k := cmd.length) hw
      have hbase := hb.cmdBase
      refine ⟨place smqCommandEntries w cmd.length, pending ++ cmd, [], hpub, ?_, ?_, ?_,
        h.cmdRdptr, ?_, rfl⟩
      · have hmarks := h.unread
        rw [take_length] at hmarks
        rw [length_append, length_nil, add_zero]
        exact hmarks
      · change (if mdRingSize ≤ s.wrptr + cmd.length * 4 then s.wrptr + cmd.length * 4 - mdRingSize
          else s.wrptr + cmd.length * 4) = _
        rw [h.wrptr]
        unfold mdRingSize
        split_ifs with hwrap
        · rw [place_of_le hw (by omega) (by omega)]
          omega
        · rw [place_of_lt (by omega)]
          omega
      · change (b.cmdBuf + place smqCommandEntries w cmd.length * 4 + 0x100000000 - b.vToPOffset) %
          0x100000000 = _
        rw [hb.cmdBuf, hb.vToPOffset]
        unfold mdRingSize at hbase
        omega
      · change (s.given ++ [cmd]).flatten = s.seen ++ (pending ++ cmd)
        rw [flatten_append, flatten_singleton, h.given, append_assoc]

/-- A step keeps the invariant. -/
theorem Inv.step (hb : b.Fits) (ev : MdRingEvent) :
    ∃ rd' w' pending' staged', Inv b (s.step b ev) rd' w' pending' staged' := by
  cases ev with
  | engine =>
    obtain ⟨rd', pending', h'⟩ := h.engine
    exact ⟨rd', w, pending', staged, h'⟩
  | cpu =>
    obtain ⟨w', pending', staged', h'⟩ := h.cpu hb
    exact ⟨rd, w', pending', staged', h'⟩
  | call cmd =>
    have hcall := h.call
    unfold MdRing.step
    cases hc : s.call with
    | drain | space | store => exact ⟨rd, w, pending, staged, h⟩
    | idle =>
      rw [hc] at hcall
      simp only []
      split_ifs with hlegal
      · refine ⟨rd, w, pending, staged, h.holds, h.unread, h.wrptr, h.cmdWrptr, h.cmdRdptr,
          h.given, ?_⟩
        unfold writeCmd
        simp only []
        split_ifs
        · exact ⟨hcall, hlegal, h.cmdWrptr⟩
        · exact ⟨hcall, hlegal, h.cmdWrptr⟩
      · exact ⟨rd, w, pending, staged, h⟩

end

theorem Inv.always (hb : b.Fits) : ∀ (evs : List MdRingEvent) {s : MdRing} {rd w : ℕ}
    {pending staged : List UInt32}, Inv b s rd w pending staged →
    Always (MdRing.step b) (Works b) s evs
  | [], _, _, _, _, _, h => h.works hb
  | ev :: evs, _, _, _, _, _, h => by
    obtain ⟨_, _, _, _, h'⟩ := h.step hb ev
    exact ⟨h.works hb, Inv.always hb evs h'⟩

/-! ## Calls -/

/-- A step makes a call, or goes on with the one under way. -/
theorem given_step (b : MdBuf) (s : MdRing) (ev : MdRingEvent) :
    (s.step b ev).given ++ (s.step b ev).underWay = s.given ++ s.underWay ++ s.accepts ev := by
  cases ev with
  | engine =>
    simp only [MdRing.step, MdRing.engine, accepts, append_nil]
    split_ifs <;> rfl
  | cpu =>
    simp only [MdRing.step, MdRing.cpu, accepts, append_nil, underWay]
    cases hc : s.call with
    | idle => simp [hc]
    | drain | space =>
      simp only []
      split_ifs <;> simp [hc]
    | store cmd i pWptr =>
      simp only []
      cases cmd[i]? <;> simp [storeWord, publish]
  | call cmd =>
    simp only [MdRing.step, accepts, underWay]
    cases hc : s.call with
    | drain | space | store => simp [hc]
    | idle =>
      by_cases hlegal : MdLegal cmd
      · simp only [hlegal, if_true, writeCmd, and_self]
        split_ifs <;> simp
      · simp [hlegal, hc]

theorem given_run (b : MdBuf) : ∀ (evs : List MdRingEvent) (s : MdRing),
    (evs.foldl (MdRing.step b) s).given ++ (evs.foldl (MdRing.step b) s).underWay =
      s.given ++ s.underWay ++ accepted b s evs
  | [], s => (append_nil _).symm
  | ev :: evs, s => by
    rw [foldl_cons, given_run b evs, given_step, accepted, append_assoc]

/-! ## The end of a call -/

/-- The words that are not yet read, and the steps of the call under way. -/
def left (b : MdBuf) (s : MdRing) : ℕ :=
  gap smqCommandEntries (wordAt b s.cmdRdptr) (wordAt b s.cmdWrptr) +
    match s.call with
    | .idle => 0
    | .drain cmd _ => cmd.length + 3
    | .space cmd _ => cmd.length + 2
    | .store cmd i _ => cmd.length - i + 1

section

variable (h : Inv b s rd w pending staged)

include h

theorem Inv.gap_eq : gap smqCommandEntries (wordAt b s.cmdRdptr) (wordAt b s.cmdWrptr) =
    pending.length := by
  rw [h.cmdRdptr, h.cmdWrptr, wordAt_base, wordAt_base, h.holds.gap_eq]

theorem Inv.pointers_eq_iff : s.cmdRdptr = s.cmdWrptr ↔ pending = [] := by
  rw [← h.holds.rd_eq_wr_iff, h.cmdRdptr, h.cmdWrptr]
  omega

/-- A read leaves less to do. -/
theorem Inv.left_engine (hne : s.cmdRdptr ≠ s.cmdWrptr) : (s.engine b).left b < s.left b := by
  obtain ⟨x, pending, rfl⟩ := exists_cons_of_ne_nil (mt h.pointers_eq_iff.2 hne)
  have hgap : gap smqCommandEntries (wordAt b (if b.cmdBase + mdRingSize ≤ s.cmdRdptr + 4 then
      b.cmdBase else s.cmdRdptr + 4)) (wordAt b s.cmdWrptr) = pending.length := by
    rw [h.cmdRdptr, mdRingSize, next_word b.cmdBase h.holds.rd_lt, wordAt_base, h.cmdWrptr,
      wordAt_base, h.holds.read.2.gap_eq]
  rw [MdRing.engine, if_neg hne, left, left, h.gap_eq, length_cons]
  simp only [hgap]
  omega

variable (hbusy : s.call ≠ .idle)

include hbusy

/-- The call under way goes on, unless it waits for the engine. -/
theorem Inv.left_cpu :
    s.cpu b = s ∧ s.cmdRdptr ≠ s.cmdWrptr ∨ (s.cpu b).call = .idle ∨
      (s.cpu b).left b < s.left b := by
  have hcall := h.call
  unfold MdRing.cpu
  cases hc : s.call with
  | idle => exact absurd hc hbusy
  | drain cmd writeptr =>
    rw [hc] at hcall
    obtain ⟨-, -, rfl⟩ := hcall
    simp only []
    split_ifs with hempty
    · exact .inr (.inr (by simp [left, hc]))
    · exact .inl ⟨rfl, fun heq => hempty (by rw [heq, h.cmdWrptr])⟩
  | space cmd writeptr =>
    rw [hc] at hcall
    obtain ⟨-, hlegal, rfl⟩ := hcall
    simp only []
    split_ifs with hroom
    · exact .inr (.inr (by simp [left, hc]))
    · refine .inl ⟨rfl, fun heq => hroom ((h.hasRoom_iff cmd).2 ?_)⟩
      have hlen := hlegal.2
      rw [h.pointers_eq_iff.1 heq, length_nil]
      unfold mdRingSize at hlen
      omega
  | store cmd i pWptr =>
    simp only []
    cases hword : cmd[i]? with
    | none => exact .inr (.inl rfl)
    | some word =>
      have hlt := (List.getElem?_eq_some_iff.1 hword).1
      refine .inr (.inr ?_)
      simp only [left, storeWord, hc]
      omega

/-- The processor does not wait for an engine that has read everything. -/
theorem Inv.cpu_ne (heq : s.cmdRdptr = s.cmdWrptr) : s.cpu b ≠ s := by
  intro hsame
  rcases h.left_cpu hbusy with hwait | hidle | hless
  · exact hwait.2 heq
  · exact hbusy (hsame ▸ hidle)
  · exact absurd (congrArg (left b) hsame) hless.ne

/-- A step leaves the ring as it is, ends the call or leaves less to do. -/
theorem Inv.progress (ev : MdRingEvent) :
    s.step b ev = s ∨ (s.step b ev).call = .idle ∨ (s.step b ev).left b < s.left b := by
  cases ev with
  | call cmd =>
    left
    unfold MdRing.step
    cases hc : s.call with
    | idle => exact absurd hc hbusy
    | drain | space | store => rfl
  | cpu => exact (h.left_cpu hbusy).imp_left And.left
  | engine =>
    by_cases heq : s.cmdRdptr = s.cmdWrptr
    · exact .inl (if_pos heq)
    · exact .inr (.inr (h.left_engine heq))

end

/-- In a run of the ring in which the processor and the engine go on, every call ends. -/
theorem exists_idle (hb : b.Fits) {mem : ℕ → UInt32} {st : ℕ → MdRing} {ev : ℕ → MdRingEvent}
    (h0 : st 0 = start b mem) (hnext : ∀ k, st (k + 1) = (st k).step b (ev k))
    (hcpu : ∀ k, ∃ l ≥ k, ev l = .cpu) (hengine : ∀ k, ∃ l ≥ k, ev l = .engine) (k : ℕ) :
    ∃ l ≥ k, (st l).call = .idle := by
  have hinv : ∀ k, ∃ rd w pending staged, Inv b (st k) rd w pending staged := by
    intro k
    induction k with
    | zero => exact ⟨0, 0, [], [], h0 ▸ Inv.start b mem⟩
    | succ k ih =>
      obtain ⟨rd, w, pending, staged, h⟩ := ih
      rw [hnext]
      exact h.step hb (ev k)
  have hleads : LeadsTo st (fun _ => True) (fun s => s.call ≠ .idle) fun s => s.call = .idle := by
    refine LeadsTo.of_progress (f := left b) (fun _ _ => trivial) (fun k hbusy => ?_)
      fun k hbusy => ?_
    · obtain ⟨rd, w, pending, staged, h⟩ := hinv k
      rw [hnext]
      rcases h.progress hbusy (ev k) with hsame | hidle | hless
      · exact .inl hsame
      · exact .inr (.inl hidle)
      · exact .inr (or_iff_not_imp_left.2 fun hidle => ⟨hidle, hless⟩)
    · -- the engine is awaited if there is something to read, and the processor otherwise
      obtain ⟨rd, w, pending, staged, h⟩ := hinv k
      by_cases heq : (st k).cmdRdptr = (st k).cmdWrptr
      · obtain ⟨l, hkl, hl⟩ := hcpu k
        refine ⟨l, hkl, fun hlk => ?_⟩
        rw [hnext, hl, hlk]
        exact h.cpu_ne hbusy heq
      · obtain ⟨l, hkl, hl⟩ := hengine k
        refine ⟨l, hkl, fun hlk hsame => ?_⟩
        rw [hnext, hl, hlk] at hsame
        exact absurd (congrArg (left b) hsame) (h.left_engine heq).ne
  by_cases hidle : (st k).call = .idle
  · exact ⟨k, le_rfl, hidle⟩
  · obtain ⟨l, hkl, hl, -⟩ := hleads k hidle
    exact ⟨l, hkl, hl⟩

end MdRing

open MdRing

/-- In every run, with calls of `WriteCmd` and reads of the engine in any order, the ring works as
it should. The commands that were put into it, with the one of a call under way, are those of the
calls that were made, and every call ends if the processor and the engine go on. -/
theorem mdRing_always {cachedCmdBuf : ℕ} (h : Kmalloced cachedCmdBuf) (mem : ℕ → UInt32) :
    (∀ evs : List MdRingEvent,
      Always (MdRing.step (mdOpen cachedCmdBuf)) (Works (mdOpen cachedCmdBuf))
        (start (mdOpen cachedCmdBuf) mem) evs ∧
      (evs.foldl (MdRing.step (mdOpen cachedCmdBuf)) (start (mdOpen cachedCmdBuf) mem)).given ++
          (evs.foldl (MdRing.step (mdOpen cachedCmdBuf))
            (start (mdOpen cachedCmdBuf) mem)).underWay =
        accepted (mdOpen cachedCmdBuf) (start (mdOpen cachedCmdBuf) mem) evs) ∧
    ∀ (st : ℕ → MdRing) (ev : ℕ → MdRingEvent), st 0 = start (mdOpen cachedCmdBuf) mem →
      (∀ k, st (k + 1) = (st k).step (mdOpen cachedCmdBuf) (ev k)) →
      (∀ k, ∃ l ≥ k, ev l = .cpu) → (∀ k, ∃ l ≥ k, ev l = .engine) →
        ∀ k, ∃ l ≥ k, (st l).call = .idle :=
  ⟨fun evs => ⟨Inv.always (mdOpen_fits h) evs (.start _ mem), given_run _ evs _⟩,
    fun _ _ => exists_idle (mdOpen_fits h)⟩

/-- A run on a ring at `0x80100000` : the engine reads the first words of a command while the next
command waits. Both calls were made, and a third one, with too many words, was not. -/
theorem mdRing_always_twoCalls :
    Kmalloced 0x80100000 ∧
      Always (MdRing.step (mdOpen 0x80100000)) (Works (mdOpen 0x80100000))
        (start (mdOpen 0x80100000) fun _ => 0)
        [.call [5, 1, 2, 16], .cpu, .cpu, .cpu, .cpu, .cpu, .cpu, .engine, .call [5, 3, 4, 8],
          .engine, .cpu, .call (replicate 4096 0)] ∧
      accepted (mdOpen 0x80100000) (start (mdOpen 0x80100000) fun _ => 0)
        [.call [5, 1, 2, 16], .cpu, .cpu, .cpu, .cpu, .cpu, .cpu, .engine, .call [5, 3, 4, 8],
          .engine, .cpu, .call (replicate 4096 0)] = [[5, 1, 2, 16], [5, 3, 4, 8]] := by
  have h : Kmalloced 0x80100000 := ⟨by decide, by decide⟩
  obtain ⟨halways, hgiven⟩ := (mdRing_always h fun _ => 0).1
    [.call [5, 1, 2, 16], .cpu, .cpu, .cpu, .cpu, .cpu, .cpu, .engine, .call [5, 3, 4, 8],
      .engine, .cpu, .call (replicate 4096 0)]
  exact ⟨h, halways, hgiven.symm.trans (by decide +kernel)⟩

end OpenHMR
