import OpenHMR.Runs
import OpenHMR.VenusG2c

/-!
# Runs of the bit-banged I2C master

Between two steps of the master the slave may do any number of things (`G2cAllowed`) : it may
change the data line while the clock is low, and it may hold the clock low. `G2cRun` is an infinite
run in which the master always comes to a step at which the slave does not hold the clock.

What the bus is like in a sub state of a bit (`High`, `Low`, `Set`, `Rising`) is kept by what the
slave does (`kept_high` and so on), and a step of the master leads from the one to the next
(`step_leadsTo`). `bit_leadsTo` is one bit : the master's sub states 1 to 3, and sub state 0 of what
follows. The rest of a transfer is about the state machine alone.
-/

namespace OpenHMR

open TwoWire Runs List VenusI2c

/-! ## Runs -/

/-- What may happen next on a bus with the slave `S`. -/
structure G2cAllowed (S : Slave) (p : VenusI2c) (a : G2cAction) : Prop where
  /-- No timeout. -/
  inTime : a ≠ .isr true
  /-- The slave changes the data line only while the clock is low. -/
  steady : ∀ v, a = .sda v → v = p.bus.slave.sda ∨ p.bus.lines.scl = false
  /-- It pulls the clock only to hold it low. -/
  hold : a = .scl false → p.bus.lines.scl = false
  /-- If the next bit is not its turn, it has released the data line before the master steps. -/
  release : a = .isr false → p.bus.lines.scl = false →
    (phase p.bus.monitor.seen).turn = false → p.bus.slave.sda = true
  /-- When the clock rises, its answer is on the data line. -/
  ready : p.bus.lines.scl = false → (p.act a).bus.lines.scl = true →
    p.bus.slave.sda = S.level (phase p.bus.monitor.seen)

/-- A run of the system, in which the slave holds the clock low for finitely many steps of the
master at a time. -/
structure G2cRun (S : Slave) (st : ℕ → VenusI2c) (act : ℕ → G2cAction) : Prop where
  next : ∀ k, st (k + 1) = (st k).act (act k)
  allowed : ∀ k, G2cAllowed S (st k) (act k)
  fair : ∀ k, ∃ l ≥ k, act l = .isr false ∧ (st l).bus.slave.scl = true

/-! ## The lines in a transfer -/

namespace Bus

/-- The bus in a transfer. The pins `sda` and `scl` are outputs or inputs of level 0. -/
def driven (sda scl : Bool) (slave : Lines) (sample : Option Bool) (seen : List Signal) : Bus where
  sda := ⟨sda, false⟩
  scl := ⟨scl, false⟩
  muxpad := .gpio
  slave := slave
  monitor := ⟨⟨!scl && slave.scl, !sda && slave.sda⟩, sample, seen⟩

/-- The clock is high, and the data line has been `v` since it rose. -/
def High (v : Bool) (E : List Signal) (b : Bus) : Prop :=
  ∃ d s, (!d && s) = v ∧ b = driven d false ⟨true, s⟩ (some v) E

/-- The master holds the clock low. -/
def Low (E : List Signal) (b : Bus) : Prop :=
  ∃ d s, b = driven d true s none E

/-- The master holds the clock low and has put `v` on the data line. -/
def Set (v : Bool) (E : List Signal) (b : Bus) : Prop :=
  ∃ s, b = driven (!v) true s none E

/-- The master has put `v` on the data line and released the clock, and the clock rises when the
slave releases it too, with `u` from the slave. -/
def Rising (v u : Bool) (E : List Signal) (b : Bus) : Prop :=
  (∃ s, b = driven (!v) false ⟨false, s⟩ none E) ∨
    b = driven (!v) false ⟨true, u⟩ (some (v && u)) E

/-- Nobody pulls a line. -/
def Free (E : List Signal) (b : Bus) : Prop :=
  ∃ m, b = driven false false .idle m E

/-- Both lines are high, whoever drives them. -/
def Resting (E : List Signal) (b : Bus) : Prop :=
  b.lines = .idle ∧ b.monitor.lines = .idle ∧ b.monitor.seen = E

/-- The data line has fallen while the clock is high. -/
def Started (E : List Signal) (b : Bus) : Prop :=
  b = driven true false .idle none E

end Bus

open Bus

variable {S : Slave}

/-- What the slave does keeps a property of the bus. -/
def Kept (S : Slave) (B : Bus → Prop) : Prop :=
  ∀ p a, (∀ late, a ≠ .isr late) → G2cAllowed S p a → B p.bus → B (p.act a).bus

/-- The monitor has seen the lines of the bus. -/
theorem watch_self {b : Bus} (h : b.monitor.lines = b.lines) : b.watch = b := by
  rw [Bus.watch, ← h, Monitor.observe_self]

section Driven

attribute [local simp] driven Bus.watch Bus.lines Bus.master Lines.wired Monitor.observe
  venusGpioSetDir Bus.slaveSda Bus.slaveScl

section

variable (d c : Bool) (s : Lines) (m : Option Bool) (E : List Signal)

@[simp] theorem lines_driven : (driven d c s m E).lines = ⟨!c && s.scl, !d && s.sda⟩ := by
  simp

@[simp] theorem slave_driven : (driven d c s m E).slave = s := rfl

@[simp] theorem seen_driven : (driven d c s m E).monitor.seen = E := rfl

theorem watch_driven : (driven d c s m E).watch = driven d c s m E :=
  watch_self (lines_driven d c s m E).symm

theorem slaveSda_driven_self : (driven d c s m E).slaveSda s.sda = driven d c s m E :=
  watch_driven d c s m E

theorem slaveScl_driven_self : (driven d c s m E).slaveScl s.scl = driven d c s m E :=
  watch_driven d c s m E

theorem slaveScl_driven_of_low (v : Bool) :
    (driven d true s m E).slaveScl v = driven d true ⟨v, s.sda⟩ m E := by
  simp

theorem setDir_scl_self : venusGpioSetDir .scl c (driven d c s m E) = driven d c s m E :=
  watch_driven d c s m E

theorem setDir_sda_self : venusGpioSetDir .sda d (driven d c s m E) = driven d c s m E :=
  watch_driven d c s m E

/-- The master sets the data line while it holds the clock low. -/
theorem setDir_sda_low : venusGpioSetDir .sda c (driven d true s m E) = driven c true s m E := by
  simp

variable {d c s m E}

theorem slaveSda_driven_of_low (h : (!c && s.scl) = false) (v : Bool) :
    (driven d c s m E).slaveSda v = driven d c ⟨s.scl, v⟩ m E := by
  simp [h]

end

variable (d s : Bool) (m : Option Bool) (E : List Signal)

/-- The clock rises when the slave releases it. -/
theorem slaveScl_driven_rise : (driven d false ⟨false, s⟩ m E).slaveScl true =
    driven d false ⟨true, s⟩ (some (!d && s)) E := by
  simp

/-- The clock falls at the end of a bit. -/
theorem setDir_scl_fall : venusGpioSetDir .scl true (driven d false ⟨true, s⟩ m E) =
    driven d true ⟨true, s⟩ none (E ++ m.toList.map .bit) := by
  simp

/-- The master releases the clock. -/
theorem setDir_scl_rise : venusGpioSetDir .scl false (driven d true ⟨true, s⟩ m E) =
    driven d false ⟨true, s⟩ (some (!d && s)) E := by
  simp

/-- The master releases a clock that the slave holds low. -/
theorem setDir_scl_held : venusGpioSetDir .scl false (driven d true ⟨false, s⟩ m E) =
    driven d false ⟨false, s⟩ m E := by
  simp

theorem setDir_sda_start : venusGpioSetDir .sda true (driven false false .idle m E) =
    driven true false .idle none (E ++ [.start]) := by
  simp [Lines.idle]

theorem setDir_sda_stop : venusGpioSetDir .sda false (driven true false .idle m E) =
    driven false false .idle none (E ++ [.stop]) := by
  simp [Lines.idle]

end Driven

/-! ### What the slave keeps -/

theorem kept_low (E : List Signal) : Kept S (Low E) := by
  rintro p a ha - ⟨d, s, hb⟩
  cases a with
  | isr late => exact absurd rfl (ha late)
  | sda v => exact ⟨d, ⟨s.scl, v⟩, by simp [act, hb, slaveSda_driven_of_low]⟩
  | scl v => exact ⟨d, ⟨v, s.sda⟩, by simp [act, hb, slaveScl_driven_of_low]⟩

theorem kept_set (v : Bool) (E : List Signal) : Kept S (Bus.Set v E) := by
  rintro p a ha - ⟨s, hb⟩
  cases a with
  | isr late => exact absurd rfl (ha late)
  | sda v => exact ⟨⟨s.scl, v⟩, by simp [act, hb, slaveSda_driven_of_low]⟩
  | scl v => exact ⟨⟨v, s.sda⟩, by simp [act, hb, slaveScl_driven_of_low]⟩

/-- While the clock is high the slave does nothing. -/
theorem act_of_high {p : VenusI2c} {a : G2cAction} (ha : ∀ late, a ≠ .isr late)
    (h : G2cAllowed S p a) {d s : Bool} {m : Option Bool} {E : List Signal}
    (hb : p.bus = driven d false ⟨true, s⟩ m E) : (p.act a).bus = driven d false ⟨true, s⟩ m E := by
  cases a with
  | isr late => exact absurd rfl (ha late)
  | sda v =>
    have hv : v = s := by simpa [hb] using h.steady v rfl
    subst hv
    simpa [act, hb] using slaveSda_driven_self d false ⟨true, v⟩ m E
  | scl v =>
    have hv : v = true := by
      cases v with
      | false => simpa [hb] using h.hold rfl
      | true => rfl
    subst hv
    simpa [act, hb] using slaveScl_driven_self d false ⟨true, s⟩ m E

theorem kept_high (v : Bool) (E : List Signal) : Kept S (High v E) := by
  rintro p a ha h ⟨d, s, hv, hb⟩
  exact ⟨d, s, hv, act_of_high ha h hb⟩

theorem kept_free (E : List Signal) : Kept S (Free E) := by
  rintro p a ha h ⟨m, hb⟩
  exact ⟨m, act_of_high ha h hb⟩

theorem kept_started (E : List Signal) : Kept S (Started E) := by
  intro p a ha h hb
  exact act_of_high ha h hb

theorem kept_resting (E : List Signal) : Kept S (Resting E) := by
  rintro p a ha h ⟨hlines, hmonitor, hseen⟩
  have hself := watch_self (hmonitor.trans hlines.symm)
  have hbus : (p.act a).bus = p.bus := by
    cases a with
    | isr late => exact absurd rfl (ha late)
    | sda v =>
      have hv : v = p.bus.slave.sda := by simpa [hlines, Lines.idle] using h.steady v rfl
      subst hv
      exact hself
    | scl v =>
      have hslave : p.bus.slave.scl = true := by
        have := congrArg Lines.scl hlines
        simp [Bus.lines, Lines.wired, Lines.idle] at this
        exact this.2
      cases v with
      | false => simpa [hlines, Lines.idle] using h.hold rfl
      | true =>
        rw [act, ← hslave]
        exact hself
  rw [hbus]
  exact ⟨hlines, hmonitor, hseen⟩

theorem kept_rising (v : Bool) (E : List Signal) : Kept S (Rising v (S.level (phase E)) E) := by
  rintro p a ha h (⟨s, hb⟩ | hb)
  · cases a with
    | isr late => exact absurd rfl (ha late)
    | sda w =>
      refine .inl ⟨w, ?_⟩
      simp [act, hb, slaveSda_driven_of_low]
    | scl w =>
      cases w with
      | false =>
        refine .inl ⟨s, ?_⟩
        simpa [act, hb] using slaveScl_driven_self (!v) false ⟨false, s⟩ none E
      | true =>
        have hs : s = S.level (phase E) := by
          simpa [act, hb, slaveScl_driven_rise] using h.ready
        refine .inr ?_
        simp [act, hb, slaveScl_driven_rise, hs]
  · exact .inr (act_of_high ha h hb)

/-! ## Steps -/

/-- The place in the state machine. -/
def VenusI2cXfer.pos (x : VenusI2cXfer) (major : G2cMajor) (minor sub : ℕ) : VenusI2cXfer :=
  { x with gpioXferState := ⟨major, minor⟩, gpioXferSubState := sub }

@[simp] theorem nextSub_pos (x : VenusI2cXfer) (major : G2cMajor) (minor sub : ℕ) :
    (x.pos major minor sub).nextSub = x.pos major minor (sub + 1) := rfl

/-- The driver is at `x`, and the bus has the property `B`. -/
def At (tar : BitVec 16) (x : VenusI2cXfer) (B : Bus → Prop) (p : VenusI2c) : Prop :=
  p.tar = tar ∧ p.xfer = x ∧ B p.bus

/-- `venus_g2c_start_xfer` has not returned. -/
def Busy (p : VenusI2c) : Prop :=
  p.xfer.mode ≠ .idel

variable {st : ℕ → VenusI2c} {act : ℕ → G2cAction} {tar : BitVec 16} {x y : VenusI2cXfer}
  {B C : Bus → Prop} (hrun : G2cRun S st act) (hmode : x.mode ≠ .idel)

include hrun hmode

/-- A step of the master. It may have to wait as long as the slave holds the clock. -/
theorem step_leadsTo (hkept : Kept S B) (hisr : ∀ b, B b → G2cAllowed S ⟨tar, x, b⟩ (.isr false) →
      b.slave.scl = false ∧ venusG2cIsr false ⟨tar, x, b⟩ = ⟨tar, x, b⟩ ∨
        At tar y C (venusG2cIsr false ⟨tar, x, b⟩)) :
    LeadsTo st Busy (At tar x B) (At tar y C) := by
  have hstep : ∀ k, At tar x B (st k) → act k = .isr false →
      ((st k).bus.slave.scl = false ∧ st (k + 1) = st k) ∨ At tar y C (st (k + 1)) := by
    rintro k ⟨rfl, rfl, hb⟩ ha
    have hallowed := hrun.allowed k
    have hnext := hrun.next k
    rw [ha] at hallowed hnext
    rw [hnext, VenusI2c.act, if_neg hmode]
    exact hisr _ hb hallowed
  refine LeadsTo.of_step (fun s hs => by rwa [Busy, hs.2.1]) (fun k hp => ?_) fun k => ?_
  · cases ha : act k with
    | isr late =>
      have hlate : late = false := by
        have := (hrun.allowed k).inTime
        simpa [ha] using this
      subst hlate
      rcases hstep k hp ha with ⟨-, hst⟩ | h
      · exact .inl (hst ▸ hp)
      · exact .inr h
    | sda v | scl v =>
      obtain ⟨rfl, rfl, hb⟩ := hp
      have hb' := hkept (st k) (act k) (by simp [ha]) (hrun.allowed k) hb
      rw [← hrun.next k] at hb'
      exact .inl ⟨by rw [hrun.next, ha]; rfl, by rw [hrun.next, ha]; rfl, hb'⟩
  · obtain ⟨l, hkl, ha, hscl⟩ := hrun.fair k
    refine ⟨l, hkl, fun hp => ?_⟩
    rcases hstep l hp ha with ⟨hheld, -⟩ | h
    · rw [hscl] at hheld
      cases hheld
    · exact h

/-- A step that sets a pin. -/
theorem pin_leadsTo (hkept : Kept S B) {f : Bus → Bus}
    (hisr : ∀ b, venusG2cIsr false ⟨tar, x, b⟩ = ⟨tar, y, f b⟩) (hf : ∀ b, B b → C (f b)) :
    LeadsTo st Busy (At tar x B) (At tar y C) := by
  refine step_leadsTo hrun hmode hkept fun b hb _ => .inr ?_
  rw [hisr]
  exact ⟨rfl, rfl, hf b hb⟩

section Steps

variable {E : List Signal} {v u : Bool}

theorem fall_leadsTo
    (hisr : ∀ b, venusG2cIsr false ⟨tar, x, b⟩ = ⟨tar, y, venusGpioSetDir .scl true b⟩) :
    LeadsTo st Busy (At tar x (High v E)) (At tar y (Low (E ++ [.bit v]))) := by
  refine pin_leadsTo hrun hmode (kept_high v E) hisr ?_
  rintro b ⟨d, s, rfl, rfl⟩
  exact ⟨d, ⟨true, s⟩, setDir_scl_fall d s _ E⟩

/-- The clock is low already. -/
theorem hold_leadsTo
    (hisr : ∀ b, venusG2cIsr false ⟨tar, x, b⟩ = ⟨tar, y, venusGpioSetDir .scl true b⟩) :
    LeadsTo st Busy (At tar x (Low E)) (At tar y (Low E)) := by
  refine pin_leadsTo hrun hmode (kept_low E) hisr ?_
  rintro b ⟨d, s, rfl⟩
  exact ⟨d, s, setDir_scl_self d true s none E⟩

theorem set_leadsTo
    (hisr : ∀ b, venusG2cIsr false ⟨tar, x, b⟩ = ⟨tar, y, venusGpioSetDir .sda (!v) b⟩) :
    LeadsTo st Busy (At tar x (Low E)) (At tar y (Bus.Set v E)) := by
  refine pin_leadsTo hrun hmode (kept_low E) hisr ?_
  rintro b ⟨d, s, rfl⟩
  exact ⟨s, setDir_sda_low d _ s none E⟩

/-- The clock is released. In a bit that is not the slave's turn the data line is then what the
master has put on it. -/
theorem rise_leadsTo (hisr : ∀ b, ((phase E).turn = false → venusGpioRead .sda b = v) →
      venusG2cIsr false ⟨tar, x, b⟩ = ⟨tar, y, venusGpioSetDir .scl false b⟩) :
    LeadsTo st Busy (At tar x (Bus.Set v E)) (At tar y (Rising v (S.level (phase E)) E)) := by
  refine step_leadsTo hrun hmode (kept_set v E) ?_
  rintro b ⟨⟨c, s⟩, rfl⟩ h
  refine .inr ?_
  have hsda : (phase E).turn = false → venusGpioRead .sda (driven (!v) true ⟨c, s⟩ none E) = v := by
    intro hturn
    have hs : s = true := by simpa using h.release rfl (by simp) (by simpa using hturn)
    simp [venusGpioRead, hs]
  have hready := h.ready
  rw [VenusI2c.act, if_neg hmode, hisr _ hsda] at hready
  rw [hisr _ hsda]
  refine ⟨rfl, rfl, ?_⟩
  cases c with
  | false => exact .inl ⟨s, setDir_scl_held _ _ _ _⟩
  | true =>
    have hs : s = S.level (phase E) := by simpa [setDir_scl_rise] using hready
    refine .inr ?_
    simp [setDir_scl_rise, hs]

theorem wait_leadsTo
    (hheld : ∀ b, venusGpioRead .scl b = false → venusG2cIsr false ⟨tar, x, b⟩ = ⟨tar, x, b⟩)
    (hisr : ∀ b, venusGpioRead .scl b = true → venusGpioRead .sda b = (v && S.level (phase E)) →
      venusG2cIsr false ⟨tar, x, b⟩ = ⟨tar, y, b⟩) :
    LeadsTo st Busy (At tar x (Rising v (S.level (phase E)) E))
      (At tar y (High (v && S.level (phase E)) E)) := by
  refine step_leadsTo hrun hmode (kept_rising v E) ?_
  rintro b (⟨s, rfl⟩ | rfl) -
  · exact .inl ⟨rfl, hheld _ (by simp [venusGpioRead])⟩
  · refine .inr ?_
    rw [hisr _ (by simp [venusGpioRead]) (by simp [venusGpioRead])]
    exact ⟨rfl, rfl, !v, S.level (phase E), by simp, rfl⟩

end Steps

/-! ## A bit -/

section Bit

variable {E : List Signal} {w : Bool} {major : G2cMajor} {minor : ℕ} {z : VenusI2cXfer}

/-- The sub states 1 to 3 of a bit and sub state 0 of the next one. The master puts `v` on the data
line, and the bit is `w`. -/
theorem bit_leadsTo (v : Bool) (y : VenusI2cXfer) (hw : (v && S.level (phase E)) = w)
    (hy : y.mode ≠ .idel)
    (h1 : ∀ b, venusG2cIsr false ⟨tar, x.pos major minor 1, b⟩ =
      ⟨tar, x.pos major minor 2, venusGpioSetDir .sda (!v) b⟩)
    (h2 : ∀ b, ((phase E).turn = false → venusGpioRead .sda b = v) →
      venusG2cIsr false ⟨tar, x.pos major minor 2, b⟩ =
        ⟨tar, x.pos major minor 3, venusGpioSetDir .scl false b⟩)
    (hheld : ∀ b, venusGpioRead .scl b = false →
      venusG2cIsr false ⟨tar, x.pos major minor 3, b⟩ = ⟨tar, x.pos major minor 3, b⟩)
    (h3 : ∀ b, venusGpioRead .scl b = true → venusGpioRead .sda b = w →
      venusG2cIsr false ⟨tar, x.pos major minor 3, b⟩ = ⟨tar, y, b⟩)
    (h0 : ∀ b, venusG2cIsr false ⟨tar, y, b⟩ = ⟨tar, z, venusGpioSetDir .scl true b⟩) :
    LeadsTo st Busy (At tar (x.pos major minor 1) (Low E)) (At tar z (Low (E ++ [.bit w]))) := by
  subst hw
  have hpos : ∀ sub, (x.pos major minor sub).mode ≠ .idel := fun _ => hmode
  exact (set_leadsTo hrun (hpos 1) h1).trans <| (rise_leadsTo hrun (hpos 2) h2).trans <|
    (wait_leadsTo hrun (hpos 3) hheld h3).trans (fall_leadsTo hrun hy h0)

omit hrun hmode in
/-- Eight bits. -/
theorem bits_leadsTo (X : ℕ → VenusI2cXfer) (ph : ℕ → Phase) (last : Phase) (d : BitVec 8)
    (hstep : ∀ j < 8, ∀ E, phase E = ph j →
      LeadsTo st Busy (At tar (X j) (Low E)) (At tar (X (j + 1)) (Low (E ++ [.bit (byteBit d j)]))))
    (hph : ∀ j < 7, (ph j).next (.bit (byteBit d j)) = ph (j + 1))
    (hlast : (ph 7).next (.bit (byteBit d 7)) = last) (hE : phase E = ph 0) :
    LeadsTo st Busy (At tar (X 0) (Low E)) (At tar (X 8) (Low (E ++ byteSignals d))) ∧
      phase (E ++ byteSignals d) = last := by
  have h : ∀ n < 8, LeadsTo st Busy (At tar (X 0) (Low E))
      (At tar (X n) (Low (E ++ (range n).map fun j => .bit (byteBit d j)))) ∧
      phase (E ++ (range n).map fun j => .bit (byteBit d j)) = ph n := by
    intro n hn
    induction n with
    | zero =>
      rw [range_zero, map_nil, append_nil]
      exact ⟨LeadsTo.of_imp fun _ h => h, hE⟩
    | succ n ih =>
      obtain ⟨hto, hphase⟩ := ih (by omega)
      rw [range_succ, map_append, ← append_assoc, map_singleton, phase_concat, hphase]
      exact ⟨hto.trans (hstep n (by omega) _ hphase), hph n (by omega)⟩
  obtain ⟨hto, hphase⟩ := h 7 (by omega)
  rw [byteSignals, range_succ, map_append, ← append_assoc, map_singleton, phase_concat, hphase]
  exact ⟨hto.trans (hstep 7 (by omega) _ hphase), hlast⟩

end Bit

end OpenHMR
