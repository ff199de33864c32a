import Mathlib.Algebra.Group.Nat.Defs
import Mathlib.Data.Int.Notation
import Mathlib.Logic.Function.Basic
import OpenHMR.TwoWire

/-!
# The bit-banged I2C master (`drivers/i2c/busses/i2c-venus-priv.c`)

The driver can run a transfer on two GPIO pins. `venus_g2c_isr` takes one step of a state machine :
a major state (START, address, data, STOP, done), for an address or a data byte a minor state that
is the number of its bit, and four sub states in which the clock is pulled low, the data line is
set, the clock is released, and the clock is awaited. A pin is pulled low by making it an output of
level 0, and released by making it an input.

`Bus` has the two pins, the multiplexer between the pins and the I2C controller, what the slave does
with the lines, and a monitor of the lines that sees each single change. Interrupt enables of the
pins and delays have no effect here and are left out.
-/

namespace OpenHMR

open TwoWire

/-! ## Pins and lines -/

/-- A pin of the transfer. -/
inductive Gpio where
  | sda | scl
  deriving DecidableEq

/-- Direction (`true` is output) and output level of a pin. -/
structure Pin where
  dir : Bool
  dato : Bool
  deriving DecidableEq

/-- `I2C_MODE` and `GPIO_MODE`. -/
inductive PadMode where
  | i2c | gpio
  deriving DecidableEq

/-- The two lines with all that acts on them. -/
structure Bus where
  sda : Pin
  scl : Pin
  muxpad : PadMode
  /-- The lines that the slave releases. -/
  slave : Lines
  monitor : Monitor
  deriving DecidableEq

namespace Bus

/-- The lines that the master releases. The I2C controller is idle when the pads are with it. -/
def master (b : Bus) : Lines :=
  match b.muxpad with
  | .i2c => .idle
  | .gpio => ⟨!b.scl.dir || b.scl.dato, !b.sda.dir || b.sda.dato⟩

def lines (b : Bus) : Lines :=
  b.master.wired b.slave

/-- The monitor sees the lines. -/
def watch (b : Bus) : Bus :=
  { b with monitor := b.monitor.observe b.lines }

/-- The slave releases or pulls the data line. -/
def slaveSda (v : Bool) (b : Bus) : Bus :=
  { b with slave := { b.slave with sda := v } }.watch

/-- The slave releases or pulls the clock. -/
def slaveScl (v : Bool) (b : Bus) : Bus :=
  { b with slave := { b.slave with scl := v } }.watch

end Bus

/-- `venus_gpio_set_dir`. -/
def venusGpioSetDir (id : Gpio) (dir : Bool) (b : Bus) : Bus :=
  match id with
  | .sda => { b with sda := { b.sda with dir } }.watch
  | .scl => { b with scl := { b.scl with dir } }.watch

/-- `venus_gpio_write`. -/
def venusGpioWrite (id : Gpio) (level : Bool) (b : Bus) : Bus :=
  match id with
  | .sda => { b with sda := { b.sda with dato := level } }.watch
  | .scl => { b with scl := { b.scl with dato := level } }.watch

/-- `venus_gpio_read`. -/
def venusGpioRead (id : Gpio) (b : Bus) : Bool :=
  match id with
  | .sda => b.lines.sda
  | .scl => b.lines.scl

/-- `venus_i2c_gpio_selection`. -/
def venusI2cGpioSelection (mode : PadMode) (b : Bus) : Bus :=
  { b with muxpad := mode }.watch

/-! ## The transfer -/

/-- `mode` of a transfer. -/
inductive XferMode where
  | idel | masterRead | masterWrite | masterRandomRead
  deriving DecidableEq

/-- `G2C_MAJOR_STATE`. -/
inductive G2cMajor where
  | start | addr | data | stop | done
  deriving DecidableEq

/-- `gpio_xfer_state`, with its two bit fields `G2C_MAJOR_STATE` and `G2C_MINOR_STATE`. The minor
state does not pass 8. -/
structure G2cState where
  major : G2cMajor
  minor : ℕ
  deriving DecidableEq

/-- `-ETXABORT`. -/
def etxabort : ℤ := -41

/-- `-ETIMEOUT`. -/
def etimeout : ℤ := -42

/-- `I2C_NO_STOP`. -/
def i2cNoStop : BitVec 8 := 0x01#8

/-- `venus_i2c_xfer`. A buffer is the memory from its address on. -/
structure VenusI2cXfer where
  mode : XferMode
  flags : BitVec 8
  txBuff : ℕ → BitVec 8
  txBuffLen : ℕ
  txLen : ℕ
  rxBuff : ℕ → BitVec 8
  rxBuffLen : ℕ
  rxLen : ℕ
  ret : ℤ
  gpioXferState : G2cState
  gpioXferSubState : ℕ

/-- `venus_i2c`, with the bus it is on. -/
structure VenusI2c where
  tar : BitVec 16
  xfer : VenusI2cXfer
  bus : Bus

namespace VenusI2cXfer

/-- `gpio_xfer_sub_state++`. -/
def nextSub (x : VenusI2cXfer) : VenusI2cXfer :=
  { x with gpioXferSubState := x.gpioXferSubState + 1 }

/-- `gpio_xfer_state++`, with sub state 0. -/
def nextState (x : VenusI2cXfer) : VenusI2cXfer :=
  { x with gpioXferState := { x.gpioXferState with minor := x.gpioXferState.minor + 1 },
           gpioXferSubState := 0 }

/-- To a state, with sub state 0. -/
def enter (major : G2cMajor) (x : VenusI2cXfer) : VenusI2cXfer :=
  { x with gpioXferState := ⟨major, 0⟩, gpioXferSubState := 0 }

/-- Loss of arbitration. -/
def lose (x : VenusI2cXfer) : VenusI2cXfer :=
  { x with ret := etxabort }.enter .done

end VenusI2cXfer

/-- `create_venus_i2c_handle`, on a bus at rest whose pads are with the I2C controller. -/
def createVenusI2cHandle (tar : BitVec 16) : VenusI2c where
  tar := tar
  xfer :=
    { mode := .idel, flags := 0, txBuff := fun _ => 0, txBuffLen := 0, txLen := 0,
      rxBuff := fun _ => 0, rxBuffLen := 0, rxLen := 0, ret := 0, gpioXferState := ⟨.start, 0⟩,
      gpioXferSubState := 0 }
  bus := ⟨⟨false, false⟩, ⟨false, false⟩, .i2c, .idle, ⟨.idle, none, []⟩⟩

/-- `venus_i2c_load_message`. -/
def venusI2cLoadMessage (p : VenusI2c) (mode : XferMode) (txBuf : ℕ → BitVec 8) (txBufLen : ℕ)
    (rxBuf : ℕ → BitVec 8) (rxBufLen : ℕ) (xferFlags : BitVec 8) : VenusI2c :=
  { p with xfer :=
      { mode, flags := xferFlags, txBuff := txBuf, txBuffLen := txBufLen, txLen := 0,
        -- The buffer for reception is cleared.
        rxBuff := fun a => if a < rxBufLen then 0 else rxBuf a,
        rxBuffLen := rxBufLen, rxLen := 0, ret := 0,
        gpioXferState := ⟨.start, 0⟩, gpioXferSubState := 0 } }

/-! ## The state machine -/

/-- `venus_gpio_set_dir` and the next sub state. -/
def VenusI2c.setDirNext (p : VenusI2c) (id : Gpio) (dir : Bool) : VenusI2c :=
  { p with bus := venusGpioSetDir id dir p.bus, xfer := p.xfer.nextSub }

/-- `venus_g2c_do_start`. -/
def venusG2cDoStart (p : VenusI2c) : VenusI2c :=
  match p.xfer.gpioXferSubState with
  | 0 =>
    { p with
      bus := venusI2cGpioSelection .gpio <|
        venusGpioWrite .scl false <| venusGpioWrite .sda false <|
        venusGpioSetDir .scl false <| venusGpioSetDir .sda false p.bus
      xfer := p.xfer.nextSub }
  | 1 =>
    if venusGpioRead .scl p.bus && venusGpioRead .sda p.bus then { p with xfer := p.xfer.nextSub }
    else p
  | 2 => p.setDirNext .sda true
  | 3 => { p with bus := venusGpioSetDir .scl true p.bus, xfer := p.xfer.enter .addr }
  | _ => p

/-- `addr` of `venus_g2c_do_address`, an `unsigned char`. -/
def g2cAddr (tar : BitVec 16) (mode : XferMode) : BitVec 8 :=
  let addr := (tar <<< 1).setWidth 8
  if mode = .masterRead then addr ||| 1#8 else addr

/-- `venus_g2c_do_address`. -/
def venusG2cDoAddress (p : VenusI2c) : VenusI2c :=
  let state := p.xfer.gpioXferState.minor
  let bit := (g2cAddr p.tar p.xfer.mode).getLsbD (7 - state)
  if state ≤ 7 then
    match p.xfer.gpioXferSubState with
    | 0 => p.setDirNext .scl true
    | 1 => p.setDirNext .sda (!bit)
    | 2 =>
      if bit && !venusGpioRead .sda p.bus then { p with xfer := p.xfer.lose }
      else p.setDirNext .scl false
    | 3 => if venusGpioRead .scl p.bus then { p with xfer := p.xfer.nextState } else p
    | _ => p
  else if state = 8 then
    match p.xfer.gpioXferSubState with
    | 0 => p.setDirNext .scl true
    | 1 => p.setDirNext .sda false
    | 2 => p.setDirNext .scl false
    | 3 =>
      if venusGpioRead .scl p.bus then
        if venusGpioRead .sda p.bus then
          { p with xfer := { p.xfer with ret := etxabort }.enter .stop }
        else { p with xfer := p.xfer.enter .data }
      else p
    | _ => p
  else p

/-- `venus_g2c_do_read`. -/
def venusG2cDoRead (p : VenusI2c) : VenusI2c :=
  let state := p.xfer.gpioXferState.minor
  if state < 8 then
    match p.xfer.gpioXferSubState with
    | 0 => p.setDirNext .scl true
    | 1 => p.setDirNext .sda false
    | 2 => p.setDirNext .scl false
    | 3 =>
      if venusGpioRead .scl p.bus then
        if venusGpioRead .sda p.bus then
          { p with xfer :=
              { p.xfer with
                rxBuff := Function.update p.xfer.rxBuff p.xfer.rxLen
                  (p.xfer.rxBuff p.xfer.rxLen ||| 1#8 <<< (7 - state)) }.nextState }
        else { p with xfer := p.xfer.nextState }
      else p
    | _ => p
  else
    match p.xfer.gpioXferSubState with
    | 0 =>
      { p with
        bus := venusGpioSetDir .scl true p.bus
        xfer := { p.xfer with rxLen := (p.xfer.rxLen + 1) % 2 ^ 16 }.nextSub }
    | 1 =>
      if p.xfer.rxLen < p.xfer.rxBuffLen then
        p.setDirNext .sda true
      else p.setDirNext .sda false
    | 2 => p.setDirNext .scl false
    | 3 =>
      if venusGpioRead .scl p.bus then
        if p.xfer.rxLen < p.xfer.rxBuffLen then { p with xfer := p.xfer.enter .data }
        else { p with xfer := p.xfer.enter .stop }
      else p
    | _ => p

/-- `venus_g2c_do_write`. -/
def venusG2cDoWrite (p : VenusI2c) : VenusI2c :=
  let state := p.xfer.gpioXferState.minor
  let bit := (p.xfer.txBuff p.xfer.txLen).getLsbD (7 - state)
  if state < 8 then
    match p.xfer.gpioXferSubState with
    | 0 => p.setDirNext .scl true
    | 1 => p.setDirNext .sda (!bit)
    | 2 =>
      if bit && !venusGpioRead .sda p.bus then { p with xfer := p.xfer.lose }
      else p.setDirNext .scl false
    | 3 => if venusGpioRead .scl p.bus then { p with xfer := p.xfer.nextState } else p
    | _ => p
  else
    match p.xfer.gpioXferSubState with
    | 0 => p.setDirNext .scl true
    | 1 => p.setDirNext .sda false
    | 2 => p.setDirNext .scl false
    | 3 =>
      if venusGpioRead .scl p.bus then
        let x : VenusI2cXfer := { p.xfer with txLen := (p.xfer.txLen + 1) % 2 ^ 16 }
        if venusGpioRead .sda p.bus then { p with xfer := { x with ret := etxabort }.enter .stop }
        else if x.txBuffLen ≤ x.txLen then { p with xfer := x.enter .stop }
        else { p with xfer := x.enter .data }
      else p
    | _ => p

/-- `venus_g2c_do_stop`. -/
def venusG2cDoStop (p : VenusI2c) : VenusI2c :=
  match p.xfer.gpioXferSubState with
  | 0 => p.setDirNext .scl true
  | 1 =>
    if p.xfer.flags &&& i2cNoStop = 0#8 ∨ p.xfer.ret < 0 then
      p.setDirNext .sda true
    else p.setDirNext .sda false
  | 2 => p.setDirNext .scl false
  | 3 =>
    if venusGpioRead .scl p.bus then
      { p with bus := venusGpioSetDir .sda false p.bus, xfer := p.xfer.enter .done }
    else p
  | _ => p

/-- `venus_g2c_do_complete`. -/
def venusG2cDoComplete (p : VenusI2c) : VenusI2c :=
  if p.xfer.gpioXferSubState = 0 then
    { p with
      bus := venusI2cGpioSelection .i2c <| venusGpioSetDir .scl false <|
        venusGpioSetDir .sda false p.bus
      xfer := { p.xfer.nextSub with mode := .idel } }
  else p

/-- `venus_g2c_isr`, where `late` is that the time of the transfer is over. -/
def venusG2cIsr (late : Bool) (p : VenusI2c) : VenusI2c :=
  let p : VenusI2c :=
    if p.xfer.mode ≠ .idel ∧ late then
      { p with xfer := { p.xfer with ret := etimeout }.enter .done }
    else p
  match p.xfer.gpioXferState.major with
  | .start => venusG2cDoStart p
  | .addr => venusG2cDoAddress p
  | .stop => venusG2cDoStop p
  | .done => venusG2cDoComplete p
  | .data => if p.xfer.mode = .masterWrite then venusG2cDoWrite p else venusG2cDoRead p

/-! ## The system -/

/-- What happens next : `venus_g2c_start_xfer` calls `venus_g2c_isr` once more, or the slave changes
what it does with a line. -/
inductive G2cAction where
  | isr (late : Bool)
  | sda (v : Bool)
  | scl (v : Bool)
  deriving DecidableEq

/-- One action. `venus_g2c_start_xfer` returns as soon as the mode is `I2C_IDEL`. -/
def VenusI2c.act (p : VenusI2c) : G2cAction → VenusI2c
  | .isr late => if p.xfer.mode = .idel then p else venusG2cIsr late p
  | .sda v => { p with bus := p.bus.slaveSda v }
  | .scl v => { p with bus := p.bus.slaveScl v }

end OpenHMR
