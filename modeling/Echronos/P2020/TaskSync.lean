import Echronos.P2020.Messages
import Echronos.Ppce500.InterruptEvent
import Echronos.Schemes.Cells

/-! # The task-sync example of `machine-p2020rdb-pca`

    The interrupt handler of `interrupt-buffering-example.c` buffers what the DUART receives. Task A of
    `task-sync-example.c` empties the buffer and puts messages together, and task B transmits them. The
    tasks take turns in any order, one access to what they share at a time, and an interrupt may come
    between any two steps while interrupts are enabled.

    An interrupt raises interrupt events. The RTOS turns them into signals before a task goes on,
    unless the interrupt came inside a function of the RTOS: then it does so at the end of that
    function. It does so in `interrupt_event_process()`, between whose accesses of `interrupt_event`
    further interrupts may come. -/

namespace Echronos.P2020

open Schemes Ppce500

/-- The interrupt events of the system. -/
abbrev interruptEvents : EventConfig := ⟨3, true, by decide⟩

abbrev InterruptEventId := Fin interruptEvents.interruptEvents

/-- `RTOS_INTERRUPT_EVENT_ID_RX` -/
def interruptEventIdRx : InterruptEventId := ⟨0, by decide⟩

/-- `RTOS_INTERRUPT_EVENT_ID_RX_OVERRUN` -/
def interruptEventIdRxOverrun : InterruptEventId := ⟨1, by decide⟩

/-- `RTOS_INTERRUPT_EVENT_ID_TX` -/
def interruptEventIdTx : InterruptEventId := ⟨2, by decide⟩

/-- `BUF_CAPACITY` -/
def bufCapacity : ℕ := 256

/-- `EXAMPLE_ERROR_ID_RX_BUF_OVERRUN` -/
def errorIdRxBufOverrun : UInt8 := 0xfc

/-- `EXAMPLE_ERROR_ID_RX_SPURIOUS_RDA` -/
def errorIdRxSpuriousRda : UInt8 := 0xfd

/-- `EXAMPLE_ERROR_ID_BUFFER_COUNT_OOB` -/
def errorIdBufferCountOob : UInt8 := 0xfe

/-- `EXAMPLE_ERROR_ID_RX_FIFO_OVERRUN` -/
def errorIdRxFifoOverrun : UInt8 := 0xff

/-- The signals that are pending for a task. -/
structure Signals where
  rx : Bool
  rxOverrun : Bool
  tx : Bool
  deriving DecidableEq, Repr

/-- No signal. -/
def Signals.empty : Signals := ⟨false, false, false⟩

/-- Where `fn_a` is. -/
inductive TaskA
  | waitRx
  | disable
  | check
  | copy (i : ℕ)
  | count
  | reset
  | enable
  | loop (i : ℕ)
  | store (i : ℕ)
  | incr (i : ℕ)
  | test (i : ℕ)
  | send (i : ℕ)
  | waitTx (i : ℕ)
  | clear (i : ℕ)
  | poll
  deriving DecidableEq, Repr

/-- Where `fn_b` goes on when a character is transmitted. -/
inductive Next
  | loop (i : ℕ)
  | carriageReturn
  | waitRx
  deriving DecidableEq, Repr

/-- Where `fn_b` is, with the character and what comes after it inside `tx_put_when_ready`. -/
inductive TaskB
  | waitRx
  | loop (i : ℕ)
  | ready (c : UInt8) (k : Next)
  | waitTx (c : UInt8) (k : Next)
  | put (c : UInt8) (k : Next)
  | overrun (k : Next)
  | send
  deriving DecidableEq, Repr

/-- Where `fn_b` is once a character is transmitted. -/
def Next.pc : Next → TaskB
  | .loop i => .loop i
  | .carriageReturn => .ready P2020.carriageReturn .waitRx
  | .waitRx => .waitRx

/-- `TX_PUT_OVERRUN_CHAR` -/
def txPutOverrunChar : UInt8 := 64

structure State where
  rxBuf : ℕ → UInt8
  rxCount : ℕ
  /-- `MSR[EE]`, `interrupt_event`, and how far a call of `interrupt_event_process()` has come. -/
  events : EventSystem interruptEvents
  /-- Whether the DUART takes a character to transmit. -/
  txReady : Bool
  /-- Whether the interrupt that says so is yet to come. -/
  thre : Bool
  transmitted : List UInt8
  msgBuf : ℕ → UInt8
  msgLen : ℕ
  a : TaskA
  signalsA : Signals
  pBuf : ℕ → UInt8
  pCount : ℕ
  b : TaskB
  signalsB : Signals
  /-- The error that `fatal` was called with, which nothing runs after. -/
  fatal : Option UInt8

/-- Both tasks wait, and nothing has been received. The transmitter is ready, which `fn_a` has asked to
    be told: the interrupt has come or not. -/
def State.init (rxBuf msgBuf pBuf : ℕ → UInt8) (thre : Bool) : State where
  rxBuf := rxBuf
  rxCount := 0
  events := .start
  txReady := true
  thre := thre
  transmitted := []
  msgBuf := msgBuf
  msgLen := 0
  a := .waitRx
  signalsA := .empty
  pBuf := pBuf
  pCount := 0
  b := .waitRx
  signalsB := .empty
  fatal := none

/-- `MSR[EE]` -/
def State.enabled (s : State) : Bool := s.events.irq.interruptsEnabled

/-- No interrupt event waits to be turned into a signal. -/
def State.quiet (s : State) : Bool := s.events.process.isNone && s.events.irq.interruptEvent == 0

/-! ### The interrupt handler -/

/-- The loop of `exti_duart_interrupt_handle`, over the bytes that the DUART has ready, each with
    whether an overrun of its buffer is seen before the byte is read. -/
def State.receiveLoop (s : State) : List (UInt8 × Bool) → State
  | [] => s
  | (c, overrun) :: rest =>
    if s.rxCount < bufCapacity then
      if overrun then { s with fatal := some errorIdRxFifoOverrun }
      else State.receiveLoop
        { s with rxBuf := Function.update s.rxBuf s.rxCount c, rxCount := s.rxCount + 1 } rest
    else s

/-- `rtos_interrupt_event_raise` -/
def interruptEventRaise (j : InterruptEventId) (e : EventSystem interruptEvents) :
    EventSystem interruptEvents :=
  { e with irq := e.irq.interruptEventRaise j, unhandled := Function.update e.unhandled j true }

/-- What `exti_duart_interrupt_handle` does behind its loop. -/
def State.received (s : State) (originalRxCount : ℕ) : State :=
  if s.fatal ≠ none then s
  else if s.rxCount = bufCapacity then
    { s with events :=
        interruptEventRaise interruptEventIdRx (interruptEventRaise interruptEventIdRxOverrun s.events) }
  else if s.rxCount = originalRxCount then { s with fatal := some errorIdRxSpuriousRda }
  else { s with events := interruptEventRaise interruptEventIdRx s.events }

/-- `exti_duart_interrupt_handle`, for received data. -/
def State.receive (s : State) (ready : List (UInt8 × Bool)) : State :=
  (s.receiveLoop ready).received s.rxCount

/-- `interrupt_event_handle`: the task and the signal of each event. -/
def State.interruptEventHandle (i : Option ℕ) (s : State) : State :=
  { s with
    signalsA := { s.signalsA with
      rx := s.signalsA.rx || i == some interruptEventIdRx.val
      rxOverrun := s.signalsA.rxOverrun || i == some interruptEventIdRxOverrun.val }
    signalsB := { s.signalsB with tx := s.signalsB.tx || i == some interruptEventIdTx.val } }

/-- The RTOS calls `interrupt_event_process()`, or makes its next access there. -/
def State.process (s : State) : Option State :=
  (EventSystem.step .next s.events).map fun events =>
    { s.interruptEventHandle (s.events.process.bind Process.handles) with events := events }

/-! ### The tasks -/

/-- The functions of the RTOS that tasks call. -/
def TaskA.isApi : TaskA → Bool
  | .waitRx | .send _ | .waitTx _ | .poll => true
  | _ => false

def TaskB.isApi : TaskB → Bool
  | .waitRx | .waitTx _ _ | .send => true
  | _ => false

/-- A step of `fn_a`, which waits where there is none. -/
def State.runA (s : State) : Option State :=
  match s.a with
  | .waitRx =>
    if s.signalsA.rx then some { s with signalsA := { s.signalsA with rx := false }, a := .disable }
    else none
  | .disable =>
    some { s with events := { s.events with irq := s.events.irq.interruptsDisable }, a := .check }
  | .check =>
    if bufCapacity < s.rxCount then some { s with fatal := some errorIdBufferCountOob }
    else some { s with a := .copy 0 }
  | .copy i =>
    if i < s.rxCount then some { s with pBuf := Function.update s.pBuf i (s.rxBuf i), a := .copy (i + 1) }
    else some { s with a := .count }
  | .count => some { s with pCount := s.rxCount, a := .reset }
  | .reset => some { s with rxCount := 0, a := .enable }
  | .enable =>
    some { s with events := { s.events with irq := s.events.irq.interruptsEnable }, a := .loop 0 }
  | .loop i =>
    if i < s.pCount then
      if Ordinary (s.pBuf i) then some { s with a := .store i } else some { s with a := .test i }
    else some { s with a := .poll }
  | .store i => some { s with msgBuf := Function.update s.msgBuf s.msgLen (s.pBuf i), a := .incr i }
  | .incr i => some { s with msgLen := s.msgLen + 1, a := .test i }
  | .test i =>
    if s.msgLen = msgSize ∨ (s.pBuf i = carriageReturn ∧ s.msgLen ≠ 0) then some { s with a := .send i }
    else some { s with a := .loop (i + 1) }
  | .send i => some { s with signalsB := { s.signalsB with rx := true }, a := .waitTx i }
  | .waitTx i =>
    if s.signalsA.tx then some { s with signalsA := { s.signalsA with tx := false }, a := .clear i }
    else none
  | .clear i => some { s with msgLen := 0, a := .loop (i + 1) }
  | .poll =>
    if s.signalsA.rxOverrun then
      some { s with signalsA := { s.signalsA with rxOverrun := false }, fatal := some errorIdRxBufOverrun }
    else some { s with a := .waitRx }

/-- A step of `fn_b`, which waits where there is none. -/
def State.runB (s : State) : Option State :=
  match s.b with
  | .waitRx =>
    if s.signalsB.rx then some { s with signalsB := { s.signalsB with rx := false }, b := .loop 0 }
    else none
  | .loop i =>
    if i < s.msgLen then some { s with b := .ready (s.msgBuf (s.msgLen - 1 - i)) (.loop (i + 1)) }
    else some { s with b := .send }
  | .ready c k => if s.txReady then some { s with b := .put c k } else some { s with b := .waitTx c k }
  | .waitTx c k =>
    if s.signalsB.tx then some { s with signalsB := { s.signalsB with tx := false }, b := .ready c k }
    else none
  -- `duart2_tx_put` looks once more, and it writes another character where it had to wait.
  | .put c k =>
    if s.txReady then some { s with transmitted := s.transmitted ++ [c], txReady := false, b := k.pc }
    else some { s with b := .overrun k }
  | .overrun k =>
    if s.txReady then
      some { s with transmitted := s.transmitted ++ [txPutOverrunChar], txReady := false, b := k.pc }
    else none
  | .send =>
    some { s with signalsA := { s.signalsA with tx := true }, b := .ready lineFeed .carriageReturn }

/-! ### Runs -/

inductive Act
  /-- The step of a task. -/
  | a
  | b
  /-- The interrupt for received data. -/
  | receive (ready : List (UInt8 × Bool))
  /-- The DUART has sent the character it was given. -/
  | drain
  /-- The interrupt that says so. -/
  | thre
  /-- The call of `interrupt_event_process()`, or its next access. -/
  | process

/-- A task goes on when no call of `interrupt_event_process()` is under way, and outside the RTOS only
    when none has to be made. -/
def State.mayRun (s : State) (isApi : Bool) : Bool :=
  s.events.process.isNone && (isApi || s.events.irq.interruptEvent == 0)

/-- A step, where there is one. -/
def step (act : Act) (s : State) : Option State :=
  if s.fatal ≠ none then none
  else match act with
    | .a => if s.mayRun s.a.isApi then s.runA else none
    | .b => if s.mayRun s.b.isApi then s.runB else none
    | .receive ready => if s.enabled then some (s.receive ready) else none
    | .drain => if s.txReady then none else some { s with txReady := true, thre := true }
    | .thre =>
      if s.enabled ∧ s.thre then
        some { s with thre := false, events := interruptEventRaise interruptEventIdTx s.events }
      else none
    | .process => if s.quiet then none else s.process

/-- The interrupt events that a step raises. -/
def Act.raises (act : Act) (s : State) : List InterruptEventId :=
  match act with
  | .receive ready =>
    if (s.receiveLoop ready).fatal ≠ none then []
    else if (s.receiveLoop ready).rxCount = bufCapacity then
      [interruptEventIdRxOverrun, interruptEventIdRx]
    else if (s.receiveLoop ready).rxCount = s.rxCount then []
    else [interruptEventIdRx]
  | .thre => [interruptEventIdTx]
  | .a | .b | .drain | .process => []

/-- The bytes that the DUART has had ready for the handler. -/
def Act.bytes : Act → List UInt8
  | .receive ready => ready.map Prod.fst
  | _ => []

/-- What has been received in a run. -/
def line (acts : List Act) : List UInt8 := acts.flatMap Act.bytes

end Echronos.P2020
