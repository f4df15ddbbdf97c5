import StopAndWait.Engine.Settings
import StopAndWait.Exchange.Reception
import StopAndWait.Exchange.Transmission

/-!
The engine: whole messages over an unreliable link, one role at a time. Every call is a dialogue
with the link and ends with a result and the engine after it. A call leaves no message under way:
what remains from call to call is the role, the held messages and the counts.
-/
namespace StopAndWait

structure Engine where
  config : Config
  exchange : Exchange := {}
  lastTransmit : Option TransmitMetrics := none
  -- The counts of the last receive loop that came to an end.
  lastReceive : Option ReceiveMetrics := none

inductive Receipt
  -- So many bytes are stored.
  | message (length : Nat)
  -- The peer handed over the sending role instead.
  | handover
  deriving DecidableEq, Repr

inductive Delivery
  | message (bytes : Bytes)
  | handover
  deriving DecidableEq, Repr

def Receipt.delivery (out : Bytes) : Receipt → Delivery
  | message length => .message (out.take length)
  | handover => .handover

def Delivery.bytes : Delivery → Bytes
  | message bytes => bytes
  | handover => []

namespace Engine

abbrev End (α : Type) := Except Error α × Engine

variable {α : Type}

def mode (e : Engine) : Mode := e.exchange.mode

def hasPending (e : Engine) : Bool := e.exchange.hasPending

def withMode (e : Engine) (mode : Mode) : Engine :=
  { e with exchange := e.exchange.withMode mode }

def reset (e : Engine) : Engine := { e with exchange := e.exchange.reset }

def finish (view : Error → Error) : End α → End α
  | (result, e) => (result.mapError view, e.reset)

def receive (e : Engine) (deadline : Deadline) : Dialog (End Received) := do
  let (result, r) ← Reception.receive e.config.send.mtu e.config.receive.replyTimeout deadline
    { exchange := e.exchange }
  match result with
  | .ok received =>
    return (.ok received, { e with exchange := r.exchange, lastReceive := some r.metrics })
  | .error error => return (.error error, { e with exchange := r.exchange })

-- A message that comes instead of the role is held.
def awaitMode (e : Engine) (target : Mode) (operation : Operation) (deadline : Deadline) :
    Dialog (End Unit) := do
  if e.mode = target then return (.ok (), e)
  else match ← e.receive deadline with
    | (.error error, e) => return (.error error, e)
    | (.ok (.switched mode), e) =>
      if mode = target then return (.ok (), e)
      else return (.error (.incorrectMode operation mode), e)
    | (.ok .message, e) =>
      let e := { e with exchange := e.exchange.stash }
      return (.error (.incorrectMode operation e.mode), e)

-- Without a role yet, the operation decides it.
def resolveMode (e : Engine) (target : Mode) (operation : Operation) (deadline : Deadline) :
    Dialog (End Unit) := do
  if e.mode = target then return (.ok (), e)
  else if e.mode = .undefined then return (.ok (), e.withMode target)
  else match e.config.switching with
    | .manual => return (.error (.incorrectMode operation e.mode), e)
    | .auto => match ← e.awaitMode target operation deadline with
      | (.ok (), e) => return (.ok (), e.reset)
      | (.error error, e) => return (.error error, e)

def readExchangeInto (e : Engine) (out : Bytes) (deadline : Deadline) :
    Dialog (End Receipt × Bytes) := do
  match ← e.resolveMode .receiver .read deadline with
  | (.error error, e) => return ((.error error, e), out)
  | (.ok (), e) => match ← e.receive deadline with
    | (.error error, e) => return ((.error error, e), out)
    | (.ok (.switched _), e) => return ((.ok .handover, e), out)
    | (.ok .message, e) =>
      let ((delivered, exchange), out) := e.exchange.deliverInto out
      return ((delivered.map .message, { e with exchange }), out)

/-- Read one message into the caller's buffer. A held message comes first and needs no link. -/
def readInto (e : Engine) (out : Bytes) (limit : Millis) : Dialog (End Receipt × Bytes) := do
  match e.exchange.deliverPendingInto? out with
  | some ((delivered, exchange), out) =>
    return ((delivered.map .message, { e with exchange }), out)
  | none =>
    let deadline ← Deadline.start limit
    let (ended, out) ← e.reset.readExchangeInto out deadline
    return (finish Error.whileReading ended, out)

def read (e : Engine) (room : Nat) (limit : Millis) : Dialog (End Delivery) := do
  let ((result, e), out) ← e.readInto (List.replicate room 0) limit
  return (result.map (·.delivery out), e)

def writeExchange (e : Engine) (message : Bytes) (deadline : Deadline) : Dialog (End Nat) := do
  match ← e.resolveMode .sender .write deadline with
  | (.error error, e) => return (.error error, e)
  | (.ok (), e) =>
    match ← Transmission.sendMessage message e.config.capacity e.config.send.retry deadline with
    | .error error => return (.error error, e)
    | .ok metrics => return (.ok message.length, { e with lastTransmit := some metrics })

/-- Write one message. The result is its length: a message is sent as a whole or not at all. -/
def write (e : Engine) (message : Bytes) (limit : Millis) : Dialog (End Nat) := do
  let deadline ← Deadline.start limit
  return finish Error.whileWriting (← e.reset.writeExchange message deadline)

def waitForMode (e : Engine) (target : Mode) (operation : Operation) (limit : Millis) :
    Dialog (End Unit) := do
  let deadline ← Deadline.start limit
  return finish id (← e.reset.awaitMode target operation deadline)

def waitForSend (e : Engine) (limit : Millis) : Dialog (End Unit) :=
  e.waitForMode .sender .waitForSend limit

def waitForReceive (e : Engine) (limit : Millis) : Dialog (End Unit) :=
  e.waitForMode .receiver .waitForReceive limit

def requestSwitch (e : Engine) (request : Control) (role : Mode) (limit : Millis) :
    Dialog (End Unit) := do
  let deadline ← Deadline.start limit
  match ← Transmission.sendFrame request.encode e.config.send.retry deadline with
  | .error error => return (.error error, e.reset)
  | .ok _ => return (.ok (), e.reset.withMode role)

def switchToReceive (e : Engine) (limit : Millis) : Dialog (End Unit) :=
  e.requestSwitch .setSend .receiver limit

def switchToSend (e : Engine) (limit : Millis) : Dialog (End Unit) :=
  e.requestSwitch .setRecv .sender limit

end Engine

end StopAndWait
