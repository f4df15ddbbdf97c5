import StopAndWait.Dialog.Clock
import StopAndWait.Exchange.Acknowledgment
import StopAndWait.Exchange.State

namespace StopAndWait

structure ReceiveMetrics where
  frames : Nat := 0
  acks : Nat := 0
  nacks : Nat := 0
  -- The length of the buffer at the end of the last loop that came to one.
  bytes : Nat := 0
  deriving DecidableEq, Repr

namespace ReceiveMetrics

def countFrame (m : ReceiveMetrics) : ReceiveMetrics := { m with frames := m.frames + 1 }

def countReply (m : ReceiveMetrics) (reply : Control) : ReceiveMetrics :=
  if reply = .nack then { m with nacks := m.nacks + 1 } else { m with acks := m.acks + 1 }

end ReceiveMetrics

inductive Received
  | message
  | switched (mode : Mode)
  deriving DecidableEq, Repr

structure Reception where
  exchange : Exchange
  metrics : ReceiveMetrics := {}
  deriving DecidableEq, Repr

namespace Reception

abbrev End := Except Error Received × Reception

def conclude (r : Reception) : Outcome → Dialog (Reception ⊕ End)
  | .proceed => return .inl r
  | .complete => do
    Dialog.note (.completed r.exchange.buffer)
    return .inr (.ok .message, { r with metrics.bytes := r.exchange.buffer.length })
  | .switched mode =>
    return .inr (.ok (.switched mode), { r with metrics.bytes := r.exchange.buffer.length })

/-- Take one buffer into the exchange and reply. An intact buffer that is no frame gets no reply.
-/
def take (r : Reception) (replyTimeout : Millis) (buffer : Bytes) : Dialog (Reception ⊕ End) := do
  Dialog.note (.consumed buffer)
  let r := { r with metrics := r.metrics.countFrame }
  match r.exchange.onBuffer buffer with
  | .error e => return .inr (.error e, r)
  | .ok (step, exchange) =>
    let r := { r with exchange }
    match ← step.reply.send replyTimeout with
    | .error e => return .inr (.error e.whileReading, r)
    | .ok () =>
      let metrics := r.metrics.countReply step.reply
      conclude { r with metrics } step.outcome

def round (capacity : Nat) (replyTimeout : Millis) (deadline : Deadline) (r : Reception) :
    Dialog (Reception ⊕ End) := do
  if ← deadline.hasExpired then return .inr (.error .timeout, r)
  else match ← Dialog.read capacity (← deadline.timeLeft) with
    | .ok buffer => r.take replyTimeout buffer
    | .error .timeout => return .inl r
    | .error e => return .inr (.error (.readFailed (.link e)), r)

def receive (capacity : Nat) (replyTimeout : Millis) (deadline : Deadline) (r : Reception) :
    Dialog End :=
  Dialog.iterate (round capacity replyTimeout deadline) r

end Reception

end StopAndWait
