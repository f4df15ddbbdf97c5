import StopAndWait.Dialog.Clock
import StopAndWait.Exchange.Acknowledgment
import StopAndWait.Time.Backoff
import StopAndWait.Wire.Segmentation

namespace StopAndWait

structure TransmitMetrics where
  -- Frames acknowledged, control frames included.
  frames : Nat := 0
  -- Attempts beyond the first of each frame.
  retransmissions : Nat := 0
  bytes : Nat := 0
  deriving DecidableEq, Repr

namespace TransmitMetrics

def count (m : TransmitMetrics) (frame : Frame) (attempts : UInt32) : TransmitMetrics where
  frames := m.frames + 1
  retransmissions := m.retransmissions + (attempts.toNat - 1)
  bytes := m.bytes + match frame with
    | .data _ payload => payload.length
    | _ => 0

end TransmitMetrics

namespace Transmission

def verdictCapacity : Nat := 256

/-- One attempt: whether the frame was written whole and then acknowledged. No verdict is awaited
after a write that failed or fell short. -/
def attempt (frame : Bytes) (timeout : Millis) : Dialog Bool := do
  match ← Dialog.write frame timeout with
  | .error _ => return false
  | .ok written =>
    if written = frame.length then
      match ← awaitVerdict verdictCapacity timeout with
      | .ok verdict => return verdict == .ack
      | .error _ => return false
    else return false

def attempts (frame : Bytes) (policy : RetryPolicy) (deadline : Deadline) :
    (allowed : Nat) → Retransmission → Dialog (Except Error UInt32)
  | 0, r => do
    if ← deadline.hasExpired then return .error .timeout
    else return .error (.writeFailed (.unacknowledged frame.length r.attempt.toNat))
  | allowed + 1, r => do
    if ← deadline.hasExpired then return .error .timeout
    else if ← attempt frame (← deadline.clampNow (r.nextTimeout policy)) then
      return .ok r.record.attempt
    else attempts frame policy deadline allowed r.record

def sendFrame (frame : Bytes) (policy : RetryPolicy) (deadline : Deadline) :
    Dialog (Except Error UInt32) :=
  attempts frame policy deadline (Retransmission.remaining {} policy) {}

def sendFrames (policy : RetryPolicy) (deadline : Deadline) :
    List Frame → TransmitMetrics → Dialog (Except Error TransmitMetrics)
  | [], metrics => return .ok metrics
  | frame :: rest, metrics => do
    match ← sendFrame frame.encode policy deadline with
    | .error e => return .error e
    | .ok attempts => sendFrames policy deadline rest (metrics.count frame attempts)

def sendMessage (message : Bytes) (capacity : Nat) (policy : RetryPolicy) (deadline : Deadline) :
    Dialog (Except Error TransmitMetrics) :=
  sendFrames policy deadline (plan message capacity) {}

end Transmission

end StopAndWait
