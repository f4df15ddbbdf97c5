import StopAndWait.Dialog.Basic

namespace StopAndWait

namespace Control

def send (kind : Control) (timeout : Millis) : Dialog (Except Error Unit) := do
  match ← Dialog.write kind.encode timeout with
  | .error e => return .error (.writeFailed (.replyNotWritten kind e))
  | .ok written =>
    if written = kind.encode.length then return .ok ()
    else return .error (.writeFailed (.replyCutShort kind written))

end Control

inductive Verdict
  | ack
  | nack
  -- Nothing came in time, or something that is no verdict.
  | missing
  deriving DecidableEq, Repr

def Verdict.ofBytes (bytes : Bytes) : Verdict :=
  if Control.ack.isWrittenAs bytes then ack
  else if Control.nack.isWrittenAs bytes then nack
  else missing

def awaitVerdict (capacity : Nat) (timeout : Millis) : Dialog (Except LinkError Verdict) := do
  match ← Dialog.read capacity timeout with
  | .ok bytes => return .ok (.ofBytes bytes)
  | .error .timeout => return .ok .missing
  | .error e => return .error e

end StopAndWait
