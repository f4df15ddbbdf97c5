import StopAndWait.Role
import StopAndWait.Wire.Frame

namespace StopAndWait

inductive SystemFault
  | wouldBlock
  | timedOut
  | connectionRefused
  | connectionReset
  | brokenPipe
  | interrupted
  | unexpectedEof
  | other
  deriving DecidableEq, Repr

def SystemFault.message : SystemFault → String
  | wouldBlock => "operation would block"
  | timedOut => "timed out"
  | connectionRefused => "connection refused"
  | connectionReset => "connection reset"
  | brokenPipe => "broken pipe"
  | interrupted => "operation interrupted"
  | unexpectedEof => "unexpected end of file"
  | other => "other error"

inductive LinkError
  | timeout
  | closed
  -- The system's own account of its failure.
  | system (account : String)
  deriving DecidableEq, Repr

namespace LinkError

/-- A fault that only says that nothing happened in time is a timeout. Any other keeps its account:
the detail if there is one, else the fault's own name. -/
def ofFault (fault : SystemFault) (detail : Option String) : LinkError :=
  match fault with
  | .wouldBlock | .timedOut => timeout
  | _ => system (detail.getD fault.message)

def message : LinkError → String
  | timeout => "transport operation timed out"
  | closed => "transport link closed"
  | system account => "transport I/O error: " ++ account

end LinkError

inductive ParameterFault
  | mtuOutOfRange (least greatest given : Nat)
  | noAttempts
  | noTimeout
  | noMultiplier
  | other (account : String)
  deriving DecidableEq, Repr

def ParameterFault.message : ParameterFault → String
  | mtuOutOfRange least greatest given =>
    "mtu must be in " ++ toString least ++ "..=" ++ toString greatest ++ ", got " ++ toString given
  | noAttempts => "at least one send attempt is required"
  | noTimeout => "ACK and reply timeouts must be at least 1 ms"
  | noMultiplier => "backoff multiplier must be at least 1"
  | other account => account

inductive Operation
  | read
  | write
  | waitForSend
  | waitForReceive
  | other (account : String)
  deriving DecidableEq, Repr

def Operation.name : Operation → String
  | read => "read"
  | write => "write"
  | waitForSend => "wait for send mode"
  | waitForReceive => "wait for receive mode"
  | other account => account

inductive TransferFault
  | link (error : LinkError)
  | replyNotWritten (reply : Control) (error : LinkError)
  | replyCutShort (reply : Control) (written : Nat)
  | unacknowledged (length attempts : Nat)
  | other (account : String)
  deriving DecidableEq, Repr

def TransferFault.message : TransferFault → String
  | link error => error.message
  | replyNotWritten reply error => reply.name ++ " reply: " ++ error.message
  | replyCutShort reply written =>
    reply.name ++ " reply: " ++ toString written ++ " of " ++ toString Frame.controlSize ++
      " bytes written"
  | unacknowledged length attempts =>
    "frame of " ++ toString length ++ " bytes not acknowledged after " ++ toString attempts ++
      " attempts"
  | other account => account

inductive Error
  | incorrectParameter (fault : ParameterFault)
  -- The role does not allow the operation, or a wait for a role ended without it.
  | incorrectMode (operation : Operation) (mode : Mode)
  | timeout
  | writeFailed (fault : TransferFault)
  | readFailed (fault : TransferFault)
  -- An intact buffer that is no frame.
  | invalidFrame (length : Nat)
  | bufferOverflow (required available : Nat)
  deriving DecidableEq, Repr

namespace Error

def message : Error → String
  | incorrectParameter fault => "incorrect parameter: " ++ fault.message
  | incorrectMode operation mode =>
    "incorrect mode: cannot " ++ operation.name ++ " while in " ++ mode.name ++ " mode"
  | timeout => "timeout while reading or writing"
  | writeFailed fault => "write failed: " ++ fault.message
  | readFailed fault => "read failed: " ++ fault.message
  | invalidFrame length =>
    "invalid frame: " ++ toString length ++ " bytes received, data frames need at least " ++
      toString Frame.dataOverhead
  | bufferOverflow required available =>
    "buffer too small: required " ++ toString required ++ ", available " ++ toString available

def isTransient : Error → Bool
  | timeout | writeFailed _ | readFailed _ => true
  | _ => false

def whileReading : Error → Error
  | writeFailed fault => readFailed fault
  | e => e

def whileWriting : Error → Error
  | readFailed fault => writeFailed fault
  | e => e

@[simp] theorem isTransient_whileReading (e : Error) :
    e.whileReading.isTransient = e.isTransient := by
  cases e <;> rfl

@[simp] theorem isTransient_whileWriting (e : Error) :
    e.whileWriting.isTransient = e.isTransient := by
  cases e <;> rfl

end Error

def Frame.decode (bytes : Bytes) : Except Error Frame :=
  match Frame.decode? bytes with
  | some frame => .ok frame
  | none => .error (.invalidFrame bytes.length)

theorem Frame.decode_eq_ok_iff {bytes : Bytes} {frame : Frame} :
    decode bytes = .ok frame ↔ decode? bytes = some frame := by
  unfold decode
  cases decode? bytes <;> simp

theorem Frame.decode_eq_error_iff {bytes : Bytes} {e : Error} :
    decode bytes = .error e ↔ decode? bytes = none ∧ e = .invalidFrame bytes.length := by
  unfold decode
  cases decode? bytes <;> simp [eq_comm]

end StopAndWait
