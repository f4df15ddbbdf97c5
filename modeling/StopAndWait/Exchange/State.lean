import StopAndWait.Error

/-!
The receiving side of an exchange as a state. Every intact frame makes one step, which tells what
to reply and whether a message is whole or the role has changed. Whole messages that nobody took
are held, oldest first.
-/
namespace StopAndWait

inductive Outcome
  | proceed
  | complete
  | switched (mode : Mode)
  deriving DecidableEq, Repr

structure Step where
  reply : Control
  outcome : Outcome
  deriving DecidableEq, Repr

namespace Step

def ack (outcome : Outcome) : Step := ⟨.ack, outcome⟩

def nack : Step := ⟨.nack, .proceed⟩

end Step

structure Exchange where
  mode : Mode := .undefined
  -- The sequence number of the last data frame taken.
  sequence : UInt8 := 0
  -- Whether a message of several frames is under way.
  inSequence : Bool := false
  buffer : Bytes := []
  -- Whole messages not yet handed out, oldest first.
  pending : List Bytes := []
  deriving DecidableEq, Repr

namespace Exchange

def hasPending (x : Exchange) : Bool := !x.pending.isEmpty

def withMode (x : Exchange) (mode : Mode) : Exchange := { x with mode }

def reset (x : Exchange) : Exchange := { x with sequence := 0, inSequence := false, buffer := [] }

def IsIdle (x : Exchange) : Prop := x.sequence = 0 ∧ x.inSequence = false ∧ x.buffer = []

def stash (x : Exchange) : Exchange := { x.reset with pending := x.pending ++ [x.buffer] }

def onCorrupt (x : Exchange) : Step × Exchange := (.nack, x)

def onSwitch (x : Exchange) (target : Mode) : Step × Exchange :=
  if x.mode = target then (.ack .proceed, x.reset)
  else (.ack (.switched target), x.reset.withMode target)

/-- The last data frame again is acknowledged and dropped, the next one is taken, any other
refused. -/
def onData (x : Exchange) (sequence : UInt8) (payload : Bytes) : Step × Exchange :=
  if sequence = x.sequence then (.ack .proceed, x)
  else if sequence = x.sequence + 1 then
    (.ack (if x.inSequence then .proceed else .complete),
      { x with sequence, buffer := x.buffer ++ payload })
  else (.nack, x)

def onFrame (x : Exchange) : Frame → Step × Exchange
  | .control .ack | .control .nack | .unknown _ => (.ack .proceed, x)
  | .control .seqBegin => (.ack .proceed, { x with inSequence := true })
  | .control .seqEnd => (.ack .complete, { x with inSequence := false })
  | .control .setSend => x.onSwitch .sender
  | .control .setRecv => x.onSwitch .receiver
  | .data sequence payload => x.onData sequence payload

def onBytes (x : Exchange) (bytes : Bytes) : Except Error (Step × Exchange) :=
  (Frame.decode bytes).map x.onFrame

def onBuffer (x : Exchange) (bytes : Bytes) : Except Error (Step × Exchange) :=
  if isIntact bytes then x.onBytes bytes else .ok x.onCorrupt

def copyInto (out message : Bytes) : Bytes := message ++ out.drop message.length

def deliverPendingInto? (x : Exchange) (out : Bytes) :
    Option ((Except Error Nat × Exchange) × Bytes) :=
  match x.pending with
  | [] => none
  | message :: rest =>
    if out.length < message.length then
      some ((.error (.bufferOverflow message.length out.length), x), out)
    else some ((.ok message.length, { x with pending := rest }), copyInto out message)

def deliverInto (x : Exchange) (out : Bytes) : (Except Error Nat × Exchange) × Bytes :=
  if out.length < x.buffer.length then
    ((.error (.bufferOverflow x.buffer.length out.length), x.stash), out)
  else ((.ok x.buffer.length, x.reset), copyInto out x.buffer)

-- What a caller finds at the front of its buffer.
def found (ended : (Except Error Nat × Exchange) × Bytes) : Except Error Bytes × Exchange :=
  (ended.1.1.map (ended.2.take ·), ended.1.2)

def deliverPending? (x : Exchange) (room : Nat) : Option (Except Error Bytes × Exchange) :=
  (x.deliverPendingInto? (List.replicate room 0)).map found

def deliver (x : Exchange) (room : Nat) : Except Error Bytes × Exchange :=
  found (x.deliverInto (List.replicate room 0))

@[simp] theorem isIdle_reset (x : Exchange) : x.reset.IsIdle := ⟨rfl, rfl, rfl⟩

@[simp] theorem isIdle_stash (x : Exchange) : x.stash.IsIdle := ⟨rfl, rfl, rfl⟩

@[simp] theorem mode_reset (x : Exchange) : x.reset.mode = x.mode := rfl

@[simp] theorem pending_reset (x : Exchange) : x.reset.pending = x.pending := rfl

@[simp] theorem mode_stash (x : Exchange) : x.stash.mode = x.mode := rfl

@[simp] theorem pending_stash (x : Exchange) : x.stash.pending = x.pending ++ [x.buffer] := rfl

@[simp] theorem take_copyInto (out message : Bytes) :
    (copyInto out message).take message.length = message :=
  List.take_left

theorem deliverPending?_eq (x : Exchange) (room : Nat) :
    x.deliverPending? room = match x.pending with
      | [] => none
      | message :: rest =>
        if room < message.length then some (.error (.bufferOverflow message.length room), x)
        else some (.ok message, { x with pending := rest }) := by
  unfold deliverPending? deliverPendingInto?
  cases x.pending with
  | nil => rfl
  | cons message rest =>
    simp only [List.length_replicate]
    split
    · rfl
    · simp [found, Except.map]

theorem deliver_eq (x : Exchange) (room : Nat) :
    x.deliver room =
      if room < x.buffer.length then (.error (.bufferOverflow x.buffer.length room), x.stash)
      else (.ok x.buffer, x.reset) := by
  simp only [deliver, deliverInto, List.length_replicate]
  split
  · rfl
  · simp [found, Except.map]

/-- No frame touches the held messages. -/
@[simp] theorem pending_onFrame (x : Exchange) (f : Frame) :
    (x.onFrame f).2.pending = x.pending := by
  fun_cases onFrame x f <;> grind [onSwitch, onData, withMode, reset]

/-- A buffer is refused as damaged, or makes the step of the frame that it is. -/
theorem onBuffer_eq_ok_iff {x : Exchange} {bytes : Bytes} {made : Step × Exchange} :
    x.onBuffer bytes = .ok made ↔
      isIntact bytes = false ∧ x.onCorrupt = made ∨
        isIntact bytes = true ∧
          ∃ frame, Frame.decode? bytes = some frame ∧ x.onFrame frame = made := by
  unfold onBuffer onBytes
  cases isIntact bytes with
  | false => simp
  | true =>
    simp only [← Frame.decode_eq_ok_iff]
    cases Frame.decode bytes <;> simp [Except.map]

end Exchange

end StopAndWait
