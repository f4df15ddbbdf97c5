import Mathlib.Logic.Relation
import StopAndWait.Engine.Calls

namespace StopAndWait

structure Pair where
  sender : Config
  receiver : Config
  fits : sender.send.mtu ≤ receiver.send.mtu

/-- What may happen between two engines besides what they do themselves. -/
structure Regime where
  -- The link may lose buffers, either way.
  lossy : Bool
  -- The sender may wait in vain for a verdict, and its calls may have a limit.
  hastySender : Bool
  -- Waits of the receiver may fail, and its calls may have a limit.
  hastyReceiver : Bool
  -- The least room that a read has for its message.
  room : Nat := 0

namespace Regime

def hurried : Regime := { lossy := false, hastySender := true, hastyReceiver := true }

def unreliable : Regime := { hurried with lossy := true }

end Regime

inductive Activity (κ α : Type) : Type 1
  | resting (engine : Engine)
  | calling (call : κ) (dialog : Dialog (Engine.End α))

structure World where
  -- The writing end; a call is a message.
  sender : Activity Bytes Nat
  -- The reading end; a call is the room for a message.
  receiver : Activity Nat Delivery
  -- Buffers on their way to the receiver, oldest first.
  outbound : List Bytes := []
  -- Replies on their way to the sender, oldest first.
  inbound : List Bytes := []
  clock : Instant := 0
  -- The messages of all writes so far, in order.
  written : List Bytes := []
  -- The writes that have come to an end, and how.
  outcomes : List (Bytes × Except Error Nat) := []
  -- The messages that the receive loop has put together, in order.
  completed : List Bytes := []
  -- The messages handed out by reads, in order.
  returned : List Bytes := []

inductive Dialog.Passes {α : Type} (now : Instant) :
    Dialog α → Option Notice → Dialog α → Prop
  | silent {d next : Dialog α} (view : d.view = .silent next) : Passes now d none next
  | now {d : Dialog α} {next : Instant → Dialog α} (view : d.view = .ask .now next) :
    Passes now d none (next now)
  | note {d : Dialog α} {notice : Notice} {next : Unit → Dialog α}
    (view : d.view = .ask (.note notice) next) : Passes now d (some notice) (next ())

def Notice.whole : Option Notice → List Bytes
  | some (.completed message) => [message]
  | _ => []

def Engine.handed : Except Error Delivery → List Bytes
  | .ok (.message bytes) => [bytes]
  | _ => []

namespace World

def start (p : Pair) : World where
  sender := .resting { config := p.sender }
  receiver := .resting { config := p.receiver }

inductive Step (r : Regime) : World → World → Prop
  | tick {w : World} (n : Nat) : Step r w { w with clock := w.clock + n }
  | write {w : World} {e : Engine} (message : Bytes) (limit : Millis)
    (resting : w.sender = .resting e)
    (patient : r.hastySender = false → limit = Millis.unlimited) :
    Step r w { w with
      sender := .calling message (e.write message limit)
      written := w.written ++ [message] }
  | senderPasses {w : World} {message : Bytes} {d d' : Dialog (Engine.End Nat)}
    {notice : Option Notice} (calling : w.sender = .calling message d)
    (passes : d.Passes w.clock notice d') :
    Step r w { w with sender := .calling message d' }
  | transmit {w : World} {message bytes : Bytes} {timeout : Millis}
    {d : Dialog (Engine.End Nat)} {next : Except LinkError Nat → Dialog (Engine.End Nat)}
    (calling : w.sender = .calling message d) (view : d.view = .ask (.write bytes timeout) next) :
    Step r w { w with
      sender := .calling message (next (.ok bytes.length))
      outbound := w.outbound ++ [bytes] }
  | transmitInVain {w : World} {message bytes : Bytes} {timeout : Millis}
    {d : Dialog (Engine.End Nat)} {next : Except LinkError Nat → Dialog (Engine.End Nat)}
    (calling : w.sender = .calling message d) (view : d.view = .ask (.write bytes timeout) next)
    (lossy : r.lossy = true) :
    Step r w { w with sender := .calling message (next (.ok bytes.length)) }
  | getVerdict {w : World} {message bytes : Bytes} {rest : List Bytes} {capacity : Nat}
    {timeout : Millis} {d : Dialog (Engine.End Nat)}
    {next : Except LinkError Bytes → Dialog (Engine.End Nat)}
    (calling : w.sender = .calling message d) (view : d.view = .ask (.read capacity timeout) next)
    (inbound : w.inbound = bytes :: rest) :
    Step r w { w with
      sender := .calling message (next (.ok (bytes.take capacity)))
      inbound := rest }
  | waitInVain {w : World} {message : Bytes} {capacity : Nat} {timeout : Millis}
    {d : Dialog (Engine.End Nat)} {next : Except LinkError Bytes → Dialog (Engine.End Nat)}
    (error : LinkError) (calling : w.sender = .calling message d)
    (view : d.view = .ask (.read capacity timeout) next) (hasty : r.hastySender = true) :
    Step r w { w with sender := .calling message (next (.error error)) }
  | writeEnds {w : World} {message : Bytes} {d : Dialog (Engine.End Nat)}
    {result : Except Error Nat} {e : Engine} (calling : w.sender = .calling message d)
    (view : d.view = .done (result, e)) :
    Step r w { w with
      sender := .resting e
      outcomes := w.outcomes ++ [(message, result)] }
  | read {w : World} {e : Engine} (room : Nat) (limit : Millis)
    (resting : w.receiver = .resting e) (roomy : r.room ≤ room)
    (patient : r.hastyReceiver = false → limit = Millis.unlimited) :
    Step r w { w with receiver := .calling room (e.read room limit) }
  | receiverPasses {w : World} {room : Nat} {d d' : Dialog (Engine.End Delivery)}
    {notice : Option Notice} (calling : w.receiver = .calling room d)
    (passes : d.Passes w.clock notice d') :
    Step r w { w with
      receiver := .calling room d'
      completed := w.completed ++ Notice.whole notice }
  | receive {w : World} {bytes : Bytes} {rest : List Bytes} {room capacity : Nat}
    {timeout : Millis} {d : Dialog (Engine.End Delivery)}
    {next : Except LinkError Bytes → Dialog (Engine.End Delivery)}
    (calling : w.receiver = .calling room d) (view : d.view = .ask (.read capacity timeout) next)
    (outbound : w.outbound = bytes :: rest) :
    Step r w { w with
      receiver := .calling room (next (.ok (bytes.take capacity)))
      outbound := rest }
  | receiveInVain {w : World} {room capacity : Nat} {timeout : Millis}
    {d : Dialog (Engine.End Delivery)}
    {next : Except LinkError Bytes → Dialog (Engine.End Delivery)} (error : LinkError)
    (calling : w.receiver = .calling room d) (view : d.view = .ask (.read capacity timeout) next)
    (hasty : error = .timeout ∨ r.hastyReceiver = true) :
    Step r w { w with receiver := .calling room (next (.error error)) }
  | reply {w : World} {bytes : Bytes} {room : Nat} {timeout : Millis}
    {d : Dialog (Engine.End Delivery)} {next : Except LinkError Nat → Dialog (Engine.End Delivery)}
    (calling : w.receiver = .calling room d) (view : d.view = .ask (.write bytes timeout) next) :
    Step r w { w with
      receiver := .calling room (next (.ok bytes.length))
      inbound := w.inbound ++ [bytes] }
  | replyInVain {w : World} {bytes : Bytes} {room : Nat} {timeout : Millis}
    {d : Dialog (Engine.End Delivery)} {next : Except LinkError Nat → Dialog (Engine.End Delivery)}
    (calling : w.receiver = .calling room d) (view : d.view = .ask (.write bytes timeout) next)
    (lossy : r.lossy = true) :
    Step r w { w with receiver := .calling room (next (.ok bytes.length)) }
  | readEnds {w : World} {room : Nat} {d : Dialog (Engine.End Delivery)}
    {result : Except Error Delivery} {e : Engine} (calling : w.receiver = .calling room d)
    (view : d.view = .done (result, e)) :
    Step r w { w with
      receiver := .resting e
      returned := w.returned ++ Engine.handed result }

def Reachable (p : Pair) (r : Regime) : World → Prop :=
  Relation.ReflTransGen (Step r) (start p)

/-- The receive loop has put the message together: it is in the journal, or the very next thing to
be entered. -/
def HasCompleted (w : World) (message : Bytes) : Prop :=
  message ∈ w.completed ∨ ∃ room d next,
    w.receiver = .calling room d ∧ d.view = .ask (.note (.completed message)) next

end World

end StopAndWait
