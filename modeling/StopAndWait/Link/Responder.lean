import StopAndWait.Exchange.Reception
import StopAndWait.Link.Lossy
import StopAndWait.Random.Draw

namespace StopAndWait

structure Mailbox where
  inbox : List Bytes := []
  outbox : List Bytes := []
  deriving DecidableEq, Repr

instance : Link Mailbox where
  read s capacity _ :=
    match s.inbox with
    | bytes :: inbox => some (.ok (bytes.take capacity), { s with inbox })
    | [] => some (.error .closed, s)
  write s bytes _ := some (.ok bytes.length, { s with outbox := s.outbox ++ [bytes] })

inductive PeerEvent
  | message (bytes : Bytes)
  | failure (error : Error)
  | switched (mode : Mode)
  deriving DecidableEq, Repr

structure Responder where
  reception : Reception
  mtu : Nat
  -- The longest message that the peer takes.
  room : Nat
  link : LossyLink Mailbox Generator
  -- What the peer has told, in order.
  events : Array PeerEvent := #[]

namespace Responder

def replyTimeout : Millis := 200

-- A buffer takes five requests and a new round, and the empty mailbox ends the loop.
def bound (s : Responder) : Nat := 16 * (s.link.inner.inbox.length + 2)

/-- The peer's exchange, and what it tells, after its receive loop. That the inbox is empty again
is nothing to tell; a whole message is handed out; any other failure makes it begin anew. -/
def settle (s : Responder) (r : Reception) : Except Error Received → Responder
  | .ok .message =>
    let (delivered, exchange) := r.exchange.deliver s.room
    let event := match delivered with
      | .ok bytes => .message bytes
      | .error error => .failure error
    { s with reception := { r with exchange }, events := s.events.push event }
  | .ok (.switched mode) => { s with reception := r, events := s.events.push (.switched mode) }
  | .error (.readFailed _) => { s with reception := r }
  | .error error =>
    { s with
      reception := { r with exchange := r.exchange.reset }
      events := s.events.push (.failure error) }

def serve (s : Responder) : Option Responder := do
  let loop := Reception.receive s.mtu replyTimeout Deadline.never s.reception
  let ((result, r), site) ← loop.run s.bound (Clocked.mk s.link 0)
  return { s with link := site.link }.settle r result

def enqueue (s : Responder) (bytes : Bytes) : Responder :=
  { s with link.inner.inbox := s.link.inner.inbox ++ [bytes] }

instance : Link Responder where
  read s capacity _ :=
    match s.link.inner.outbox with
    | bytes :: outbox => some (.ok (bytes.take capacity), { s with link.inner.outbox := outbox })
    | [] => some (.error .closed, s)
  write s bytes _ := (s.enqueue bytes).serve.map fun s => (.ok bytes.length, s)

end Responder

end StopAndWait
