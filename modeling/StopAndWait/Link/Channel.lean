import StopAndWait.Time.Deadline
import StopAndWait.Wire.Checksum

/-!
Unbounded channels of buffers, each with a half to send with and a half to receive with: what is
asked of them, what is taken for granted of them, and a queue that does it.
-/
namespace StopAndWait

inductive ReceiveFailure
  | timeout
  | disconnected
  deriving DecidableEq, Repr

class Channel (χ : Type) where
  unbounded : χ
  -- Whether the buffer is accepted.
  send : Bytes → χ → Bool × χ
  -- A wait without limit. It does not return, or ends with a buffer or because none can come.
  receive : χ → Option (Option Bytes × χ)
  receiveWithin : Millis → χ → Except ReceiveFailure Bytes × χ
  count : χ → Nat
  dropSender : χ → χ
  dropReceiver : χ → χ

structure Queue where
  items : List Bytes := []
  hasSender : Bool := true
  hasReceiver : Bool := true
  deriving DecidableEq, Repr

/-- First in, first out. What was accepted before the sending half was given up can still be
received. Nothing is accepted once the receiving half is given up; what becomes of the buffers that
it has not received is left open. -/
structure Channel.Laws {χ : Type} [Channel χ] (view : χ → Queue) : Prop where
  unbounded : view unbounded = {}
  count : ∀ c, count c = (view c).items.length
  send_accepted : ∀ c bytes, (view c).hasReceiver = true → ∃ c', send bytes c = (true, c') ∧
    view c' = { view c with items := (view c).items ++ [bytes] }
  send_rejected : ∀ c bytes, (view c).hasReceiver = false → ∃ c', send bytes c = (false, c') ∧
    view c' = view c
  receive_oldest : ∀ c bytes items, (view c).items = bytes :: items →
    ∃ c', receive c = some (some bytes, c') ∧ view c' = { view c with items }
  receive_blocks : ∀ c, (view c).items = [] → (view c).hasSender = true → receive c = none
  receive_disconnected : ∀ c, (view c).items = [] → (view c).hasSender = false →
    ∃ c', receive c = some (none, c') ∧ view c' = view c
  receiveWithin_oldest : ∀ limit c bytes items, (view c).items = bytes :: items →
    ∃ c', receiveWithin limit c = (.ok bytes, c') ∧ view c' = { view c with items }
  receiveWithin_timeout : ∀ limit c, (view c).items = [] → (view c).hasSender = true →
    ∃ c', receiveWithin limit c = (.error .timeout, c') ∧ view c' = view c
  receiveWithin_disconnected : ∀ limit c, (view c).items = [] → (view c).hasSender = false →
    ∃ c', receiveWithin limit c = (.error .disconnected, c') ∧ view c' = view c
  dropSender : ∀ c, view (dropSender c) = { view c with hasSender := false }
  dropReceiver : ∀ c, ∃ items,
    view (dropReceiver c) = { view c with items, hasReceiver := false }

namespace Queue

def send (bytes : Bytes) (q : Queue) : Bool × Queue :=
  if q.hasReceiver then (true, { q with items := q.items ++ [bytes] }) else (false, q)

def receive (q : Queue) : Option (Option Bytes × Queue) :=
  match q.items with
  | bytes :: items => some (some bytes, { q with items })
  | [] => if q.hasSender then none else some (none, q)

def receiveWithin (_limit : Millis) (q : Queue) : Except ReceiveFailure Bytes × Queue :=
  match q.items with
  | bytes :: items => (.ok bytes, { q with items })
  | [] => (.error (if q.hasSender then .timeout else .disconnected), q)

instance : Channel Queue where
  unbounded := {}
  send
  receive
  receiveWithin
  count q := q.items.length
  dropSender q := { q with hasSender := false }
  dropReceiver q := { q with items := [], hasReceiver := false }

theorem laws : Channel.Laws fun q : Queue => q where
  unbounded := rfl
  count _ := rfl
  send_accepted q bytes h := ⟨_, if_pos h, rfl⟩
  send_rejected q bytes h := ⟨_, if_neg (by simp [h]), rfl⟩
  receive_oldest q bytes items h := ⟨{ q with items }, by simp [Channel.receive, receive, h], rfl⟩
  receive_blocks q h hs := by simp [Channel.receive, receive, h, hs]
  receive_disconnected q h hs := ⟨q, by simp [Channel.receive, receive, h, hs], rfl⟩
  receiveWithin_oldest limit q bytes items h :=
    ⟨{ q with items }, by simp [Channel.receiveWithin, receiveWithin, h], rfl⟩
  receiveWithin_timeout limit q h hs :=
    ⟨q, by simp [Channel.receiveWithin, receiveWithin, h, hs], rfl⟩
  receiveWithin_disconnected limit q h hs :=
    ⟨q, by simp [Channel.receiveWithin, receiveWithin, h, hs], rfl⟩
  dropSender _ := rfl
  dropReceiver _ := ⟨[], rfl⟩

end Queue

end StopAndWait
