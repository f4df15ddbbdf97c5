import Mathlib.Logic.Function.Basic
import Mathlib.Logic.Relation
import StopAndWait.Link.Memory
import StopAndWait.Proofs.Conduct
import StopAndWait.Proofs.Performance
import StopAndWait.Proofs.Renewal

namespace StopAndWait

def Mode.opposite : Mode → Mode
  | undefined => undefined
  | sender => receiver
  | receiver => sender

inductive Business : Type 1
  | resting (engine : Engine)
  -- In a call of the engine, with all it has asked so far.
  | calling (call : Call) (engine : Engine) (log : List Turn)
    (dialog : Dialog (Engine.End call.Result))

structure Party where
  business : Business
  -- All that it has put on the link, in order.
  sent : List Bytes := []
  -- How much of that before the call it is in.
  since : Nat := 0
  -- How many of the buffers of its peer it has read.
  read : Nat := 0
  -- Those of them, by their place, that its receive loops have entered in the journal.
  heard : List Nat := []
  reports : List Report := []

namespace Party

def role (p : Party) : Mode :=
  match p.business with
  | .resting e => e.mode
  -- What the buffers in the journal have made of the role in which the call began.
  | .calling call e log _ => (summoned log).getLast?.getD (call.opening e)

-- The last thing on the link was to write a frame that is no reply.
def AwaitsVerdict (p : Party) : Prop :=
  ∃ call e log d, p.business = .calling call e log d ∧
    ∃ before bytes timeout answer, linkTurns log = before ++ [.write bytes timeout answer] ∧
      ¬ IsReply bytes

def calls (p : Party) (call : Call) (e : Engine) : Party :=
  { p with
    business := .calling call e [] (call.dialog e)
    since := p.sent.length }

inductive Moves (peer : List Bytes) (now : Instant) (p : Party) : Party → Prop
  | silent {call : Call} {e : Engine} {log : List Turn} {d next : Dialog (Engine.End call.Result)}
    (calling : p.business = .calling call e log d) (view : d.view = .silent next) :
    Moves peer now p { p with business := .calling call e log next }
  | now {call : Call} {e : Engine} {log : List Turn} {d : Dialog (Engine.End call.Result)}
    {next : Instant → Dialog (Engine.End call.Result)}
    (calling : p.business = .calling call e log d) (view : d.view = .ask .now next) :
    Moves peer now p { p with business := .calling call e (log ++ [.now now]) (next now) }
  | consumes {call : Call} {e : Engine} {log : List Turn} {d : Dialog (Engine.End call.Result)}
    {buffer : Bytes} {next : Unit → Dialog (Engine.End call.Result)}
    (calling : p.business = .calling call e log d)
    (view : d.view = .ask (.note (.consumed buffer)) next) :
    Moves peer now p { p with
      business := .calling call e (log ++ [.note (.consumed buffer)]) (next ())
      heard := p.heard ++ [p.read - 1] }
  | completes {call : Call} {e : Engine} {log : List Turn} {d : Dialog (Engine.End call.Result)}
    {message : Bytes} {next : Unit → Dialog (Engine.End call.Result)}
    (calling : p.business = .calling call e log d)
    (view : d.view = .ask (.note (.completed message)) next) :
    Moves peer now p { p with
      business := .calling call e (log ++ [.note (.completed message)]) (next ()) }
  | writes {call : Call} {e : Engine} {log : List Turn} {d : Dialog (Engine.End call.Result)}
    {bytes : Bytes} {timeout : Millis}
    {next : Except LinkError Nat → Dialog (Engine.End call.Result)}
    (calling : p.business = .calling call e log d)
    (view : d.view = .ask (.write bytes timeout) next) :
    Moves peer now p { p with
      business := .calling call e (log ++ [.write bytes timeout (.ok bytes.length)])
        (next (.ok bytes.length))
      sent := p.sent ++ [bytes] }
  | reads {call : Call} {e : Engine} {log : List Turn} {d : Dialog (Engine.End call.Result)}
    {bytes : Bytes} {capacity : Nat} {timeout : Millis}
    {next : Except LinkError Bytes → Dialog (Engine.End call.Result)}
    (calling : p.business = .calling call e log d)
    (view : d.view = .ask (.read capacity timeout) next) (arrived : peer[p.read]? = some bytes) :
    Moves peer now p { p with
      business := .calling call e (log ++ [.read capacity timeout (.ok (bytes.take capacity))])
        (next (.ok (bytes.take capacity)))
      read := p.read + 1 }
  | ends {call : Call} {e e' : Engine} {log : List Turn} {d : Dialog (Engine.End call.Result)}
    {result : Except Error call.Result} (calling : p.business = .calling call e log d)
    (view : d.view = .done (result, e')) :
    Moves peer now p { p with
      business := .resting e'
      reports := p.reports ++ [⟨call, result, e'.mode, e'.exchange.pending⟩] }

inductive Misses (p : Party) : Party → Prop
  | intro {call : Call} {e : Engine} {log : List Turn} {d : Dialog (Engine.End call.Result)}
    {capacity : Nat} {timeout : Millis}
    {next : Except LinkError Bytes → Dialog (Engine.End call.Result)}
    (calling : p.business = .calling call e log d)
    (view : d.view = .ask (.read capacity timeout) next) :
    Misses p { p with
      business := .calling call e (log ++ [.read capacity timeout (.error .timeout)])
        (next (.error .timeout)) }

end Party

structure Duplex where
  party : Side → Party
  clock : Instant := 0

namespace Duplex

def start (config : Side → Config) : Duplex where
  party side := { business := .resting { config := config side } }

def set (w : Duplex) (side : Side) (p : Party) : Duplex :=
  { w with party := Function.update w.party side p }

@[simp] theorem party_set_self (w : Duplex) (side : Side) (p : Party) :
    (w.set side p).party side = p := by
  simp [set]

@[simp] theorem party_set_other (w : Duplex) (side : Side) (p : Party) :
    (w.set side p).party side.other = w.party side.other := by
  simp [set, side.other_ne]

@[simp] theorem clock_set (w : Duplex) (side : Side) (p : Party) :
    (w.set side p).clock = w.clock := rfl

def inFlight (w : Duplex) (side : Side) : List Bytes :=
  (w.party side).sent.drop (w.party side.other).read

/-- One step of an end or of the clock. A hasty end may give up the wait for a verdict. -/
inductive Step (hasty : Side → Bool) : Duplex → Duplex → Prop
  | tick {w : Duplex} (n : Nat) : Step hasty w { w with clock := w.clock + n }
  | begins {w : Duplex} {e : Engine} (side : Side) (call : Call)
    (resting : (w.party side).business = .resting e) :
    Step hasty w (w.set side ((w.party side).calls call e))
  | moves {w : Duplex} {p : Party} (side : Side)
    (moves : (w.party side).Moves (w.party side.other).sent w.clock p) :
    Step hasty w (w.set side p)
  | misses {w : Duplex} {p : Party} (side : Side) (misses : (w.party side).Misses p)
    (patient : hasty side = false → ¬ (w.party side).AwaitsVerdict) :
    Step hasty w (w.set side p)

abbrev Run (hasty : Side → Bool) : Duplex → Duplex → Prop := Relation.ReflTransGen (Step hasty)

def Reachable (config : Side → Config) (hasty : Side → Bool) : Duplex → Prop :=
  Run hasty (start config)

/-- Where a change of roles is about to be reported as made, it is made at both ends: a receive loop
of the peer has taken the request, sent in this call, and the roles are opposite. -/
def Agrees (w : Duplex) : Prop :=
  ∀ side call e log d request role value e',
    (w.party side).business = .calling call e log d →
    call.switches = some (request, role) → d.view = .done (.ok value, e') →
      e'.mode = role ∧ (w.party side.other).role = role.opposite ∧
        ∃ k ∈ (w.party side.other).heard, (w.party side).since ≤ k ∧
          (w.party side).sent[k]? = some request.encode

end Duplex

end StopAndWait
