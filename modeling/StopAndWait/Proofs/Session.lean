import StopAndWait.Engine.Calls
import StopAndWait.Proofs.Hearing

namespace StopAndWait

inductive Call
  | read (room : Nat) (limit : Millis)
  | write (message : Bytes) (limit : Millis)
  | waitForSend (limit : Millis)
  | waitForReceive (limit : Millis)
  | switchToReceive (limit : Millis)
  | switchToSend (limit : Millis)
  deriving DecidableEq

namespace Call

abbrev Result : Call → Type
  | read _ _ => Delivery
  | write _ _ => Nat
  | waitForSend _ | waitForReceive _ | switchToReceive _ | switchToSend _ => Unit

def dialog (e : Engine) : (call : Call) → Dialog (Engine.End call.Result)
  | read room limit => e.read room limit
  | write message limit => e.write message limit
  | waitForSend limit => e.waitForSend limit
  | waitForReceive limit => e.waitForReceive limit
  | switchToReceive limit => e.switchToReceive limit
  | switchToSend limit => e.switchToSend limit

end Call

structure Episode where
  call : Call
  log : List Turn
  result : Except Error call.Result

namespace Episode

def completed (episode : Episode) : List Bytes := StopAndWait.completed episode.log

def delivered : Episode → List Bytes
  | ⟨.read _ _, _, result⟩ => Engine.handed result
  | _ => []

end Episode

inductive Session : Engine → List Episode → Engine → Prop
  | nil (e : Engine) : Session e [] e
  | call {e e' e'' : Engine} {episode : Episode} {rest : List Episode}
    (yields : (episode.call.dialog e).Yields episode.log (episode.result, e'))
    (later : Session e' rest e'') : Session e (episode :: rest) e''

namespace Engine

open Dialog

variable {e e' : Engine} {log : List Turn} {deadline : Deadline} {target : Mode}
  {operation : Operation}

/-- What a receive loop of the engine makes of its exchange. -/
theorem yields_receive {result : Except Error Received}
    (h : (e.receive deadline).Yields log (result, e')) :
    Reception.Heard e.config.send.mtu e.config.receive.replyTimeout deadline e.exchange log result
      e'.exchange := by
  obtain ⟨⟨received, r⟩, first, second, rfl, hloop, h⟩ := yields_bind.1 h
  have hheard := Reception.heard_of_yields hloop
  match received with
  | .ok received =>
    obtain ⟨rfl, hend⟩ := yields_pure.1 h
    cases hend
    rwa [List.append_nil]
  | .error error =>
    obtain ⟨rfl, hend⟩ := yields_pure.1 h
    cases hend
    rwa [List.append_nil]

end Engine

end StopAndWait
