import StopAndWait.Proofs.Buffer
import StopAndWait.Proofs.Sending
import StopAndWait.Proofs.World

namespace StopAndWait

inductive Receiving
  -- The next buffer is awaited.
  | listening (x : Exchange)
  -- A buffer has come and is not yet in the journal.
  | taken (x : Exchange) (buffer : Bytes)
  -- The exchange has made its step; the reply is due.
  | replying (step : Step) (x : Exchange)
  -- The reply is out; the whole message is not yet in the journal.
  | completing (x : Exchange)
  -- No more is asked.
  | ended (x : Exchange) (messages : List Bytes)

namespace Receiving

def exchange : Receiving → Exchange
  | listening x | taken x _ | replying _ x | completing x | ended x _ => x

def gathered : Receiving → List Bytes
  | ended _ messages => messages
  | _ => []

def heard : Receiving → Except LinkError Bytes → Receiving
  | listening x, .ok buffer => taken x buffer
  | listening x, .error .timeout => listening x
  | listening x, .error _ => ended x []
  | stage, _ => stage

def noted : Receiving → Receiving
  | taken x buffer => match x.onBuffer buffer with
    | .ok (step, x) => replying step x
    | .error _ => ended x []
  | completing x => ended x [x.buffer]
  | stage => stage

def replied : Receiving → Except LinkError Nat → Receiving
  | replying step x, .ok n =>
    if n = step.reply.encode.length then match step.outcome with
      | .proceed => listening x
      | .complete => completing x
      | .switched _ => ended x []
    else ended x []
  | replying _ x, .error _ => ended x []
  | stage, _ => stage

@[simp] theorem gathered_noted_taken (x : Exchange) (buffer : Bytes) :
    (noted (taken x buffer)).gathered = [] := by
  cases h : x.onBuffer buffer <;> simp [noted, h, gathered]

@[simp] theorem gathered_replied (stage : Receiving) (answer : Except LinkError Nat) :
    (stage.replied answer).gathered = stage.gathered := by
  match stage, answer with
  | replying step x, .ok n =>
    by_cases hn : n = step.reply.encode.length
    · simp only [replied, if_pos hn]
      cases step.outcome <;> rfl
    · simp only [replied, if_neg hn, gathered]
  | replying _ _, .error _ => rfl
  | listening _, _ | taken _ _, _ | completing _, _ | ended _ _, _ => rfl

def allows (capacity : Nat) (limited : Prop) : Receiving → Request → Prop
  | listening _, .read room _ => room = capacity
  | listening _, .now => limited
  | taken _ buffer, .note notice => notice = .consumed buffer
  | replying step _, .write bytes _ => bytes = step.reply.encode
  | completing x, .note notice => notice = .completed x.buffer
  | _, _ => False

section

variable {capacity : Nat} {limited : Prop} {stage : Receiving}

theorem allows_read {room : Nat} {timeout : Millis}
    (h : allows capacity limited stage (.read room timeout)) :
    ∃ x, stage = listening x ∧ room = capacity := by
  cases stage with
  | listening x => exact ⟨x, rfl, h⟩
  | taken | replying | completing | ended => exact h.elim

theorem allows_write {bytes : Bytes} {timeout : Millis}
    (h : allows capacity limited stage (.write bytes timeout)) :
    ∃ step x, stage = replying step x ∧ bytes = step.reply.encode := by
  cases stage with
  | replying step x => exact ⟨step, x, rfl, h⟩
  | listening | taken | completing | ended => exact h.elim

theorem allows_note {notice : Notice} (h : allows capacity limited stage (.note notice)) :
    (∃ x buffer, stage = taken x buffer ∧ notice = .consumed buffer) ∨
      ∃ x, stage = completing x ∧ notice = .completed x.buffer := by
  cases stage with
  | taken x buffer => exact .inl ⟨x, buffer, rfl, h⟩
  | completing x => exact .inr ⟨x, rfl, h⟩
  | listening | replying | ended => exact h.elim

end

def contract (capacity : Nat) (limited : Prop) : Contract Receiving where
  permits := allows capacity limited
  mayLoop stage := ∃ x, stage = listening x
  next stage
    | .read _ _ => stage.heard
    | .write _ _ => stage.replied
    | .note _ => fun _ => stage.noted
    | .now => fun _ => stage

def Ended (limited : Prop) (stage : Receiving) (x : Exchange) : Except Error Received → Prop
  | .ok .message => stage = ended x [x.buffer]
  | .ok (.switched _) => stage = ended x []
  | .error _ => stage = ended x [] ∨ stage = listening x ∧ limited

end Receiving

namespace Exchange

theorem pending_of_onBuffer {x x' : Exchange} {buffer : Bytes} {step : Step}
    (h : x.onBuffer buffer = .ok (step, x')) : x'.pending = x.pending := by
  rcases onBuffer_eq_ok_iff.1 h with ⟨-, hrefused⟩ | ⟨-, frame, -, hstep⟩
  · cases hrefused
    rfl
  · rw [← pending_onFrame x frame, hstep]

end Exchange

namespace Reception

open Dialog

variable {capacity : Nat} {limited : Prop} {held : List Bytes}

def RoundEnds (limited : Prop) (held : List Bytes) (stage : Receiving) :
    Reception ⊕ Reception.End → Prop
  | .inl r => stage = .listening r.exchange ∧ r.exchange.pending = held
  | .inr (result, r) => stage.Ended limited r.exchange result ∧ r.exchange.pending = held

theorem honours_conclude (r : Reception) (hp : r.exchange.pending = held) (step : Step) :
    Honours (Receiving.contract capacity limited) (RoundEnds limited held)
      ((Receiving.replying step r.exchange).replied (.ok step.reply.encode.length))
      (r.conclude step.outcome) := by
  simp only [Receiving.replied, if_pos]
  cases step.outcome with
  | proceed => exact honours_pure ⟨rfl, hp⟩
  | complete => exact honours_ask rfl fun _ => honours_pure ⟨rfl, hp⟩
  | switched mode => exact honours_pure ⟨rfl, hp⟩

theorem honours_take (r : Reception) (hp : r.exchange.pending = held) (replyTimeout : Millis)
    (buffer : Bytes) :
    Honours (Receiving.contract capacity limited) (RoundEnds limited held)
      (.taken r.exchange buffer) (r.take replyTimeout buffer) := by
  apply honours_ask rfl
  intro _
  simp only [pure_bind, monad_bind, monad_pure, Receiving.contract, Receiving.noted]
  cases hx : r.exchange.onBuffer buffer with
  -- An intact buffer that is no frame ends the loop without a reply.
  | error e => exact honours_pure ⟨.inl rfl, hp⟩
  | ok made =>
    obtain ⟨step, x⟩ := made
    have hx' := (Exchange.pending_of_onBuffer hx).trans hp
    apply honours_ask rfl
    intro answer
    match answer with
    | .error e => exact honours_pure ⟨.inl rfl, hx'⟩
    | .ok n =>
      simp only [pure_bind, monad_pure]
      by_cases hn : n = step.reply.encode.length
      · rw [if_pos hn]
        subst hn
        exact honours_conclude ⟨x, _⟩ hx' step
      · rw [if_neg hn]
        refine honours_pure ⟨.inl ?_, hx'⟩
        simp only [Receiving.replied, if_neg hn]

theorem honours_round {deadline : Deadline} (hd : deadline.expiry ≠ none → limited)
    (r : Reception) (hp : r.exchange.pending = held) (replyTimeout : Millis) :
    Honours (Receiving.contract capacity limited) (RoundEnds limited held)
      (.listening r.exchange) (round capacity replyTimeout deadline r) := by
  apply Honours.bind (honours_hasExpired id (fun _ => rfl) hd)
  intro stage expired hends
  obtain ⟨rfl, he⟩ := hends
  cases expired with
  | true => exact honours_pure ⟨.inr ⟨rfl, he rfl⟩, hp⟩
  | false =>
    have hleft : Honours (Receiving.contract capacity limited)
        (fun stage _ => stage = .listening r.exchange) (.listening r.exchange)
        (deadline.consult deadline.remaining) :=
      honours_consult id (fun _ => rfl) hd fun _ => rfl
    apply hleft.bind
    rintro stage timeout rfl
    apply honours_ask rfl
    intro answer
    match answer with
    | .ok buffer => exact honours_take r hp replyTimeout buffer
    -- A wait that times out leads back to listening.
    | .error .timeout => exact honours_pure ⟨rfl, hp⟩
    | .error .closed | .error (.system _) => exact honours_pure ⟨.inl rfl, hp⟩

theorem honours_receive {deadline : Deadline} (hd : deadline.expiry ≠ none → limited)
    (r : Reception) (hp : r.exchange.pending = held) (replyTimeout : Millis) :
    Honours (Receiving.contract capacity limited)
      (fun stage finish => stage.Ended limited finish.2.exchange finish.1 ∧
        finish.2.exchange.pending = held)
      (.listening r.exchange) (receive capacity replyTimeout deadline r) := by
  -- The invariant of the loop: it listens, with the exchange it has, and holds what it held.
  refine honours_iterate
    (fun stage r => stage = .listening r.exchange ∧ r.exchange.pending = held) ?_ ?_ ⟨rfl, hp⟩
  · intro _ r heq
    obtain ⟨rfl, -⟩ := heq
    exact ⟨_, rfl⟩
  · intro _ r hends
    obtain ⟨rfl, hr⟩ := hends
    apply (honours_round hd r hr replyTimeout).mono
    intro stage finish h
    cases finish with
    | inl r => exact h
    | inr finish => exact h

end Reception

namespace Engine

open Dialog

def receiving (e : Engine) : Receiving :=
  if e.exchange.pending = [] then .listening (e.exchange.reset.withMode .receiver)
  else .ended e.exchange []

def received (e : Engine) (room : Nat) : Reception.End → End Delivery
  | (.error error, r) => (.error error.whileReading, { e with exchange := r.exchange }.reset)
  | (.ok (.switched _), r) =>
    (.ok .handover, { e with exchange := r.exchange, lastReceive := some r.metrics }.reset)
  | (.ok .message, r) =>
    finish Error.whileReading
      ((r.exchange.deliver room).1.map .message,
        { e with exchange := (r.exchange.deliver room).2, lastReceive := some r.metrics })

/-- A read of an engine that may receive and holds nothing: it runs the receive loop. -/
theorem read_eq (e : Engine) (he : e.mode ≠ .sender) (hp : e.exchange.pending = []) (room : Nat)
    (limit : Millis) :
    e.read room limit = (Deadline.start limit).bind fun deadline =>
      (Reception.receive e.config.send.mtu e.config.receive.replyTimeout deadline
        ⟨e.exchange.reset.withMode .receiver, {}⟩).bind
        fun finish => .pure (e.received room finish) := by
  have hm : e.reset.mode = .receiver ∨ e.reset.mode = .undefined := by
    change e.mode = _ ∨ e.mode = _
    cases h : e.mode <;> simp_all
  simp only [read_of_empty hp, readExchange, receive, resolveMode_eq_pure _ hm, monad_bind,
    monad_pure, Dialog.pure_bind, Dialog.bind_assoc]
  congr 1
  funext deadline
  congr 1
  funext finish
  obtain ⟨result, r⟩ := finish
  match result with
  | .error error => rfl
  | .ok (.switched mode) => rfl
  | .ok .message => rfl

structure ReadEnded (config : Config) (held : List Bytes) (limited : Prop) (stage : Receiving)
    (finish : End Delivery) : Prop where
  settings : finish.2.config = config
  role : finish.2.mode = stage.exchange.mode
  account : held ++ stage.gathered = handed finish.1 ++ finish.2.exchange.pending
  stage : (∃ x messages, stage = .ended x messages) ∨ (∃ x, stage = .listening x) ∧ limited

/-- What a receive loop comes to is all handed out or held. -/
theorem readEnded_received (e : Engine) (room : Nat) {limited : Prop} {stage : Receiving}
    {result : Except Error Received} {r : Reception} (hs : stage.Ended limited r.exchange result)
    (hr : r.exchange.pending = []) :
    ReadEnded e.config [] limited stage (e.received room (result, r)) := by
  match result with
  | .error error =>
    rcases hs with rfl | ⟨rfl, hl⟩
    · exact ⟨rfl, rfl, by simp [received, reset, Receiving.gathered, handed, hr], .inl ⟨_, _, rfl⟩⟩
    · exact ⟨rfl, rfl, by simp [received, reset, Receiving.gathered, handed, hr],
        .inr ⟨⟨_, rfl⟩, hl⟩⟩
  | .ok (.switched mode) =>
    obtain rfl := hs
    exact ⟨rfl, rfl, by simp [received, reset, Receiving.gathered, handed, hr], .inl ⟨_, _, rfl⟩⟩
  | .ok .message =>
    obtain rfl := hs
    -- With room for the message it is handed out, without it is held.
    by_cases h : room < r.exchange.buffer.length
    · have hdeliver : r.exchange.deliver room =
          (.error (.bufferOverflow r.exchange.buffer.length room), r.exchange.stash) := by
        rw [Exchange.deliver_eq, if_pos h]
      simp only [received, hdeliver, finish]
      refine ⟨rfl, rfl, ?_, .inl ⟨_, _, rfl⟩⟩
      show [] ++ [r.exchange.buffer] = [] ++ (r.exchange.pending ++ [r.exchange.buffer])
      simp [hr]
    · have hdeliver : r.exchange.deliver room = (.ok r.exchange.buffer, r.exchange.reset) := by
        rw [Exchange.deliver_eq, if_neg h]
      simp only [received, hdeliver, finish]
      refine ⟨rfl, rfl, ?_, .inl ⟨_, _, rfl⟩⟩
      show [] ++ [r.exchange.buffer] = [r.exchange.buffer] ++ r.exchange.pending
      simp [hr]

theorem honours_read (e : Engine) (he : e.mode ≠ .sender) (room : Nat) (limit : Millis) :
    Honours (Receiving.contract e.config.send.mtu (limit ≠ Millis.unlimited))
      (ReadEnded e.config e.exchange.pending (limit ≠ Millis.unlimited)) e.receiving
      (e.read room limit) := by
  unfold receiving
  cases hp : e.exchange.pending with
  | nil =>
    rw [e.read_eq he hp, if_pos rfl]
    apply Honours.bind (honours_start id (fun _ => rfl) id)
    intro stage deadline hends
    obtain ⟨rfl, hd⟩ := hends
    apply Honours.bind
      (Reception.honours_receive hd ⟨e.exchange.reset.withMode .receiver, {}⟩ hp _)
    intro stage finish hends
    obtain ⟨hs, hr⟩ := hends
    exact honours_pure (e.readEnded_received room hs hr)
  | cons message rest =>
    -- A held message is handed out, or stays held, without a request.
    rw [read_of_pending hp, if_neg (List.cons_ne_nil message rest)]
    by_cases h : room < message.length
    · rw [if_pos h]
      exact honours_pure ⟨rfl, rfl, by simp [Receiving.gathered, handed, hp],
        .inl ⟨_, _, rfl⟩⟩
    · rw [if_neg h]
      exact honours_pure ⟨rfl, rfl, by simp [Receiving.gathered, handed],
        .inl ⟨_, _, rfl⟩⟩

end Engine

end StopAndWait
