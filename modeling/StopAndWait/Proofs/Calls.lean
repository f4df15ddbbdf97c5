import StopAndWait.Proofs.Performance
import StopAndWait.Proofs.Receiving

namespace StopAndWait

open Dialog

namespace Transmission

variable {now : Instant} {frame : Bytes} {policy : RetryPolicy} {deadline : Deadline}
  {moves : List Move}

theorem performs_answered (bytes : Bytes) (timeout : Millis) :
    Performs now (attempt frame timeout) [.sends frame, .gets bytes]
      (.pure (Sending.acked (.ok (bytes.take verdictCapacity)))) := by
  apply Performs.sends rfl
  simp only [Dialog.pure_bind, monad_bind, monad_pure, if_pos]
  apply Performs.gets bytes rfl
  exact .refl _

theorem performs_unanswered (timeout : Millis) :
    Performs now (attempt frame timeout) [.sends frame, .misses] (.pure false) := by
  apply Performs.sends rfl
  simp only [Dialog.pure_bind, monad_bind, monad_pure, if_pos]
  apply Performs.misses rfl
  exact .refl _

theorem performs_attempts (policy : RetryPolicy) {answered : Bool} (allowed : Nat)
    (r : Retransmission)
    (hd : deadline.isExpired now = false)
    (h : ∀ timeout, Performs now (attempt frame timeout) moves (.pure answered)) :
    Performs now (attempts frame policy deadline (allowed + 1) r) moves
      (if answered then .pure (.ok r.record.attempt)
        else attempts frame policy deadline allowed r.record) := by
  have hexp := performs_hasExpired deadline now
  rw [hd] at hexp
  obtain ⟨time, hclamp⟩ := performs_consult deadline now (deadline.clamp (r.nextTimeout policy))
  have hattempt := h (deadline.clamp (r.nextTimeout policy) time)
  apply hexp.silently
  apply hclamp.silently
  -- The rest of the attempts hangs on what the first one brings.
  have hend := hattempt.bind fun answered =>
    if answered then .pure (.ok r.record.attempt)
      else attempts frame policy deadline allowed r.record
  exact hend

/-- An attempt that a reply comes to. The room for a verdict does not cut it. -/
theorem performs_verdict (policy : RetryPolicy) (allowed : Nat) (r : Retransmission)
    (hd : deadline.isExpired now = false) (reply : Control) :
    Performs now (attempts frame policy deadline (allowed + 1) r)
      [.sends frame, .gets reply.encode]
      (if reply == .ack then .pure (.ok r.record.attempt)
        else attempts frame policy deadline allowed r.record) := by
  have hroom : Frame.controlSize ≤ verdictCapacity := by decide
  have hattempt : ∀ timeout, Performs now (attempt frame timeout)
      [.sends frame, .gets reply.encode] (.pure (reply == .ack)) := by
    intro timeout
    rw [← Sending.acked_encode hroom reply]
    exact performs_answered reply.encode timeout
  exact performs_attempts policy allowed r hd hattempt

theorem performs_expired (allowed : Nat) (r : Retransmission) (hd : deadline.isExpired now = true) :
    Performs now (attempts frame policy deadline allowed r) [] (.pure (.error .timeout)) := by
  have hexp := performs_hasExpired deadline now
  rw [hd] at hexp
  cases allowed with
  | zero => exact hexp.silently (.refl _)
  | succ allowed => exact hexp.silently (.refl _)

theorem performs_spent (now : Instant) (frame : Bytes) (policy : RetryPolicy) (deadline : Deadline)
    (r : Retransmission) :
    ∃ e, Performs now (attempts frame policy deadline 0 r) [] (.pure (.error e)) := by
  have hexp := performs_hasExpired deadline now
  cases hd : deadline.isExpired now with
  | true =>
    rw [hd] at hexp
    exact ⟨_, hexp.silently (.refl _)⟩
  | false =>
    rw [hd] at hexp
    exact ⟨_, hexp.silently (.refl _)⟩

end Transmission

namespace Reception

variable {now : Instant} {capacity : Nat} {replyTimeout : Millis} {deadline : Deadline}

theorem performs_take (r : Reception) {buffer : Bytes} {step : Step} {x : Exchange}
    (hx : r.exchange.onBuffer buffer = .ok (step, x)) :
    Performs now (r.take replyTimeout buffer)
      [.notes (.consumed buffer), .sends step.reply.encode]
      (conclude ⟨x, r.metrics.countFrame.countReply step.reply⟩ step.outcome) := by
  apply Performs.notes rfl
  simp only [Dialog.pure_bind, monad_bind, monad_pure, hx]
  apply Performs.sends rfl
  simp only [Dialog.pure_bind, monad_pure, if_pos]
  exact .refl _

theorem performs_round (r : Reception) (buffer : Bytes) (hd : deadline.isExpired now = false) :
    Performs now (round capacity replyTimeout deadline r) [.gets buffer]
      (r.take replyTimeout (buffer.take capacity)) := by
  have hexp := performs_hasExpired deadline now
  rw [hd] at hexp
  obtain ⟨time, hleft⟩ := performs_consult deadline now deadline.remaining
  apply hexp.silently
  apply hleft.silently
  apply Performs.gets buffer rfl
  exact .refl _

theorem performs_proceed (replyTimeout : Millis) (r : Reception) {buffer : Bytes}
    {reply : Control} {x : Exchange}
    (hd : deadline.isExpired now = false)
    (hx : r.exchange.onBuffer (buffer.take capacity) = .ok (⟨reply, .proceed⟩, x)) :
    Performs now (round capacity replyTimeout deadline r)
      [.gets buffer, .notes (.consumed (buffer.take capacity)), .sends reply.encode]
      (.pure (.inl ⟨x, r.metrics.countFrame.countReply reply⟩)) :=
  (performs_round r buffer hd).trans (performs_take r hx)

theorem performs_complete (replyTimeout : Millis) (r : Reception) {buffer : Bytes}
    {reply : Control} {x : Exchange}
    (hd : deadline.isExpired now = false)
    (hx : r.exchange.onBuffer (buffer.take capacity) = .ok (⟨reply, .complete⟩, x)) :
    ∃ metrics, Performs now (round capacity replyTimeout deadline r)
      [.gets buffer, .notes (.consumed (buffer.take capacity)), .sends reply.encode,
        .notes (.completed x.buffer)]
      (.pure (.inr (.ok .message, ⟨x, metrics⟩))) := by
  let r' : Reception := ⟨x, r.metrics.countFrame.countReply reply⟩
  have htaken : Performs now (r.take replyTimeout (buffer.take capacity))
      [.notes (.consumed (buffer.take capacity)), .sends reply.encode] (r'.conclude .complete) :=
    performs_take r hx
  -- The reply is out; the whole message is entered after it.
  have hnote : Performs now (r'.conclude .complete) [.notes (.completed x.buffer)]
      (.pure (.inr (.ok .message, { r' with metrics.bytes := x.buffer.length }))) :=
    .notes rfl (.refl _)
  exact ⟨_, (performs_round r buffer hd).trans (htaken.trans hnote)⟩

theorem performs_switched (replyTimeout : Millis) (r : Reception) {buffer : Bytes}
    {reply : Control} {mode : Mode} {x : Exchange} (hd : deadline.isExpired now = false)
    (hx : r.exchange.onBuffer (buffer.take capacity) = .ok (⟨reply, .switched mode⟩, x)) :
    ∃ metrics, Performs now (round capacity replyTimeout deadline r)
      [.gets buffer, .notes (.consumed (buffer.take capacity)), .sends reply.encode]
      (.pure (.inr (.ok (.switched mode), ⟨x, metrics⟩))) :=
  ⟨_, (performs_round r buffer hd).trans (performs_take r hx)⟩

theorem performs_timeout (r : Reception) (hd : deadline.isExpired now = true) :
    Performs now (round capacity replyTimeout deadline r) [] (.pure (.inr (.error .timeout, r))) := by
  have hexp := performs_hasExpired deadline now
  rw [hd] at hexp
  exact hexp.silently (.refl _)

end Reception

namespace Engine

def sendingOn (e : Engine) (message : Bytes) (deadline : Deadline) (frames : List Frame)
    (metrics : TransmitMetrics) : Dialog (End Nat) :=
  (Transmission.sendFrames e.config.send.retry deadline frames metrics).bind fun result =>
    .pure (e.sent message result)

def retryingOn (e : Engine) (message : Bytes) (deadline : Deadline) (frame : Frame)
    (rest : List Frame) (metrics : TransmitMetrics) (allowed : Nat) (r : Retransmission) :
    Dialog (End Nat) :=
  (Transmission.attempts frame.encode e.config.send.retry deadline allowed r).bind fun
    | .error error => .pure (e.sent message (.error error))
    | .ok count => e.sendingOn message deadline rest (metrics.count frame count)

def readingOn (e : Engine) (room : Nat) (deadline : Deadline) (r : Reception) :
    Dialog (End Delivery) :=
  (Reception.receive e.config.send.mtu e.config.receive.replyTimeout deadline r).bind fun finish =>
    .pure (e.received room finish)

variable {now : Instant} {e : Engine} {message : Bytes} {deadline : Deadline} {frame : Frame}
  {rest : List Frame} {metrics : TransmitMetrics} {moves : List Move} {r : Reception} {x : Exchange}
  {allowed : Nat} {t : Retransmission}

theorem performs_write (he : e.mode ≠ .receiver) (limit : Millis) :
    Performs now (e.write message limit) []
      (e.sendingOn message (.after limit now) (plan message e.config.capacity) {}) := by
  rw [e.write_eq he]
  exact (performs_start limit now).silently (.refl _)

theorem performs_read (he : e.mode ≠ .sender) (hp : e.exchange.pending = []) (room : Nat)
    (limit : Millis) :
    Performs now (e.read room limit) []
      (e.readingOn room (.after limit now) ⟨e.exchange.reset.withMode .receiver, {}⟩) := by
  rw [e.read_eq he hp]
  exact (performs_start limit now).silently (.refl _)

theorem sendingOn_cons (e : Engine) (message : Bytes) (deadline : Deadline) (frame : Frame)
    (rest : List Frame) (metrics : TransmitMetrics) :
    e.sendingOn message deadline (frame :: rest) metrics =
      e.retryingOn message deadline frame rest metrics e.config.send.retry.maxAttempts.toNat {} := by
  unfold sendingOn retryingOn
  simp only [Transmission.sendFrames, Transmission.sendFrame, monad_bind, Dialog.bind_assoc]
  congr 1
  funext result
  -- A frame that fails ends the write, as it ends the sending.
  cases result with
  | ok count => rfl
  | error error => rfl

theorem performs_replied (hd : deadline.isExpired now = false) (reply : Control) :
    Performs now (e.retryingOn message deadline frame rest metrics (allowed + 1) t)
      [.sends frame.encode, .gets reply.encode]
      (if reply = .ack then
          e.sendingOn message deadline rest (metrics.count frame t.record.attempt)
        else e.retryingOn message deadline frame rest metrics allowed t.record) := by
  have hbind : Performs now (e.retryingOn message deadline frame rest metrics (allowed + 1) t) _ _ :=
    (Transmission.performs_verdict e.config.send.retry allowed t hd reply).bind _
  cases reply <;> exact hbind

theorem performs_missed (hd : deadline.isExpired now = false) :
    Performs now (e.retryingOn message deadline frame rest metrics (allowed + 1) t)
      [.sends frame.encode, .misses]
      (e.retryingOn message deadline frame rest metrics allowed t.record) :=
  (Transmission.performs_attempts e.config.send.retry allowed t hd
    Transmission.performs_unanswered).bind _

theorem performs_outOfTime (hd : deadline.isExpired now = true) :
    Performs now (e.retryingOn message deadline frame rest metrics allowed t) []
      (.pure (e.sent message (.error .timeout))) :=
  (Transmission.performs_expired allowed t hd).bind _

theorem performs_givenUp :
    ∃ error, Performs now (e.retryingOn message deadline frame rest metrics 0 t) []
      (.pure (e.sent message (.error error))) := by
  obtain ⟨error, h⟩ := Transmission.performs_spent now frame.encode e.config.send.retry deadline t
  exact ⟨error, h.bind _⟩

theorem performs_exchange (room : Nat) {buffer : Bytes} {reply : Control}
    (hd : deadline.isExpired now = false)
    (hx : r.exchange.onBuffer (buffer.take e.config.send.mtu) = .ok (⟨reply, .proceed⟩, x)) :
    ∃ metrics', Performs now (e.readingOn room deadline r)
      [.gets buffer, .notes (.consumed (buffer.take e.config.send.mtu)), .sends reply.encode]
      (e.readingOn room deadline ⟨x, metrics'⟩) :=
  ⟨r.metrics.countFrame.countReply reply,
    performs_again (Reception.performs_proceed e.config.receive.replyTimeout r hd hx)⟩

theorem performs_whole {room : Nat} {buffer : Bytes} {reply : Control}
    (hd : deadline.isExpired now = false)
    (hx : r.exchange.onBuffer (buffer.take e.config.send.mtu) = .ok (⟨reply, .complete⟩, x))
    (hroom : x.buffer.length ≤ room) :
    ∃ metrics', Performs now (e.readingOn room deadline r)
      [.gets buffer, .notes (.consumed (buffer.take e.config.send.mtu)), .sends reply.encode,
        .notes (.completed x.buffer)]
      (.pure (.ok (.message x.buffer),
        { e with exchange := x.reset, lastReceive := some metrics' })) := by
  obtain ⟨m, h⟩ := Reception.performs_complete e.config.receive.replyTimeout r hd hx
  -- There is room, so the message is handed out and not held.
  have hdeliver : x.deliver room = (.ok x.buffer, x.reset) := by
    rw [Exchange.deliver_eq, if_neg (by omega)]
  have hend : e.received room (.ok .message, ⟨x, m⟩) = (.ok (.message x.buffer),
      { e with exchange := x.reset, lastReceive := some m }) := by
    simp only [received, hdeliver, finish]
    rfl
  refine ⟨m, ?_⟩
  have hlast : Performs now (e.readingOn room deadline r) _
      (.pure (e.received room (.ok .message, ⟨x, m⟩))) := performs_last h
  rw [hend] at hlast
  exact hlast

theorem performs_handover (room : Nat) {buffer : Bytes} {reply : Control} {mode : Mode}
    (hd : deadline.isExpired now = false)
    (hx : r.exchange.onBuffer (buffer.take e.config.send.mtu) = .ok (⟨reply, .switched mode⟩, x)) :
    ∃ metrics', Performs now (e.readingOn room deadline r)
      [.gets buffer, .notes (.consumed (buffer.take e.config.send.mtu)), .sends reply.encode]
      (.pure (.ok .handover,
        { e with exchange := x.reset, lastReceive := some metrics' })) := by
  obtain ⟨m, h⟩ := Reception.performs_switched e.config.receive.replyTimeout r hd hx
  exact ⟨m, performs_last h⟩

def requestingOn (e : Engine) (request : Control) (role : Mode) (deadline : Deadline)
    (allowed : Nat) (r : Retransmission) : Dialog (End Unit) :=
  (Transmission.attempts request.encode e.config.send.retry deadline allowed r).bind fun
    | .error error => .pure (.error error, e.reset)
    | .ok _ => .pure (.ok (), e.reset.withMode role)

variable {request : Control} {role : Mode}

theorem performs_requestSwitch (e : Engine) (request : Control) (role : Mode) (limit : Millis) :
    Performs now (e.requestSwitch request role limit) []
      (e.requestingOn request role (.after limit now) e.config.send.retry.maxAttempts.toNat {}) :=
  (performs_start limit now).silently (.refl _)

theorem performs_granted (hd : deadline.isExpired now = false) :
    Performs now (e.requestingOn request role deadline (allowed + 1) t)
      [.sends request.encode, .gets Control.ack.encode]
      (.pure (.ok (), e.reset.withMode role)) :=
  (Transmission.performs_verdict e.config.send.retry allowed t hd .ack).bind _

theorem performs_ungranted (hd : deadline.isExpired now = false) :
    Performs now (e.requestingOn request role deadline (allowed + 1) t)
      [.sends request.encode, .misses] (e.requestingOn request role deadline allowed t.record) :=
  (Transmission.performs_attempts e.config.send.retry allowed t hd
    Transmission.performs_unanswered).bind _

theorem performs_requestExpired (hd : deadline.isExpired now = true) :
    Performs now (e.requestingOn request role deadline allowed t) []
      (.pure (.error .timeout, e.reset)) :=
  (Transmission.performs_expired allowed t hd).bind _

end Engine

end StopAndWait
