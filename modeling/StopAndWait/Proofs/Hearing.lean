import StopAndWait.Proofs.Receiving
import StopAndWait.Proofs.Transcript

namespace StopAndWait

namespace Exchange

variable {x y : Exchange} {buffer : Bytes} {reply : Control} {outcome : Outcome}

/-- A buffer is acknowledged, or refused without effect. -/
theorem ack_or_nack_of_onBuffer (h : x.onBuffer buffer = .ok (⟨reply, outcome⟩, y)) :
    reply = .ack ∨ reply = .nack ∧ outcome = .proceed ∧ y = x := by
  rcases onBuffer_eq_ok_iff.1 h with ⟨-, hrefused⟩ | ⟨-, frame, -, hstep⟩
  · cases hrefused
    exact .inr ⟨rfl, rfl, rfl⟩
  · revert hstep
    fun_cases onFrame x frame <;> grind [onSwitch, onData, Step.ack, Step.nack]

theorem error_of_onBuffer {e : Error} (h : x.onBuffer buffer = .error e) :
    e = .invalidFrame buffer.length := by
  unfold onBuffer onBytes Frame.decode at h
  split at h
  · split at h
    · cases h
    · cases h; rfl
  · cases h

/-- The buffers, each of them acknowledged, make up the whole message from here on. -/
inductive Assembles : Exchange → List Bytes → Bytes → Prop
  | last {x y : Exchange} {buffer : Bytes}
    (step : x.onBuffer buffer = .ok (.ack .complete, y)) : Assembles x [buffer] y.buffer
  | more {x y : Exchange} {buffer message : Bytes} {rest : List Bytes}
    (step : x.onBuffer buffer = .ok (.ack .proceed, y)) (later : Assembles y rest message) :
    Assembles x (buffer :: rest) message

end Exchange

def acknowledged : List Turn → List Bytes
  | .read _ _ (.ok buffer) :: .note (.consumed _) :: .write bytes _ (.ok n) :: log =>
    if bytes = Control.ack.encode ∧ n = bytes.length then buffer :: acknowledged log
    else acknowledged log
  | _ :: log => acknowledged log
  | [] => []

def completed : List Turn → List Bytes
  | [] => []
  | .note notice :: log => Notice.whole (some notice) ++ completed log
  | _ :: log => completed log

theorem completed_append (log log' : List Turn) :
    completed (log ++ log') = completed log ++ completed log' := by
  induction log with
  | nil => rfl
  | cons turn log ih => cases turn <;> simp [completed, ih]

theorem completed_eq_nil {log : List Turn} (h : ∀ notice, .note notice ∉ log) :
    completed log = [] := by
  induction log with
  | nil => rfl
  | cons turn log ih =>
    have hlog : completed log = [] := ih fun notice hn => h notice (List.mem_cons_of_mem _ hn)
    cases turn with
    | note notice => exact absurd List.mem_cons_self (h notice)
    | read | write | now => exact hlog

def Control.fault? (reply : Control) : Except LinkError Nat → Option TransferFault
  | .error e => some (.replyNotWritten reply e)
  | .ok n => if n = reply.encode.length then none else some (.replyCutShort reply n)

@[simp] theorem Control.fault?_eq_none_iff {reply : Control} {written : Except LinkError Nat} :
    reply.fault? written = none ↔ written = .ok reply.encode.length := by
  cases written with
  | error e => simp [fault?]
  | ok n =>
    rw [fault?, ite_eq_left_iff, Except.ok.injEq]
    simp

theorem Control.ne_whole_of_fault {reply : Control} {written : Except LinkError Nat}
    {fault : TransferFault} (short : reply.fault? written = some fault) :
    written ≠ .ok reply.encode.length := by
  intro hw
  rw [fault?_eq_none_iff.2 hw] at short
  cases short

namespace Reception

open Dialog

variable {capacity : Nat} {replyTimeout : Millis} {deadline : Deadline}

def heard (r : Reception) (x : Exchange) : Reception := ⟨x, r.metrics.countFrame⟩

def answered (r : Reception) (x : Exchange) (reply : Control) : Reception :=
  ⟨x, r.metrics.countFrame.countReply reply⟩

def gauged (r : Reception) : Reception := { r with metrics.bytes := r.exchange.buffer.length }

inductive Taken (r : Reception) (buffer : Bytes) :
    Option (Control × Except LinkError Nat) → Reception ⊕ End → Prop
  | malformed {e : Error} (step : r.exchange.onBuffer buffer = .error e) :
    Taken r buffer none (.inr (.error e, r.heard r.exchange))
  | unanswered {x : Exchange} {reply : Control} {outcome : Outcome}
    {written : Except LinkError Nat} {fault : TransferFault}
    (step : r.exchange.onBuffer buffer = .ok (⟨reply, outcome⟩, x))
    (short : reply.fault? written = some fault) :
    Taken r buffer (some (reply, written)) (.inr (.error (.readFailed fault), r.heard x))
  | proceed {x : Exchange} {reply : Control}
    (step : r.exchange.onBuffer buffer = .ok (⟨reply, .proceed⟩, x)) :
    Taken r buffer (some (reply, .ok reply.encode.length)) (.inl (r.answered x reply))
  | complete {x : Exchange} {reply : Control}
    (step : r.exchange.onBuffer buffer = .ok (⟨reply, .complete⟩, x)) :
    Taken r buffer (some (reply, .ok reply.encode.length))
      (.inr (.ok .message, (r.answered x reply).gauged))
  | switched {x : Exchange} {reply : Control} {mode : Mode}
    (step : r.exchange.onBuffer buffer = .ok (⟨reply, .switched mode⟩, x)) :
    Taken r buffer (some (reply, .ok reply.encode.length))
      (.inr (.ok (.switched mode), (r.answered x reply).gauged))

def replying (replyTimeout : Millis) (reply : Option (Control × Except LinkError Nat)) :
    List Turn :=
  (reply.map fun (kind, written) => .write kind.encode replyTimeout written).toList

def closing : Reception ⊕ End → List Turn
  | .inr (.ok .message, r) => [.note (.completed r.exchange.buffer)]
  | _ => []

theorem yields_send {reply : Control} {log : List Turn} {result : Except Error Unit}
    (h : (reply.send replyTimeout).Yields log result) :
    ∃ written, log = [.write reply.encode replyTimeout written] ∧
      ((∃ fault, reply.fault? written = some fault ∧ result = .error (.writeFailed fault)) ∨
        written = .ok reply.encode.length ∧ result = .ok ()) := by
  obtain ⟨written, rest, rfl, hwrite⟩ := yields_ask.1 h
  match written with
  | .error e =>
    obtain ⟨rfl, rfl⟩ := yields_pure.1 hwrite
    exact ⟨.error e, rfl, .inl ⟨_, rfl, rfl⟩⟩
  | .ok n =>
    simp only [Dialog.pure_bind] at hwrite
    by_cases hn : n = reply.encode.length
    · rw [if_pos hn] at hwrite
      obtain ⟨rfl, rfl⟩ := yields_pure.1 hwrite
      exact ⟨.ok n, rfl, .inr ⟨congrArg _ hn, rfl⟩⟩
    · rw [if_neg hn] at hwrite
      obtain ⟨rfl, rfl⟩ := yields_pure.1 hwrite
      exact ⟨.ok n, rfl, .inl ⟨_, if_neg hn, rfl⟩⟩

/-- A buffer is entered in the journal, then answered, and a whole message is entered as well. -/
theorem taken_of_yields {r : Reception} {buffer : Bytes} {log : List Turn}
    {out : Reception ⊕ End} (h : (r.take replyTimeout buffer).Yields log out) :
    ∃ reply, r.Taken buffer reply out ∧
      log = .note (.consumed buffer) :: replying replyTimeout reply ++ closing out := by
  obtain ⟨_, rest, rfl, hnote⟩ := yields_ask.1 h
  simp only [Dialog.pure_bind, monad_bind, monad_pure] at hnote
  cases hx : r.exchange.onBuffer buffer with
  | error e =>
    rw [hx] at hnote
    obtain ⟨rfl, rfl⟩ := yields_pure.1 hnote
    exact ⟨none, .malformed hx, rfl⟩
  | ok made =>
    obtain ⟨⟨reply, outcome⟩, x⟩ := made
    rw [hx] at hnote
    obtain ⟨sent, first, second, rfl, hsend, hend⟩ := yields_bind.1 hnote
    obtain ⟨written, rfl, ⟨fault, hfault, rfl⟩ | ⟨rfl, rfl⟩⟩ := yields_send hsend
    · obtain ⟨rfl, rfl⟩ := yields_pure.1 hend
      exact ⟨_, .unanswered hx hfault, rfl⟩
    · cases outcome with
      | proceed =>
        obtain ⟨rfl, rfl⟩ := yields_pure.1 hend
        exact ⟨_, .proceed hx, rfl⟩
      | complete =>
        obtain ⟨_, rest, rfl, hnoted⟩ := yields_ask.1 hend
        obtain ⟨rfl, rfl⟩ := yields_pure.1 hnoted
        exact ⟨_, .complete hx, rfl⟩
      | switched mode =>
        obtain ⟨rfl, rfl⟩ := yields_pure.1 hend
        exact ⟨_, .switched hx, rfl⟩

def answering (capacity : Nat) (timeout : Millis) (buffer : Bytes) (reply : Control)
    (replyTimeout : Millis) : List Turn :=
  [.read capacity timeout (.ok buffer), .note (.consumed buffer),
    .write reply.encode replyTimeout (.ok reply.encode.length)]

theorem acknowledged_ack (capacity : Nat) (timeout : Millis) (buffer : Bytes)
    (replyTimeout : Millis) (log : List Turn) :
    acknowledged (answering capacity timeout buffer .ack replyTimeout ++ log) =
      buffer :: acknowledged log :=
  if_pos ⟨rfl, rfl⟩

theorem acknowledged_nack (capacity : Nat) (timeout : Millis) (buffer : Bytes)
    (replyTimeout : Millis) (log : List Turn) :
    acknowledged (answering capacity timeout buffer .nack replyTimeout ++ log) =
      acknowledged log := by
  have hne : Control.nack.encode ≠ Control.ack.encode :=
    fun h => absurd (List.cons.inj h).1 (by decide)
  exact if_neg fun h => hne h.1

inductive Heard (capacity : Nat) (replyTimeout : Millis) (deadline : Deadline) :
    Exchange → List Turn → Except Error Received → Exchange → Prop
  | expired {x : Exchange} (limited : deadline.expiry ≠ none) :
    Heard capacity replyTimeout deadline x [] (.error .timeout) x
  | clock {x y : Exchange} {log : List Turn} {result : Except Error Received} (instant : Instant)
    (later : Heard capacity replyTimeout deadline x log result y) :
    Heard capacity replyTimeout deadline x (.now instant :: log) result y
  | missed {x y : Exchange} {log : List Turn} {result : Except Error Received} (timeout : Millis)
    (later : Heard capacity replyTimeout deadline x log result y) :
    Heard capacity replyTimeout deadline x (.read capacity timeout (.error .timeout) :: log) result
      y
  | broken {x : Exchange} (timeout : Millis) (e : LinkError) (real : e ≠ .timeout) :
    Heard capacity replyTimeout deadline x [.read capacity timeout (.error e)]
      (.error (.readFailed (.link e))) x
  -- An intact buffer that is no frame.
  | malformed {x : Exchange} {buffer : Bytes} {e : Error} (timeout : Millis)
    (step : x.onBuffer buffer = .error e) :
    Heard capacity replyTimeout deadline x
      [.read capacity timeout (.ok buffer), .note (.consumed buffer)] (.error e) x
  -- The reply could not be written as a whole.
  | unanswered {x y : Exchange} {buffer : Bytes} {reply : Control} {outcome : Outcome}
    {written : Except LinkError Nat} {fault : TransferFault} (timeout : Millis)
    (step : x.onBuffer buffer = .ok (⟨reply, outcome⟩, y))
    (short : written ≠ .ok reply.encode.length) :
    Heard capacity replyTimeout deadline x [.read capacity timeout (.ok buffer),
      .note (.consumed buffer), .write reply.encode replyTimeout written]
      (.error (.readFailed fault)) y
  | proceed {x y z : Exchange} {buffer : Bytes} {reply : Control} {log : List Turn}
    {result : Except Error Received} (timeout : Millis)
    (step : x.onBuffer buffer = .ok (⟨reply, .proceed⟩, y))
    (later : Heard capacity replyTimeout deadline y log result z) :
    Heard capacity replyTimeout deadline x
      (answering capacity timeout buffer reply replyTimeout ++ log) result z
  | switched {x y : Exchange} {buffer : Bytes} {reply : Control} {mode : Mode} (timeout : Millis)
    (step : x.onBuffer buffer = .ok (⟨reply, .switched mode⟩, y)) :
    Heard capacity replyTimeout deadline x
      (answering capacity timeout buffer reply replyTimeout) (.ok (.switched mode)) y
  | complete {x y : Exchange} {buffer : Bytes} {reply : Control} (timeout : Millis)
    (step : x.onBuffer buffer = .ok (⟨reply, .complete⟩, y)) :
    Heard capacity replyTimeout deadline x
      (answering capacity timeout buffer reply replyTimeout ++ [.note (.completed y.buffer)])
      (.ok .message) y

def RoundHeard (capacity : Nat) (replyTimeout : Millis) (deadline : Deadline) (x : Exchange)
    (log : List Turn) : Reception ⊕ Reception.End → Prop
  | .inl r => ∀ log' result y, Heard capacity replyTimeout deadline r.exchange log' result y →
    Heard capacity replyTimeout deadline x (log ++ log') result y
  | .inr (result, r) => Heard capacity replyTimeout deadline x log result r.exchange

theorem RoundHeard.clock {x : Exchange} {log : List Turn} {out : Reception ⊕ Reception.End}
    (h : RoundHeard capacity replyTimeout deadline x log out) (instant : Instant) :
    RoundHeard capacity replyTimeout deadline x (.now instant :: log) out := by
  cases out with
  | inl r => exact fun log' result y hl => .clock instant (h log' result y hl)
  | inr finish => exact Heard.clock instant h

/-- Asking the deadline shows only on the clock. -/
theorem RoundHeard.consult {α : Type} {x : Exchange} {first log : List Turn}
    {out : Reception ⊕ Reception.End} {question : Instant → α} {answer : α}
    (h : RoundHeard capacity replyTimeout deadline x log out)
    (hc : (deadline.consult question).Yields first answer) :
    RoundHeard capacity replyTimeout deadline x (first ++ log) out := by
  rcases yields_consult hc with ⟨-, rfl, -⟩ | ⟨instant, -, rfl, -⟩
  · exact h
  · exact h.clock instant

theorem Taken.roundHeard {r : Reception} {buffer : Bytes} {out : Reception ⊕ End}
    {reply : Option (Control × Except LinkError Nat)} (h : r.Taken buffer reply out)
    (timeout : Millis) :
    RoundHeard capacity replyTimeout deadline r.exchange (.read capacity timeout (.ok buffer) ::
      .note (.consumed buffer) :: replying replyTimeout reply ++ closing out) out := by
  cases h with
  | malformed step => exact .malformed timeout step
  | unanswered step short => exact .unanswered timeout step (Control.ne_whole_of_fault short)
  | proceed step => exact fun log' result z hl => .proceed timeout step hl
  | complete step => exact .complete timeout step
  | switched step => exact .switched timeout step

theorem yields_round {r : Reception} {log : List Turn} {out : Reception ⊕ Reception.End}
    (h : (round capacity replyTimeout deadline r).Yields log out) :
    RoundHeard capacity replyTimeout deadline r.exchange log out := by
  obtain ⟨expired, first, second, rfl, hexp, h⟩ := yields_bind.1 h
  cases expired with
  | true =>
    obtain ⟨rfl, rfl⟩ := yields_pure.1 h
    have hlimited : deadline.expiry ≠ none := by
      rcases yields_consult hexp with ⟨he, -, hans⟩ | ⟨instant, he, -, -⟩
      · simp [Deadline.isExpired, he] at hans
      · exact he
    have hend : RoundHeard capacity replyTimeout deadline r.exchange []
        (.inr (.error .timeout, r)) :=
      .expired hlimited
    exact hend.consult hexp
  | false =>
    obtain ⟨timeout, third, fourth, rfl, hleft, h⟩ := yields_bind.1 h
    refine RoundHeard.consult (RoundHeard.consult ?_ hleft) hexp
    obtain ⟨answer, rest, rfl, hread⟩ := yields_ask.1 h
    cases answer with
    | ok buffer =>
      obtain ⟨reply, htaken, rfl⟩ := taken_of_yields hread
      exact htaken.roundHeard timeout
    | error e =>
      cases e with
      | timeout =>
        obtain ⟨rfl, rfl⟩ := yields_pure.1 hread
        exact fun log' result y hl => .missed timeout hl
      | closed | system =>
        obtain ⟨rfl, rfl⟩ := yields_pure.1 hread
        exact .broken timeout _ (by simp)

/-- Every transcript of the receive loop is of this form. -/
theorem heard_of_yields {r r' : Reception} {log : List Turn} {result : Except Error Received}
    (h : (receive capacity replyTimeout deadline r).Yields log (result, r')) :
    Heard capacity replyTimeout deadline r.exchange log result r'.exchange := by
  refine yields_iterate (P := fun r log finish =>
    Heard capacity replyTimeout deadline r.exchange log finish.1 finish.2.exchange) ?_ ?_ h
  · intro r r' log log' finish hr hlater
    exact yields_round hr log' finish.1 finish.2.exchange hlater
  · intro r log finish hr
    exact yields_round hr

def gathered (y : Exchange) : Except Error Received → List Bytes
  | .ok .message => [y.buffer]
  | _ => []

namespace Heard

variable {x y : Exchange} {log : List Turn} {result : Except Error Received}

theorem pending_eq (h : Heard capacity replyTimeout deadline x log result y) :
    y.pending = x.pending := by
  induction h with
  | expired | broken | malformed => rfl
  | clock _ _ ih | missed _ _ ih => exact ih
  | unanswered _ step | switched _ step | complete _ step => exact Exchange.pending_of_onBuffer step
  | proceed _ step _ ih => exact ih.trans (Exchange.pending_of_onBuffer step)

/-- A message is put together just when the loop ends with one. -/
theorem completed_eq (h : Heard capacity replyTimeout deadline x log result y) :
    completed log = gathered y result := by
  induction h with
  | expired | broken | malformed | unanswered | switched | complete => rfl
  | clock _ _ ih | missed _ _ ih | proceed _ _ _ ih => exact ih

theorem error_cases {e : Error} (h : Heard capacity replyTimeout deadline x log (.error e) y) :
    e = .timeout ∨ (∃ fault, e = .readFailed fault) ∨ ∃ length, e = .invalidFrame length := by
  generalize hr : Except.error e = result at h
  induction h with
  | expired => cases hr; exact .inl rfl
  | clock _ _ ih | missed _ _ ih | proceed _ _ _ ih => exact ih hr
  | broken | unanswered => cases hr; exact .inr (.inl ⟨_, rfl⟩)
  | malformed _ step => cases hr; exact .inr (.inr ⟨_, Exchange.error_of_onBuffer step⟩)
  | switched | complete => cases hr

/-- A message that the loop ends with is made up of buffers that were acknowledged. -/
theorem assembles (h : Heard capacity replyTimeout deadline x log (.ok .message) y) :
    x.Assembles (acknowledged log) y.buffer := by
  generalize hr : Except.ok Received.message = result at h
  induction h with
  | expired | broken | malformed | unanswered | switched => cases hr
  | clock _ _ ih | missed _ _ ih => exact ih hr
  | @proceed x y z buffer reply log result timeout step later ih =>
    rcases Exchange.ack_or_nack_of_onBuffer step with rfl | ⟨rfl, -, rfl⟩
    · rw [acknowledged_ack]
      exact .more step (ih hr)
    -- What is refused leaves no trace in the exchange.
    · rw [acknowledged_nack]
      exact ih hr
  | @complete x y buffer reply timeout step =>
    rcases Exchange.ack_or_nack_of_onBuffer step with rfl | ⟨-, hp, -⟩
    · rw [acknowledged_ack]
      exact .last step
    · cases hp

end Heard

end Reception

end StopAndWait
