import StopAndWait.Proofs.Sending
import StopAndWait.Proofs.Session

/-!
The custody of whole messages. What a receive loop puts together is handed out by the read it runs
in or held, and what is held is handed out by later reads, oldest first: over every session nothing
is lost, doubled or reordered.
-/
namespace StopAndWait

namespace Engine

open Dialog

variable {e e' : Engine} {log : List Turn} {deadline : Deadline} {target : Mode}
  {operation : Operation}

theorem completed_start {limit : Millis} (h : (Deadline.start limit).Yields log deadline) :
    completed log = [] := by
  unfold Deadline.start at h
  split at h
  · obtain ⟨rfl, -⟩ := yields_pure.1 h
    rfl
  · obtain ⟨instant, rest, rfl, hnow⟩ := yields_ask.1 h
    obtain ⟨rfl, -⟩ := yields_pure.1 hnow
    rfl

/-- Telling a failure as part of a read makes no overflow of another failure. -/
theorem eq_of_mapError_whileReading {α : Type} {result : Except Error α} {required available : Nat}
    (h : result.mapError Error.whileReading = .error (.bufferOverflow required available)) :
    result = .error (.bufferOverflow required available) := by
  cases result with
  | ok value => cases h
  | error e => cases e <;> cases h; rfl

/-- A message that comes while a role is awaited is held, and the wait has failed then. -/
theorem yields_awaitMode {result : Except Error Unit}
    (h : (e.awaitMode target operation deadline).Yields log (result, e')) :
    e'.exchange.pending = e.exchange.pending ++ completed log ∧
      (result = .ok () → completed log = []) ∧ ∀ required available,
        result ≠ .error (.bufferOverflow required available) := by
  unfold awaitMode at h
  by_cases hm : e.mode = target
  · rw [if_pos hm] at h
    obtain ⟨rfl, rfl, rfl⟩ := Yields.returned h
    simp [completed]
  · rw [if_neg hm] at h
    obtain ⟨⟨received, e₁⟩, first, second, rfl, hreceive, h⟩ := yields_bind.1 h
    have hheard := yields_receive hreceive
    have hpending := hheard.pending_eq
    have hcompleted := hheard.completed_eq
    cases received with
    | error error =>
      obtain ⟨rfl, rfl, rfl⟩ := Yields.returned h
      rw [List.append_nil, hcompleted]
      refine ⟨by simp [hpending, Reception.gathered], by simp, fun required available he => ?_⟩
      cases he
      rcases hheard.error_cases with he | ⟨fault, he⟩ | ⟨length, he⟩ <;> cases he
    | ok what =>
      cases what with
      | switched mode =>
        simp only at h
        split at h
        all_goals
          obtain ⟨rfl, rfl, rfl⟩ := Yields.returned h
          rw [List.append_nil, hcompleted]
          simp [hpending, Reception.gathered]
      | message =>
        obtain ⟨rfl, rfl, rfl⟩ := Yields.returned h
        rw [List.append_nil, hcompleted]
        simp [hpending, Reception.gathered]

theorem yields_resolveMode {result : Except Error Unit}
    (h : (e.resolveMode target operation deadline).Yields log (result, e')) :
    e'.exchange.pending = e.exchange.pending ++ completed log ∧
      (result = .ok () → completed log = [] ∧ (e.exchange.IsIdle → e'.exchange.IsIdle)) ∧
      ∀ required available, result ≠ .error (.bufferOverflow required available) := by
  unfold resolveMode at h
  by_cases hm : e.mode = target
  · rw [if_pos hm] at h
    obtain ⟨rfl, rfl, rfl⟩ := Yields.returned h
    simp [completed]
  · rw [if_neg hm] at h
    by_cases hu : e.mode = .undefined
    · rw [if_pos hu] at h
      obtain ⟨rfl, rfl, rfl⟩ := Yields.returned h
      exact ⟨by simp [completed, withMode, Exchange.withMode], fun _ => ⟨rfl, id⟩, by simp⟩
    · rw [if_neg hu] at h
      cases hs : e.config.switching with
      | manual =>
        rw [hs] at h
        obtain ⟨rfl, rfl, rfl⟩ := Yields.returned h
        simp [completed]
      | auto =>
        rw [hs] at h
        obtain ⟨⟨awaited, e₁⟩, first, second, rfl, hawait, h⟩ := yields_bind.1 h
        obtain ⟨hpending, hok, herror⟩ := yields_awaitMode hawait
        cases awaited with
        | ok =>
          obtain ⟨rfl, rfl, rfl⟩ := Yields.returned h
          rw [List.append_nil]
          exact ⟨hpending, fun _ => ⟨hok rfl, fun _ => Exchange.isIdle_reset _⟩, by simp⟩
        | error error =>
          obtain ⟨rfl, rfl, rfl⟩ := Yields.returned h
          rw [List.append_nil]
          exact ⟨hpending, by simp, herror⟩

/-- What an overflow leaves behind: the message is the only one held, and it is made up of buffers
that were acknowledged, all of them since an exchange began anew. -/
structure Overflowed (room required available : Nat) (log : List Turn) (e' : Engine)
    (message : Bytes) : Prop where
  required_eq : required = message.length
  available_eq : available = room
  large : room < message.length
  held : e'.exchange.pending = [message]
  whole : ∃ before during, log = before ++ during ∧ ∃ x : Exchange, x.IsIdle ∧
    x.Assembles (acknowledged during) message

/-- The message of a read is handed out, or else held. -/
theorem yields_readExchange {room : Nat} {result : Except Error Delivery}
    (h : (e.readExchange room deadline).Yields log (result, e')) (hp : e.exchange.pending = [])
    (hi : e.exchange.IsIdle) :
    completed log = handed result ++ e'.exchange.pending ∧ ∀ required available,
      result = .error (.bufferOverflow required available) →
        ∃ message, Overflowed room required available log e' message := by
  obtain ⟨⟨resolved, e₁⟩, first, second, rfl, hresolve, h⟩ := yields_bind.1 h
  obtain ⟨hpending, hok, herror⟩ := yields_resolveMode hresolve
  rw [hp, List.nil_append] at hpending
  cases resolved with
  | error error =>
    obtain ⟨rfl, rfl, rfl⟩ := Yields.returned h
    refine ⟨by simp [handed, hpending], fun required available he => ?_⟩
    exact absurd (congrArg _ (Except.error.inj he)) (herror required available)
  | ok =>
    obtain ⟨hnone, hidle⟩ := hok rfl
    obtain ⟨⟨received, e₂⟩, third, fourth, rfl, hreceive, h⟩ := yields_bind.1 h
    have hheard := yields_receive hreceive
    have hheld : e₂.exchange.pending = [] := by rw [hheard.pending_eq, hpending, hnone]
    have hcompleted : completed (first ++ (third ++ fourth)) =
        Reception.gathered e₂.exchange received ++ completed fourth := by
      rw [completed_append, completed_append, hnone, hheard.completed_eq, List.nil_append]
    cases received with
    | error error =>
      obtain ⟨rfl, rfl, rfl⟩ := Yields.returned h
      refine ⟨by rw [hcompleted, hheld]; rfl, fun required available he => ?_⟩
      cases he
      rcases hheard.error_cases with he | ⟨fault, he⟩ | ⟨length, he⟩ <;> cases he
    | ok what =>
      cases what with
      | switched mode =>
        obtain ⟨rfl, rfl, rfl⟩ := Yields.returned h
        exact ⟨by rw [hcompleted, hheld]; rfl, by simp⟩
      | message =>
        -- With room for the message it is handed out, without it is held.
        by_cases hroom : room < e₂.exchange.buffer.length
        · have hdeliver : e₂.exchange.deliver room =
              (.error (.bufferOverflow e₂.exchange.buffer.length room), e₂.exchange.stash) := by
            rw [Exchange.deliver_eq, if_pos hroom]
          simp only [hdeliver] at h
          obtain ⟨rfl, rfl, rfl⟩ := Yields.returned h
          have hstash : e₂.exchange.stash.pending = [e₂.exchange.buffer] := by
            rw [Exchange.pending_stash, hheld, List.nil_append]
          refine ⟨by rw [hcompleted, hstash]; rfl, fun required available he => ?_⟩
          cases he
          exact ⟨e₂.exchange.buffer, rfl, rfl, hroom, hstash, first, third, by simp, _, hidle hi,
            hheard.assembles⟩
        · have hdeliver : e₂.exchange.deliver room =
              (.ok e₂.exchange.buffer, e₂.exchange.reset) := by
            rw [Exchange.deliver_eq, if_neg hroom]
          simp only [hdeliver] at h
          obtain ⟨rfl, rfl, rfl⟩ := Yields.returned h
          exact ⟨by rw [hcompleted, Exchange.pending_reset, hheld]; rfl, by simp [Except.map]⟩

theorem yields_read {room : Nat} {limit : Millis} {result : Except Error Delivery}
    (h : (e.read room limit).Yields log (result, e')) (hp : e.exchange.pending = []) :
    completed log = handed result ++ e'.exchange.pending ∧ ∀ required available,
      result = .error (.bufferOverflow required available) →
        ∃ message, Overflowed room required available log e' message := by
  rw [read_of_empty hp] at h
  obtain ⟨deadline, first, second, rfl, hstart, h⟩ := yields_bind.1 h
  obtain ⟨⟨exchanged, e₁⟩, third, fourth, rfl, hexchange, h⟩ := yields_bind.1 h
  obtain ⟨rfl, rfl, rfl⟩ := Yields.returned h
  obtain ⟨haccount, hoverflow⟩ := yields_readExchange hexchange hp e.exchange.isIdle_reset
  rw [List.append_nil, completed_append, completed_start hstart, List.nil_append]
  refine ⟨?_, fun required available he => ?_⟩
  · rw [haccount]
    cases exchanged <;> rfl
  · obtain ⟨message, hroom, havailable, hlarge, hheld, before, during, rfl, hwhole⟩ :=
      hoverflow required available (eq_of_mapError_whileReading he)
    exact ⟨message, hroom, havailable, hlarge, hheld, first ++ before, during, by simp, hwhole⟩

theorem completed_sendMessage {message : Bytes} {capacity : Nat} {policy : RetryPolicy}
    {result : Except Error TransmitMetrics}
    (h : (Transmission.sendMessage message capacity policy deadline).Yields log result) :
    completed log = [] := by
  have honoured := Transmission.honours_sendMessage message capacity policy deadline
  exact completed_eq_nil (h.note_not_mem honoured fun _ _ => id)

theorem completed_sendFrame {request : Control} {policy : RetryPolicy}
    {result : Except Error UInt32}
    (h : (Transmission.sendFrame request.encode policy deadline).Yields log result) :
    completed log = [] := by
  have honoured : Honours (Sending.contract policy.maxAttempts.toNat True) _
      ⟨[.control request], 0, false⟩
      (Transmission.sendFrame (Frame.control request).encode policy deadline) :=
    Transmission.honours_attempts policy (fun _ => trivial) _ {} rfl rfl
      (by simp [Retransmission.remaining])
  exact completed_eq_nil (h.note_not_mem honoured fun _ _ => id)

theorem yields_write {message : Bytes} {limit : Millis} {result : Except Error Nat}
    (h : (e.write message limit).Yields log (result, e')) :
    e'.exchange.pending = e.exchange.pending ++ completed log := by
  obtain ⟨deadline, first, second, rfl, hstart, h⟩ := yields_bind.1 h
  obtain ⟨⟨exchanged, e₁⟩, third, fourth, rfl, hexchange, h⟩ := yields_bind.1 h
  obtain ⟨rfl, rfl, rfl⟩ := Yields.returned h
  obtain ⟨⟨resolved, e₂⟩, fifth, sixth, rfl, hresolve, hexchange⟩ := yields_bind.1 hexchange
  have hpending := (yields_resolveMode hresolve).1
  suffices hsent : completed sixth = [] ∧ e₁.exchange.pending = e₂.exchange.pending by
    rw [List.append_nil, completed_append, completed_append, completed_start hstart, hsent.1,
      List.nil_append, List.append_nil]
    exact hsent.2.trans hpending
  match resolved with
  | .error error =>
    obtain ⟨rfl, -, rfl⟩ := Yields.returned hexchange
    exact ⟨rfl, rfl⟩
  | .ok () =>
    obtain ⟨sent, seventh, eighth, rfl, hsend, hend⟩ := yields_bind.1 hexchange
    rw [completed_append, completed_sendMessage hsend]
    match sent with
    | .error error =>
      obtain ⟨rfl, -, rfl⟩ := Yields.returned hend
      exact ⟨rfl, rfl⟩
    | .ok metrics =>
      obtain ⟨rfl, -, rfl⟩ := Yields.returned hend
      exact ⟨rfl, rfl⟩

theorem yields_waitForMode {limit : Millis} {result : Except Error Unit}
    (h : (e.waitForMode target operation limit).Yields log (result, e')) :
    e'.exchange.pending = e.exchange.pending ++ completed log := by
  obtain ⟨deadline, first, second, rfl, hstart, h⟩ := yields_bind.1 h
  obtain ⟨⟨awaited, e₁⟩, third, fourth, rfl, hawait, h⟩ := yields_bind.1 h
  obtain ⟨rfl, rfl, rfl⟩ := Yields.returned h
  rw [List.append_nil, completed_append, completed_start hstart, List.nil_append]
  exact (yields_awaitMode hawait).1

theorem yields_requestSwitch {request : Control} {role : Mode} {limit : Millis}
    {result : Except Error Unit}
    (h : (e.requestSwitch request role limit).Yields log (result, e')) :
    e'.exchange.pending = e.exchange.pending ++ completed log := by
  obtain ⟨deadline, first, second, rfl, hstart, h⟩ := yields_bind.1 h
  obtain ⟨sent, third, fourth, rfl, hsend, h⟩ := yields_bind.1 h
  rw [completed_append, completed_append, completed_start hstart, completed_sendFrame hsend,
    List.nil_append, List.nil_append]
  match sent with
  | .error error =>
    obtain ⟨rfl, -, rfl⟩ := Yields.returned h
    simp [completed, reset]
  | .ok n =>
    obtain ⟨rfl, -, rfl⟩ := Yields.returned h
    simp [completed, reset, withMode, Exchange.withMode]

/-- A call hands out the oldest message there is, held or put together in it, or leaves all held. -/
theorem yields_call {call : Call} {result : Except Error call.Result}
    (h : (call.dialog e).Yields log (result, e')) :
    e.exchange.pending ++ completed log =
      Episode.delivered ⟨call, log, result⟩ ++ e'.exchange.pending := by
  cases call with
  | read room limit =>
    cases hp : e.exchange.pending with
    | nil => exact (yields_read h hp).1
    | cons oldest rest =>
      have hread : (e.read room limit).Yields log (result, e') := h
      rw [read_of_pending hp] at hread
      split at hread
      · obtain ⟨rfl, rfl, rfl⟩ := Yields.returned hread
        simp [completed, Episode.delivered, handed, hp]
      · obtain ⟨rfl, rfl, rfl⟩ := Yields.returned hread
        simp [completed, Episode.delivered, handed]
  | write => exact (yields_write h).symm
  | waitForSend | waitForReceive => exact (yields_waitForMode h).symm
  | switchToReceive | switchToSend => exact (yields_requestSwitch h).symm

end Engine

namespace Session

open Engine Dialog

variable {e e' : Engine} {episodes : List Episode}

theorem balance (h : Session e episodes e') :
    e.exchange.pending ++ episodes.flatMap Episode.completed =
      episodes.flatMap Episode.delivered ++ e'.exchange.pending := by
  induction h with
  | nil e => simp
  | @call e e₁ e₂ episode rest yields later ih =>
    have hcall : e.exchange.pending ++ episode.completed =
        episode.delivered ++ e₁.exchange.pending := yields_call yields
    simp only [List.flatMap_cons]
    rw [← List.append_assoc, hcall, List.append_assoc, ih, List.append_assoc]

/-- Whatever calls have been made of an engine, and whatever link and clock did, the messages held
before or put together since are those handed out, in order, and then those held. A read while one
is held asks nothing: the oldest is copied to the front of the caller's buffer, or overflows it and
changes nothing, neither the engine nor the buffer. Any other overflow leaves the buffer alone as
well, and is of a message whose frames have all been read and acknowledged. What is in the buffer
makes no difference to a read, and what it hands out stands there afterwards. -/
theorem conservation (h : Session e episodes e') (out : Bytes) (limit : Millis) :
    e.exchange.pending ++ episodes.flatMap Episode.completed =
        episodes.flatMap Episode.delivered ++ e'.exchange.pending ∧
      (∀ oldest rest, e'.exchange.pending = oldest :: rest →
        ∃ result e'' out', e'.readInto out limit = .pure ((result, e''), out') ∧
          e''.mode = e'.mode ∧
          (oldest.length ≤ out.length →
            result = .ok (.message oldest.length) ∧ out' = oldest ++ out.drop oldest.length ∧
              e''.exchange.pending = rest) ∧
          (out.length < oldest.length →
            result = .error (.bufferOverflow oldest.length out.length) ∧ e'' = e' ∧ out' = out)) ∧
      (e'.exchange.pending = [] → ∀ log required available e'' out',
        (e'.readInto out limit).Yields log
            ((.error (.bufferOverflow required available), e''), out') →
          out' = out ∧ ∃ message, Overflowed out.length required available log e'' message) ∧
      e'.readInto out limit =
        (e'.read out.length limit).bind fun ended => .pure (told out ended) := by
  refine ⟨h.balance, fun oldest rest hp => ?_, fun hp log required available e'' out' hread => ?_,
    e'.readInto_eq out limit⟩
  · rw [readInto_of_pending hp]
    by_cases hroom : out.length < oldest.length
    · rw [if_pos hroom]
      exact ⟨_, _, _, rfl, rfl, fun hle => absurd hroom (by omega), fun _ => ⟨rfl, rfl, rfl⟩⟩
    · rw [if_neg hroom]
      exact ⟨_, _, _, rfl, rfl, fun _ => ⟨rfl, rfl, rfl⟩, fun hlt => absurd hlt hroom⟩
  · rw [readInto_eq] at hread
    obtain ⟨ended, first, second, rfl, hread, hend⟩ := yields_bind.1 hread
    obtain ⟨rfl, htold⟩ := yields_pure.1 hend
    obtain ⟨rfl, rfl⟩ := eq_of_told_eq_error htold.symm
    rw [List.append_nil]
    exact ⟨rfl, (yields_read hread hp).2 required available rfl⟩

-- The checksums of the buffers are worked out here.
set_option maxRecDepth 8000

/-- A message does not fit the caller's buffer and another one comes while a role is awaited: the
first is handed out by the next read, and the second, too long for the buffer after that, stays
held. -/
theorem conservation_of_overflow :
    ∃ episodes e', Session ⟨default, {}, none, none⟩ episodes e' ∧
      episodes.flatMap Episode.completed = [[0x61, 0x62], [0x63, 0x64, 0x65]] ∧
      episodes.flatMap Episode.delivered = [[0x61, 0x62]] ∧
      e'.exchange.pending = [[0x63, 0x64, 0x65]] ∧
      e'.readInto [0xaa, 0xbb] 100 =
        .pure ((.error (.bufferOverflow 3 2), e'), [0xaa, 0xbb]) := by
  let hears (message : Bytes) : List Turn :=
    Reception.answering 1024 Millis.unlimited (Frame.data 1 message).encode .ack 200 ++
      [.note (.completed message)]
  let holding (pending : List Bytes) (bytes : Nat) : Engine :=
    ⟨default, { mode := .receiver, pending }, none, some { frames := 1, acks := 1, bytes }⟩
  have hoverflow : (Engine.read ⟨default, {}, none, none⟩ 1 Millis.unlimited).Yields
      (hears [0x61, 0x62]) (.error (.bufferOverflow 2 1), holding [[0x61, 0x62]] 2) := by
    apply Yields.silent rfl
    apply Yields.read (.ok (Frame.data 1 [0x61, 0x62]).encode) rfl
    apply Yields.note rfl
    apply Yields.write (.ok 2) rfl
    apply Yields.note rfl
    exact .done rfl
  have hwait : (Engine.waitForSend (holding [[0x61, 0x62]] 2) Millis.unlimited).Yields
      (hears [0x63, 0x64, 0x65]) (.error (.incorrectMode .waitForSend .receiver),
        holding [[0x61, 0x62], [0x63, 0x64, 0x65]] 3) := by
    apply Yields.silent rfl
    apply Yields.read (.ok (Frame.data 1 [0x63, 0x64, 0x65]).encode) rfl
    apply Yields.note rfl
    apply Yields.write (.ok 2) rfl
    apply Yields.note rfl
    exact .done rfl
  have hread : (Engine.read (holding [[0x61, 0x62], [0x63, 0x64, 0x65]] 3) 2 100).Yields []
      (.ok (.message [0x61, 0x62]), holding [[0x63, 0x64, 0x65]] 3) := .done rfl
  have h : Session ⟨default, {}, none, none⟩
      [⟨.read 1 Millis.unlimited, _, _⟩, ⟨.waitForSend Millis.unlimited, _, _⟩, ⟨.read 2 100, _, _⟩]
      (holding [[0x63, 0x64, 0x65]] 3) :=
    .call hoverflow (.call hwait (.call hread (.nil _)))
  obtain ⟨hbalance, hheld, -⟩ := conservation h [0xaa, 0xbb] 100
  obtain ⟨result, e'', out', hpure, -, -, hfull⟩ := hheld [0x63, 0x64, 0x65] [] rfl
  obtain ⟨rfl, rfl, rfl⟩ := hfull (by decide)
  exact ⟨_, _, h, hbalance, rfl, rfl, hpure⟩

end Session

end StopAndWait
