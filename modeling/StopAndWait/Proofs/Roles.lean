import StopAndWait.Proofs.Conduct

namespace StopAndWait

open Dialog

namespace Transmission

variable {policy : RetryPolicy} {deadline : Deadline} {log : List Turn}

/-- What sending a frame fails with tells of time or of the link. -/
theorem error_of_attempts {frame : Bytes} {allowed : Nat} {r : Retransmission} {e : Error}
    (h : (attempts frame policy deadline allowed r).Yields log (.error e)) :
    e = .timeout ∨ ∃ fault, e = .writeFailed fault := by
  induction allowed generalizing r log with
  | zero =>
    obtain ⟨expired, first, second, rfl, -, h⟩ := yields_bind.1 h
    cases expired with
    | true => cases (yields_pure.1 h).2; exact .inl rfl
    | false => cases (yields_pure.1 h).2; exact .inr ⟨_, rfl⟩
  | succ allowed ih =>
    obtain ⟨expired, first, second, rfl, -, h⟩ := yields_bind.1 h
    cases expired with
    | true => cases (yields_pure.1 h).2; exact .inl rfl
    | false =>
      obtain ⟨timeout, third, fourth, rfl, -, h⟩ := yields_bind.1 h
      obtain ⟨acked, fifth, sixth, rfl, -, h⟩ := yields_bind.1 h
      cases acked with
      | true => cases (yields_pure.1 h).2
      | false => exact ih h

theorem error_of_sendFrames {frames : List Frame} {metrics : TransmitMetrics} {e : Error}
    (h : (sendFrames policy deadline frames metrics).Yields log (.error e)) :
    e = .timeout ∨ ∃ fault, e = .writeFailed fault := by
  induction frames generalizing metrics log with
  | nil => cases (yields_pure.1 h).2
  | cons frame rest ih =>
    obtain ⟨sent, first, second, rfl, hsend, h⟩ := yields_bind.1 h
    cases sent with
    | error e => cases (yields_pure.1 h).2; exact error_of_attempts hsend
    | ok n => exact ih h

end Transmission

/-- The role that a call leaves, with what went on in it. -/
def Call.roleAfter (call : Call) (e : Engine) (log : List Turn)
    (result : Except Error call.Result) : Mode :=
  match call.switches with
  | some (_, role) => if result.isOk then role else e.mode
  | none => (summoned log).getLast?.getD (call.opening e)

namespace Engine

variable {e e' : Engine} {log : List Turn} {call : Call}

theorem mode_eq_roleAfter {result : Except Error call.Result}
    (h : (call.dialog e).Yields log (result, e')) : e'.mode = call.roleAfter e log result := by
  obtain ⟨hadmits, hends⟩ := h.follows (e.honours_call call)
  unfold Call.roleAfter
  cases hs : call.switches with
  | none => exact (hends.role (.inl hs)).trans (Stance.role_foldl hadmits)
  | some switch =>
    obtain ⟨request, role⟩ := switch
    cases result with
    | ok value => exact (hends.acked request role value hs rfl).2
    | error error => exact (hends.role (.inr ⟨error, rfl⟩)).trans (hends.unmoved (by simp [hs]))

theorem undefined_not_mem_summoned (log : List Turn) : .undefined ∉ summoned log := by
  simp only [summoned, List.mem_filterMap, not_exists, not_and]
  intro turn _
  unfold Turn.summons
  split
  · unfold StopAndWait.summons
    grind
  · simp

/-- A role that is fixed stays fixed. -/
theorem roleAfter_ne_undefined (he : e.mode ≠ .undefined) (result : Except Error call.Result) :
    call.roleAfter e log result ≠ .undefined := by
  have hlast : (summoned log).getLast?.getD e.mode ≠ .undefined := by
    cases hl : (summoned log).getLast? with
    | none => exact he
    | some role =>
      rintro rfl
      exact undefined_not_mem_summoned log (List.mem_of_getLast? hl)
  cases call with
  | read | write => simpa [Call.roleAfter, Call.switches, Call.opening, he] using hlast
  | waitForSend | waitForReceive => simpa [Call.roleAfter, Call.switches, Call.opening] using hlast
  | switchToReceive | switchToSend =>
    simp only [Call.roleAfter, Call.switches]
    split
    · nofun
    · exact he

/-- The buffers that are read after a frame has been spoken are not taken into the exchange. -/
theorem note_not_mem_after_speech {result : Except Error call.Result} {before after : List Turn}
    {bytes : Bytes} {timeout : Millis} {answer : Except LinkError Nat}
    (h : (call.dialog e).Yields (before ++ .write bytes timeout answer :: after) (result, e'))
    (hb : ¬ IsReply bytes) (notice : Notice) : .note notice ∉ after := by
  have hadmits := (h.follows (e.honours_call call)).1
  obtain ⟨-, hpermits, hafter⟩ := Contract.admits_append.1 hadmits
  refine Stance.note_not_mem ?_ hafter notice
  -- A write of something other than a reply is speech.
  generalize before.foldl _ _ = s at hpermits
  cases s with
  | free role | judged role =>
    change (Stance.spoken role bytes answer).HasSpoken
    cases answer with
    | ok n =>
      simp only [Stance.spoken]
      split <;> trivial
    | error => trivial
  | owing => exact absurd hpermits hb
  | taken | awaiting => exact hpermits.elim

theorem linkTurns_start {limit : Millis} {deadline : Deadline}
    (h : (Deadline.start limit).Yields log deadline) : linkTurns log = [] := by
  unfold Deadline.start at h
  split at h
  · obtain ⟨rfl, -⟩ := yields_pure.1 h
    rfl
  · obtain ⟨instant, rest, rfl, hnow⟩ := yields_ask.1 h
    obtain ⟨rfl, -⟩ := yields_pure.1 hnow
    rfl

/-- In the wrong role an engine that may not wait refuses at once. -/
theorem resolveMode_eq_refused (target : Mode) (hm : e.config.switching = .manual)
    (ht : e.mode ≠ target) (hu : e.mode ≠ .undefined) (operation : Operation)
    (deadline : Deadline) :
    e.resolveMode target operation deadline =
      .pure (.error (.incorrectMode operation e.mode), e) := by
  unfold resolveMode
  rw [if_neg ht, if_neg hu, hm]
  rfl

theorem read_refused (hm : e.config.switching = .manual) {room : Nat} {limit : Millis}
    {operation : Operation} {mode : Mode}
    (h : (e.read room limit).Yields log (.error (.incorrectMode operation mode), e')) :
    e'.mode = e.mode ∧ e'.exchange.pending = e.exchange.pending ∧ linkTurns log = [] := by
  cases hp : e.exchange.pending with
  | cons message rest =>
    -- A held message is handed out or overflows the room.
    rw [read_of_pending hp] at h
    split at h
    · cases (yields_pure.1 h).2
    · cases (yields_pure.1 h).2
  | nil =>
    by_cases hs : e.mode = .sender
    · rw [read_of_empty hp] at h
      obtain ⟨deadline, first, second, rfl, hstart, h⟩ := yields_bind.1 h
      have hrefused := resolveMode_eq_refused (e := e.reset) .receiver hm
        (show e.mode ≠ .receiver by simp [hs]) (show e.mode ≠ .undefined by simp [hs]) .read
        deadline
      simp only [readExchange, hrefused, monad_bind, monad_pure, Dialog.pure_bind] at h
      obtain ⟨rfl, -, rfl⟩ := Yields.returned h
      exact ⟨rfl, hp, by simp [linkTurns_start hstart]⟩
    -- In its role a read fails for other reasons.
    · rw [e.read_eq hs hp] at h
      obtain ⟨deadline, first, second, rfl, -, h⟩ := yields_bind.1 h
      obtain ⟨⟨result, r⟩, third, fourth, rfl, hloop, h⟩ := yields_bind.1 h
      obtain ⟨-, hend⟩ := yields_pure.1 h
      cases result with
      | error error =>
        have herror := (Reception.heard_of_yields hloop).error_cases
        simp only [received, Prod.mk.injEq, Except.error.injEq] at hend
        rcases herror with rfl | ⟨fault, rfl⟩ | ⟨length, rfl⟩ <;> cases hend.1
      | ok what =>
        cases what with
        | switched mode => cases hend
        | message =>
          simp only [received, Exchange.deliver_eq] at hend
          split at hend <;> cases hend

theorem write_refused (hm : e.config.switching = .manual) {message : Bytes} {limit : Millis}
    {operation : Operation} {mode : Mode}
    (h : (e.write message limit).Yields log (.error (.incorrectMode operation mode), e')) :
    e'.mode = e.mode ∧ e'.exchange.pending = e.exchange.pending ∧ linkTurns log = [] := by
  by_cases hr : e.mode = .receiver
  · obtain ⟨deadline, first, second, rfl, hstart, h⟩ := yields_bind.1 h
    have hrefused := resolveMode_eq_refused (e := e.reset) .sender hm
      (show e.mode ≠ .sender by simp [hr]) (show e.mode ≠ .undefined by simp [hr]) .write deadline
    simp only [writeExchange, hrefused, monad_bind, monad_pure, Dialog.pure_bind] at h
    obtain ⟨rfl, -, rfl⟩ := Yields.returned h
    exact ⟨rfl, rfl, by simp [linkTurns_start hstart]⟩
  · rw [e.write_eq hr] at h
    obtain ⟨deadline, first, second, rfl, -, h⟩ := yields_bind.1 h
    obtain ⟨result, third, fourth, rfl, hsend, h⟩ := yields_bind.1 h
    obtain ⟨-, hend⟩ := yields_pure.1 h
    cases result with
    | ok metrics => cases hend
    | error error =>
      simp only [sent, Prod.mk.injEq, Except.error.injEq] at hend
      rcases Transmission.error_of_sendFrames hsend with rfl | ⟨fault, rfl⟩ <;> cases hend.1

/-- Whatever link and clock do and however a call ends: the role after it is that of the change of
roles it made, or of the last summons that its receive loops entered in the journal, or the one it
began in. A fixed role stays fixed; what is read once a frame has been spoken enters no journal; and
a read or a write that is refused for its role has asked nothing of the link and changed nothing. -/
theorem role_transition {result : Except Error call.Result}
    (h : (call.dialog e).Yields log (result, e')) :
    e'.mode = call.roleAfter e log result ∧ (e.mode ≠ .undefined → e'.mode ≠ .undefined) ∧
      (∀ before bytes timeout answer after, log = before ++ .write bytes timeout answer :: after →
        ¬ IsReply bytes → ∀ notice, .note notice ∉ after) ∧
      ((∃ room limit, call = .read room limit) ∨ (∃ message limit, call = .write message limit) →
        e.config.switching = .manual → ∀ operation mode,
          result = .error (.incorrectMode operation mode) →
            e'.mode = e.mode ∧ e'.exchange.pending = e.exchange.pending ∧ linkTurns log = []) := by
  have hrole := mode_eq_roleAfter h
  refine ⟨hrole, fun he => hrole ▸ roleAfter_ne_undefined he result, ?_, ?_⟩
  · rintro before bytes timeout answer after rfl hb
    exact note_not_mem_after_speech h hb
  · rintro (⟨room, limit, rfl⟩ | ⟨message, limit, rfl⟩) hm operation mode rfl
    · exact read_refused hm h
    · exact write_refused hm h

-- The checksums of the buffers are worked out here.
set_option maxRecDepth 8000

/-- A sender reads: the peer takes the sending role, and hands it back before there is a message.
The role is the sender's again, although the last reply is not written and the read fails. -/
theorem role_transition_of_unanswered :
    ∃ log e', (Call.dialog ⟨default, { mode := .sender }, none, none⟩
        (.read 0 Millis.unlimited)).Yields log
          (.error (.readFailed (.replyNotWritten .ack .closed)), e') ∧
      summoned log = [.receiver, .sender] ∧ e'.mode = .sender := by
  have hread : (Call.dialog ⟨default, { mode := .sender }, none, none⟩
      (.read 0 Millis.unlimited)).Yields
      (Reception.answering 1024 Millis.unlimited Control.setRecv.encode .ack 200 ++
        [.read 1024 Millis.unlimited (.ok Control.setSend.encode),
          .note (.consumed Control.setSend.encode), .write Control.ack.encode 200 (.error .closed)])
      (.error (.readFailed (.replyNotWritten .ack .closed)),
        ⟨default, { mode := .sender }, none, some { frames := 1, acks := 1 }⟩) := by
    apply Yields.silent rfl
    apply Yields.read (.ok Control.setRecv.encode) rfl
    apply Yields.note rfl
    apply Yields.write (.ok 2) rfl
    apply Yields.silent rfl
    apply Yields.read (.ok Control.setSend.encode) rfl
    apply Yields.note rfl
    apply Yields.write (.error .closed) rfl
    exact .done rfl
  exact ⟨_, _, hread, rfl, (role_transition hread).1⟩

end Engine

end StopAndWait
