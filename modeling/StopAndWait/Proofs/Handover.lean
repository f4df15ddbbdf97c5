import StopAndWait.Proofs.Codec
import StopAndWait.Proofs.Conduct

namespace StopAndWait

open Dialog StopAndWait.Frame

def Frame.Ends : Frame → Bytes → Prop
  | control kind, _ => kind = .seqEnd
  | data _ payload, message => payload <:+ message
  | unknown _, _ => False

theorem Frame.ends_nil_iff (frame : Frame) :
    frame.Ends [] ↔ frame = control .seqEnd ∨ ∃ sequence, frame = data sequence [] := by
  cases frame with
  | control | unknown => simp [Ends]
  | data => simp [Ends, List.suffix_nil]

namespace Exchange

variable {x y : Exchange} {buffer : Bytes} {reply : Control} {outcome : Outcome}

/-- A frame leads on, makes a message whole or changes the role, and only this touches the role. -/
theorem onFrame_cases {frame : Frame} (h : x.onFrame frame = (⟨reply, outcome⟩, y)) :
    outcome = .proceed ∧ y.mode = x.mode ∨
      outcome = .complete ∧ y.mode = x.mode ∧ frame.Ends y.buffer ∨
      ∃ mode, outcome = .switched mode ∧ y.mode = mode ∧ mode ≠ x.mode := by
  revert h
  fun_cases onFrame x frame <;>
    grind [onSwitch, onData, withMode, reset, Step.ack, Step.nack, Frame.Ends, List.suffix_append]

/-- So does a buffer, as the frame that it is heard as; one that is refused leads on. -/
theorem onBuffer_cases (h : x.onBuffer buffer = .ok (⟨reply, outcome⟩, y)) :
    outcome = .proceed ∧ y.mode = x.mode ∨
      outcome = .complete ∧ y.mode = x.mode ∧
        (∃ frame, hears? buffer = some frame ∧ frame.Ends y.buffer) ∨
      ∃ mode, outcome = .switched mode ∧ y.mode = mode ∧ mode ≠ x.mode := by
  rcases onBuffer_eq_ok_iff.1 h with ⟨-, hrefused⟩ | ⟨hi, frame, hd, hstep⟩
  · cases hrefused
    exact .inl ⟨rfl, rfl⟩
  · rcases onFrame_cases hstep with hproceed | ⟨hcomplete, hmode, hends⟩ | hswitched
    · exact .inl hproceed
    · exact .inr (.inl ⟨hcomplete, hmode, frame, hears?_eq_some_iff.2 ⟨hi, hd⟩, hends⟩)
    · exact .inr (.inr hswitched)

theorem mode_eq_of_proceed (h : x.onBuffer buffer = .ok (⟨reply, .proceed⟩, y)) :
    y.mode = x.mode := by
  rcases onBuffer_cases h with ⟨-, hmode⟩ | ⟨hcomplete, -⟩ | ⟨mode, hswitched, -⟩
  · exact hmode
  · cases hcomplete
  · cases hswitched

/-- A message is made whole by the last of its frames, which is acknowledged. -/
theorem ends_of_complete (h : x.onBuffer buffer = .ok (⟨reply, .complete⟩, y)) :
    reply = .ack ∧ y.mode = x.mode ∧ ∃ frame, hears? buffer = some frame ∧ frame.Ends y.buffer := by
  rcases onBuffer_cases h with ⟨hproceed, -⟩ | ⟨-, hends⟩ | ⟨mode, hswitched, -⟩
  · cases hproceed
  · rcases ack_or_nack_of_onBuffer h with hack | ⟨-, hproceed, -⟩
    · exact ⟨hack, hends⟩
    · cases hproceed
  · cases hswitched

/-- A change of roles is that of the summons, which is acknowledged. -/
theorem summons_of_switched {mode : Mode}
    (h : x.onBuffer buffer = .ok (⟨reply, .switched mode⟩, y)) :
    reply = .ack ∧ summons buffer = some mode ∧ y.mode = mode ∧ mode ≠ x.mode := by
  rcases onBuffer_cases h with ⟨hproceed, -⟩ | ⟨hcomplete, -⟩ | ⟨mode', hswitched, hmode, hne⟩
  · cases hproceed
  · cases hcomplete
  · cases hswitched
    have hsummons := mode_of_onBuffer h
    rw [hmode] at hsummons
    have hsome : summons buffer = some mode := by
      cases hs : summons buffer with
      | none => exact absurd (by rw [hsummons, hs]; rfl) hne
      | some role => rw [hsummons, hs]; rfl
    rcases ack_or_nack_of_onBuffer h with hack | ⟨-, hproceed, -⟩
    · exact ⟨hack, hsome, hmode, hne⟩
    · cases hproceed

end Exchange

/-- The frame makes the message whole: it is heard and acknowledged, and the message then entered
in the journal. -/
def Completes (log : List Turn) (frame : Frame) (message : Bytes) : Prop :=
  ∃ before capacity timeout buffer replyTimeout after,
    log = before ++ (Reception.answering capacity timeout buffer .ack replyTimeout ++
      .note (.completed message) :: after) ∧ hears? buffer = some frame

/-- The peer handed over the sending role: the last that was done is to acknowledge its summons. -/
def HandsOver (log : List Turn) (e : Engine) : Prop :=
  (∃ before capacity timeout buffer replyTimeout,
    log = before ++ Reception.answering capacity timeout buffer .ack replyTimeout ∧
      summons buffer = some .sender) ∧ e.mode = .sender

def Accounted (log : List Turn) : Prop :=
  ∀ message ∈ completed log, ∃ frame : Frame, frame.Ends message ∧ Completes log frame message

section Accounted

variable {log : List Turn} {frame : Frame} {message : Bytes}

theorem Completes.after (h : Completes log frame message) (first : List Turn) :
    Completes (first ++ log) frame message := by
  obtain ⟨before, capacity, timeout, buffer, replyTimeout, after, rfl, hh⟩ := h
  exact ⟨first ++ before, capacity, timeout, buffer, replyTimeout, after,
    (List.append_assoc ..).symm, hh⟩

theorem Completes.before (h : Completes log frame message) (second : List Turn) :
    Completes (log ++ second) frame message := by
  obtain ⟨before, capacity, timeout, buffer, replyTimeout, after, rfl, hh⟩ := h
  refine ⟨before, capacity, timeout, buffer, replyTimeout, after ++ second, ?_, hh⟩
  simp only [List.append_assoc, List.cons_append]

theorem HandsOver.after {e e' : Engine} (h : HandsOver log e) (first : List Turn)
    (hm : e'.mode = e.mode) : HandsOver (first ++ log) e' := by
  obtain ⟨⟨before, capacity, timeout, buffer, replyTimeout, rfl, hs⟩, hsender⟩ := h
  exact ⟨⟨first ++ before, capacity, timeout, buffer, replyTimeout,
    (List.append_assoc ..).symm, hs⟩, hm.trans hsender⟩

theorem Accounted.append {first second : List Turn} (h : Accounted first) (h' : Accounted second) :
    Accounted (first ++ second) := by
  intro message hm
  rw [completed_append, List.mem_append] at hm
  rcases hm with hm | hm
  · obtain ⟨frame, hends, hc⟩ := h message hm
    exact ⟨frame, hends, hc.before second⟩
  · obtain ⟨frame, hends, hc⟩ := h' message hm
    exact ⟨frame, hends, hc.after first⟩

theorem accounted_of_completed_eq_nil (h : completed log = []) : Accounted log := by
  intro message hm
  rw [h] at hm
  cases hm

end Accounted

namespace Reception.Heard

variable {capacity : Nat} {replyTimeout : Millis} {deadline : Deadline} {x y : Exchange}
  {log : List Turn} {result : Except Error Received}

/-- Up to a message the role stays. -/
theorem mode_eq (h : Heard capacity replyTimeout deadline x log (.ok .message) y) :
    y.mode = x.mode := by
  generalize hr : Except.ok Received.message = result at h
  induction h with
  | expired | broken | malformed | unanswered | switched => cases hr
  | clock _ _ ih | missed _ _ ih => exact ih hr
  | proceed _ step _ ih => exact (ih hr).trans (Exchange.mode_eq_of_proceed step)
  | complete _ step => exact (Exchange.ends_of_complete step).2.1

/-- A loop that ends with a change of roles ends with the reply to its summons. -/
theorem ends_switched {mode : Mode}
    (h : Heard capacity replyTimeout deadline x log (.ok (.switched mode)) y) :
    (∃ before timeout buffer, log = before ++ answering capacity timeout buffer .ack replyTimeout ∧
      summons buffer = some mode) ∧ y.mode = mode ∧ mode ≠ x.mode := by
  generalize hr : Except.ok (Received.switched mode) = result at h
  induction h with
  | expired | broken | malformed | unanswered | complete => cases hr
  | clock _ _ ih | missed _ _ ih =>
    obtain ⟨⟨before, timeout, buffer, rfl, hs⟩, hmode⟩ := ih hr
    exact ⟨⟨_ :: before, timeout, buffer, rfl, hs⟩, hmode⟩
  | proceed _ step _ ih =>
    obtain ⟨⟨before, timeout, buffer, rfl, hs⟩, hmode, hne⟩ := ih hr
    rw [Exchange.mode_eq_of_proceed step] at hne
    exact ⟨⟨_ ++ before, timeout, buffer, (List.append_assoc ..).symm, hs⟩, hmode, hne⟩
  | switched timeout step =>
    cases hr
    obtain ⟨rfl, hs, hmode⟩ := Exchange.summons_of_switched step
    exact ⟨⟨[], timeout, _, rfl, hs⟩, hmode⟩

theorem completes (h : Heard capacity replyTimeout deadline x log (.ok .message) y) :
    ∃ frame : Frame, frame.Ends y.buffer ∧ Completes log frame y.buffer := by
  generalize hr : Except.ok Received.message = result at h
  induction h with
  | expired | broken | malformed | unanswered | switched => cases hr
  | clock _ _ ih | missed _ _ ih =>
    obtain ⟨frame, hends, hc⟩ := ih hr
    exact ⟨frame, hends, hc.after [_]⟩
  | proceed _ _ _ ih =>
    obtain ⟨frame, hends, hc⟩ := ih hr
    exact ⟨frame, hends, hc.after _⟩
  | complete timeout step =>
    obtain ⟨rfl, -, frame, hh, hends⟩ := Exchange.ends_of_complete step
    exact ⟨frame, hends, [], _, timeout, _, _, [], rfl, hh⟩

theorem accounted (h : Heard capacity replyTimeout deadline x log result y) : Accounted log := by
  intro message hm
  rw [h.completed_eq] at hm
  match result with
  | .ok .message =>
    obtain rfl := List.mem_singleton.1 hm
    exact h.completes
  | .ok (.switched _) | .error _ => cases hm

end Reception.Heard

def Accounts {α : Type} (d : Dialog α) : Prop := ∀ log result, d.Yields log result → Accounted log

section Accounts

variable {α β : Type}

theorem accounts_pure (a : α) : Accounts (.pure a) := by
  intro log result h
  obtain ⟨rfl, -⟩ := yields_pure.1 h
  exact accounted_of_completed_eq_nil rfl

theorem Accounts.bind {d : Dialog α} {f : α → Dialog β} (hd : Accounts d)
    (hf : ∀ mid, Accounts (f mid)) : Accounts (d.bind f) := by
  intro log result h
  obtain ⟨mid, first, second, rfl, hfirst, hsecond⟩ := yields_bind.1 h
  exact (hd first mid hfirst).append (hf mid second result hsecond)

end Accounts

namespace Engine

variable {e e' : Engine} {log : List Turn}

theorem accounts_start (limit : Millis) : Accounts (Deadline.start limit) :=
  fun _ _ h => accounted_of_completed_eq_nil (completed_start h)

theorem accounts_receive (e : Engine) (deadline : Deadline) : Accounts (e.receive deadline) :=
  fun _ _ h => (yields_receive h).accounted

theorem accounts_awaitMode (e : Engine) (target : Mode) (operation : Operation)
    (deadline : Deadline) : Accounts (e.awaitMode target operation deadline) := by
  unfold awaitMode
  split
  · exact accounts_pure _
  · apply (e.accounts_receive deadline).bind
    rintro ⟨result, e'⟩
    match result with
    | .error _ | .ok .message => exact accounts_pure _
    | .ok (.switched mode) =>
      dsimp only
      split
      · exact accounts_pure _
      · exact accounts_pure _

theorem accounts_resolveMode (e : Engine) (target : Mode) (operation : Operation)
    (deadline : Deadline) : Accounts (e.resolveMode target operation deadline) := by
  unfold resolveMode
  split
  · exact accounts_pure _
  · split
    · exact accounts_pure _
    · cases e.config.switching with
      | manual => exact accounts_pure _
      | auto =>
        apply (e.accounts_awaitMode target operation deadline).bind
        rintro ⟨result, e'⟩
        cases result with
        | ok | error => exact accounts_pure _

theorem accounts_readExchange (e : Engine) (room : Nat) (deadline : Deadline) :
    Accounts (e.readExchange room deadline) := by
  apply (e.accounts_resolveMode .receiver .read deadline).bind
  rintro ⟨resolved, e₁⟩
  cases resolved with
  | error error => exact accounts_pure _
  | ok =>
    apply (e₁.accounts_receive deadline).bind
    rintro ⟨received, e₂⟩
    match received with
    | .error _ | .ok .message | .ok (.switched _) => exact accounts_pure _

theorem accounts_writeExchange (e : Engine) (message : Bytes) (deadline : Deadline) :
    Accounts (e.writeExchange message deadline) := by
  apply (e.accounts_resolveMode .sender .write deadline).bind
  rintro ⟨resolved, e₁⟩
  cases resolved with
  | error error => exact accounts_pure _
  | ok =>
    have hsend : Accounts (Transmission.sendMessage message e₁.config.capacity
        e₁.config.send.retry deadline) :=
      fun _ _ h => accounted_of_completed_eq_nil (completed_sendMessage h)
    apply hsend.bind
    intro sent
    cases sent with
    | ok metrics | error error => exact accounts_pure _

theorem accounts_requestSwitch (e : Engine) (request : Control) (role : Mode) (limit : Millis) :
    Accounts (e.requestSwitch request role limit) := by
  apply (accounts_start limit).bind
  intro deadline
  have hsend : Accounts (Transmission.sendFrame request.encode e.config.send.retry deadline) :=
    fun _ _ h => accounted_of_completed_eq_nil (completed_sendFrame h)
  apply hsend.bind
  intro sent
  cases sent with
  | ok n | error error => exact accounts_pure _

theorem accounts_call (e : Engine) (call : Call) : Accounts (call.dialog e) := by
  cases call with
  | read room limit =>
    change Accounts (e.read room limit)
    cases hp : e.exchange.pending with
    | nil =>
      rw [read_of_empty hp]
      apply (accounts_start limit).bind
      intro deadline
      apply (e.reset.accounts_readExchange room deadline).bind
      exact fun _ => accounts_pure _
    | cons message rest =>
      rw [read_of_pending hp]
      split
      · exact accounts_pure _
      · exact accounts_pure _
  | write message limit =>
    apply (accounts_start limit).bind
    intro deadline
    apply (e.reset.accounts_writeExchange message deadline).bind
    exact fun _ => accounts_pure _
  | waitForSend limit | waitForReceive limit =>
    apply (accounts_start limit).bind
    intro deadline
    apply (e.reset.accounts_awaitMode _ _ deadline).bind
    exact fun _ => accounts_pure _
  | switchToReceive limit | switchToSend limit => exact e.accounts_requestSwitch _ _ limit

/-- A wait for a role that succeeds ends in it. -/
theorem mode_of_awaitMode {target : Mode} {operation : Operation} {deadline : Deadline}
    (h : (e.awaitMode target operation deadline).Yields log (.ok (), e')) : e'.mode = target := by
  unfold awaitMode at h
  by_cases hm : e.mode = target
  · rw [if_pos hm] at h
    obtain ⟨-, -, rfl⟩ := Yields.returned h
    exact hm
  · rw [if_neg hm] at h
    obtain ⟨⟨received, e₁⟩, first, second, rfl, hreceive, h⟩ := yields_bind.1 h
    match received with
    | .error _ | .ok .message => cases (yields_pure.1 h).2
    | .ok (.switched mode) =>
      simp only at h
      split at h
      · next ht =>
        obtain ⟨-, -, rfl⟩ := Yields.returned h
        obtain ⟨-, hmode, -⟩ := (yields_receive hreceive).ends_switched
        exact hmode.trans ht
      · cases (yields_pure.1 h).2

theorem mode_of_resolveMode {target : Mode} {operation : Operation} {deadline : Deadline}
    (h : (e.resolveMode target operation deadline).Yields log (.ok (), e')) : e'.mode = target := by
  unfold resolveMode at h
  split at h
  · next hm =>
    obtain ⟨-, -, rfl⟩ := Yields.returned h
    exact hm
  · split at h
    · obtain ⟨-, -, rfl⟩ := Yields.returned h
      rfl
    · cases hs : e.config.switching with
      | manual =>
        rw [hs] at h
        cases (yields_pure.1 h).2
      | auto =>
        rw [hs] at h
        obtain ⟨⟨awaited, e₁⟩, first, second, rfl, hawait, h⟩ := yields_bind.1 h
        cases awaited with
        | ok =>
          obtain ⟨-, -, rfl⟩ := Yields.returned h
          have hmode : e₁.mode = target := mode_of_awaitMode hawait
          exact hmode
        | error error => cases (yields_pure.1 h).2

theorem sender_of_summons {buffer : Bytes} {role : Mode} (h : summons buffer = some role)
    (hr : role ≠ .receiver) : role = .sender := by
  unfold summons at h
  grind

/-- The two ways in which an exchange of a read can end well. -/
theorem cases_of_readExchange {room : Nat} {deadline : Deadline} {d : Delivery}
    (h : (e.readExchange room deadline).Yields log (.ok d, e')) :
    d = .handover ∧ HandsOver log e' ∨ d ≠ .handover ∧ e'.mode = .receiver := by
  obtain ⟨⟨resolved, e₁⟩, first, second, rfl, hresolve, h⟩ := yields_bind.1 h
  cases resolved with
  | error error => cases (yields_pure.1 h).2
  | ok =>
    have hrole : e₁.mode = .receiver := mode_of_resolveMode hresolve
    obtain ⟨⟨received, e₂⟩, third, fourth, rfl, hreceive, h⟩ := yields_bind.1 h
    have hheard := yields_receive hreceive
    match received with
    | .error error => cases (yields_pure.1 h).2
    | .ok (.switched mode) =>
      obtain ⟨rfl, hd, rfl⟩ := Yields.returned h
      obtain rfl := Except.ok.inj hd
      obtain ⟨⟨before, timeout, buffer, rfl, hs⟩, hmode, hne⟩ := hheard.ends_switched
      have hsender : mode = .sender := sender_of_summons hs fun hm => hne (hm.trans hrole.symm)
      rw [List.append_nil, ← List.append_assoc]
      refine .inl ⟨rfl, ⟨first ++ before, _, timeout, buffer, _, rfl, ?_⟩, ?_⟩
      · rw [hs, hsender]
      · exact hmode.trans hsender
    | .ok .message =>
      by_cases hroom : room < e₂.exchange.buffer.length
      · simp only [Exchange.deliver_eq, if_pos hroom] at h
        cases (yields_pure.1 h).2
      · simp only [Exchange.deliver_eq, if_neg hroom] at h
        obtain ⟨rfl, hd, rfl⟩ := Yields.returned h
        obtain rfl := Except.ok.inj hd
        exact .inr ⟨nofun, hheard.mode_eq.trans hrole⟩

/-- A read reports a handover just when there is one. -/
theorem handover_iff {room : Nat} {limit : Millis} {d : Delivery}
    (h : (e.read room limit).Yields log (.ok d, e')) : d = .handover ↔ HandsOver log e' := by
  cases hp : e.exchange.pending with
  | nil =>
    rw [read_of_empty hp] at h
    obtain ⟨deadline, first, second, rfl, -, h⟩ := yields_bind.1 h
    obtain ⟨⟨exchanged, e₁⟩, third, fourth, rfl, hexchange, h⟩ := yields_bind.1 h
    cases exchanged with
    | error error => cases (yields_pure.1 h).2
    | ok delivered =>
      obtain ⟨rfl, hd, rfl⟩ := Yields.returned h
      obtain rfl := Except.ok.inj hd
      rcases cases_of_readExchange hexchange with ⟨rfl, hover⟩ | ⟨hd, hreceiver⟩
      · rw [List.append_nil]
        exact iff_of_true rfl (hover.after first rfl)
      · refine iff_of_false hd ?_
        rintro ⟨-, hsender⟩
        cases hreceiver.symm.trans hsender
  | cons message rest =>
    rw [read_of_pending hp] at h
    split at h
    · cases (yields_pure.1 h).2
    · obtain ⟨rfl, hd, rfl⟩ := Yields.returned h
      obtain rfl := Except.ok.inj hd
      refine iff_of_false nofun ?_
      rintro ⟨⟨before, _, _, _, _, hlog, -⟩, -⟩
      simp [Reception.answering] at hlog

end Engine

namespace Session

open Engine

theorem accounted {e e' : Engine} {episodes : List Episode} (h : Session e episodes e') :
    ∀ episode ∈ episodes, Accounted episode.log := by
  induction h with
  | nil => simp
  | @call e e₁ e₂ episode rest yields later ih =>
    rw [List.forall_mem_cons]
    exact ⟨e.accounts_call episode.call _ _ yields, ih⟩

variable {config : Config} {e e' : Engine} {episodes : List Episode}

/-- What a new engine comes to hold was put together in one of its calls. -/
theorem completes_of_pending (h : Session ⟨config, {}, none, none⟩ episodes e) {message : Bytes}
    (hm : message ∈ e.exchange.pending) :
    ∃ episode ∈ episodes, ∃ frame : Frame, frame.Ends message ∧
      Completes episode.log frame message := by
  have hbalance := h.balance
  rw [List.nil_append] at hbalance
  have htotal : message ∈ episodes.flatMap Episode.completed := by
    rw [hbalance]
    exact List.mem_append_right _ hm
  obtain ⟨episode, hepisode, hcompleted⟩ := List.mem_flatMap.1 htotal
  exact ⟨episode, hepisode, h.accounted episode hepisode message hcompleted⟩

/-- A message that a read hands out was put together in it, or in a call before. -/
theorem completes_of_read (h : Session ⟨config, {}, none, none⟩ episodes e) {room : Nat}
    {limit : Millis} {log : List Turn} {message : Bytes}
    (hr : (e.read room limit).Yields log (.ok (.message message), e')) :
    ∃ transcript ∈ log :: episodes.map Episode.log, ∃ frame : Frame, frame.Ends message ∧
      Completes transcript frame message := by
  cases hp : e.exchange.pending with
  | nil =>
    have hm : message ∈ completed log := by
      rw [(yields_read hr hp).1]
      exact List.mem_append_left _ (List.mem_singleton_self message)
    exact ⟨log, List.mem_cons_self, e.accounts_call (.read room limit) _ _ hr message hm⟩
  | cons oldest rest =>
    rw [read_of_pending hp] at hr
    split at hr
    · cases (yields_pure.1 hr).2
    · obtain ⟨-, hd, -⟩ := Yields.returned hr
      cases hd
      have hm : message ∈ e.exchange.pending := by simp [hp]
      obtain ⟨episode, hepisode, hframe⟩ := h.completes_of_pending hm
      exact ⟨episode.log, List.mem_cons_of_mem _ (List.mem_map_of_mem hepisode), hframe⟩

/-- A read that ends well and brings no bytes, after any calls of a new engine and whatever link
and clock do: the peer has handed over the sending role in it unless it hands out an empty message,
and never if it does. An empty message has been made whole by the end of a sequence with nothing in
it, or by an empty data frame. -/
theorem empty_read (h : Session ⟨config, {}, none, none⟩ episodes e) {room : Nat} {limit : Millis}
    {log : List Turn} {d : Delivery} (hr : (e.read room limit).Yields log (.ok d, e')) :
    ((d.bytes = [] → HandsOver log e') ↔ d ≠ .message []) ∧ (d = .handover ↔ HandsOver log e') ∧
      (d = .message [] → ∃ transcript ∈ log :: episodes.map Episode.log, ∃ frame,
        (frame = .control .seqEnd ∨ ∃ sequence, frame = .data sequence []) ∧
          Completes transcript frame []) := by
  have hover := handover_iff hr
  refine ⟨?_, hover, ?_⟩
  · cases d with
    | handover => exact iff_of_true (fun _ => hover.1 rfl) nofun
    | message bytes =>
      have hnot : ¬ HandsOver log e' := fun hh => nomatch hover.2 hh
      simp [Delivery.bytes, hnot]
  · rintro rfl
    obtain ⟨transcript, ht, frame, hends, hc⟩ := h.completes_of_read hr
    exact ⟨transcript, ht, frame, frame.ends_nil_iff.1 hends, hc⟩

-- The checksums of the buffers are worked out here.
set_option maxRecDepth 8000

/-- A new engine reads, and the peer hands over at once. -/
theorem empty_read_of_handover :
    ∃ log e', (Engine.read ⟨default, {}, none, none⟩ 8 Millis.unlimited).Yields log
      (.ok .handover, e') ∧ HandsOver log e' := by
  have hread : (Engine.read ⟨default, {}, none, none⟩ 8 Millis.unlimited).Yields
      (Reception.answering 1024 Millis.unlimited Control.setSend.encode .ack 200)
      (.ok .handover, ⟨default, { mode := .sender }, none, some { frames := 1, acks := 1 }⟩) := by
    apply Yields.silent rfl
    apply Yields.read (.ok Control.setSend.encode) rfl
    apply Yields.note rfl
    apply Yields.write (.ok 2) rfl
    exact .done rfl
  exact ⟨_, _, hread, (empty_read (.nil _) hread).2.1.1 rfl⟩

def narrow : Config := ⟨Settings.withMtu {} 4, rfl⟩

def hasRead (frames bytes : Nat) : Engine :=
  ⟨narrow, { mode := .receiver }, none, some { frames, acks := frames, bytes }⟩

def hearing (frame : Frame) : List Turn :=
  Reception.answering 4 Millis.unlimited frame.encode .ack 200

theorem yields_two_bytes : (Engine.read ⟨narrow, {}, none, none⟩ 8 Millis.unlimited).Yields
    (hearing (.control .seqBegin) ++ hearing (.data 1 [0x61]) ++ hearing (.data 2 [0x62]) ++
      hearing (.control .seqEnd) ++ [.note (.completed [0x61, 0x62])])
    (.ok (.message [0x61, 0x62]), hasRead 4 2) := by
  apply Yields.silent rfl
  apply Yields.read (.ok (Frame.control .seqBegin).encode) rfl
  apply Yields.note rfl
  apply Yields.write (.ok 2) rfl
  apply Yields.silent rfl
  apply Yields.read (.ok (Frame.data 1 [0x61]).encode) rfl
  apply Yields.note rfl
  apply Yields.write (.ok 2) rfl
  apply Yields.silent rfl
  apply Yields.read (.ok (Frame.data 2 [0x62]).encode) rfl
  apply Yields.note rfl
  apply Yields.write (.ok 2) rfl
  apply Yields.silent rfl
  apply Yields.read (.ok (Frame.control .seqEnd).encode) rfl
  apply Yields.note rfl
  apply Yields.write (.ok 2) rfl
  apply Yields.note rfl
  exact .done rfl

/-- The acknowledgment of the end was lost, and the peer sends it again: it ends another message. -/
theorem yields_end_again : ((hasRead 4 2).read 8 Millis.unlimited).Yields
    (hearing (.control .seqEnd) ++ [.note (.completed [])]) (.ok (.message []), hasRead 1 0) := by
  apply Yields.silent rfl
  apply Yields.read (.ok (Frame.control .seqEnd).encode) rfl
  apply Yields.note rfl
  apply Yields.write (.ok 2) rfl
  apply Yields.note rfl
  exact .done rfl

/-- A repeated end of a sequence is read as an empty message, with no handover. -/
theorem not_handsOver_of_empty_read :
    ¬ ∀ (config : Config) (episodes : List Episode) (e e' : Engine) (room : Nat) (limit : Millis)
      (log : List Turn) (d : Delivery), Session ⟨config, {}, none, none⟩ episodes e →
        (e.read room limit).Yields log (.ok d, e') → d.bytes = [] → HandsOver log e' := by
  intro hlaw
  have hsession : Session ⟨narrow, {}, none, none⟩ [⟨.read 8 Millis.unlimited, _, _⟩]
      (hasRead 4 2) := .call yields_two_bytes (.nil _)
  obtain ⟨-, hsender⟩ := hlaw _ _ _ _ _ _ _ _ hsession yields_end_again rfl
  cases hsender

end Session

end StopAndWait
