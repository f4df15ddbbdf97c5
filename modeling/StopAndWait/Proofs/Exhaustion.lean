import StopAndWait.Proofs.Limits
import StopAndWait.Proofs.Rounds

namespace StopAndWait

def Surroundings.IsSteady (s : Surroundings) : Prop :=
  ∀ log, s.Answer [] log → Steady (instants log)

/-- A clock that stands still is not put back. -/
theorem Surroundings.isSteady_of_still {s : Surroundings} {instant : Instant}
    (h : ∀ past, s past .now = instant) : s.IsSteady := by
  intro log ha
  have hall : ∀ now ∈ instants log, now = instant := by
    intro now hnow
    obtain ⟨turn, ht, hread⟩ := List.mem_filterMap.1 hnow
    obtain ⟨past, request, rfl⟩ := ha.of_mem ht
    cases request with
    | now => exact (Option.some.inj hread).symm.trans (h past)
    | read | write | note => cases hread
  refine List.pairwise_of_forall_mem_list fun now hnow later hlater => ?_
  exact Nat.le_of_eq ((hall now hnow).trans (hall later hlater).symm)

namespace Call

def atOnce (e : Engine) : (call : Call) → Except Error call.Result
  | read room _ =>
    match e.exchange.pending with
    | oldest :: _ =>
      if room < oldest.length then .error (.bufferOverflow oldest.length room)
      else .ok (.message oldest)
    | [] =>
      if e.mode = .sender ∧ e.config.switching = .manual then .error (.incorrectMode .read .sender)
      else .error .timeout
  | write message _ =>
    if e.mode = .receiver then
      if e.config.switching = .manual then .error (.incorrectMode .write .receiver)
      else .error .timeout
    else if message = [] then .ok 0 else .error .timeout
  | waitForSend _ => if e.mode = .sender then .ok () else .error .timeout
  | waitForReceive _ => if e.mode = .receiver then .ok () else .error .timeout
  | switchToReceive _ | switchToSend _ => .error .timeout

def heldAtOnce (e : Engine) : Call → List Bytes
  | read room _ =>
    match e.exchange.pending with
    | oldest :: rest => if room < oldest.length then oldest :: rest else rest
    | [] => []
  | write _ _ | waitForSend _ | waitForReceive _ | switchToReceive _ | switchToSend _ =>
    e.exchange.pending

end Call

namespace Dialog

variable {α β : Type} {d : Dialog α} {since start : Instant} {result : α} {log : List Turn}

/-- As long as the clock is not put back behind `since`, the dialogue asks nothing but the time, and
ends with the result. -/
inductive Concludes {α : Type} : Instant → Dialog α → α → Prop
  | done {since : Instant} {d : Dialog α} {result : α} (view : d.view = .done result) :
    Concludes since d result
  | silent {since : Instant} {d next : Dialog α} {result : α} (view : d.view = .silent next)
    (later : Concludes since next result) : Concludes since d result
  | clock {since : Instant} {d : Dialog α} {next : Instant → Dialog α} {result : α}
    (view : d.view = .ask .now next)
    (later : ∀ now, since ≤ now → Concludes now (next now) result) : Concludes since d result

theorem concludes_pure : (pure result).Concludes since result := .done rfl

theorem Concludes.of_view {e : Dialog α} (h : d.Concludes since result) (hv : d.view = e.view) :
    e.Concludes since result := by
  cases h with
  | done view => exact .done (hv ▸ view)
  | silent view later => exact .silent (hv ▸ view) later
  | clock view later => exact .clock (hv ▸ view) later

theorem Concludes.mono (h : d.Concludes since result) {later : Instant} (hle : since ≤ later) :
    d.Concludes later result := by
  induction h with
  | done view => exact .done view
  | silent view _ ih => exact .silent view (ih hle)
  | clock view next _ => exact .clock view fun now hnow => next now (Nat.le_trans hle hnow)

theorem Concludes.bind {f : α → Dialog β} {result' : β} (h : d.Concludes since result)
    (h' : (f result).Concludes since result') : (d.bind f).Concludes since result' := by
  induction h with
  | done view => exact h'.of_view (by rw [view_bind, view])
  | silent view _ ih => exact .silent (by rw [view_bind, view]) (ih h')
  | clock view _ ih =>
    refine .clock (by rw [view_bind, view]) fun now hnow => ?_
    exact ih now hnow (h'.mono hnow)

/-- It ends with no other result. -/
theorem Concludes.unique {result' : α} (h : d.Concludes since result) (hy : d.Yields log result')
    (hs : Steady (since :: instants log)) : result' = result := by
  induction h generalizing log with
  | done view =>
    cases hy with
    | done view' => cases view.symm.trans view'; rfl
    | silent view' => cases view.symm.trans view'
    | ask answer view' => cases view.symm.trans view'
  | silent view _ ih =>
    cases hy with
    | done view' => cases view.symm.trans view'
    | silent view' later => cases view.symm.trans view'; exact ih later hs
    | ask answer view' => cases view.symm.trans view'
  | clock view _ ih =>
    cases hy with
    | done view' => cases view.symm.trans view'
    | silent view' => cases view.symm.trans view'
    | ask answer view' later =>
      cases view.symm.trans view'
      obtain ⟨hle, hrest⟩ := List.pairwise_cons.1 hs
      exact ih answer (hle answer List.mem_cons_self) later hrest

/-- It does come to its end, where the clock has not been put back before and will not be. -/
theorem Concludes.exists_yields (h : d.Concludes since result) {answers : Surroundings}
    (ha : answers.IsSteady) {past : List Turn} (hp : answers.Answer [] past)
    (hs : ∀ now, Steady (instants past ++ [now]) → since ≤ now) :
    ∃ log, d.Yields log result ∧ answers.Answer past log := by
  induction h generalizing past with
  | done view => exact ⟨[], .done view, trivial⟩
  | silent view _ ih =>
    obtain ⟨log, hy, hlog⟩ := ih hp hs
    exact ⟨log, .silent view hy, hlog⟩
  | @clock since d next result view _ ih =>
    let now : Instant := answers past .now
    have hnow : answers.Answer past [.now now] := ⟨⟨.now, rfl⟩, trivial⟩
    have hpast : answers.Answer [] (past ++ [.now now]) :=
      Surroundings.answer_append.2 ⟨hp, hnow⟩
    have hread : instants (past ++ [.now now]) = instants past ++ [now] :=
      instants_append past [.now now]
    have hle : since ≤ now := hs now (hread ▸ ha _ hpast)
    have hlast : ∀ later, Steady (instants (past ++ [.now now]) ++ [later]) → now ≤ later := by
      rw [hread]
      intro later hlater
      exact (List.pairwise_append.1 hlater).2.2 now (by simp) later (List.mem_singleton_self later)
    obtain ⟨log, hy, hlog⟩ := ih now hle hpast hlast
    exact ⟨.now now :: log, .now now view hy, ⟨.now, rfl⟩, hlog⟩

theorem concludes_start {f : Deadline → Dialog α}
    (h : ∀ now, since ≤ now → (f (Deadline.after 0 now)).Concludes now result) :
    ((Deadline.start 0).bind f).Concludes since result :=
  .clock rfl h

theorem concludes_hasExpired (hs : start ≤ since) :
    (Deadline.after 0 start).hasExpired.Concludes since true := by
  refine .clock rfl fun now hnow => ?_
  have hpassed : (Deadline.after 0 start).isExpired now = true :=
    Deadline.isExpired_after_zero (Nat.le_trans hs hnow)
  exact .done (congrArg View.done hpassed)

end Dialog

section Parts

open Dialog

variable {since start : Instant}

namespace Transmission

variable {policy : RetryPolicy}

theorem concludes_attempts (hs : start ≤ since) (frame : Bytes) (allowed : Nat)
    (r : Retransmission) :
    (attempts frame policy (Deadline.after 0 start) allowed r).Concludes since
      (.error .timeout) := by
  cases allowed with
  | zero | succ => exact (concludes_hasExpired hs).bind concludes_pure

/-- Only what has no frames is sent. -/
theorem concludes_sendFrames (hs : start ≤ since) (frames : List Frame)
    (metrics : TransmitMetrics) :
    (sendFrames policy (Deadline.after 0 start) frames metrics).Concludes since
      (if frames = [] then .ok metrics else .error .timeout) := by
  cases frames with
  | nil => exact concludes_pure
  | cons frame rest =>
    rw [if_neg (List.cons_ne_nil frame rest)]
    exact (concludes_attempts hs _ _ {}).bind concludes_pure

end Transmission

namespace Reception

theorem concludes_receive (hs : start ≤ since) (capacity : Nat) (replyTimeout : Millis)
    (r : Reception) :
    (receive capacity replyTimeout (Deadline.after 0 start) r).Concludes since
      (.error .timeout, r) := by
  have hround : (round capacity replyTimeout (Deadline.after 0 start) r).Concludes since
      (.inr (.error .timeout, r)) := (concludes_hasExpired hs).bind concludes_pure
  exact .silent rfl (hround.bind concludes_pure)

end Reception

namespace Engine

variable {target : Mode} {operation : Operation}

def inRole (e : Engine) (target : Mode) : Engine :=
  if e.mode = .undefined then e.withMode target else e

theorem pending_inRole (e : Engine) (target : Mode) :
    (e.inRole target).exchange.pending = e.exchange.pending := by
  unfold inRole
  split
  · rfl
  · rfl

theorem mode_inRole (e : Engine) (target : Mode) :
    (e.inRole target).mode = if e.mode = .undefined then target else e.mode := by
  unfold inRole
  split
  · rfl
  · rfl

theorem concludes_receive (hs : start ≤ since) (e : Engine) :
    (e.receive (Deadline.after 0 start)).Concludes since (.error .timeout, e) :=
  (Reception.concludes_receive hs _ _ ⟨e.exchange, {}⟩).bind concludes_pure

theorem concludes_awaitMode (hs : start ≤ since) (e : Engine) :
    (e.awaitMode target operation (Deadline.after 0 start)).Concludes since
      (if e.mode = target then .ok () else .error .timeout, e) := by
  unfold awaitMode
  by_cases hm : e.mode = target
  · rw [if_pos hm, if_pos hm]
    exact concludes_pure
  · rw [if_neg hm, if_neg hm]
    exact (concludes_receive hs e).bind concludes_pure

/-- The role is there or can be taken, or it is refused, or there is no time to wait for it. -/
theorem concludes_resolveMode (hs : start ≤ since) (e : Engine) :
    (e.resolveMode target operation (Deadline.after 0 start)).Concludes since
      (if e.mode = target ∨ e.mode = .undefined then .ok ()
        else if e.config.switching = .manual then .error (.incorrectMode operation e.mode)
        else .error .timeout, e.inRole target) := by
  by_cases hm : e.mode = target ∨ e.mode = .undefined
  · have hrole : e.inRole target = e.withMode target := by
      rcases hm with rfl | hm
      · exact ite_self _
      · exact if_pos hm
    rw [e.resolveMode_eq_pure hm, if_pos hm, hrole]
    exact concludes_pure
  · rw [if_neg hm]
    rw [not_or] at hm
    have hrole : e.inRole target = e := if_neg hm.2
    rw [hrole]
    cases hswitching : e.config.switching with
    | manual =>
      rw [resolveMode_eq_refused target hswitching hm.1 hm.2]
      exact concludes_pure
    | auto =>
      unfold resolveMode
      rw [if_neg hm.1, if_neg hm.2, hswitching]
      have hawait : (e.awaitMode target operation (Deadline.after 0 start)).Concludes since
          (if e.mode = target then .ok () else .error .timeout, e) := concludes_awaitMode hs e
      rw [if_neg hm.1] at hawait
      exact hawait.bind concludes_pure

theorem concludes_readExchange (hs : start ≤ since) (e : Engine) (room : Nat) :
    (e.readExchange room (Deadline.after 0 start)).Concludes since
      (if e.mode = .sender ∧ e.config.switching = .manual then
        .error (.incorrectMode .read .sender) else .error .timeout, e.inRole .receiver) := by
  have hresolve : (e.resolveMode .receiver .read (Deadline.after 0 start)).Concludes since _ :=
    concludes_resolveMode hs e
  cases hm : e.mode with
  | receiver | undefined =>
    rw [hm, if_pos (by simp)] at hresolve
    rw [if_neg (by simp)]
    exact hresolve.bind ((concludes_receive hs (e.inRole .receiver)).bind concludes_pure)
  | sender =>
    rw [hm, if_neg (by simp)] at hresolve
    by_cases hmanual : e.config.switching = .manual
    · rw [if_pos hmanual] at hresolve
      rw [if_pos ⟨rfl, hmanual⟩]
      exact hresolve.bind concludes_pure
    · rw [if_neg hmanual] at hresolve
      rw [if_neg fun h => hmanual h.2]
      exact hresolve.bind concludes_pure

theorem mapError_atOnce_write (e : Engine) (message : Bytes) (limit : Millis) :
    ((Call.write message limit).atOnce e).mapError Error.whileWriting =
      (Call.write message limit).atOnce e := by
  simp only [Call.atOnce]
  split
  · split
    · rfl
    · rfl
  · split
    · rfl
    · rfl

/-- Where the role need not be awaited, a message without bytes takes no time. -/
theorem concludes_writeExchange (e : Engine) (message : Bytes) :
    ∃ e', e'.exchange.pending = e.exchange.pending ∧ e'.mode = (e.inRole .sender).mode ∧
      ∀ {start since : Instant}, start ≤ since →
        (e.writeExchange message (Deadline.after 0 start)).Concludes since
          ((Call.write message 0).atOnce e, e') := by
  have hpending := e.pending_inRole .sender
  have hresolve {start since : Instant} (hs : start ≤ since) :
      (e.resolveMode .sender .write (Deadline.after 0 start)).Concludes since _ :=
    concludes_resolveMode hs e
  simp only [Call.atOnce]
  cases hm : e.mode with
  | receiver =>
    refine ⟨e.inRole .sender, hpending, rfl, fun hs => ?_⟩
    have hresolve := hresolve hs
    rw [hm, if_neg (by simp)] at hresolve
    rw [if_pos rfl]
    by_cases hmanual : e.config.switching = .manual
    · rw [if_pos hmanual] at hresolve ⊢
      exact hresolve.bind concludes_pure
    · rw [if_neg hmanual] at hresolve ⊢
      exact hresolve.bind concludes_pure
  | sender | undefined =>
    let e₁ := e.inRole .sender
    have hsend {start since : Instant} (hs : start ≤ since) :
        (Transmission.sendMessage message e₁.config.capacity e₁.config.send.retry
          (Deadline.after 0 start)).Concludes since _ :=
      Transmission.concludes_sendFrames hs (plan message e₁.config.capacity) {}
    by_cases hempty : message = []
    · subst hempty
      refine ⟨{ e₁ with lastTransmit := some {} }, hpending, rfl, fun hs => ?_⟩
      have hresolve := hresolve hs
      rw [hm, if_pos (by simp)] at hresolve
      rw [if_neg (by simp), if_pos rfl]
      exact hresolve.bind ((hsend hs).bind concludes_pure)
    · refine ⟨e₁, hpending, rfl, fun hs => ?_⟩
      have hresolve := hresolve hs
      have hsend := hsend hs
      rw [hm, if_pos (by simp)] at hresolve
      rw [if_neg fun h => hempty (plan_eq_nil.1 h)] at hsend
      rw [if_neg (by simp), if_neg hempty]
      exact hresolve.bind (hsend.bind concludes_pure)

/-- With nothing held, a read has nothing to hand out. -/
theorem concludes_read (e : Engine) (hp : e.exchange.pending = []) (room : Nat) :
    (e.read room 0).Concludes since
      (if e.mode = .sender ∧ e.config.switching = .manual then
        .error (.incorrectMode .read .sender) else .error .timeout,
        (e.reset.inRole .receiver).reset) := by
  rw [read_of_empty hp]
  refine concludes_start fun now _ => ?_
  have hexchange : (e.reset.readExchange room (Deadline.after 0 now)).Concludes now
      (if e.mode = .sender ∧ e.config.switching = .manual then
        .error (.incorrectMode .read .sender) else .error .timeout, e.reset.inRole .receiver) :=
    concludes_readExchange (Nat.le_refl now) e.reset room
  by_cases hrefused : e.mode = .sender ∧ e.config.switching = .manual
  · rw [if_pos hrefused] at hexchange ⊢
    exact hexchange.bind concludes_pure
  · rw [if_neg hrefused] at hexchange ⊢
    exact hexchange.bind concludes_pure

theorem concludes_write (e : Engine) (message : Bytes) :
    ∃ e', e'.exchange.pending = e.exchange.pending ∧ e'.mode = (e.inRole .sender).mode ∧
      (e.write message 0).Concludes since ((Call.write message 0).atOnce e, e') := by
  obtain ⟨e', hpending, hmode, hexchange⟩ := e.reset.concludes_writeExchange message
  refine ⟨e'.reset, hpending, hmode.trans ?_, concludes_start fun now _ => ?_⟩
  · rw [mode_inRole, mode_inRole]
    rfl
  · rw [← mapError_atOnce_write]
    exact (hexchange (Nat.le_refl now)).bind concludes_pure

theorem concludes_waitForMode (e : Engine) :
    (e.waitForMode target operation 0).Concludes since
      (if e.mode = target then .ok () else .error .timeout, e.reset) := by
  refine concludes_start fun now _ => ?_
  have hawait : (e.reset.awaitMode target operation (Deadline.after 0 now)).Concludes now
      (if e.mode = target then .ok () else .error .timeout, e.reset) :=
    concludes_awaitMode (Nat.le_refl now) e.reset
  by_cases hm : e.mode = target
  · rw [if_pos hm] at hawait ⊢
    exact hawait.bind concludes_pure
  · rw [if_neg hm] at hawait ⊢
    exact hawait.bind concludes_pure

theorem concludes_requestSwitch (e : Engine) (request : Control) (role : Mode) :
    (e.requestSwitch request role 0).Concludes since (.error .timeout, e.reset) := by
  refine concludes_start fun now _ => ?_
  exact (Transmission.concludes_attempts (Nat.le_refl now) request.encode _ {}).bind concludes_pure

/-- Every call with a limit of zero ends as it can at once. -/
theorem concludes_call (e : Engine) (call : Call) (hz : call.limit = 0) :
    ∃ e', e'.exchange.pending = call.heldAtOnce e ∧ e'.mode = call.opening e ∧
      (call.dialog e).Concludes 0 (call.atOnce e, e') := by
  cases call with
  | read room limit =>
    obtain rfl : limit = 0 := hz
    change ∃ e', _ ∧ _ ∧ (e.read room 0).Concludes 0 _
    cases hp : e.exchange.pending with
    | cons oldest rest =>
      simp only [read_of_pending hp, Call.heldAtOnce, Call.atOnce, Call.opening, hp, reduceCtorEq,
        and_false, if_false]
      split
      · exact ⟨e, hp, rfl, concludes_pure⟩
      · exact ⟨{ e with exchange := { e.exchange with pending := rest } }, rfl, rfl,
          concludes_pure⟩
    | nil =>
      simp only [Call.heldAtOnce, Call.atOnce, Call.opening, hp, and_true]
      exact ⟨(e.reset.inRole .receiver).reset, (e.reset.pending_inRole .receiver).trans hp,
        e.reset.mode_inRole .receiver, concludes_read e hp room⟩
  | write message limit =>
    obtain rfl : limit = 0 := hz
    obtain ⟨e', hpending, hmode, hwrite⟩ := e.concludes_write message
    exact ⟨e', hpending, hmode.trans (e.mode_inRole .sender), hwrite⟩
  | waitForSend limit =>
    obtain rfl : limit = 0 := hz
    exact ⟨e.reset, rfl, rfl, concludes_waitForMode e⟩
  | waitForReceive limit =>
    obtain rfl : limit = 0 := hz
    exact ⟨e.reset, rfl, rfl, concludes_waitForMode e⟩
  | switchToReceive limit =>
    obtain rfl : limit = 0 := hz
    exact ⟨e.reset, rfl, rfl, concludes_requestSwitch e .setSend .receiver⟩
  | switchToSend limit =>
    obtain rfl : limit = 0 := hz
    exact ⟨e.reset, rfl, rfl, concludes_requestSwitch e .setRecv .sender⟩

variable {e : Engine} {call : Call} {log : List Turn}

/-- A limit of zero leaves no time for the link. -/
theorem linkTurns_eq_nil (hz : call.limit = 0) (h : (call.dialog e).Begins log)
    (hs : Steady (instants log)) : linkTurns log = [] := by
  refine List.filter_eq_nil_iff.2 fun turn ht hlink => ?_
  obtain ⟨earlier, hearlier, hpermits⟩ := permits_of_mem (h.admits (keepsWaits_call e call)) hs ht
  have hpos : 0 < call.limit := by
    match turn with
    | .read room timeout answer => exact hpermits.1 hearlier
    | .write bytes timeout answer =>
      rcases hpermits with ⟨-, -, -, hopen⟩ | ⟨-, hopen, -⟩
      · exact hopen hearlier
      · exact hopen hearlier
    | .now _ | .note _ => cases hlink
  rw [hz] at hpos
  exact absurd hpos (by decide)

/-- A call with a limit of zero asks nothing of its link, as long as the clock is not put back. It
comes to an end, and always to the same: a read hands out the oldest message held or overflows the
room for it, a role that may not be awaited is refused, a message without bytes is written without a
wait, and there is no wait for a role that is there; all else is a timeout. Only the read takes
anything from the messages held, and this is the oldest where there is room for it. -/
theorem ends_at_once (e : Engine) (call : Call) (hz : call.limit = 0) :
    (∀ log, (call.dialog e).Begins log → Steady (instants log) → linkTurns log = []) ∧
    ∃ e', e'.exchange.pending = call.heldAtOnce e ∧ e'.mode = call.opening e ∧
      (∀ log finish, (call.dialog e).Yields log finish → Steady (instants log) →
        finish = (call.atOnce e, e')) ∧
      ∀ answers : Surroundings, answers.IsSteady →
        ∃ log, (call.dialog e).Yields log (call.atOnce e, e') ∧ answers.Answer [] log := by
  refine ⟨fun log => linkTurns_eq_nil hz, ?_⟩
  obtain ⟨e', hpending, hmode, hends⟩ := concludes_call e call hz
  refine ⟨e', hpending, hmode, fun log finish hy hs => ?_, fun answers ha => ?_⟩
  · exact hends.unique hy (List.pairwise_cons.2 ⟨fun now _ => Nat.zero_le now, hs⟩)
  · exact hends.exists_yields ha trivial fun now _ => Nat.zero_le now

/-- With its role to be awaited, a write is a timeout, although a message is held: on a link that is
closed and under a clock that stands still it ends so without a word. -/
theorem ends_at_once_of_awaited :
    let e : Engine := ⟨default, { mode := .receiver, pending := [[0x61]] }, none, none⟩
    ∃ log e', ((Call.write [] 0).dialog e).Yields log (.error .timeout, e') ∧
      e'.exchange.pending = [[0x61]] ∧ linkTurns log = [] := by
  intro e
  obtain ⟨hlink, e', hpending, -, -, hends⟩ := ends_at_once e (.write [] 0) rfl
  let answers := Surroundings.script [] fun _ _ => .error .closed
  have hsteady : answers.IsSteady := Surroundings.isSteady_of_still fun _ => rfl
  obtain ⟨log, hy, ha⟩ := hends answers hsteady
  exact ⟨log, e', hy, hpending, hlink log hy.begins (hsteady log ha)⟩

end Engine

end Parts

end StopAndWait
