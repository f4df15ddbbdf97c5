import StopAndWait.Proofs.Custody

namespace StopAndWait

open Dialog

structure Report where
  call : Call
  result : Except Error call.Result
  role : Mode
  held : List Bytes

namespace Engine

variable {α β : Type} {e e' f : Engine} {log : List Turn}

def perform : Engine → List Call → Dialog (List Report)
  | _, [] => return []
  | e, call :: rest => do
    let (result, e') ← call.dialog e
    return ⟨call, result, e'.mode, e'.exchange.pending⟩ :: (← e'.perform rest)

def bare (e : Engine) : Engine := { e with lastTransmit := none, lastReceive := none }

theorem bare_eq_bare (hc : e.config = f.config) (hx : e.exchange = f.exchange) :
    e.bare = f.bare := by
  simp only [bare, hc, hx]

def bareEnd (finish : End α) : End α := (finish.1, finish.2.bare)

def bared (d : Dialog (End α)) : Dialog (End α) := d.bind fun finish => .pure (bareEnd finish)

theorem bind_bared {d : Dialog (End α)} {g : End α → Dialog β}
    (hg : ∀ finish, g (bareEnd finish) = g finish) : (bared d).bind g = d.bind g := by
  unfold bared
  rw [Dialog.bind_assoc]
  congr 1
  funext finish
  exact hg finish

/-- Where neither the counts before nor those in between make a difference, they make none at all.
-/
theorem bared_bind {d d' : Dialog (End α)} {g : End α → Dialog (End β)} (hd : bared d = bared d')
    (hg : ∀ finish, bared (g (bareEnd finish)) = bared (g finish)) :
    bared (d.bind g) = bared (d'.bind g) := by
  have hout : ∀ d : Dialog (End α), bared (d.bind g) = (bared d).bind fun finish =>
      bared (g finish) := by
    intro d
    rw [bind_bared hg]
    exact Dialog.bind_assoc d g _
  rw [hout, hout, hd]

theorem bared_start {limit : Millis} {g g' : Deadline → Dialog (End α)}
    (h : ∀ deadline, bared (g deadline) = bared (g' deadline)) :
    bared ((Deadline.start limit).bind g) = bared ((Deadline.start limit).bind g') := by
  unfold bared at h ⊢
  simp only [Dialog.bind_assoc, h]

theorem bared_receive (e : Engine) (deadline : Deadline) :
    bared (e.bare.receive deadline) = bared (e.receive deadline) := by
  simp only [bared, receive, monad_bind, monad_pure, Dialog.bind_assoc]
  congr 1
  funext finish
  obtain ⟨result, r⟩ := finish
  cases result <;> rfl

theorem bared_awaitMode (e : Engine) (target : Mode) (operation : Operation) (deadline : Deadline) :
    bared (e.bare.awaitMode target operation deadline) =
      bared (e.awaitMode target operation deadline) := by
  unfold awaitMode
  by_cases hm : e.mode = target
  · rw [if_pos hm, if_pos (show e.bare.mode = target from hm)]
    rfl
  · rw [if_neg hm, if_neg (show ¬ e.bare.mode = target from hm)]
    apply bared_bind (e.bared_receive deadline)
    rintro ⟨result, e'⟩
    cases result with
    | error error => rfl
    | ok what =>
      cases what with
      | message => rfl
      | switched mode =>
        simp only [bareEnd]
        split <;> rfl

theorem bared_resolveMode (e : Engine) (target : Mode) (operation : Operation)
    (deadline : Deadline) :
    bared (e.bare.resolveMode target operation deadline) =
      bared (e.resolveMode target operation deadline) := by
  unfold resolveMode
  by_cases hm : e.mode = target
  · rw [if_pos hm, if_pos (show e.bare.mode = target from hm)]
    rfl
  · rw [if_neg hm, if_neg (show ¬ e.bare.mode = target from hm)]
    by_cases hu : e.mode = .undefined
    · rw [if_pos hu, if_pos (show e.bare.mode = .undefined from hu)]
      rfl
    · rw [if_neg hu, if_neg (show ¬ e.bare.mode = .undefined from hu)]
      have hbare : e.bare.config.switching = e.config.switching := rfl
      rw [hbare]
      cases e.config.switching with
      | manual => rfl
      | auto =>
        apply bared_bind (e.bared_awaitMode target operation deadline)
        rintro ⟨result, e'⟩
        cases result <;> rfl

theorem bared_readExchange (e : Engine) (room : Nat) (deadline : Deadline) :
    bared (e.bare.readExchange room deadline) = bared (e.readExchange room deadline) := by
  apply bared_bind (e.bared_resolveMode .receiver .read deadline)
  rintro ⟨resolved, e₁⟩
  cases resolved with
  | error error => rfl
  | ok =>
    apply bared_bind (e₁.bared_receive deadline)
    rintro ⟨received, e₂⟩
    match received with
    | .error error => rfl
    | .ok (.switched mode) => rfl
    | .ok .message => rfl

theorem bared_writeExchange (e : Engine) (message : Bytes) (deadline : Deadline) :
    bared (e.bare.writeExchange message deadline) = bared (e.writeExchange message deadline) := by
  apply bared_bind (e.bared_resolveMode .sender .write deadline)
  rintro ⟨resolved, e₁⟩
  cases resolved with
  | error error => rfl
  | ok =>
    simp only [bareEnd, bared, monad_bind, Dialog.bind_assoc]
    congr 1
    funext sent
    cases sent <;> rfl

theorem bared_finish {view : Error → Error} {d d' : Dialog (End α)} (h : bared d = bared d') :
    bared (d.bind fun finish => .pure (Engine.finish view finish)) =
      bared (d'.bind fun finish => .pure (Engine.finish view finish)) :=
  bared_bind h fun _ => rfl

/-- No call looks at the counts. -/
theorem bared_call (e : Engine) (call : Call) :
    bared (call.dialog e.bare) = bared (call.dialog e) := by
  cases call with
  | read room limit =>
    change bared (e.bare.read room limit) = bared (e.read room limit)
    cases hp : e.exchange.pending with
    | nil =>
      rw [read_of_empty hp, read_of_empty (show e.bare.exchange.pending = [] from hp)]
      exact bared_start fun deadline => bared_finish (e.reset.bared_readExchange room deadline)
    | cons oldest rest =>
      rw [read_of_pending hp, read_of_pending (show e.bare.exchange.pending = _ from hp)]
      split <;> rfl
  | write message limit =>
    exact bared_start fun deadline => bared_finish (e.reset.bared_writeExchange message deadline)
  | waitForSend limit | waitForReceive limit =>
    exact bared_start fun deadline => bared_finish (e.reset.bared_awaitMode _ _ deadline)
  | switchToReceive limit | switchToSend limit =>
    refine bared_start fun deadline => ?_
    simp only [bared, monad_bind, Dialog.bind_assoc]
    congr 1
    funext sent
    cases sent <;> rfl

theorem perform_bare (e : Engine) (calls : List Call) : e.bare.perform calls = e.perform calls := by
  induction calls generalizing e with
  | nil => rfl
  | cons call rest ih =>
    simp only [perform, monad_bind]
    -- The further calls do not look at the counts that the first one leaves.
    rw [← bind_bared (d := call.dialog e), ← bind_bared (d := call.dialog e.bare), bared_call]
    all_goals
      rintro ⟨result, e'⟩
      simp only [bareEnd, ih]
      rfl

/-- Settings, role and held messages decide, where no message is under way. -/
theorem perform_eq (hc : e.config = f.config) (hm : e.mode = f.mode)
    (hp : e.exchange.pending = f.exchange.pending) (he : e.exchange.IsIdle)
    (hf : f.exchange.IsIdle) (calls : List Call) : e.perform calls = f.perform calls := by
  have hx : e.exchange = f.exchange := by
    obtain ⟨hs, hi, hb⟩ := he
    obtain ⟨hs', hi', hb'⟩ := hf
    cases hxe : e.exchange
    cases hxf : f.exchange
    simp_all [mode]
  rw [← e.perform_bare, ← f.perform_bare, bare_eq_bare hc hx]

theorem isIdle_of_yields {call : Call} {result : Except Error call.Result}
    (h : (call.dialog e).Yields log (result, e')) (he : e.exchange.IsIdle) :
    e'.exchange.IsIdle := by
  cases call with
  | read room limit =>
    have hread : (e.read room limit).Yields log (result, e') := h
    cases hp : e.exchange.pending with
    | cons oldest rest =>
      rw [read_of_pending hp] at hread
      split at hread
      · obtain ⟨-, -, rfl⟩ := Yields.returned hread
        exact he
      · obtain ⟨-, -, rfl⟩ := Yields.returned hread
        exact he
    | nil =>
      rw [read_of_empty hp] at hread
      obtain ⟨deadline, _, _, -, -, hread⟩ := yields_bind.1 hread
      obtain ⟨⟨exchanged, e₁⟩, _, _, -, -, hread⟩ := yields_bind.1 hread
      obtain ⟨-, -, rfl⟩ := Yields.returned hread
      exact e₁.exchange.isIdle_reset
  | write | waitForSend | waitForReceive =>
    obtain ⟨deadline, _, _, -, -, h⟩ := yields_bind.1 h
    obtain ⟨⟨exchanged, e₁⟩, _, _, -, -, h⟩ := yields_bind.1 h
    obtain ⟨-, -, rfl⟩ := Yields.returned h
    exact e₁.exchange.isIdle_reset
  | switchToReceive | switchToSend =>
    obtain ⟨deadline, _, _, -, -, h⟩ := yields_bind.1 h
    obtain ⟨sent, _, _, -, -, h⟩ := yields_bind.1 h
    cases sent with
    | error error =>
      obtain ⟨-, -, rfl⟩ := Yields.returned h
      exact e.exchange.isIdle_reset
    | ok n =>
      obtain ⟨-, -, rfl⟩ := Yields.returned h
      exact e.exchange.isIdle_reset

end Engine

namespace Session

open Engine

variable {e e' f : Engine} {episodes episodes' : List Episode} {config config' : Config}

theorem isIdle (h : Session e episodes e') (he : e.exchange.IsIdle) : e'.exchange.IsIdle := by
  induction h with
  | nil e => exact he
  | call yields later ih => exact ih (isIdle_of_yields yields he)

/-- Nothing of an exchange is left over when a call has ended, whatever it ended with. So engines
with the same settings, role and held messages answer alike to all calls to come, request by request
and report by report, whatever their histories were. -/
theorem renewal (he : Session ⟨config, {}, none, none⟩ episodes e)
    (hf : Session ⟨config', {}, none, none⟩ episodes' f) :
    e.exchange.IsIdle ∧ (e.config = f.config → e.mode = f.mode →
      e.exchange.pending = f.exchange.pending → ∀ calls, e.perform calls = f.perform calls) := by
  have hstart : Exchange.IsIdle {} := ⟨rfl, rfl, rfl⟩
  have hidle := he.isIdle hstart
  exact ⟨hidle, fun hc hm hp => perform_eq hc hm hp hidle (hf.isIdle hstart)⟩

-- The checksums of the buffers are worked out here.
set_option maxRecDepth 8000

/-- One engine has read a whole message, the other has lost its link in the middle of one. -/
theorem renewal_of_broken_read :
    ∃ episodes episodes' e f, Session ⟨default, {}, none, none⟩ episodes e ∧
      Session ⟨default, {}, none, none⟩ episodes' f ∧ e.lastReceive ≠ f.lastReceive ∧
      f.exchange.IsIdle ∧ ∀ calls, f.perform calls = e.perform calls := by
  have hwhole : (Engine.read ⟨default, {}, none, none⟩ 1 Millis.unlimited).Yields
      (Reception.answering 1024 Millis.unlimited (Frame.data 1 [0x61]).encode .ack 200 ++
        [.note (.completed [0x61])])
      (.ok (.message [0x61]),
        ⟨default, { mode := .receiver }, none, some { frames := 1, acks := 1, bytes := 1 }⟩) := by
    apply Yields.silent rfl
    apply Yields.read (.ok (Frame.data 1 [0x61]).encode) rfl
    apply Yields.note rfl
    apply Yields.write (.ok 2) rfl
    apply Yields.note rfl
    exact .done rfl
  have hbroken : (Engine.read ⟨default, {}, none, none⟩ 1 Millis.unlimited).Yields
      (Reception.answering 1024 Millis.unlimited (Frame.control .seqBegin).encode .ack 200 ++
        Reception.answering 1024 Millis.unlimited (Frame.data 1 [0x61]).encode .ack 200 ++
          [.read 1024 Millis.unlimited (.error .closed)])
      (.error (.readFailed (.link .closed)), ⟨default, { mode := .receiver }, none, none⟩) := by
    apply Yields.silent rfl
    apply Yields.read (.ok (Frame.control .seqBegin).encode) rfl
    apply Yields.note rfl
    apply Yields.write (.ok 2) rfl
    apply Yields.silent rfl
    apply Yields.read (.ok (Frame.data 1 [0x61]).encode) rfl
    apply Yields.note rfl
    apply Yields.write (.ok 2) rfl
    apply Yields.silent rfl
    apply Yields.read (.error .closed) rfl
    exact .done rfl
  have he : Session ⟨default, {}, none, none⟩ [⟨.read 1 Millis.unlimited, _, _⟩] _ :=
    .call hwhole (.nil _)
  have hf : Session ⟨default, {}, none, none⟩ [⟨.read 1 Millis.unlimited, _, _⟩] _ :=
    .call hbroken (.nil _)
  obtain ⟨hidle, hsame⟩ := renewal hf he
  exact ⟨_, _, _, _, he, hf, nofun, hidle, hsame rfl rfl rfl⟩

end Session

end StopAndWait
