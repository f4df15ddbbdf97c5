import StopAndWait.Engine.Calls
import StopAndWait.Proofs.Contract

namespace StopAndWait

structure Sending where
  -- The frames not yet acknowledged.
  left : List Frame
  -- How often the first of them was written.
  used : Nat := 0
  -- Whether its verdict is due.
  awaiting : Bool := false

namespace Config

theorem maxAttempts_pos (c : Config) : 0 < c.send.retry.maxAttempts.toNat := by
  obtain ⟨-, -, hne, -⟩ := (Settings.fault?_eq_none_iff _).1 c.faultless
  exact Nat.pos_of_ne_zero fun h0 => hne (UInt32.toNat_inj.1 h0)

theorem exists_maxAttempts_eq (c : Config) :
    ∃ allowed, c.send.retry.maxAttempts.toNat = allowed + 1 :=
  Nat.exists_eq_add_one.2 c.maxAttempts_pos

theorem controlSize_le_mtu (c : Config) : Frame.controlSize ≤ c.send.mtu :=
  Nat.le_trans (by decide) c.mtu_bounds.1

end Config

theorem Control.take_encode {capacity : Nat} (hc : Frame.controlSize ≤ capacity) (kind : Control) :
    kind.encode.take capacity = kind.encode := by
  apply List.take_of_length_le
  rwa [Control.length_encode]

/-- Of all replies only the acknowledgment is taken for one. -/
theorem Verdict.ofBytes_encode (kind : Control) :
    (Verdict.ofBytes kind.encode == .ack) = (kind == .ack) := by
  have hi : isIntact kind.encode = true := Frame.isIntact_encode (.control kind)
  have hh : kind.encode.head? = some kind.code := rfl
  simp only [ofBytes, Control.isWrittenAs, hi, hh, Control.length_encode]
  cases kind <;> rfl

namespace Sending

def written (s : Sending) (length : Nat) : Except LinkError Nat → Sending
  | .ok n => { s with used := s.used + 1, awaiting := n == length }
  | .error _ => { s with used := s.used + 1 }

def judged (s : Sending) (acked : Bool) : Sending :=
  if acked then ⟨s.left.tail, 0, false⟩ else { s with awaiting := false }

def acked : Except LinkError Bytes → Bool
  | .ok bytes => Verdict.ofBytes bytes == .ack
  | .error _ => false

theorem acked_encode {capacity : Nat} (hc : Frame.controlSize ≤ capacity) (kind : Control) :
    acked (.ok (kind.encode.take capacity)) = (kind == .ack) := by
  simp only [acked, Control.take_encode hc, Verdict.ofBytes_encode]

def contract (attempts : Nat) (limited : Prop) : Contract Sending where
  permits s
    | .write bytes _ => s.awaiting = false ∧ s.used < attempts ∧
        ∃ frame rest, s.left = frame :: rest ∧ bytes = frame.encode
    | .read capacity _ => s.awaiting = true ∧ Frame.controlSize ≤ capacity
    | .now => limited
    | .note _ => False
  mayLoop _ := False
  next s
    | .write bytes _ => s.written bytes.length
    | .read _ _ => fun answer => s.judged (acked answer)
    | .now => fun _ => s
    | .note _ => fun _ => s

theorem left_judged_suffix (s : Sending) (acked : Bool) : (s.judged acked).left <:+ s.left := by
  cases acked with
  | true => exact List.tail_suffix s.left
  | false => exact List.suffix_refl s.left

def Broken (attempts : Nat) (limited : Prop) (s : Sending) : Prop :=
  s.awaiting = false ∧ s.left ≠ [] ∧ (limited ∨ s.used = attempts)

end Sending

namespace Transmission

open Dialog

variable {budget : Nat} {limited : Prop} {s : Sending}

theorem honours_awaitVerdict {capacity : Nat} (ha : s.awaiting = true)
    (hc : Frame.controlSize ≤ capacity) (timeout : Millis) :
    Honours (Sending.contract budget limited)
      (fun s' verdict => s' = s.judged (verdict.toOption == some .ack))
      s (awaitVerdict capacity timeout) := by
  refine honours_ask ⟨ha, hc⟩ fun answer => ?_
  -- Whatever is no acknowledgment is judged alike.
  match answer with
  | .ok bytes => exact honours_pure rfl
  | .error .timeout | .error .closed | .error (.system _) => exact honours_pure rfl

theorem honours_attempt {frame : Frame} {rest : List Frame} (hl : s.left = frame :: rest)
    (ha : s.awaiting = false) (hu : s.used < budget) (timeout : Millis) :
    Honours (Sending.contract budget limited)
      (fun s' acked => s' = if acked then ⟨rest, 0, false⟩ else { s with used := s.used + 1 })
      s (attempt frame.encode timeout) := by
  obtain ⟨left, used, awaiting⟩ := s
  dsimp only at hl ha hu
  subst hl ha
  refine honours_ask ⟨rfl, hu, frame, rest, rfl, rfl⟩ fun answer => ?_
  match answer with
  | .error e => exact honours_pure rfl
  | .ok n =>
    simp only [pure_bind, monad_bind, monad_pure]
    by_cases hn : n = frame.encode.length
    · rw [if_pos hn]
      subst hn
      refine Honours.bind (honours_awaitVerdict ?_ ?_ timeout) fun s' verdict hs' => ?_
      · simp [Sending.contract, Sending.written]
      · decide
      · subst hs'
        match verdict with
        | .ok .ack | .ok .nack | .ok .missing | .error _ => exact honours_pure rfl
    -- Not written whole: no verdict is awaited, and the attempt is used up.
    · rw [if_neg hn]
      exact honours_pure (by simpa [Sending.contract, Sending.written] using hn)

theorem honours_attempts {frame : Frame} {rest : List Frame} (policy : RetryPolicy)
    {deadline : Deadline} (hd : deadline.expiry ≠ none → limited) (allowed : Nat)
    (r : Retransmission) (hl : s.left = frame :: rest) (ha : s.awaiting = false)
    (hu : s.used + allowed = budget) :
    Honours (Sending.contract budget limited)
      (fun s' result => (∀ n, result = .ok n → s' = ⟨rest, 0, false⟩) ∧
        ∀ e, result = .error e → Sending.Broken budget limited s')
      s (attempts frame.encode policy deadline allowed r) := by
  -- By induction on the attempts left: with those used they make up the budget.
  induction allowed generalizing s r with
  | zero =>
    apply Honours.bind (honours_hasExpired id (fun _ => rfl) hd)
    intro s' expired hends
    obtain ⟨rfl, he⟩ := hends
    cases expired with
    | true => exact honours_pure ⟨nofun, fun _ _ => ⟨ha, by simp [hl], .inl (he rfl)⟩⟩
    | false => exact honours_pure ⟨nofun, fun _ _ => ⟨ha, by simp [hl], .inr hu⟩⟩
  | succ allowed ih =>
    apply Honours.bind (honours_hasExpired id (fun _ => rfl) hd)
    intro s' expired hends
    obtain ⟨rfl, he⟩ := hends
    cases expired with
    | true => exact honours_pure ⟨nofun, fun _ _ => ⟨ha, by simp [hl], .inl (he rfl)⟩⟩
    | false =>
      -- There is time and an attempt left; the wait is cut down to the deadline.
      have hclamp : Honours (Sending.contract budget limited) (fun s'' _ => s'' = s') s'
          (deadline.consult (deadline.clamp (r.nextTimeout policy))) :=
        honours_consult id (fun _ => rfl) hd fun _ => rfl
      apply hclamp.bind
      rintro s'' timeout rfl
      apply Honours.bind (honours_attempt hl ha (by omega) timeout)
      rintro s' acked rfl
      cases acked with
      | true => exact honours_pure ⟨fun _ _ => rfl, nofun⟩
      | false => exact ih r.record hl ha (by simp only [Bool.false_eq_true, if_false]; omega)

theorem honours_sendFrames {policy : RetryPolicy} (hb : policy.maxAttempts.toNat = budget)
    {deadline : Deadline} (hd : deadline.expiry ≠ none → limited) (frames : List Frame)
    (metrics : TransmitMetrics) :
    Honours (Sending.contract budget limited)
      (fun s' result => (∀ m, result = .ok m → s' = ⟨[], 0, false⟩) ∧
        ∀ e, result = .error e → Sending.Broken budget limited s')
      ⟨frames, 0, false⟩ (sendFrames policy deadline frames metrics) := by
  -- By induction on the frames: each begins with no attempt used.
  induction frames generalizing metrics with
  | nil => exact honours_pure ⟨fun _ _ => rfl, by simp⟩
  | cons frame rest ih =>
    refine Honours.bind (honours_attempts policy hd _ {} rfl rfl ?_) ?_
    · simpa [Retransmission.remaining] using hb
    · intro s' result hends
      obtain ⟨hok, herror⟩ := hends
      cases result with
      | ok n =>
        rw [hok n rfl]
        exact ih _
      | error e => exact honours_pure ⟨by simp, fun _ _ => herror e rfl⟩

/-- A whole message is sent under the contract, whatever its deadline. -/
theorem honours_sendMessage (message : Bytes) (capacity : Nat) (policy : RetryPolicy)
    (deadline : Deadline) :
    Honours (Sending.contract policy.maxAttempts.toNat (deadline.expiry ≠ none))
      (fun s' result => (∀ m, result = .ok m → s' = ⟨[], 0, false⟩) ∧
        ∀ e, result = .error e →
          Sending.Broken policy.maxAttempts.toNat (deadline.expiry ≠ none) s')
      ⟨plan message capacity, 0, false⟩ (sendMessage message capacity policy deadline) :=
  honours_sendFrames rfl id (plan message capacity) {}

end Transmission

namespace Engine

open Dialog

theorem resolveMode_eq_pure (e : Engine) {target : Mode} (he : e.mode = target ∨ e.mode = .undefined)
    (operation : Operation) (deadline : Deadline) :
    e.resolveMode target operation deadline = .pure (.ok (), e.withMode target) := by
  unfold resolveMode
  by_cases h : e.mode = target
  · rw [if_pos h]
    subst h
    rfl
  · rw [if_neg h, if_pos (he.resolve_left h)]
    rfl

def sent (e : Engine) (message : Bytes) : Except Error TransmitMetrics → End Nat
  | .ok metrics =>
    (.ok message.length, { (e.withMode .sender).reset with lastTransmit := some metrics })
  | .error error => (.error (Error.whileWriting error), (e.withMode .sender).reset)

/-- A write of an engine that may send: it sends the frames of the plan. -/
theorem write_eq (e : Engine) (he : e.mode ≠ .receiver) (message : Bytes) (limit : Millis) :
    e.write message limit = (Deadline.start limit).bind fun deadline =>
      (Transmission.sendFrames e.config.send.retry deadline (plan message e.config.capacity) {}).bind
        fun result => .pure (e.sent message result) := by
  -- The engine has the role or takes it, and asks nothing for it.
  have hm : e.reset.mode = .sender ∨ e.reset.mode = .undefined := by
    change e.mode = _ ∨ e.mode = _
    cases h : e.mode <;> simp_all
  unfold write
  simp only [writeExchange, resolveMode_eq_pure _ hm, monad_bind, monad_pure, Dialog.pure_bind,
    Dialog.bind_assoc]
  congr 1
  funext deadline
  congr 1
  funext result
  -- Both sides end alike, whatever the frames came to.
  cases result with
  | ok metrics => rfl
  | error error => rfl

structure WriteEnded (config : Config) (message : Bytes) (limited : Prop) (s : Sending)
    (finish : End Nat) : Prop where
  settings : finish.2.config = config
  role : finish.2.mode = .sender
  whole : ∀ n, finish.1 = .ok n → s = ⟨[], 0, false⟩ ∧ n = message.length
  broken : ∀ e, finish.1 = .error e → s.Broken config.send.retry.maxAttempts.toNat limited

/-- A write of an engine that may send works off the plan of its message. -/
theorem honours_write (e : Engine) (he : e.mode ≠ .receiver) (message : Bytes) (limit : Millis) :
    Honours
      (Sending.contract e.config.send.retry.maxAttempts.toNat (limit ≠ Millis.unlimited))
      (WriteEnded e.config message (limit ≠ Millis.unlimited))
      ⟨plan message e.config.capacity, 0, false⟩ (e.write message limit) := by
  rw [e.write_eq he]
  apply Honours.bind (honours_start id (fun _ => rfl) id)
  intro s deadline hends
  obtain ⟨rfl, hd⟩ := hends
  apply Honours.bind (Transmission.honours_sendFrames rfl hd _ _)
  intro s result hends
  obtain ⟨hok, herror⟩ := hends
  apply honours_pure
  cases result with
  | ok metrics => exact ⟨rfl, rfl, fun n hn => ⟨hok _ rfl, (Except.ok.inj hn).symm⟩, nofun⟩
  | error error => exact ⟨rfl, rfl, nofun, fun _ _ => herror _ rfl⟩

end Engine

end StopAndWait
