import StopAndWait.Proofs.Sketch

namespace StopAndWait

open Dialog

inductive SenderAt (p : Pair) (r : Regime) : Activity Bytes Nat → Option (Bytes × Sending) → Prop
  | resting {e : Engine} (settings : e.config = p.sender) (role : e.mode ≠ .receiver) :
    SenderAt p r (.resting e) none
  | calling {message : Bytes} {d : Dialog (Engine.End Nat)} {s : Sending} {limited : Prop}
    (hasty : limited → r.hastySender = true)
    (honours : Honours (Sending.contract p.sender.send.retry.maxAttempts.toNat limited)
      (Engine.WriteEnded p.sender message limited) s d) :
    SenderAt p r (.calling message d) (some (message, s))

inductive ReceiverAt (p : Pair) (r : Regime) :
    Activity Nat Delivery → Option Receiving → List Bytes → Prop
  | resting {e : Engine} (settings : e.config = p.receiver) (role : e.mode ≠ .sender) :
    ReceiverAt p r (.resting e) none e.exchange.pending
  | calling {room : Nat} {d : Dialog (Engine.End Delivery)} {stage : Receiving} {limited : Prop}
    {held : List Bytes} (hasty : limited → r.hastyReceiver = true)
    (honours : Honours (Receiving.contract p.receiver.send.mtu limited)
      (Engine.ReadEnded p.receiver held limited) stage d) :
    ReceiverAt p r (.calling room d) (some stage) (held ++ stage.gathered)

namespace World

variable {p : Pair} {r : Regime} {w w' : World}

def sketch (w : World) (sending : Option (Bytes × Sending)) (receiving : Option Receiving) :
    Sketch where
  sending
  receiving
  outbound := w.outbound
  inbound := w.inbound
  written := w.written
  outcomes := w.outcomes
  completed := w.completed

structure StandsAt (p : Pair) (r : Regime) (w : World) (sending : Option (Bytes × Sending))
    (receiving : Option Receiving) : Prop where
  sender : SenderAt p r w.sender sending
  receiver : ∃ unread, ReceiverAt p r w.receiver receiving unread ∧
    w.completed = w.returned ++ unread

def Follows (p : Pair) (r : Regime) (a : Sketch) (w' : World) : Prop :=
  ∃ sending receiving, StandsAt p r w' sending receiving ∧
    (w'.sketch sending receiving = a ∨ Sketch.Step p r a (w'.sketch sending receiving))

section Sender

variable {message : Bytes} {d : Dialog (Engine.End Nat)} {sending : Option (Bytes × Sending)}
  {receiving : Option Receiving}

theorem StandsAt.write_honours (h : StandsAt p r w sending receiving)
    (hc : w.sender = .calling message d) :
    ∃ s limited, sending = some (message, s) ∧ (limited → r.hastySender = true) ∧
      Honours (Sending.contract p.sender.send.retry.maxAttempts.toNat limited)
        (Engine.WriteEnded p.sender message limited) s d := by
  have hs := h.sender
  rw [hc] at hs
  cases hs with
  | calling hasty honours => exact ⟨_, _, rfl, hasty, honours⟩

theorem follows_write {e : Engine} (h : StandsAt p r w sending receiving) (message : Bytes)
    (limit : Millis) (hr : w.sender = .resting e)
    (hp : r.hastySender = false → limit = Millis.unlimited) :
    Follows p r (w.sketch sending receiving)
      { w with sender := .calling message (e.write message limit)
               written := w.written ++ [message] } := by
  have hs := h.sender
  rw [hr] at hs
  cases hs with
  | resting settings role =>
    have hw := e.honours_write role message limit
    rw [settings] at hw
    have hasty : limit ≠ Millis.unlimited → r.hastySender = true := by
      intro hl
      cases hb : r.hastySender with
      | true => rfl
      | false => exact absurd (hp hb) hl
    exact ⟨_, receiving, ⟨.calling hasty hw, h.receiver⟩, .inr (.write message rfl)⟩

theorem follows_senderPasses {d' : Dialog (Engine.End Nat)} {notice : Option Notice}
    (h : StandsAt p r w sending receiving) (hc : w.sender = .calling message d)
    (hd : d.Passes w.clock notice d') :
    Follows p r (w.sketch sending receiving) { w with sender := .calling message d' } := by
  obtain ⟨s, limited, rfl, hasty, honours⟩ := h.write_honours hc
  cases hd with
  -- A write has no loop and keeps no journal.
  | silent view => exact (honours.silent view).1.elim
  | note view => exact (honours.permits view).elim
  | now view =>
    have hn := honours.answer view w.clock
    exact ⟨some (message, s), receiving, ⟨.calling hasty hn, h.receiver⟩, .inl rfl⟩

theorem follows_transmit {bytes : Bytes} {outbound : List Bytes} {timeout : Millis}
    {next : Except LinkError Nat → Dialog (Engine.End Nat)}
    (h : StandsAt p r w sending receiving) (hc : w.sender = .calling message d)
    (view : d.view = .ask (.write bytes timeout) next)
    (carried : outbound = w.outbound ++ [bytes] ∨ r.lossy = true ∧ outbound = w.outbound) :
    Follows p r (w.sketch sending receiving)
      { w with sender := .calling message (next (.ok bytes.length)), outbound } := by
  obtain ⟨s, limited, rfl, hasty, honours⟩ := h.write_honours hc
  obtain ⟨left, used, awaiting⟩ := s
  obtain ⟨ha, hu, frame, rest, hl, hb⟩ := honours.permits view
  dsimp only at ha hu hl
  subst ha hl hb
  have hn := honours.answer view (.ok frame.encode.length)
  simp only [Sending.contract, Sending.written, beq_self_eq_true] at hn
  exact ⟨_, receiving, ⟨.calling hasty hn, h.receiver⟩, .inr (.transmit rfl hu carried)⟩

theorem follows_getVerdict {bytes : Bytes} {rest : List Bytes} {capacity : Nat}
    {timeout : Millis} {next : Except LinkError Bytes → Dialog (Engine.End Nat)}
    (h : StandsAt p r w sending receiving) (hc : w.sender = .calling message d)
    (view : d.view = .ask (.read capacity timeout) next) (hi : w.inbound = bytes :: rest) :
    Follows p r (w.sketch sending receiving)
      { w with sender := .calling message (next (.ok (bytes.take capacity))), inbound := rest } := by
  obtain ⟨s, limited, rfl, hasty, honours⟩ := h.write_honours hc
  obtain ⟨ha, hroom⟩ := honours.permits view
  have hn := honours.answer view (.ok (bytes.take capacity))
  exact ⟨_, receiving, ⟨.calling hasty hn, h.receiver⟩, .inr (.getVerdict rfl ha hi hroom)⟩

theorem follows_waitInVain {capacity : Nat} {timeout : Millis}
    {next : Except LinkError Bytes → Dialog (Engine.End Nat)} (error : LinkError)
    (h : StandsAt p r w sending receiving) (hc : w.sender = .calling message d)
    (view : d.view = .ask (.read capacity timeout) next) (hr : r.hastySender = true) :
    Follows p r (w.sketch sending receiving)
      { w with sender := .calling message (next (.error error)) } := by
  obtain ⟨s, limited, rfl, hasty, honours⟩ := h.write_honours hc
  obtain ⟨ha, -⟩ := honours.permits view
  have hn := honours.answer view (.error error)
  exact ⟨_, receiving, ⟨.calling hasty hn, h.receiver⟩, .inr (.waitInVain rfl ha hr)⟩

theorem follows_writeEnds {result : Except Error Nat} {e : Engine}
    (h : StandsAt p r w sending receiving) (hc : w.sender = .calling message d)
    (view : d.view = .done (result, e)) :
    Follows p r (w.sketch sending receiving)
      { w with sender := .resting e, outcomes := w.outcomes ++ [(message, result)] } := by
  obtain ⟨s, limited, rfl, hasty, honours⟩ := h.write_honours hc
  have he := honours.done view
  -- A write ends in the role of the sender, so the next one needs no other.
  have hrole : e.mode ≠ .receiver := by simp [show e.mode = .sender from he.role]
  refine ⟨none, receiving, ⟨.resting he.settings hrole, h.receiver⟩, .inr ?_⟩
  refine .writeEnds rfl (fun n hn => (he.whole n hn).1) fun error herror => ?_
  obtain ⟨ha, hl, hb⟩ := he.broken error herror
  exact ⟨ha, hl, hb.imp_left hasty⟩

end Sender

section Receiver

variable {room : Nat} {d : Dialog (Engine.End Delivery)} {sending : Option (Bytes × Sending)}
  {receiving : Option Receiving}

theorem StandsAt.read_honours (h : StandsAt p r w sending receiving)
    (hc : w.receiver = .calling room d) :
    ∃ stage limited held, receiving = some stage ∧ (limited → r.hastyReceiver = true) ∧
      w.completed = w.returned ++ (held ++ stage.gathered) ∧
      Honours (Receiving.contract p.receiver.send.mtu limited)
        (Engine.ReadEnded p.receiver held limited) stage d := by
  obtain ⟨unread, hs, hu⟩ := h.receiver
  rw [hc] at hs
  cases hs with
  | calling hasty honours => exact ⟨_, _, _, rfl, hasty, hu, honours⟩

theorem follows_read {e : Engine} (h : StandsAt p r w sending receiving) (room : Nat)
    (limit : Millis) (hr : w.receiver = .resting e)
    (hp : r.hastyReceiver = false → limit = Millis.unlimited) :
    Follows p r (w.sketch sending receiving)
      { w with receiver := .calling room (e.read room limit) } := by
  obtain ⟨unread, hs, hu⟩ := h.receiver
  rw [hr] at hs
  cases hs with
  | resting settings role =>
    have hw := e.honours_read role room limit
    rw [settings] at hw
    have hasty : limit ≠ Millis.unlimited → r.hastyReceiver = true := by
      intro hl
      cases hb : r.hastyReceiver with
      | true => rfl
      | false => exact absurd (hp hb) hl
    -- A read that begins has put nothing together yet.
    have hg : e.receiving.gathered = [] := by
      unfold Engine.receiving
      split <;> rfl
    have hstage : ReceiverAt p r (.calling room (e.read room limit)) (some e.receiving)
        (e.exchange.pending ++ e.receiving.gathered) := .calling hasty hw
    rw [hg, List.append_nil] at hstage
    refine ⟨sending, some e.receiving, ⟨h.sender, _, hstage, hu⟩, .inr ?_⟩
    unfold Engine.receiving
    split
    · have hidle : (e.exchange.reset.withMode .receiver).IsIdle := ⟨rfl, rfl, rfl⟩
      exact .read rfl rfl hidle
    · exact .readHeld rfl role

theorem follows_receiverPasses {d' : Dialog (Engine.End Delivery)} {notice : Option Notice}
    (h : StandsAt p r w sending receiving) (hc : w.receiver = .calling room d)
    (hd : d.Passes w.clock notice d') :
    Follows p r (w.sketch sending receiving)
      { w with receiver := .calling room d'
               completed := w.completed ++ Notice.whole notice } := by
  obtain ⟨stage, limited, held, rfl, hasty, hu, honours⟩ := h.read_honours hc
  cases hd with
  | silent view =>
    have hn := (honours.silent view).2
    refine ⟨sending, some stage, ⟨h.sender, _, .calling hasty hn, ?_⟩, .inl ?_⟩
    · simpa [Notice.whole] using hu
    · simp [sketch, Notice.whole]
  | now view =>
    have hn := honours.answer view w.clock
    refine ⟨sending, some stage, ⟨h.sender, _, .calling hasty hn, ?_⟩, .inl ?_⟩
    · simpa [Notice.whole] using hu
    · simp [sketch, Notice.whole]
  | @note notice next view =>
    have hperm := Receiving.allows_note (honours.permits view)
    have hn := honours.answer view ()
    have hstage : ReceiverAt p r (.calling room (next ())) (some stage.noted)
        (held ++ stage.noted.gathered) := .calling hasty hn
    -- The journal is written at two stages: with a buffer, and with a whole message.
    rcases hperm with ⟨x, bytes, rfl, rfl⟩ | ⟨x, rfl, rfl⟩
    · rw [Receiving.gathered_noted_taken] at hstage
      refine ⟨sending, _, ⟨h.sender, _, hstage, ?_⟩, .inr ?_⟩
      · simpa [Notice.whole, Receiving.gathered] using hu
      · simpa [sketch, Notice.whole] using
          Sketch.Step.enter (a := w.sketch sending (some (.taken x bytes))) rfl
    · refine ⟨sending, _, ⟨h.sender, _, hstage, ?_⟩, .inr (.complete rfl)⟩
      simp [hu, Notice.whole, Receiving.noted, Receiving.gathered]

theorem follows_receive {bytes : Bytes} {rest : List Bytes} {capacity : Nat} {timeout : Millis}
    {next : Except LinkError Bytes → Dialog (Engine.End Delivery)}
    (h : StandsAt p r w sending receiving) (hc : w.receiver = .calling room d)
    (view : d.view = .ask (.read capacity timeout) next) (ho : w.outbound = bytes :: rest) :
    Follows p r (w.sketch sending receiving)
      { w with receiver := .calling room (next (.ok (bytes.take capacity))), outbound := rest } := by
  obtain ⟨stage, limited, held, rfl, hasty, hu, honours⟩ := h.read_honours hc
  obtain ⟨x, rfl, rfl⟩ := Receiving.allows_read (honours.permits view)
  have hn := honours.answer view (.ok (bytes.take p.receiver.send.mtu))
  exact ⟨sending, _, ⟨h.sender, _, .calling hasty hn, hu⟩, .inr (.receive rfl ho)⟩

/-- A timeout leaves the reading end listening; any other failure ends the loop. -/
theorem follows_receiveInVain {capacity : Nat} {timeout : Millis}
    {next : Except LinkError Bytes → Dialog (Engine.End Delivery)} (error : LinkError)
    (h : StandsAt p r w sending receiving) (hc : w.receiver = .calling room d)
    (view : d.view = .ask (.read capacity timeout) next)
    (hr : error = .timeout ∨ r.hastyReceiver = true) :
    Follows p r (w.sketch sending receiving)
      { w with receiver := .calling room (next (.error error)) } := by
  obtain ⟨stage, limited, held, rfl, hasty, hu, honours⟩ := h.read_honours hc
  obtain ⟨x, rfl, rfl⟩ := Receiving.allows_read (honours.permits view)
  have hn := honours.answer view (.error error)
  cases error with
  | timeout => exact ⟨sending, _, ⟨h.sender, _, .calling hasty hn, hu⟩, .inl rfl⟩
  | closed | system =>
    have hr : r.hastyReceiver = true := hr.resolve_left (by simp)
    exact ⟨sending, _, ⟨h.sender, _, .calling hasty hn, hu⟩, .inr (.receiveInVain rfl hr)⟩

theorem follows_reply {bytes : Bytes} {inbound : List Bytes} {timeout : Millis}
    {next : Except LinkError Nat → Dialog (Engine.End Delivery)}
    (h : StandsAt p r w sending receiving) (hc : w.receiver = .calling room d)
    (view : d.view = .ask (.write bytes timeout) next)
    (carried : inbound = w.inbound ++ [bytes] ∨ r.lossy = true ∧ inbound = w.inbound) :
    Follows p r (w.sketch sending receiving)
      { w with receiver := .calling room (next (.ok bytes.length)), inbound } := by
  obtain ⟨stage, limited, held, rfl, hasty, hu, honours⟩ := h.read_honours hc
  obtain ⟨step, x, rfl, rfl⟩ := Receiving.allows_write (honours.permits view)
  have hn := honours.answer view (.ok step.reply.encode.length)
  let stage' := (Receiving.replying step x).replied (.ok step.reply.encode.length)
  have hstage : ReceiverAt p r (.calling room (next (.ok step.reply.encode.length)))
      (some stage') (held ++ stage'.gathered) := .calling hasty hn
  rw [Receiving.gathered_replied] at hstage
  exact ⟨sending, _, ⟨h.sender, _, hstage, hu⟩, .inr (.reply rfl carried)⟩

theorem follows_readEnds {result : Except Error Delivery} {e : Engine}
    (h : StandsAt p r w sending receiving) (hp : (w.sketch sending receiving).Planned p)
    (hc : w.receiver = .calling room d) (view : d.view = .done (result, e)) :
    Follows p r (w.sketch sending receiving)
      { w with receiver := .resting e
               returned := w.returned ++ Engine.handed result } := by
  obtain ⟨stage, limited, held, rfl, hasty, hu, honours⟩ := h.read_honours hc
  have he := honours.done view
  -- No frame of a plan has changed the role.
  have hrole : e.mode ≠ .sender := by
    rw [show e.mode = _ from he.role]
    exact hp.role stage rfl
  -- What was held and put together is handed out, or is held from here on.
  have hunread : w.completed = w.returned ++ Engine.handed result ++ e.exchange.pending := by
    rw [hu, he.account, List.append_assoc]
  refine ⟨sending, none, ⟨h.sender, _, .resting he.settings hrole, hunread⟩, .inr ?_⟩
  exact .readEnds rfl (he.stage.imp_right fun ⟨hl, hh⟩ => ⟨hl, hasty hh⟩)

end Receiver

/-- Every step of a world is followed by its sketch. -/
theorem Step.follows {sending : Option (Bytes × Sending)} {receiving : Option Receiving}
    (h : StandsAt p r w sending receiving) (hp : (w.sketch sending receiving).Planned p)
    (hs : Step r w w') : Follows p r (w.sketch sending receiving) w' := by
  cases hs with
  | tick n => exact ⟨sending, receiving, ⟨h.sender, h.receiver⟩, .inl rfl⟩
  | write message limit resting patient => exact follows_write h message limit resting patient
  | senderPasses calling passes => exact follows_senderPasses h calling passes
  | transmit calling view => exact follows_transmit h calling view (.inl rfl)
  | transmitInVain calling view lossy => exact follows_transmit h calling view (.inr ⟨lossy, rfl⟩)
  | getVerdict calling view inbound => exact follows_getVerdict h calling view inbound
  | waitInVain error calling view hasty => exact follows_waitInVain error h calling view hasty
  | writeEnds calling view => exact follows_writeEnds h calling view
  | read room limit resting roomy patient => exact follows_read h room limit resting patient
  | receiverPasses calling passes => exact follows_receiverPasses h calling passes
  | receive calling view outbound => exact follows_receive h calling view outbound
  | receiveInVain error calling view hasty => exact follows_receiveInVain error h calling view hasty
  | reply calling view => exact follows_reply h calling view (.inl rfl)
  | replyInVain calling view lossy => exact follows_reply h calling view (.inr ⟨lossy, rfl⟩)
  | readEnds calling view => exact follows_readEnds h hp calling view

/-- What every step of sketches keeps holds of every world. -/
theorem Reachable.invariant {inv : Sketch → Prop} (h0 : inv {})
    (hstep : ∀ a a', a.Planned p → inv a → Sketch.Step p r a a' → inv a') (h : Reachable p r w) :
    ∃ sending receiving, StandsAt p r w sending receiving ∧
      (w.sketch sending receiving).Planned p ∧ inv (w.sketch sending receiving) := by
  induction h with
  | refl =>
    have hs : SenderAt p r (.resting { config := p.sender }) none := .resting rfl nofun
    have hr : ReceiverAt p r (.resting { config := p.receiver }) none [] := .resting rfl nofun
    exact ⟨none, none, ⟨hs, [], hr, rfl⟩, ⟨nofun, nofun, nofun, nofun⟩, h0⟩
  | tail _ hs ih =>
    obtain ⟨sending, receiving, hstand, hplan, hinv⟩ := ih
    obtain ⟨sending', receiving', hstand', hstep'⟩ := hs.follows hstand hplan
    refine ⟨sending', receiving', hstand', ?_⟩
    rcases hstep' with heq | hstep'
    · rw [heq]
      exact ⟨hplan, hinv⟩
    · exact ⟨hplan.step hstep', hstep _ _ hplan hinv hstep'⟩

theorem StandsAt.returned_prefix {sending : Option (Bytes × Sending)}
    {receiving : Option Receiving} (h : StandsAt p r w sending receiving) :
    w.returned <+: w.completed := by
  obtain ⟨unread, -, hu⟩ := h.receiver
  exact ⟨unread, hu.symm⟩

theorem StandsAt.hasCompleted {sending : Option (Bytes × Sending)} {x : Exchange}
    (h : StandsAt p r w sending (some (.completing x))) : HasCompleted w x.buffer := by
  obtain ⟨unread, hs, -⟩ := h.receiver
  cases hr : w.receiver with
  | resting e =>
    rw [hr] at hs
    cases hs
  | calling room d =>
    rw [hr] at hs
    cases hs with
    | calling hasty honours =>
      -- Of all requests only the entry of the message is in order at this stage.
      have hm := honours.meets
      cases hv : d.view with
      | done result =>
        rw [hv] at hm
        rcases hm.stage with ⟨_, _, h⟩ | ⟨⟨_, h⟩, -⟩ <;> cases h
      | silent next =>
        rw [hv] at hm
        obtain ⟨_, h⟩ := hm.1
        cases h
      | ask request next =>
        rw [hv] at hm
        match request with
        | .note notice =>
          obtain rfl : notice = .completed x.buffer := hm.1
          exact .inr ⟨room, d, next, hr, hv⟩

end World

end StopAndWait
