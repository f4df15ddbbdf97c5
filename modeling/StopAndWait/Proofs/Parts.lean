import StopAndWait.Proofs.Calls
import StopAndWait.Proofs.Conduct

namespace StopAndWait

def Millis.Spans (limit : Millis) (horizon : Instant) : Prop :=
  limit = unlimited ∨ horizon < limit.toNat * Instant.perMilli

def Deadline.IsOpen (deadline : Deadline) (horizon : Instant) : Prop :=
  ∀ time ≤ horizon, deadline.isExpired time = false

theorem Deadline.isOpen_after {limit : Millis} {horizon : Instant} (h : Millis.Spans limit horizon)
    (now : Instant) : (after limit now).IsOpen horizon := by
  intro time ht
  unfold after
  by_cases hl : limit = Millis.unlimited
  · rw [if_pos hl]
    rfl
  · have hlong := h.resolve_left hl
    rw [if_neg hl]
    exact isExpired_of_lt (Nat.lt_of_le_of_lt ht (Nat.lt_add_left now hlong))

def Move.asking (bytes : Bytes) : List Move := [.sends bytes, .gets Control.ack.encode]

def Move.answering (bytes : Bytes) : List Move :=
  [.gets bytes, .notes (.consumed bytes), .sends Control.ack.encode]

namespace Dialog

variable {α β σ : Type} {horizon : Instant} {ends : Dialog α → List Move → Prop}
  {moves : List Move}

inductive Plays {α : Type} (horizon : Instant) (ends : Dialog α → List Move → Prop) :
    Dialog α → List Move → Prop
  | stop {d : Dialog α} {moves : List Move} (h : ends d moves) : Plays horizon ends d moves
  | silent {d next : Dialog α} {moves : List Move} (view : d.view = .silent next)
    (later : Plays horizon ends next moves) : Plays horizon ends d moves
  -- The clock is anywhere up to the horizon.
  | now {d : Dialog α} {next : Instant → Dialog α} {moves : List Move}
    (view : d.view = .ask .now next)
    (later : ∀ time ≤ horizon, Plays horizon ends (next time) moves) : Plays horizon ends d moves
  | sends {d : Dialog α} {bytes : Bytes} {timeout : Millis}
    {next : Except LinkError Nat → Dialog α} {moves : List Move}
    (view : d.view = .ask (.write bytes timeout) next)
    (later : Plays horizon ends (next (.ok bytes.length)) moves) :
    Plays horizon ends d (.sends bytes :: moves)
  | gets {d : Dialog α} {bytes : Bytes} {capacity : Nat} {timeout : Millis}
    {next : Except LinkError Bytes → Dialog α} {moves : List Move}
    (view : d.view = .ask (.read capacity timeout) next)
    (later : Plays horizon ends (next (.ok (bytes.take capacity))) moves) :
    Plays horizon ends d (.gets bytes :: moves)
  | notes {d : Dialog α} {notice : Notice} {next : Unit → Dialog α} {moves : List Move}
    (view : d.view = .ask (.note notice) next) (later : Plays horizon ends (next ()) moves) :
    Plays horizon ends d (.notes notice :: moves)

theorem plays_iterate {round : σ → Dialog (σ ⊕ β)} {start : σ} {f : β → Dialog α}
    (h : Plays horizon ends
      ((round start).bind fun
        | .inl again => (iterate round again).bind f
        | .inr result => f result) moves) :
    Plays horizon ends ((iterate round start).bind f) moves := by
  have hround : ((iterate round start).bind f).view = .silent ((round start).bind fun
      | .inl again => (iterate round again).bind f
      | .inr result => f result) := by
    apply congrArg (fun f => View.silent ((round start).bind f))
    funext result
    cases result <;> rfl
  exact .silent hround h

theorem plays_consult {deadline : Deadline} {question : Instant → β} {f : β → Dialog α}
    (h : ∀ time ≤ horizon, Plays horizon ends (f (question time)) moves) :
    Plays horizon ends ((deadline.consult question).bind f) moves := by
  unfold Deadline.consult
  cases deadline.expiry with
  | none => exact h 0 (Nat.zero_le _)
  | some expiry => exact .now rfl h

theorem plays_hasExpired {deadline : Deadline} {f : Bool → Dialog α}
    (hd : deadline.IsOpen horizon) (h : Plays horizon ends (f false) moves) :
    Plays horizon ends (deadline.hasExpired.bind f) moves := by
  apply plays_consult
  intro time ht
  rw [hd time ht]
  exact h

theorem plays_start {limit : Millis} {f : Deadline → Dialog α} (hl : Millis.Spans limit horizon)
    (h : ∀ deadline : Deadline, deadline.IsOpen horizon → Plays horizon ends (f deadline) moves) :
    Plays horizon ends ((Deadline.start limit).bind f) moves := by
  unfold Deadline.start
  by_cases hu : limit = Millis.unlimited
  · rw [if_pos hu]
    exact h _ fun _ _ => rfl
  · rw [if_neg hu]
    exact .now rfl fun time _ => h _ (Deadline.isOpen_after hl time)

end Dialog

open Dialog

section

variable {α : Type} {horizon : Instant} {ends : Dialog α → List Move → Prop} {moves : List Move}
  {deadline : Deadline}

namespace Transmission

theorem plays_attempt {frame : Bytes} {timeout : Millis} {f : Bool → Dialog α} (reply : Bytes)
    (h : Plays horizon ends (f (Sending.acked (.ok (reply.take verdictCapacity)))) moves) :
    Plays horizon ends ((attempt frame timeout).bind f) (.sends frame :: .gets reply :: moves) := by
  apply Plays.sends rfl
  simp only [Dialog.pure_bind, monad_bind, monad_pure, if_pos]
  apply Plays.gets rfl
  exact h

theorem plays_attempts {frame : Bytes} {policy : RetryPolicy} {allowed : Nat} {r : Retransmission}
    {f : Except Error UInt32 → Dialog α} (hd : deadline.IsOpen horizon)
    (h : ∀ count, Plays horizon ends (f (.ok count)) moves) :
    Plays horizon ends ((attempts frame policy deadline (allowed + 1) r).bind f)
      (Move.asking frame ++ moves) := by
  have hroom : Frame.controlSize ≤ verdictCapacity := by decide
  simp only [attempts, monad_bind, Dialog.bind_assoc]
  apply plays_hasExpired hd
  simp only [Bool.false_eq_true, if_false, Dialog.bind_assoc]
  apply plays_consult
  intro time _
  apply plays_attempt Control.ack.encode
  rw [Sending.acked_encode hroom .ack]
  exact h _

/-- A frame that is sent again until it is acknowledged is sent once. -/
theorem plays_sendFrame {frame : Bytes} {config : Config} {f : Except Error UInt32 → Dialog α}
    (hd : deadline.IsOpen horizon) (h : ∀ count, Plays horizon ends (f (.ok count)) moves) :
    Plays horizon ends ((sendFrame frame config.send.retry deadline).bind f)
      (Move.asking frame ++ moves) := by
  obtain ⟨allowed, hallowed⟩ := config.exists_maxAttempts_eq
  have hall : Retransmission.remaining {} config.send.retry = allowed + 1 := hallowed
  unfold sendFrame
  rw [hall]
  exact plays_attempts hd h

theorem plays_sendFrames {config : Config} (frames : List Frame) {metrics : TransmitMetrics}
    {f : Except Error TransmitMetrics → Dialog α} (hd : deadline.IsOpen horizon)
    (h : ∀ metrics, Plays horizon ends (f (.ok metrics)) moves) :
    Plays horizon ends ((sendFrames config.send.retry deadline frames metrics).bind f)
      (frames.flatMap (Move.asking ·.encode) ++ moves) := by
  induction frames generalizing metrics with
  | nil => exact h metrics
  | cons frame rest ih =>
    simp only [sendFrames, monad_bind, Dialog.bind_assoc, List.flatMap_cons, List.append_assoc]
    exact plays_sendFrame hd fun count => ih

end Transmission

namespace Reception

variable {capacity : Nat} {replyTimeout : Millis} {f : End → Dialog α} {x y : Exchange}
  {metrics : ReceiveMetrics}

theorem plays_round {f : Reception ⊕ End → Dialog α} {buffer : Bytes} {outcome : Outcome}
    (hd : deadline.IsOpen horizon) (hroom : buffer.length ≤ capacity)
    (hx : x.onBuffer buffer = .ok (.ack outcome, y))
    (h : ∀ metrics, Plays horizon ends ((conclude ⟨y, metrics⟩ outcome).bind f) moves) :
    Plays horizon ends ((round capacity replyTimeout deadline ⟨x, metrics⟩).bind f)
      (Move.answering buffer ++ moves) := by
  simp only [round, monad_bind, Dialog.bind_assoc]
  apply plays_hasExpired hd
  simp only [Bool.false_eq_true, if_false, Dialog.bind_assoc]
  apply plays_consult
  intro time _
  apply Plays.gets rfl
  rw [List.take_of_length_le hroom]
  apply Plays.notes rfl
  simp only [Dialog.pure_bind, monad_bind, monad_pure, hx]
  apply Plays.sends rfl
  simp only [Dialog.pure_bind, monad_pure]
  exact h _

/-- The receive loop takes the frames of a message and comes to the whole of it. -/
theorem plays_course {message : Bytes} {frames : List Frame} (hd : deadline.IsOpen horizon)
    (hc : Course message x frames) (hroom : ∀ frame ∈ frames, frame.encode.length ≤ capacity)
    (h : ∀ y metrics, y.buffer = message → y.mode = x.mode → y.pending = x.pending →
      Plays horizon ends (f (.ok .message, ⟨y, metrics⟩)) moves) :
    Plays horizon ends ((receive capacity replyTimeout deadline ⟨x, metrics⟩).bind f)
      (frames.flatMap (Move.answering ·.encode) ++ .notes (.completed message) :: moves) := by
  induction hc generalizing metrics with
  | @last x y frame step whole mode =>
    rw [List.flatMap_singleton]
    apply plays_iterate
    apply plays_round hd (hroom _ List.mem_cons_self) step
    intro metrics
    subst whole
    apply Plays.notes rfl
    exact h _ _ rfl mode (Exchange.pending_of_onBuffer step)
  | @more x y frame rest step again mode onward ih =>
    rw [List.flatMap_cons, List.append_assoc]
    apply plays_iterate
    apply plays_round hd (hroom _ List.mem_cons_self) step
    intro metrics
    apply ih fun frame hf => hroom frame (List.mem_cons_of_mem _ hf)
    intro z metrics hbuffer hmode hpending
    exact h z metrics hbuffer (hmode.trans mode)
      (hpending.trans (Exchange.pending_of_onBuffer step))

/-- The receive loop takes a request for another role. -/
theorem plays_request {request : Control} {role : Mode} (hd : deadline.IsOpen horizon)
    (hroom : Frame.controlSize ≤ capacity)
    (hr : (Frame.control request).summons = some role) (hm : x.mode ≠ role)
    (h : ∀ metrics,
      Plays horizon ends (f (.ok (.switched role), ⟨x.reset.withMode role, metrics⟩)) moves) :
    Plays horizon ends ((receive capacity replyTimeout deadline ⟨x, metrics⟩).bind f)
      (Move.answering request.encode ++ moves) := by
  have hswitch : x.onBuffer request.encode =
      .ok (.ack (.switched role), x.reset.withMode role) := by
    rw [x.onBuffer_request request hr, Exchange.onSwitch, if_neg hm]
  apply plays_iterate
  apply plays_round hd hroom hswitch
  exact fun metrics => h _

end Reception

namespace Engine

variable {config : Config} {e : Engine} {limit : Millis} {room : Nat} {x : Exchange}

structure Rests (config : Config) (role : Mode) (e : Engine) : Prop where
  settings : e.config = config
  role : e.mode = role
  empty : e.exchange.pending = []

theorem plays_write {ends : Dialog (End Nat) → List Move → Prop} {message : Bytes}
    (he : e.mode ≠ .receiver) (hp : e.exchange.pending = []) (hl : Millis.Spans limit horizon)
    (h : ∀ e', Rests e.config .sender e' →
      Plays horizon ends (.pure (.ok message.length, e')) moves) :
    Plays horizon ends (e.write message limit)
      ((plan message e.config.capacity).flatMap (Move.asking ·.encode) ++ moves) := by
  rw [e.write_eq he]
  apply plays_start hl
  intro deadline hd
  apply Transmission.plays_sendFrames _ hd
  intro metrics
  exact h _ ⟨rfl, rfl, hp⟩

theorem plays_requestSwitch {ends : Dialog (End Unit) → List Move → Prop} {request : Control}
    {role : Mode} (hp : e.exchange.pending = []) (hl : Millis.Spans limit horizon)
    (h : ∀ e', Rests e.config role e' → Plays horizon ends (.pure (.ok (), e')) moves) :
    Plays horizon ends (e.requestSwitch request role limit)
      (Move.asking request.encode ++ moves) := by
  apply plays_start hl
  intro deadline hd
  apply Transmission.plays_sendFrame hd
  intro count
  exact h _ ⟨rfl, rfl, hp⟩

/-- An engine that sends waits until its peer takes the role. -/
theorem plays_awaitMode {f : End Unit → Dialog α} (he : e.mode = .sender)
    (hp : e.exchange.pending = []) (operation : Operation) (hd : deadline.IsOpen horizon)
    (h : ∀ e', Rests e.config .receiver e' → Plays horizon ends (f (.ok (), e')) moves) :
    Plays horizon ends ((e.awaitMode .receiver operation deadline).bind f)
      (Move.answering Control.setRecv.encode ++ moves) := by
  have hne : e.mode ≠ .receiver := by simp [he]
  unfold awaitMode
  simp only [if_neg hne, receive, monad_bind, Dialog.bind_assoc]
  apply Reception.plays_request hd e.config.controlSize_le_mtu rfl hne
  intro metrics
  exact h _ ⟨rfl, rfl, hp⟩

theorem plays_waitForReceive {ends : Dialog (End Unit) → List Move → Prop} (he : e.mode = .sender)
    (hp : e.exchange.pending = []) (hl : Millis.Spans limit horizon)
    (h : ∀ e', Rests e.config .receiver e' → Plays horizon ends (.pure (.ok (), e')) moves) :
    Plays horizon ends (e.waitForReceive limit)
      (Move.answering Control.setRecv.encode ++ moves) := by
  apply plays_start hl
  intro deadline hd
  apply plays_awaitMode (e := e.reset) he hp _ hd
  intro e' he'
  exact h _ ⟨he'.settings, he'.role, he'.empty⟩

inductive Approaches (e : Engine) : List Move → Prop
  | atOnce (role : e.mode ≠ .sender) : Approaches e []
  | relieved (role : e.mode = .sender) (auto : e.config.switching = .auto) :
    Approaches e (Move.answering Control.setRecv.encode)

structure Receives (config : Config) (e : Engine) (x : Exchange) : Prop where
  settings : e.config = config
  role : x.mode = .receiver
  idle : x.IsIdle
  empty : x.pending = []

theorem plays_read {ends : Dialog (End Delivery) → List Move → Prop} {approach : List Move}
    (ha : e.Approaches approach) (hp : e.exchange.pending = []) (hl : Millis.Spans limit horizon)
    (h : ∀ (e' : Engine) x (deadline : Deadline), deadline.IsOpen horizon → e'.Receives e.config x →
      Plays horizon ends (e'.readingOn room deadline ⟨x, {}⟩) moves) :
    Plays horizon ends (e.read room limit) (approach ++ moves) := by
  cases ha with
  | atOnce role =>
    rw [e.read_eq role hp]
    apply plays_start hl
    intro deadline hd
    exact h e _ deadline hd ⟨rfl, rfl, e.exchange.isIdle_reset, hp⟩
  | relieved role auto =>
    have hrole : e.reset.mode = .sender := role
    have hauto : e.reset.config.switching = .auto := auto
    rw [read_of_empty hp]
    apply plays_start hl
    intro deadline hd
    simp only [readExchange, resolveMode, hrole, hauto, reduceCtorEq, if_false, monad_bind,
      Dialog.bind_assoc]
    apply plays_awaitMode hrole hp _ hd
    intro e' he'
    have hread := h e'.reset e'.reset.exchange deadline hd
      ⟨he'.settings, he'.role, e'.exchange.isIdle_reset, he'.empty⟩
    simp only [monad_pure, Dialog.pure_bind, receive, monad_bind, Dialog.bind_assoc]
    -- The rest is the receive loop, as in a read that has the role.
    refine (congrArg (fun f => Plays horizon ends (Dialog.bind _ f) moves) ?_).mp hread
    funext finish
    obtain ⟨result, r⟩ := finish
    cases result with
    | error error => rfl
    | ok what => cases what <;> rfl

/-- A read that puts a message together and has room for it. -/
theorem plays_message {ends : Dialog (End Delivery) → List Move → Prop} {message : Bytes}
    {capacity : Nat} (hd : deadline.IsOpen horizon) (hx : e.Receives config x) (hm : message ≠ [])
    (hc : capacity = e.config.capacity) (hroom : message.length ≤ room)
    (h : ∀ e', Rests config .receiver e' →
      Plays horizon ends (.pure (.ok (.message message), e')) moves) :
    Plays horizon ends (e.readingOn room deadline ⟨x, {}⟩)
      ((plan message capacity).flatMap (Move.answering ·.encode) ++
        .notes (.completed message) :: moves) := by
  subst hc
  have hfits : ∀ frame ∈ plan message e.config.capacity,
      frame.encode.length ≤ e.config.send.mtu := by
    intro frame hf
    have hlength := length_encode_le_of_mem_plan e.config.capacity_pos hf
    have hmtu := e.config.mtu_bounds.1
    unfold Config.capacity at hlength
    omega
  apply Reception.plays_course hd (.plan hm _ x hx.idle) hfits
  intro y metrics hbuffer hmode hpending
  have hdeliver : y.deliver room = (.ok message, y.reset) := by
    rw [← hbuffer] at hroom ⊢
    rw [Exchange.deliver_eq, if_neg (Nat.not_lt.2 hroom)]
  simp only [received, hdeliver]
  exact h _ ⟨hx.settings, hmode.trans hx.role, hpending.trans hx.empty⟩

/-- A read that takes the sending role from its peer. -/
theorem plays_handover {ends : Dialog (End Delivery) → List Move → Prop}
    (hd : deadline.IsOpen horizon) (hx : e.Receives config x)
    (h : ∀ e', Rests config .sender e' → Plays horizon ends (.pure (.ok .handover, e')) moves) :
    Plays horizon ends (e.readingOn room deadline ⟨x, {}⟩)
      (Move.answering Control.setSend.encode ++ moves) := by
  apply Reception.plays_request hd e.config.controlSize_le_mtu rfl (by simp [hx.role])
  intro metrics
  exact h _ ⟨hx.settings, rfl, hx.empty⟩

/-- A read waits as long as nothing comes. -/
theorem plays_waits {ends : Dialog (End Delivery) → List Move → Prop}
    (hd : deadline.IsOpen horizon) (h : ∀ d : Dialog (End Delivery), d.IsListening → ends d []) :
    Plays horizon ends (e.readingOn room deadline ⟨x, {}⟩) [] := by
  apply plays_iterate
  simp only [Reception.round, monad_bind, Dialog.bind_assoc]
  apply plays_hasExpired hd
  simp only [Bool.false_eq_true, if_false, Dialog.bind_assoc]
  apply plays_consult
  intro time _
  exact .stop (h _ ⟨_, _, _, rfl⟩)

end Engine

end

end StopAndWait
