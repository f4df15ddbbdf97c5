import StopAndWait.Proofs.Course
import StopAndWait.Proofs.Custody

/-!
The contract of any call, whatever it is called in. A call hears buffers, enters each in the journal
and owes a reply to it, or speaks: it writes a frame of its own, which is no reply, and then reads
the verdict on it. The stance of a call tells which of these it is at, and its role, which changes
only with what it enters in the journal.
-/
namespace StopAndWait

def Frame.IsSpeech : Frame → Prop
  | control kind => kind ≠ .ack ∧ kind ≠ .nack
  | data _ _ => True
  | unknown _ => False

def IsSpeech (bytes : Bytes) : Prop := ∃ frame : Frame, frame.IsSpeech ∧ bytes = frame.encode

def IsReply (bytes : Bytes) : Prop := bytes = Control.ack.encode ∨ bytes = Control.nack.encode

/-- The frames that ask for a reply, one by one. -/
theorem isSpeech_cases {bytes : Bytes} (h : IsSpeech bytes) :
    (∃ kind, kind ≠ .ack ∧ kind ≠ .nack ∧ bytes = Control.encode kind) ∨
      ∃ sequence rest last, bytes = Frame.dataCode :: sequence :: (rest ++ [last]) := by
  obtain ⟨frame, hf, rfl⟩ := h
  match frame with
  | .control kind => exact .inl ⟨kind, hf.1, hf.2, rfl⟩
  | .data sequence payload => exact .inr ⟨sequence, payload, _, rfl⟩
  | .unknown code => exact hf.elim

theorem not_isReply_of_isSpeech {bytes : Bytes} (h : IsSpeech bytes) : ¬ IsReply bytes := by
  rcases isSpeech_cases h with ⟨kind, ha, hn, rfl⟩ | ⟨sequence, rest, last, rfl⟩
  · cases kind <;> simp_all [IsReply, Control.encode, Control.code]
  · simp [IsReply, Control.encode, Control.code, Frame.dataCode]

def summons (buffer : Bytes) : Option Mode :=
  if isIntact buffer then
    if buffer.head? = some Control.setSend.code then some .sender
    else if buffer.head? = some Control.setRecv.code then some .receiver
    else none
  else none

def Frame.summons : Frame → Option Mode
  | control .setSend => some .sender
  | control .setRecv => some .receiver
  | _ => none

/-- The first byte of an intact buffer is all that matters for a summons. -/
theorem summons_eq_of_decode {buffer : Bytes} {frame : Frame} (hi : isIntact buffer = true)
    (h : Frame.decode? buffer = some frame) : summons buffer = frame.summons := by
  unfold summons
  rw [if_pos hi]
  cases frame with
  | control kind =>
    rw [Frame.decode?_eq_control_iff.1 h]
    cases kind <;> rfl
  | data sequence payload =>
    obtain ⟨last, rfl⟩ := Frame.decode?_eq_data_iff.1 h
    rfl
  | unknown code =>
    obtain ⟨hhead, -, hcode⟩ := Frame.decode?_eq_unknown_iff.1 h
    have hne (kind : Control) : some code ≠ some kind.code := by
      simpa using (Control.ofCode?_eq_none_iff.1 hcode kind).symm
    rw [hhead, if_neg (hne .setSend), if_neg (hne .setRecv)]
    rfl

theorem summons_encode (kind : Control) : summons kind.encode = (Frame.control kind).summons := by
  apply summons_eq_of_decode (Frame.isIntact_encode (.control kind))
  cases kind <;> rfl

namespace Exchange

variable {x y : Exchange} {buffer : Bytes}

theorem mode_onFrame (x : Exchange) (frame : Frame) :
    (x.onFrame frame).2.mode = frame.summons.getD x.mode := by
  fun_cases onFrame x frame <;> grind [onSwitch, onData, withMode, reset, Frame.summons]

/-- A buffer changes the role to what it summons to. -/
theorem mode_of_onBuffer {step : Step} (h : x.onBuffer buffer = .ok (step, y)) :
    y.mode = (summons buffer).getD x.mode := by
  rcases onBuffer_eq_ok_iff.1 h with ⟨hi, hrefused⟩ | ⟨hi, frame, hd, hstep⟩
  -- What is not intact summons nobody.
  · cases hrefused
    simp [summons, hi]
  · rw [summons_eq_of_decode hi hd, ← mode_onFrame, hstep]

/-- A buffer is acknowledged or refused, and nothing else. -/
theorem isReply_encode_of_onBuffer {reply : Control} {outcome : Outcome}
    (h : x.onBuffer buffer = .ok (⟨reply, outcome⟩, y)) : IsReply reply.encode := by
  rcases ack_or_nack_of_onBuffer h with rfl | ⟨rfl, -⟩
  · exact .inl rfl
  · exact .inr rfl

/-- A request for a change of roles makes it. -/
theorem onBuffer_request (x : Exchange) (request : Control) {role : Mode}
    (h : (Frame.control request).summons = some role) :
    x.onBuffer request.encode = .ok (x.onSwitch role) := by
  have hframe := x.onBuffer_encode (Frame.decode_encode_control request)
  cases request <;> cases h <;> exact hframe

/-- What is refused as no frame is intact and cannot be taken apart. -/
theorem onBuffer_eq_error_iff {buffer : Bytes} :
    (∃ e, x.onBuffer buffer = .error e) ↔ isIntact buffer ∧ Frame.decode? buffer = none := by
  unfold onBuffer onBytes Frame.decode
  by_cases hi : isIntact buffer = true
  · cases hd : Frame.decode? buffer <;> simp [hi, Except.map]
  · simp [hi]

end Exchange

inductive Stance
  -- A buffer may be heard or a frame spoken.
  | free (role : Mode)
  -- A buffer has come and is not yet in the journal.
  | taken (role : Mode) (buffer : Bytes)
  -- The reply to it is due.
  | owing (role : Mode)
  -- A frame is out, and the verdict on it due.
  | awaiting (role : Mode) (frame : Bytes)
  -- The attempt at a frame is over; only further frames are spoken.
  | judged (role : Mode) (frame : Bytes) (acked : Bool)

namespace Stance

def role : Stance → Mode
  | free role | taken role _ | owing role | awaiting role _ | judged role _ _ => role

def IsEven : Stance → Prop
  | free _ | judged _ _ _ => True
  | taken _ _ | owing _ | awaiting _ _ => False

def heard : Stance → Except LinkError Bytes → Stance
  | free role, .ok buffer => taken role buffer
  | awaiting role frame, answer => judged role frame (Sending.acked answer)
  | stance, _ => stance

def noted : Stance → Notice → Stance
  | taken role buffer, .consumed _ =>
    if isIntact buffer = true ∧ Frame.decode? buffer = none then free role
    else owing ((summons buffer).getD role)
  | stance, _ => stance

def spoken (role : Mode) (frame : Bytes) : Except LinkError Nat → Stance
  | .ok n => if n = frame.length then awaiting role frame else judged role frame false
  | .error _ => judged role frame false

def wrote (bytes : Bytes) : Stance → Except LinkError Nat → Stance
  | owing role, _ => free role
  | free role, answer | judged role _ _, answer => spoken role bytes answer
  | stance, _ => stance

theorem wrote_of_isEven {stance : Stance} (h : stance.IsEven) (bytes : Bytes)
    (answer : Except LinkError Nat) :
    stance.wrote bytes answer = spoken stance.role bytes answer := by
  cases stance with
  | free | judged => rfl
  | taken | owing | awaiting => exact h.elim

def allows (capacity : Nat) : Stance → Request → Prop
  | _, .now => True
  | free _, .read room _ => room = capacity
  | free _, .write bytes _ | judged _ _ _, .write bytes _ => IsSpeech bytes
  | free _, .note notice => ∃ message, notice = .completed message
  | taken _ buffer, .note notice => notice = .consumed buffer
  | owing _, .write bytes _ => IsReply bytes
  | awaiting _ _, .read room _ => Frame.controlSize ≤ room
  | _, _ => False

theorem role_noted (role : Mode) (buffer : Bytes) :
    (noted (taken role buffer) (.consumed buffer)).role = (summons buffer).getD role := by
  simp only [noted]
  by_cases h : isIntact buffer = true ∧ Frame.decode? buffer = none
  -- What is no frame begins with the code of data, if with any.
  · have hnone : summons buffer = none := by
      rcases Frame.decode?_eq_none_iff.1 h.2 with rfl | rfl | ⟨last, rfl⟩
      · rfl
      · simp [summons, Frame.dataCode, Control.code]
      · simp [summons, Frame.dataCode, Control.code]
    rw [if_pos h, hnone]
    rfl
  · rw [if_neg h]
    rfl

end Stance

/-- How a call conducts itself that reads at most `capacity` bytes of a frame. -/
def conduct (capacity : Nat) : Contract Stance where
  permits := Stance.allows capacity
  mayLoop stance := ∃ role, stance = .free role
  next stance
    | .read _ _ => stance.heard
    | .write bytes _ => stance.wrote bytes
    | .now => fun _ => stance
    | .note notice => fun _ => stance.noted notice

def Turn.summons : Turn → Option Mode
  | note (.consumed buffer) => StopAndWait.summons buffer
  | _ => none

def summoned (log : List Turn) : List Mode := log.filterMap Turn.summons

namespace Stance

variable {capacity : Nat} {s : Stance} {log : List Turn}

theorem role_turn {turn : Turn} (h : (conduct capacity).permits s turn.request) :
    ((conduct capacity).turn s turn).role = turn.summons.getD s.role := by
  match turn with
  | .read room timeout answer =>
    cases s with
    | free => cases answer <;> rfl
    | taken | owing | awaiting | judged => rfl
  | .write bytes timeout answer =>
    cases s with
    | free | judged =>
      change (spoken _ bytes answer).role = _
      cases answer with
      | ok n =>
        simp only [spoken]
        split <;> rfl
      | error => rfl
    | taken | owing | awaiting => rfl
  | .now instant => rfl
  | .note notice =>
    cases s with
    | taken role buffer =>
      obtain rfl : notice = .consumed buffer := h
      exact role_noted role buffer
    | free role =>
      obtain ⟨message, rfl⟩ := h
      rfl
    | owing | awaiting | judged => exact h.elim

/-- The role is that of the last summons in the journal. -/
theorem role_foldl (h : (conduct capacity).Admits s log) :
    (log.foldl (conduct capacity).turn s).role = (summoned log).getLast?.getD s.role := by
  induction log generalizing s with
  | nil => rfl
  | cons turn log ih =>
    rw [List.foldl_cons, ih h.2, role_turn h.1]
    cases hs : turn.summons with
    | none => simp [summoned, hs]
    | some role => simp [summoned, hs, List.getLast?_cons]

def HasSpoken : Stance → Prop
  | awaiting _ _ | judged _ _ _ => True
  | free _ | taken _ _ | owing _ => False

theorem hasSpoken_turn {turn : Turn} (hs : s.HasSpoken) :
    ((conduct capacity).turn s turn).HasSpoken := by
  cases s with
  | free | taken | owing => exact hs.elim
  | awaiting => cases turn <;> trivial
  | judged role frame acked =>
    match turn with
    | .write bytes timeout answer =>
      change (spoken role bytes answer).HasSpoken
      cases answer with
      | ok n =>
        simp only [spoken]
        split <;> trivial
      | error => trivial
    | .read _ _ _ | .now _ | .note _ => trivial

/-- Once a frame has been spoken the journal is closed. -/
theorem note_not_mem (hs : s.HasSpoken) (h : (conduct capacity).Admits s log) (notice : Notice) :
    .note notice ∉ log := by
  induction log generalizing s with
  | nil => exact List.not_mem_nil
  | cons turn log ih =>
    have hlater := ih (hasSpoken_turn hs) h.2
    have hp := h.1
    cases turn with
    | note first => cases s <;> first | exact hs.elim | exact hp.elim
    | read | write | now => simpa using hlater

end Stance

section Covers

variable {capacity : Nat} {limited : Prop}

inductive Receiving.At : Receiving → Stance → Prop
  | listening (x : Exchange) : At (.listening x) (.free x.mode)
  | taken (x : Exchange) (buffer : Bytes) : At (.taken x buffer) (.taken x.mode buffer)
  | replying (step : Step) (x : Exchange) (reply : IsReply step.reply.encode) :
    At (.replying step x) (.owing x.mode)
  | completing (x : Exchange) : At (.completing x) (.free x.mode)
  | ended (x : Exchange) (messages : List Bytes) : At (.ended x messages) (.free x.mode)

theorem Receiving.at_noted (x : Exchange) (buffer : Bytes) :
    (noted (taken x buffer)).At (Stance.noted (.taken x.mode buffer) (.consumed buffer)) := by
  simp only [noted, Stance.noted]
  cases hx : x.onBuffer buffer with
  | error e =>
    rw [if_pos (Exchange.onBuffer_eq_error_iff.1 ⟨e, hx⟩)]
    exact .ended x []
  | ok made =>
    obtain ⟨step, y⟩ := made
    have hframe : ¬ (isIntact buffer = true ∧ Frame.decode? buffer = none) := by
      rw [← Exchange.onBuffer_eq_error_iff (x := x), hx]
      simp
    rw [if_neg hframe, ← Exchange.mode_of_onBuffer hx]
    exact .replying step y (Exchange.isReply_encode_of_onBuffer hx)

theorem Receiving.at_replied (step : Step) (x : Exchange) (answer : Except LinkError Nat) :
    ((replying step x).replied answer).At (.free x.mode) := by
  match answer with
  | .error e => exact .ended x []
  | .ok n =>
    simp only [replied]
    by_cases hn : n = step.reply.encode.length
    · rw [if_pos hn]
      cases step.outcome with
      | proceed => exact .listening x
      | complete => exact .completing x
      | switched mode => exact .ended x []
    · rw [if_neg hn]
      exact .ended x []

/-- A receive loop keeps to the conduct of a call. -/
theorem Receiving.covers : (Receiving.contract capacity limited).Covers (conduct capacity) At where
  permits {s t request} h hp := by
    cases h with
    | listening x =>
      cases request with
      | read => exact hp
      | now => trivial
      | write | note => exact hp.elim
    | taken x buffer =>
      cases request with
      | note => exact hp
      | read | write | now => exact hp.elim
    | replying step x reply =>
      cases request with
      | write => rwa [show _ = step.reply.encode from hp]
      | read | now | note => exact hp.elim
    | completing x =>
      cases request with
      | note => exact ⟨x.buffer, hp⟩
      | read | write | now => exact hp.elim
    | ended x messages => exact hp.elim
  mayLoop := by
    rintro s t h ⟨x, rfl⟩
    cases h
    exact ⟨x.mode, rfl⟩
  next {s t request} answer h hp := by
    cases h with
    | listening x =>
      match request, answer with
      | .read _ _, .ok buffer => exact .taken x buffer
      | .read _ _, .error .timeout => exact .listening x
      | .read _ _, .error .closed | .read _ _, .error (.system _) => exact .ended x []
      | .now, _ => exact .listening x
      | .write _ _, _ | .note _, _ => exact hp.elim
    | taken x buffer =>
      match request with
      | .note notice =>
        obtain rfl : notice = .consumed buffer := hp
        exact at_noted x buffer
      | .read _ _ | .write _ _ | .now => exact hp.elim
    | replying step x reply =>
      match request with
      | .write _ _ => exact at_replied step x answer
      | .read _ _ | .now | .note _ => exact hp.elim
    | completing x =>
      match request with
      | .note notice =>
        obtain rfl : notice = .completed x.buffer := hp
        exact .ended x [x.buffer]
      | .read _ _ | .write _ _ | .now => exact hp.elim
    | ended x messages => exact hp.elim

structure Sending.At (frames : List Frame) (role : Mode) (s : Sending) (t : Stance) : Prop where
  left : s.left <:+ frames
  awaiting : s.awaiting = true →
    ∃ frame rest, s.left = frame :: rest ∧ t = .awaiting role frame.encode
  even : s.awaiting = false → t.IsEven ∧ t.role = role
  whole : ∀ front last, frames = front ++ [last] → s.left = [] → s.awaiting = false →
    t = .judged role last.encode true

theorem Sending.at_start (frames : List Frame) (role : Mode) :
    Sending.At frames role ⟨frames, 0, false⟩ (.free role) where
  left := List.suffix_refl frames
  awaiting := nofun
  even _ := ⟨trivial, rfl⟩
  whole front last hf hl _ := by
    rw [hf] at hl
    simp at hl

/-- With frames left and no verdict due it is the party's turn to speak. -/
theorem Sending.at_of_ne_nil {frames left : List Frame} {role : Mode} {used : Nat} {t : Stance}
    (hl : left <:+ frames) (hn : left ≠ []) (he : t.IsEven) (hr : t.role = role) :
    Sending.At frames role ⟨left, used, false⟩ t where
  left := hl
  awaiting := nofun
  even _ := ⟨he, hr⟩
  whole _ _ _ hnil _ := absurd hnil hn

/-- So does the sending of frames. -/
theorem Sending.covers {frames : List Frame} (role : Mode) (hf : ∀ frame ∈ frames, frame.IsSpeech)
    {attempts : Nat} :
    (Sending.contract attempts limited).Covers (conduct capacity) (At frames role) where
  permits {s t request} h hp := by
    cases request with
    | write bytes timeout =>
      obtain ⟨ha, -, frame, rest, hl, rfl⟩ := hp
      have hspeech : IsSpeech frame.encode :=
        ⟨frame, hf frame (h.left.subset (by simp [hl])), rfl⟩
      have heven := (h.even ha).1
      cases t with
      | free | judged => exact hspeech
      | taken | owing | awaiting => exact heven.elim
    | read room timeout =>
      obtain ⟨ha, hroom⟩ := hp
      obtain ⟨frame, rest, -, rfl⟩ := h.awaiting ha
      exact hroom
    | now => cases t <;> trivial
    | note notice => exact hp.elim
  mayLoop h hl := hl.elim
  next {s t request} answer h hp := by
    obtain ⟨left, used, awaiting⟩ := s
    cases request with
    | write bytes timeout =>
      obtain ⟨ha, -, frame, rest, hl, rfl⟩ := hp
      dsimp only at ha hl
      subst ha hl
      obtain ⟨heven, hrole⟩ := h.even rfl
      change At frames role (Sending.written _ _ answer) (t.wrote _ answer)
      rw [Stance.wrote_of_isEven heven, hrole]
      cases answer with
      | error e => exact at_of_ne_nil h.left (List.cons_ne_nil frame rest) trivial rfl
      | ok n =>
        by_cases hn : n = frame.encode.length
        · simp only [written, Stance.spoken, if_pos hn]
          exact ⟨h.left, fun _ => ⟨frame, rest, rfl, rfl⟩, fun he => absurd hn (by simpa using he),
            by simp⟩
        · simp only [written, Stance.spoken, if_neg hn]
          rw [beq_eq_false_iff_ne.2 hn]
          exact at_of_ne_nil h.left (List.cons_ne_nil frame rest) trivial rfl
    | read room timeout =>
      obtain ⟨ha, hroom⟩ := hp
      dsimp only at ha
      subst ha
      obtain ⟨frame, rest, hl, rfl⟩ := h.awaiting rfl
      dsimp only at hl
      subst hl
      change At frames role (Sending.judged _ (acked answer)) (.judged role _ (acked answer))
      cases hv : acked answer with
      | false => exact at_of_ne_nil h.left (List.cons_ne_nil frame rest) trivial rfl
      | true =>
        refine ⟨(List.suffix_cons frame rest).trans h.left, by simp [judged],
          fun _ => ⟨trivial, rfl⟩, ?_⟩
        intro front last hfront hrest _
        -- The last frame left is the last of all.
        obtain rfl : rest = [] := hrest
        obtain ⟨before, hbefore⟩ := h.left
        rw [hfront] at hbefore
        have hlast : [frame] = [last] := (List.append_inj' hbefore rfl).2
        cases hlast
        rfl
    | now => exact h
    | note notice => exact hp.elim

end Covers

theorem isSpeech_of_mem_plan {message : Bytes} {capacity : Nat} (hc : 0 < capacity) {frame : Frame}
    (h : frame ∈ plan message capacity) : frame.IsSpeech := by
  rcases mem_plan hc h with rfl | rfl | ⟨sequence, payload, rfl, -⟩
  · exact ⟨nofun, nofun⟩
  · exact ⟨nofun, nofun⟩
  · trivial

namespace Call

def switches : Call → Option (Control × Mode)
  | switchToReceive _ => some (.setSend, .receiver)
  | switchToSend _ => some (.setRecv, .sender)
  | read _ _ | write _ _ | waitForSend _ | waitForReceive _ => none

def opening (e : Engine) : Call → Mode
  | read _ _ => if e.mode = .undefined ∧ e.exchange.pending = [] then .receiver else e.mode
  | write _ _ => if e.mode = .undefined then .sender else e.mode
  | waitForSend _ | waitForReceive _ | switchToReceive _ | switchToSend _ => e.mode

end Call

namespace Engine

open Dialog

variable {α : Type}

def Settled (config : Config) (t : Stance) (finish : End α) : Prop :=
  t = .free finish.2.mode ∧ finish.2.config = config

theorem honours_receive (e : Engine) (deadline : Deadline) :
    Honours (conduct e.config.send.mtu) (Settled e.config) (.free e.mode) (e.receive deadline) := by
  have hloop : Honours (Receiving.contract e.config.send.mtu True) _ _
      (Reception.receive e.config.send.mtu e.config.receive.replyTimeout deadline
        ⟨e.exchange, {}⟩) :=
    Reception.honours_receive (fun _ => trivial) ⟨e.exchange, {}⟩ rfl _
  apply (hloop.covered Receiving.covers (.listening _)).bind
  rintro t ⟨result, r⟩ ⟨s, hs, hends, -⟩
  match result with
  | .error error =>
    obtain rfl | ⟨rfl, -⟩ := hends
    · cases hs
      exact honours_pure ⟨rfl, rfl⟩
    · cases hs
      exact honours_pure ⟨rfl, rfl⟩
  | .ok .message =>
    obtain rfl := hends
    cases hs
    exact honours_pure ⟨rfl, rfl⟩
  | .ok (.switched mode) =>
    obtain rfl := hends
    cases hs
    exact honours_pure ⟨rfl, rfl⟩

theorem honours_awaitMode (e : Engine) (target : Mode) (operation : Operation)
    (deadline : Deadline) :
    Honours (conduct e.config.send.mtu) (Settled e.config) (.free e.mode)
      (e.awaitMode target operation deadline) := by
  unfold awaitMode
  by_cases hm : e.mode = target
  · rw [if_pos hm]
    exact honours_pure ⟨rfl, rfl⟩
  · rw [if_neg hm]
    apply (e.honours_receive deadline).bind
    rintro t ⟨result, e'⟩ ⟨rfl, hconfig⟩
    match result with
    | .error error => exact honours_pure ⟨rfl, hconfig⟩
    | .ok .message => exact honours_pure ⟨rfl, hconfig⟩
    | .ok (.switched mode) =>
      dsimp only
      split
      · exact honours_pure ⟨rfl, hconfig⟩
      · exact honours_pure ⟨rfl, hconfig⟩

theorem honours_resolveMode (e : Engine) (target : Mode) (operation : Operation)
    (deadline : Deadline) :
    Honours (conduct e.config.send.mtu) (Settled e.config)
      (.free (if e.mode = .undefined then target else e.mode))
      (e.resolveMode target operation deadline) := by
  by_cases hm : e.mode = target ∨ e.mode = .undefined
  · rw [e.resolveMode_eq_pure hm]
    refine honours_pure ⟨congrArg Stance.free ?_, rfl⟩
    rcases hm with hm | hm
    · rw [hm]
      exact ite_self target
    · rw [if_pos hm]
      rfl
  · rw [not_or] at hm
    unfold resolveMode
    rw [if_neg hm.1, if_neg hm.2, if_neg hm.2]
    cases e.config.switching with
    | manual => exact honours_pure ⟨rfl, rfl⟩
    | auto =>
      apply (e.honours_awaitMode target operation deadline).bind
      rintro t ⟨result, e'⟩ ⟨rfl, hconfig⟩
      cases result with
      | ok => exact honours_pure ⟨rfl, hconfig⟩
      | error => exact honours_pure ⟨rfl, hconfig⟩

theorem honours_readExchange (e : Engine) (room : Nat) (deadline : Deadline) :
    Honours (conduct e.config.send.mtu) (Settled e.config)
      (.free (if e.mode = .undefined then .receiver else e.mode))
      (e.readExchange room deadline) := by
  apply (e.honours_resolveMode .receiver .read deadline).bind
  rintro t ⟨result, e₁⟩ ⟨rfl, hconfig⟩
  cases result with
  | error error => exact honours_pure ⟨rfl, hconfig⟩
  | ok =>
    have hreceive := e₁.honours_receive deadline
    rw [show e₁.config = e.config from hconfig] at hreceive
    apply hreceive.bind
    rintro t ⟨received, e₂⟩ ⟨rfl, hconfig'⟩
    match received with
    | .error error => exact honours_pure ⟨rfl, hconfig'⟩
    | .ok (.switched mode) => exact honours_pure ⟨rfl, hconfig'⟩
    | .ok .message =>
      refine honours_pure ⟨congrArg Stance.free ?_, hconfig'⟩
      -- Handed out or held, a message leaves the role alone.
      change e₂.exchange.mode = (e₂.exchange.deliver room).2.mode
      rw [Exchange.deliver_eq]
      split <;> rfl

theorem honours_writeExchange (e : Engine) (message : Bytes) (deadline : Deadline) :
    Honours (conduct e.config.send.mtu)
      (fun t finish => t.IsEven ∧ finish.2.mode = t.role ∧ finish.2.config = e.config)
      (.free (if e.mode = .undefined then .sender else e.mode))
      (e.writeExchange message deadline) := by
  apply (e.honours_resolveMode .sender .write deadline).bind
  rintro t ⟨result, e₁⟩ ⟨rfl, hconfig⟩
  cases result with
  | error error => exact honours_pure ⟨trivial, rfl, hconfig⟩
  | ok =>
    have hspeech : ∀ frame ∈ plan message e₁.config.capacity, frame.IsSpeech :=
      fun _ => isSpeech_of_mem_plan e₁.config.capacity_pos
    have hsend := Transmission.honours_sendMessage message e₁.config.capacity e₁.config.send.retry
      deadline
    apply (hsend.covered (Sending.covers e₁.mode hspeech) (Sending.at_start _ _)).bind
    rintro t result ⟨s, hs, hok, herror⟩
    -- The sending ends with no verdict due.
    cases result with
    | ok metrics =>
      obtain ⟨heven, hrole⟩ := hs.even (by rw [hok metrics rfl])
      exact honours_pure ⟨heven, hrole.symm, hconfig⟩
    | error error =>
      obtain ⟨heven, hrole⟩ := hs.even (herror error rfl).1
      exact honours_pure ⟨heven, hrole.symm, hconfig⟩

end Engine

/-- How a call ends: with nothing due, and in the role of its stance. Only a change of roles that
succeeds makes its role itself, with the peer's verdict on the request. -/
structure Call.Ended (call : Call) (e : Engine) (t : Stance) (finish : Engine.End call.Result) :
    Prop where
  settings : finish.2.config = e.config
  even : t.IsEven
  unmoved : call.switches ≠ none → t.role = e.mode
  role : call.switches = none ∨ (∃ error, finish.1 = .error error) → finish.2.mode = t.role
  acked : ∀ request role value, call.switches = some (request, role) → finish.1 = .ok value →
    t = .judged e.mode request.encode true ∧ finish.2.mode = role

namespace Engine

open Dialog

variable {α : Type}

/-- The start of a call reads the clock at most. -/
theorem honours_begin (e : Engine) (limit : Millis) {role : Mode} :
    Honours (conduct e.config.send.mtu) (fun t _ => t = .free role) (.free role)
      (Deadline.start limit) := by
  have hstart : Honours (conduct e.config.send.mtu)
      (fun t (deadline : Deadline) => t = .free role ∧ (deadline.expiry ≠ none → True)) (.free role)
      (Deadline.start limit) :=
    honours_start (fun _ => trivial) (fun _ => rfl) fun _ => trivial
  apply hstart.mono
  exact fun _ _ h => h.1

theorem honours_requestSwitch (e : Engine) (request : Control) (role : Mode) (limit : Millis)
    (hs : request ≠ .ack ∧ request ≠ .nack) :
    Honours (conduct e.config.send.mtu)
      (fun t finish => finish.2.config = e.config ∧ t.IsEven ∧ t.role = e.mode ∧
        ((∃ error, finish.1 = .error error) → finish.2.mode = e.mode) ∧
        ∀ value, finish.1 = .ok value →
          t = .judged e.mode request.encode true ∧ finish.2.mode = role)
      (.free e.mode) (e.requestSwitch request role limit) := by
  apply (honours_begin e limit).bind
  rintro t deadline rfl
  have hspeech : ∀ frame ∈ [Frame.control request], frame.IsSpeech := by
    intro frame hf
    obtain rfl := List.mem_singleton.1 hf
    exact hs
  let budget := Retransmission.remaining {} e.config.send.retry
  have hsend : Honours (Sending.contract (0 + budget) True) _ ⟨[.control request], 0, false⟩
      (Transmission.attempts (Frame.control request).encode e.config.send.retry deadline budget
        {}) :=
    Transmission.honours_attempts _ (fun _ => trivial) budget {} rfl rfl rfl
  apply (hsend.covered (Sending.covers e.mode hspeech) (Sending.at_start _ _)).bind
  rintro t result ⟨s, hs, hok, herror⟩
  cases result with
  | error error =>
    obtain ⟨heven, hrole⟩ := hs.even (herror error rfl).1
    exact honours_pure ⟨rfl, heven, hrole, fun _ => rfl, nofun⟩
  | ok n =>
    obtain rfl := hok n rfl
    obtain rfl := hs.whole [] (.control request) rfl rfl rfl
    exact honours_pure ⟨rfl, trivial, rfl, nofun, fun _ _ => ⟨rfl, rfl⟩⟩

theorem honours_waitForMode (e : Engine) (target : Mode) (operation : Operation) (limit : Millis) :
    Honours (conduct e.config.send.mtu) (Settled e.config) (.free e.mode)
      (e.waitForMode target operation limit) := by
  apply (honours_begin e limit).bind
  rintro t deadline rfl
  apply (e.reset.honours_awaitMode target operation deadline).bind
  rintro t ⟨result, e'⟩ ⟨rfl, hconfig⟩
  exact honours_pure ⟨rfl, hconfig⟩

theorem honours_readCall (e : Engine) (room : Nat) (limit : Millis) :
    Honours (conduct e.config.send.mtu) (Settled e.config)
      (.free ((Call.read room limit).opening e)) (e.read room limit) := by
  unfold Call.opening
  cases hp : e.exchange.pending with
  | nil =>
    rw [read_of_empty hp]
    simp only [and_true]
    apply (honours_begin e limit).bind
    rintro t deadline rfl
    apply (e.reset.honours_readExchange room deadline).bind
    rintro t ⟨result, e'⟩ ⟨rfl, hconfig⟩
    exact honours_pure ⟨rfl, hconfig⟩
  -- With a held message nothing happens, in whatever role.
  | cons message rest =>
    rw [read_of_pending hp]
    simp only [reduceCtorEq, and_false, if_false]
    split
    · exact honours_pure ⟨rfl, rfl⟩
    · exact honours_pure ⟨rfl, rfl⟩

theorem honours_writeCall (e : Engine) (message : Bytes) (limit : Millis) :
    Honours (conduct e.config.send.mtu)
      (fun t finish => t.IsEven ∧ finish.2.mode = t.role ∧ finish.2.config = e.config)
      (.free ((Call.write message limit).opening e)) (e.write message limit) := by
  apply (honours_begin e limit).bind
  rintro t deadline rfl
  apply (e.reset.honours_writeExchange message deadline).bind
  rintro t ⟨result, e'⟩ h
  exact honours_pure h

/-- Every call keeps to the conduct of calls, from the role in which it begins. -/
theorem honours_call (e : Engine) (call : Call) :
    Honours (conduct e.config.send.mtu) (call.Ended e) (.free (call.opening e))
      (call.dialog e) := by
  cases call with
  | read room limit =>
    apply (e.honours_readCall room limit).mono
    rintro t finish ⟨rfl, hconfig⟩
    exact ⟨hconfig, trivial, nofun, fun _ => rfl, nofun⟩
  | write message limit =>
    apply (e.honours_writeCall message limit).mono
    rintro t finish ⟨heven, hrole, hconfig⟩
    exact ⟨hconfig, heven, nofun, fun _ => hrole, nofun⟩
  | waitForSend limit | waitForReceive limit =>
    apply (e.honours_waitForMode _ _ limit).mono
    rintro t finish ⟨rfl, hconfig⟩
    exact ⟨hconfig, trivial, nofun, fun _ => rfl, nofun⟩
  | switchToReceive limit | switchToSend limit =>
    apply (e.honours_requestSwitch _ _ limit (by decide)).mono
    rintro t finish ⟨hconfig, heven, hrole, herror, hok⟩
    refine ⟨hconfig, heven, fun _ => hrole, fun hfailed => ?_, ?_⟩
    · rw [herror (hfailed.resolve_left nofun), hrole]
    · rintro request role value hswitch hvalue
      cases hswitch
      exact hok value hvalue

end Engine

end StopAndWait
