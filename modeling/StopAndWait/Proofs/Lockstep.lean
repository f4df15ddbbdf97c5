import StopAndWait.Proofs.Sketch

namespace StopAndWait

namespace Sketch

def unentered : Option Receiving → List Bytes
  | some (.completing x) => [x.buffer]
  | _ => []

theorem mem_unentered {receiving : Option Receiving} {message : Bytes}
    (h : message ∈ unentered receiving) :
    ∃ x, receiving = some (.completing x) ∧ message = x.buffer := by
  unfold unentered at h
  split at h
  · exact ⟨_, rfl, List.mem_singleton.1 h⟩
  · cases h

def total (a : Sketch) : List Bytes := a.completed ++ unentered a.receiving

inductive AtRest : Option Receiving → Prop
  | resting : AtRest none
  | listening {x : Exchange} (idle : x.IsIdle) : AtRest (some (.listening x))
  | completing {x : Exchange} : AtRest (some (.completing x))
  | ended {x : Exchange} {messages : List Bytes} : AtRest (some (.ended x messages))

inductive Ready (p : Pair) (message : Bytes) (left : List Frame) : Option Receiving → Prop
  | atRest {receiving : Option Receiving} (rest : AtRest receiving)
    (whole : left = [] ∨ left = plan message p.sender.capacity) : Ready p message left receiving
  | midway {x : Exchange} (course : Course message x left) :
    Ready p message left (some (.listening x))

inductive Taken (message : Bytes) (x : Exchange) : StopAndWait.Step → List Frame → Prop
  | last (whole : x.buffer = message) : Taken message x (.ack .complete) []
  | more {left : List Frame} (course : Course message x left) : Taken message x (.ack .proceed) left

inductive Phase (p : Pair) (message : Bytes) :
    Sending → List Bytes → List Bytes → Option Receiving → List Frame → Prop
  -- With the writer.
  | home {left : List Frame} {receiving : Option Receiving}
    (ready : Ready p message left receiving) : Phase p message ⟨left, 0, false⟩ [] [] receiving left
  -- A frame on its way.
  | away {frame : Frame} {rest : List Frame} {receiving : Option Receiving}
    (ready : Ready p message (frame :: rest) receiving) :
    Phase p message ⟨frame :: rest, 1, true⟩ [frame.encode] [] receiving (frame :: rest)
  -- A frame at the reader.
  | taken {frame : Frame} {rest : List Frame} {x : Exchange}
    (course : Course message x (frame :: rest)) :
    Phase p message ⟨frame :: rest, 1, true⟩ [] [] (some (.taken x frame.encode)) (frame :: rest)
  -- A reply at the reader.
  | replying {frame : Frame} {rest : List Frame} {step : StopAndWait.Step} {x : Exchange}
    (taken : Taken message x step rest) :
    Phase p message ⟨frame :: rest, 1, true⟩ [] [] (some (.replying step x)) (frame :: rest)
  -- A reply on its way.
  | back {frame : Frame} {rest : List Frame} {receiving : Option Receiving}
    (ready : Ready p message rest receiving) :
    Phase p message ⟨frame :: rest, 1, true⟩ [] [Control.ack.encode] receiving rest
  -- The frame lost, or the reply to it: the writer waits for good.
  | lost {frame : Frame} {rest left : List Frame} {receiving : Option Receiving}
    (either : left = frame :: rest ∨ left = rest) (ready : Ready p message left receiving) :
    Phase p message ⟨frame :: rest, 1, true⟩ [] [] receiving left

def due (message : Bytes) (left : List Frame) : List Bytes :=
  if left = [] then [message].filter (· ≠ []) else []

inductive InStep (p : Pair) (a : Sketch) : Prop
  | idle (sending : a.sending = none) (outbound : a.outbound = []) (inbound : a.inbound = [])
    (rest : AtRest a.receiving) (total : a.total = a.written.filter (· ≠ []))
  | busy {message : Bytes} {s : Sending} {earlier : List Bytes} {left : List Frame}
    (sending : a.sending = some (message, s)) (written : a.written = earlier ++ [message])
    (phase : Phase p message s a.outbound a.inbound a.receiving left)
    (total : a.total = earlier.filter (· ≠ []) ++ due message left)

def Truthful (a : Sketch) : Prop :=
  ∀ message n, (message, .ok n) ∈ a.outcomes → message ≠ [] → message ∈ a.total

variable {p : Pair} {r : Regime} {a a' : Sketch} {message : Bytes}

theorem Step.total_prefix (h : Step p r a a') : a.total <+: a'.total := by
  cases h with
  | reply receiving carried => simp [total, unentered, receiving]
  | complete receiving => simp [total, unentered, receiving]
  | enter receiving => simp [total, unentered, receiving]
  | read resting role idle => simp [total, unentered, resting]
  | readHeld resting role => simp [total, unentered, resting]
  | receive receiving outbound => simp [total, unentered, receiving]
  | receiveInVain receiving hasty => simp [total, unentered, receiving]
  | readEnds receiving ended =>
    rcases ended with ⟨x, messages, rfl⟩ | ⟨⟨x, rfl⟩, -⟩ <;> simp [total, unentered, receiving]
  | write | transmit | getVerdict | waitInVain | writeEnds => exact List.prefix_refl _

/-- A reader that waits for a buffer is ready for the first frame left by its course. -/
theorem Ready.course {left : List Frame} {x : Exchange} (hl : left ≠ [])
    (h : Ready p message left (some (.listening x))) : Course message x left := by
  cases h with
  | midway course => exact course
  -- At rest and listening: the whole plan is to come.
  | atRest rest whole =>
    cases rest with
    | listening idle =>
      obtain rfl := whole.resolve_left hl
      have hm : message ≠ [] := by
        intro hm
        exact hl (plan_eq_nil.2 hm)
      exact .plan hm _ x idle

theorem Ready.nil {receiving : Option Receiving} (h : Ready p message [] receiving) :
    AtRest receiving := by
  cases h with
  | atRest rest whole => exact rest
  | midway course => nomatch course

theorem Ready.rest {left : List Frame} {receiving receiving' : Option Receiving}
    (h : Ready p message left receiving) (hr : AtRest receiving')
    (hmid : ∀ x, receiving = some (.listening x) →
      Course message x left → left = plan message p.sender.capacity) :
    Ready p message left receiving' := by
  cases h with
  | atRest rest whole => exact .atRest hr whole
  | midway course => exact .atRest hr (.inr (hmid _ rfl course))

theorem eq_plan_of_course {left : List Frame} {x : Exchange} (course : Course message x left)
    (hl : left <:+ plan message p.sender.capacity)
    (hone : (plan message p.sender.capacity).length ≤ 1) :
    left = plan message p.sender.capacity := by
  -- A suffix of a plan of one frame that is not empty is all of it.
  have hpos : 0 < left.length := by
    cases course <;> simp
  have hle := hl.length_le
  exact hl.eq_of_length (by omega)

/-- The reader may come to rest in any phase in which it is not busy with a frame. -/
theorem Phase.rest {s : Sending} {outbound inbound : List Bytes}
    {receiving receiving' : Option Receiving} {left : List Frame}
    (h : Phase p message s outbound inbound receiving left)
    (hs : s.left <:+ plan message p.sender.capacity) (hr : AtRest receiving')
    (htaken : ∀ x buffer, receiving ≠ some (.taken x buffer))
    (hreplying : ∀ step x, receiving ≠ some (.replying step x))
    (hone : ∀ x, receiving = some (.listening x) → (plan message p.sender.capacity).length ≤ 1) :
    Phase p message s outbound inbound receiving' left := by
  -- In each phase the reader is ready for the frames left, and may rest if it need not listen on.
  have hready : ∀ left, left <:+ plan message p.sender.capacity →
      Ready p message left receiving → Ready p message left receiving' := by
    intro left hl ready
    exact ready.rest hr fun x hx course => eq_plan_of_course course hl (hone x hx)
  cases h with
  | home ready => exact .home (hready _ hs ready)
  | away ready => exact .away (hready _ hs ready)
  | taken course => exact absurd rfl (htaken _ _)
  | replying taken => exact absurd rfl (hreplying _ _)
  | back ready => exact .back (hready _ ((List.suffix_cons _ _).trans hs) ready)
  | lost either ready =>
    refine .lost either (hready _ ?_ ready)
    rcases either with rfl | rfl
    · exact hs
    · exact (List.suffix_cons _ _).trans hs

def Brief (p : Pair) (r : Regime) (a : Sketch) : Prop :=
  r.hastyReceiver = true → ∀ message ∈ a.written, message.length ≤ p.sender.capacity

theorem InStep.rest (h : InStep p a) (hp : a.Planned p) (hb : Brief p r a)
    {receiving : Option Receiving} {completed : List Bytes} (hr : AtRest receiving)
    (ht : completed ++ unentered receiving = a.total)
    (htaken : ∀ x buffer, a.receiving ≠ some (.taken x buffer))
    (hreplying : ∀ step x, a.receiving ≠ some (.replying step x))
    (hlistening : ∀ x, a.receiving = some (.listening x) → r.hastyReceiver = true) :
    InStep p { a with receiving, completed } := by
  cases h with
  | idle sending outbound inbound rest total =>
    exact .idle sending outbound inbound hr (ht.trans total)
  | @busy message s earlier left sending written phase total =>
    refine .busy sending written ?_ (ht.trans total)
    apply phase.rest (hp.sending _ _ sending) hr htaken hreplying
    intro x hx
    refine length_plan_of_fits (hb (hlistening x hx) message ?_)
    simp [written]

theorem due_plan (message : Bytes) (capacity : Nat) : due message (plan message capacity) = [] := by
  by_cases hm : message = []
  · simp [due, hm]
  · simp [due, plan_eq_nil, hm]

section Phase

variable {s : Sending} {outbound inbound : List Bytes} {receiving : Option Receiving}
  {left : List Frame}

theorem Ready.not_taken {x : Exchange} {buffer : Bytes} :
    ¬ Ready p message left (some (.taken x buffer)) := by
  intro h
  cases h with
  | atRest rest => cases rest

theorem Ready.not_replying {step : StopAndWait.Step} {x : Exchange} :
    ¬ Ready p message left (some (.replying step x)) := by
  intro h
  cases h with
  | atRest rest => cases rest

theorem Phase.of_home (h : Phase p message s outbound inbound receiving left)
    (ha : s.awaiting = false) :
    s = ⟨left, 0, false⟩ ∧ outbound = [] ∧ inbound = [] ∧ Ready p message left receiving := by
  cases h with
  | home ready => exact ⟨rfl, rfl, rfl, ready⟩
  | away | taken | replying | back | lost => cases ha

theorem Phase.of_away {buffer : Bytes} {rest : List Bytes}
    (h : Phase p message s (buffer :: rest) inbound receiving left) :
    ∃ frame later, s = ⟨left, 1, true⟩ ∧ left = frame :: later ∧ buffer = frame.encode ∧
      rest = [] ∧ inbound = [] ∧ Ready p message left receiving := by
  cases h with
  | away ready => exact ⟨_, _, rfl, rfl, rfl, rfl, rfl, ready⟩

theorem Phase.of_taken {x : Exchange} {buffer : Bytes}
    (h : Phase p message s outbound inbound (some (.taken x buffer)) left) :
    ∃ frame later, s = ⟨left, 1, true⟩ ∧ left = frame :: later ∧ buffer = frame.encode ∧
      outbound = [] ∧ inbound = [] ∧ Course message x left := by
  cases h with
  | taken course => exact ⟨_, _, rfl, rfl, rfl, rfl, rfl, course⟩
  | home ready | away ready | back ready | lost _ ready => exact absurd ready Ready.not_taken

theorem Phase.of_replying {step : StopAndWait.Step} {x : Exchange}
    (h : Phase p message s outbound inbound (some (.replying step x)) left) :
    ∃ frame later, s = ⟨left, 1, true⟩ ∧ left = frame :: later ∧ outbound = [] ∧ inbound = [] ∧
      Taken message x step later := by
  cases h with
  | replying taken => exact ⟨_, _, rfl, rfl, rfl, rfl, taken⟩
  | home ready | away ready | back ready | lost _ ready => exact absurd ready Ready.not_replying

theorem Phase.of_back {buffer : Bytes} {rest : List Bytes}
    (h : Phase p message s outbound (buffer :: rest) receiving left) :
    ∃ frame, s = ⟨frame :: left, 1, true⟩ ∧ outbound = [] ∧ buffer = Control.ack.encode ∧
      rest = [] ∧ Ready p message left receiving := by
  cases h with
  | back ready => exact ⟨_, rfl, rfl, rfl, rfl, ready⟩

end Phase

section Step

variable {s : Sending}

theorem InStep.of_sending (h : InStep p a) (hs : a.sending = some (message, s)) :
    ∃ earlier left, a.written = earlier ++ [message] ∧
      Phase p message s a.outbound a.inbound a.receiving left ∧
      a.total = earlier.filter (· ≠ []) ++ due message left := by
  cases h with
  | idle sending => simp [sending] at hs
  | busy sending written phase total =>
    rw [sending] at hs
    cases hs
    exact ⟨_, _, written, phase, total⟩

theorem InStep.message_mem_total (h : InStep p a)
    (hs : a.sending = some (message, ⟨[], 0, false⟩)) (hm : message ≠ []) : message ∈ a.total := by
  obtain ⟨earlier, left, -, phase, total⟩ := h.of_sending hs
  -- No frame is left, so all of the message is due.
  obtain ⟨heq, -⟩ := phase.of_home rfl
  obtain rfl : [] = left := congrArg Sending.left heq
  simp [total, due, hm]

theorem InStep.write (h : InStep p a) (hs : a.sending = none) :
    InStep p { a with
      sending := some (message, ⟨plan message p.sender.capacity, 0, false⟩)
      written := a.written ++ [message] } := by
  cases h with
  | busy sending => simp [sending] at hs
  | idle sending outbound inbound rest total =>
    have hphase : Phase p message ⟨plan message p.sender.capacity, 0, false⟩ a.outbound a.inbound
        a.receiving (plan message p.sender.capacity) := by
      rw [outbound, inbound]
      exact .home (.atRest rest (.inr rfl))
    refine .busy rfl rfl hphase ?_
    rw [due_plan, List.append_nil]
    exact total

theorem InStep.transmit {frame : Frame} {rest : List Frame} {used : Nat} {outbound : List Bytes}
    (h : InStep p a) (hs : a.sending = some (message, ⟨frame :: rest, used, false⟩))
    (carried : outbound = a.outbound ++ [frame.encode] ∨ r.lossy = true ∧ outbound = a.outbound) :
    InStep p { a with
      sending := some (message, ⟨frame :: rest, used + 1, true⟩)
      outbound } := by
  obtain ⟨earlier, left, written, phase, total⟩ := h.of_sending hs
  obtain ⟨heq, ho, hi, ready⟩ := phase.of_home rfl
  cases heq
  refine .busy rfl written ?_ total
  -- The frame is on its way, or lost for good.
  rcases carried with rfl | ⟨-, rfl⟩
  · simp only [ho, hi]
    exact .away ready
  · simp only [ho, hi]
    exact .lost (.inl rfl) ready

theorem InStep.getVerdict {bytes : Bytes} {rest : List Bytes} {capacity : Nat} (h : InStep p a)
    (hs : a.sending = some (message, s)) (hi : a.inbound = bytes :: rest)
    (hroom : Frame.controlSize ≤ capacity) :
    InStep p { a with
      sending := some (message, s.judged (Sending.acked (.ok (bytes.take capacity))))
      inbound := rest } := by
  obtain ⟨earlier, left, written, phase, total⟩ := h.of_sending hs
  rw [hi] at phase
  obtain ⟨frame, rfl, ho, rfl, rfl, ready⟩ := phase.of_back
  -- The one reply under way is an acknowledgment, and is taken for one.
  have hacked : Sending.acked (.ok (Control.ack.encode.take capacity)) = true :=
    Sending.acked_encode hroom .ack
  refine .busy rfl written ?_ total
  simp only [hacked, Sending.judged, ho, if_pos, List.tail_cons]
  exact .home ready

theorem InStep.writeEnds {result : Except Error Nat} (h : InStep p a)
    (hs : a.sending = some (message, s)) (whole : ∀ n, result = .ok n → s = ⟨[], 0, false⟩)
    (broken : ∀ e, result = .error e →
      s.Broken p.sender.send.retry.maxAttempts.toNat (r.hastySender = true))
    (hr : r.hastySender = false) :
    InStep p { a with sending := none, outcomes := a.outcomes ++ [(message, result)] } := by
  obtain ⟨earlier, left, written, phase, total⟩ := h.of_sending hs
  cases result with
  | error e =>
    -- The first attempt of a frame is never the last, and a patient write has no limit.
    exfalso
    obtain ⟨ha, -, hb⟩ := broken e rfl
    obtain ⟨rfl, -⟩ := phase.of_home ha
    have hpos := p.sender.maxAttempts_pos
    have hu := hb.resolve_left (by simp [hr])
    dsimp only at hu
    omega
  | ok n =>
    obtain ⟨heq, ho, hi, ready⟩ := phase.of_home (by rw [whole n rfl])
    -- A write that ends well has no frame left.
    have hl : left = [] := by
      have := whole n rfl
      simp_all
    subst hl
    refine .idle rfl ho hi ready.nil ?_
    rw [written, List.filter_append]
    exact total

theorem InStep.receive {x : Exchange} {bytes : Bytes} {rest : List Bytes} (h : InStep p a)
    (hp : a.Planned p) (hr : a.receiving = some (.listening x)) (ho : a.outbound = bytes :: rest) :
    InStep p { a with
      receiving := some (.taken x (bytes.take p.receiver.send.mtu))
      outbound := rest } := by
  -- The reader has room for all of the frame.
  have htake : bytes.take p.receiver.send.mtu = bytes :=
    (hp.outbound bytes (by simp [ho])).take_eq
  cases h with
  | idle sending outbound => simp [outbound] at ho
  | @busy message s earlier left sending written phase total =>
    rw [ho, hr] at phase
    obtain ⟨frame, later, rfl, rfl, rfl, rfl, hi, ready⟩ := phase.of_away
    have hcourse : Course message x (frame :: later) := ready.course (by simp)
    have hphase : Phase p message ⟨frame :: later, 1, true⟩ [] a.inbound
        (some (.taken x (frame.encode.take p.receiver.send.mtu))) (frame :: later) := by
      rw [htake, hi]
      exact .taken hcourse
    refine .busy sending written hphase ?_
    simpa [Sketch.total, unentered, hr] using total

theorem InStep.enter {x : Exchange} {bytes : Bytes} (h : InStep p a)
    (hr : a.receiving = some (.taken x bytes)) :
    InStep p { a with receiving := some (Receiving.noted (.taken x bytes)) } := by
  cases h with
  | idle sending outbound inbound rest =>
    rw [hr] at rest
    cases rest
  | @busy message s earlier left sending written phase total =>
    rw [hr] at phase
    obtain ⟨frame, later, rfl, rfl, rfl, ho, hi, course⟩ := phase.of_taken
    have hreply : ∃ step x', x.onBuffer frame.encode = .ok (step, x') ∧
        Taken message x' step later := by
      cases course with
      | last step whole mode => exact ⟨_, _, step, .last whole⟩
      | more step again mode onward => exact ⟨_, _, step, .more onward⟩
    obtain ⟨step, x', hx, taken⟩ := hreply
    simp only [Receiving.noted, hx]
    have hphase : Phase p message ⟨frame :: later, 1, true⟩ a.outbound a.inbound
        (some (.replying step x')) (frame :: later) := by
      rw [ho, hi]
      exact .replying taken
    refine .busy sending written hphase ?_
    simpa [Sketch.total, unentered, hr] using total

theorem InStep.reply {step : StopAndWait.Step} {x : Exchange} {inbound : List Bytes}
    (h : InStep p a) (hp : a.Planned p) (hr : a.receiving = some (.replying step x))
    (carried : inbound = a.inbound ++ [step.reply.encode] ∨ r.lossy = true ∧ inbound = a.inbound) :
    InStep p { a with
      receiving := some ((Receiving.replying step x).replied (.ok step.reply.encode.length))
      inbound } := by
  cases h with
  | idle sending outbound inbound rest =>
    rw [hr] at rest
    cases rest
  | @busy message s earlier left sending written phase total =>
    rw [hr] at phase
    obtain ⟨frame, later, rfl, rfl, ho, hi, taken⟩ := phase.of_replying
    have hm : message ≠ [] := by
      have hl := hp.sending _ _ sending
      rintro rfl
      simp at hl
    have hbefore : a.completed = earlier.filter (· ≠ []) := by
      simpa [Sketch.total, unentered, hr, due] using total
    -- A frame of a course is never refused.
    have hreply : step.reply = .ack := by
      cases taken <;> rfl
    have hready : Ready p message later
        (some ((Receiving.replying step x).replied (.ok step.reply.encode.length))) := by
      cases taken with
      | last whole => exact .atRest .completing (.inl rfl)
      | more course => exact .midway course
    -- With the last frame the message is put together, with any other nothing.
    have hafter : unentered (some ((Receiving.replying step x).replied (.ok
        step.reply.encode.length))) = due message later := by
      cases taken with
      | last whole => simp [unentered, Receiving.replied, Step.ack, due, whole, hm]
      | more course =>
        have hl : later ≠ [] := by
          cases course <;> simp
        simp [unentered, Receiving.replied, Step.ack, due, hl]
    have hphase : Phase p message ⟨frame :: later, 1, true⟩ a.outbound inbound
        (some ((Receiving.replying step x).replied (.ok step.reply.encode.length))) later := by
      rw [ho]
      rw [hreply, hi] at carried
      rcases carried with rfl | ⟨-, rfl⟩
      · exact .back hready
      · exact .lost (.inr rfl) hready
    refine .busy sending written hphase ?_
    rw [Sketch.total, hafter, hbefore]

/-- Every step of a patient writer, and of a reader that stops between messages only, keeps the two
ends in step. -/
theorem InStep.step (h : InStep p a) (hp : a.Planned p) (hb : Brief p r a)
    (hpatient : r.hastySender = false) (hs : Step p r a a') : InStep p a' := by
  cases hs with
  | write message resting => exact h.write resting
  | transmit sending budget carried => exact h.transmit sending carried
  | getVerdict sending awaiting inbound room => exact h.getVerdict sending inbound room
  | waitInVain sending awaiting hasty => simp [hpatient] at hasty
  | writeEnds sending whole broken => exact h.writeEnds sending whole broken hpatient
  | receive receiving outbound => exact h.receive hp receiving outbound
  | enter receiving => exact h.enter receiving
  | reply receiving carried => exact h.reply hp receiving carried
  -- The rest of the steps let the reader rest, with what it has put together unchanged.
  | read resting role idle =>
    exact h.rest hp hb (.listening idle) (by simp [total, unentered, resting]) (by simp [resting])
      (by simp [resting]) (by simp [resting])
  | readHeld resting role =>
    exact h.rest hp hb .ended (by simp [total, unentered, resting]) (by simp [resting])
      (by simp [resting]) (by simp [resting])
  | receiveInVain receiving hasty =>
    exact h.rest hp hb .ended (by simp [total, unentered, receiving]) (by simp [receiving])
      (by simp [receiving]) fun _ _ => hasty
  | @complete x receiving =>
    exact h.rest hp hb .ended (by simp [total, unentered, receiving]) (by simp [receiving])
      (by simp [receiving]) (by simp [receiving])
  | readEnds receiving ended =>
    rcases ended with ⟨x, messages, rfl⟩ | ⟨⟨x, rfl⟩, hasty⟩
    · exact h.rest hp hb .resting (by simp [total, unentered, receiving]) (by simp [receiving])
        (by simp [receiving]) (by simp [receiving])
    · exact h.rest hp hb .resting (by simp [total, unentered, receiving]) (by simp [receiving])
        (by simp [receiving]) fun _ _ => hasty

end Step

theorem Truthful.step (h : Truthful a) (hi : InStep p a) (hs : Step p r a a') : Truthful a' := by
  have hgrow := hs.total_prefix.subset
  have hold : ∀ message n, (message, .ok n) ∈ a.outcomes → message ≠ [] → message ∈ a'.total :=
    fun message n ho hm => hgrow (h message n ho hm)
  cases hs with
  -- The one new outcome is of a write with no frame left.
  | @writeEnds m s result sending whole broken =>
    intro message n ho hm
    rcases List.mem_append.1 ho with ho | ho
    · exact hold message n ho hm
    · cases List.mem_singleton.1 ho
      have hs : s = ⟨[], 0, false⟩ := whole n rfl
      subst hs
      exact hi.message_mem_total sending hm
  | write | transmit | getVerdict | waitInVain => exact hold
  | read | readHeld | receive | receiveInVain | enter | reply | complete | readEnds => exact hold

theorem Step.written_prefix (h : Step p r a a') : a.written <+: a'.written := by
  cases h with
  | write message resting => exact List.prefix_append _ _
  | transmit | getVerdict | waitInVain | writeEnds => exact List.prefix_refl _
  | read | readHeld | receive | receiveInVain => exact List.prefix_refl _
  | enter | reply | complete | readEnds => exact List.prefix_refl _

end Sketch

end StopAndWait
