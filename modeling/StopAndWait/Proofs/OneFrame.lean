import StopAndWait.Proofs.Lockstep

namespace StopAndWait

namespace Sketch

inductive InHand : Option Receiving → List Bytes → Prop
  | resting : InHand none []
  | listening {x : Exchange} (idle : x.IsIdle) : InHand (some (.listening x)) []
  | taken {x : Exchange} {message : Bytes} (idle : x.IsIdle) :
    InHand (some (.taken x (Frame.data 1 message).encode)) [message]
  | replying {x : Exchange} : InHand (some (.replying (.ack .complete) x)) [x.buffer]
  | completing {x : Exchange} : InHand (some (.completing x)) [x.buffer]
  | ended {x : Exchange} {messages : List Bytes} : InHand (some (.ended x messages)) []

def upcoming (a : Sketch) : List Bytes :=
  match a.sending with
  | some (message, s) => if s.left ≠ [] ∧ s.used = 0 then [message] else []
  | none => []

structure Whole (p : Pair) (a : Sketch) (hand flight : List Bytes) : Prop where
  outbound : a.outbound = flight.map fun message => (Frame.data 1 message).encode
  inHand : InHand a.receiving hand
  sending : ∀ message s, a.sending = some (message, s) → message ∈ a.written
  sound : ∀ message ∈ a.completed ++ hand ++ flight, message ∈ a.written ∧ message ≠ []
  once : p.sender.send.retry.maxAttempts.toNat = 1 →
    (a.completed ++ hand ++ flight ++ a.upcoming).Sublist a.written

def Short (p : Pair) (a : Sketch) : Prop :=
  ∀ message ∈ a.written, message.length ≤ p.sender.capacity

variable {p : Pair} {r : Regime} {a a' : Sketch} {message : Bytes} {hand flight : List Bytes}

theorem Whole.move (h : Whole p a hand flight) {receiving : Option Receiving}
    {completed outbound inbound hand' flight' : List Bytes}
    (ho : outbound = flight'.map fun message => (Frame.data 1 message).encode)
    (hh : InHand receiving hand')
    (heq : completed ++ hand' ++ flight' = a.completed ++ hand ++ flight) :
    Whole p { a with receiving, completed, outbound, inbound } hand' flight' := by
  refine ⟨ho, hh, h.sending, ?_, ?_⟩
  · rw [heq]
    exact h.sound
  · rw [heq]
    exact h.once

theorem Whole.judge {s s' : Sending} {inbound : List Bytes} (h : Whole p a hand flight)
    (hs : a.sending = some (message, s))
    (hup : { a with sending := some (message, s') }.upcoming.Sublist a.upcoming) :
    Whole p { a with sending := some (message, s'), inbound } hand flight := by
  refine ⟨h.outbound, h.inHand, ?_, h.sound, ?_⟩
  · intro m t ht
    cases ht
    exact h.sending _ _ hs
  · intro hone
    exact ((List.Sublist.refl _).append hup).trans (h.once hone)

theorem Whole.write (h : Whole p a hand flight) (hs : a.sending = none) (s : Sending) :
    Whole p { a with sending := some (message, s), written := a.written ++ [message] }
      hand flight := by
  have hgrow : a.written ⊆ a.written ++ [message] := List.subset_append_left _ _
  refine ⟨h.outbound, h.inHand, ?_, ?_, ?_⟩
  · intro m t ht
    cases ht
    simp
  · intro m hm
    exact ⟨hgrow (h.sound m hm).1, (h.sound m hm).2⟩
  · intro hone
    -- Before the write no message was upcoming; after it this one may be.
    have hbefore : (a.completed ++ hand ++ flight).Sublist a.written := by
      simpa [upcoming, hs] using h.once hone
    apply hbefore.append
    simp only [upcoming]
    split
    · exact List.Sublist.refl _
    · exact List.nil_sublist _

theorem eq_data_of_suffix {frame : Frame} {rest : List Frame} {capacity : Nat}
    (hl : message.length ≤ capacity) (h : frame :: rest <:+ plan message capacity) :
    message ≠ [] ∧ frame = .data 1 message ∧ rest = [] := by
  have hm : message ≠ [] := by
    intro hm
    rw [hm] at h
    simp at h
  rw [plan_eq_data hm hl] at h
  have hlen := h.length_le
  simp only [List.length_cons, List.length_nil] at hlen
  -- The plan has one frame, and the suffix has one at least.
  have hrest : rest = [] := List.eq_nil_of_length_eq_zero (by omega)
  subst hrest
  have heq := h.eq_of_length rfl
  simp only [List.cons.injEq, and_true] at heq
  exact ⟨hm, heq, rfl⟩

theorem Whole.transmit {frame : Frame} {rest : List Frame} {used : Nat} {outbound : List Bytes}
    (h : Whole p a hand flight) (hp : a.Planned p) (hb : Short p a)
    (hs : a.sending = some (message, ⟨frame :: rest, used, false⟩))
    (hused : used < p.sender.send.retry.maxAttempts.toNat)
    (carried : outbound = a.outbound ++ [frame.encode] ∨ r.lossy = true ∧ outbound = a.outbound) :
    ∃ flight', Whole p { a with sending := some (message, ⟨frame :: rest, used + 1, true⟩), outbound }
      hand flight' := by
  have hw := h.sending _ _ hs
  obtain ⟨hm, rfl, rfl⟩ := eq_data_of_suffix (hb message hw) (hp.sending _ _ hs)
  have hsending : ∀ m t, some (message, Sending.mk [.data 1 message] (used + 1) true) = some (m, t) →
      m ∈ a.written := by
    intro m t ht
    cases ht
    exact hw
  -- Sent once, the frame was upcoming up to now.
  have honce : p.sender.send.retry.maxAttempts.toNat = 1 →
      (a.completed ++ hand ++ flight ++ [message]).Sublist a.written := by
    intro hone
    have hu : used = 0 := by omega
    simpa [upcoming, hs, hu] using h.once hone
  -- The message is under way with its frame, or lost with it.
  rcases carried with rfl | ⟨-, rfl⟩
  · refine ⟨flight ++ [message], ?_, h.inHand, hsending, ?_, ?_⟩
    · simp [h.outbound]
    · intro m hmem
      rw [← List.append_assoc] at hmem
      rcases List.mem_append.1 hmem with hmem | hmem
      · exact h.sound m hmem
      · obtain rfl := List.mem_singleton.1 hmem
        exact ⟨hw, hm⟩
    · intro hone
      simpa [upcoming] using honce hone
  · refine ⟨flight, h.outbound, h.inHand, hsending, h.sound, ?_⟩
    intro hone
    have hsub : (a.completed ++ hand ++ flight).Sublist (a.completed ++ hand ++ flight ++ [message]) :=
      List.sublist_append_left _ _
    simpa [upcoming] using hsub.trans (honce hone)

theorem noted_data {x : Exchange} (hx : x.IsIdle) (hm : message ≠ [])
    (hl : message.length ≤ p.sender.capacity) :
    ∃ x', Receiving.noted (.taken x (Frame.data 1 message).encode) = .replying (.ack .complete) x' ∧
      x'.buffer = message := by
  -- The plan of a short message is one frame, so its course has one step.
  have hcourse := Course.plan hm p.sender.capacity x hx
  rw [plan_eq_data hm hl] at hcourse
  cases hcourse with
  | @last x x' frame step whole mode =>
    refine ⟨x', ?_, whole⟩
    simp only [Receiving.noted, step]
  | more step again mode onward => cases onward

/-- A verdict sets no new frame up: the one there was is done with, or was sent before. -/
theorem judged_upcoming {s : Sending} (acked : Bool) (hp : a.Planned p) (hb : Short p a)
    (hw : message ∈ a.written) (hs : a.sending = some (message, s)) :
    { a with sending := some (message, s.judged acked) }.upcoming.Sublist a.upcoming := by
  obtain ⟨left, used, awaiting⟩ := s
  cases acked with
  | false => simp [upcoming, hs, Sending.judged]
  | true =>
    -- An acknowledgment leaves no frame of a short message.
    have htail : left.tail = [] := by
      cases left with
      | nil => rfl
      | cons frame rest => exact (eq_data_of_suffix (hb message hw) (hp.sending _ _ hs)).2.2
    simp [upcoming, Sending.judged, htail]

/-- Every step of both ends keeps to whole messages. -/
theorem Whole.step (h : Whole p a hand flight) (hp : a.Planned p) (hb : Short p a)
    (hs : Step p r a a') : ∃ hand' flight', Whole p a' hand' flight' := by
  have hin := h.inHand
  cases hs with
  | write message resting => exact ⟨hand, flight, h.write resting _⟩
  | transmit sending budget carried => exact ⟨hand, h.transmit hp hb sending budget carried⟩
  | @getVerdict message bytes s rest capacity sending awaiting inbound room =>
    have hw := h.sending _ _ sending
    exact ⟨hand, flight, h.judge sending (judged_upcoming _ hp hb hw sending)⟩
  | @waitInVain message s sending awaiting hasty =>
    have hw := h.sending _ _ sending
    exact ⟨hand, flight, h.judge sending (judged_upcoming _ hp hb hw sending)⟩
  | writeEnds sending whole broken =>
    refine ⟨hand, flight, h.outbound, h.inHand, nofun, h.sound, fun hone => ?_⟩
    have hsub := (List.sublist_append_left _ _).trans (h.once hone)
    simpa [upcoming] using hsub
  | read resting role idle =>
    rw [resting] at hin
    cases hin
    exact ⟨[], flight, h.move h.outbound (.listening idle) rfl⟩
  | readHeld resting role =>
    rw [resting] at hin
    cases hin
    exact ⟨[], flight, h.move h.outbound .ended rfl⟩
  -- The first message in flight comes in hand.
  | receive receiving outbound =>
    rw [receiving] at hin
    cases hin with
    | listening idle =>
      have hf := h.outbound
      rw [outbound] at hf
      cases flight with
      | nil => simp at hf
      | cons message later =>
        obtain ⟨rfl, rfl⟩ := List.cons.inj hf
        rw [(hp.outbound _ (by simp [outbound])).take_eq]
        exact ⟨[message], later, h.move rfl (.taken idle) (by simp)⟩
  | receiveInVain receiving hasty =>
    rw [receiving] at hin
    cases hin
    exact ⟨[], flight, h.move h.outbound .ended rfl⟩
  | enter receiving =>
    rw [receiving] at hin
    cases hin with
    | @taken x message idle =>
      obtain ⟨hw, hm⟩ := h.sound message (by simp)
      obtain ⟨x', hx, rfl⟩ := noted_data idle hm (hb message hw)
      rw [hx]
      exact ⟨[x'.buffer], flight, h.move h.outbound .replying rfl⟩
  | reply receiving carried =>
    rw [receiving] at hin
    cases hin with
    | replying => exact ⟨_, flight, h.move h.outbound .completing rfl⟩
  -- From in hand it comes into the journal.
  | @complete x receiving =>
    rw [receiving] at hin
    cases hin
    exact ⟨[], flight, h.move h.outbound .ended (by simp)⟩
  | readEnds receiving ended =>
    rw [receiving] at hin
    rcases ended with ⟨x, messages, rfl⟩ | ⟨⟨x, rfl⟩, -⟩
    · cases hin
      exact ⟨[], flight, h.move h.outbound .resting rfl⟩
    · cases hin
      exact ⟨[], flight, h.move h.outbound .resting rfl⟩

end Sketch

end StopAndWait
