import StopAndWait.Proofs.Course
import StopAndWait.Proofs.Receiving

/-!
Two engines reduced to the stages of their calls. A sketch keeps of a world the stage at which each
call is, what is under way and what has come of it; its steps are those that the contracts of the
calls leave open. Every run of a world is a run of its sketch, so what every run of sketches keeps
is kept by every run of worlds.
-/
namespace StopAndWait

structure Sketch where
  -- The message being written, and how far that is.
  sending : Option (Bytes × Sending) := none
  -- How far the read is.
  receiving : Option Receiving := none
  outbound : List Bytes := []
  inbound : List Bytes := []
  written : List Bytes := []
  outcomes : List (Bytes × Except Error Nat) := []
  completed : List Bytes := []

theorem Pair.length_encode_le (p : Pair) {message : Bytes} {frame : Frame}
    (h : frame ∈ plan message p.sender.capacity) : frame.encode.length ≤ p.receiver.send.mtu := by
  -- A frame fits the unit of the writer, and that one the unit of the reader.
  have hl := length_encode_le_of_mem_plan p.sender.capacity_pos h
  have hm := p.sender.mtu_bounds.1
  have hfit := p.fits
  simp only [Config.capacity] at hl
  omega

namespace Sketch

inductive Step (p : Pair) (r : Regime) : Sketch → Sketch → Prop
  | write {a : Sketch} (message : Bytes) (resting : a.sending = none) :
    Step p r a { a with
      sending := some (message, ⟨plan message p.sender.capacity, 0, false⟩)
      written := a.written ++ [message] }
  | transmit {a : Sketch} {message : Bytes} {frame : Frame} {rest : List Frame} {used : Nat}
    {outbound : List Bytes} (sending : a.sending = some (message, ⟨frame :: rest, used, false⟩))
    (budget : used < p.sender.send.retry.maxAttempts.toNat)
    (carried : outbound = a.outbound ++ [frame.encode] ∨
      r.lossy = true ∧ outbound = a.outbound) :
    Step p r a { a with
      sending := some (message, ⟨frame :: rest, used + 1, true⟩)
      outbound }
  | getVerdict {a : Sketch} {message bytes : Bytes} {s : Sending} {rest : List Bytes}
    {capacity : Nat} (sending : a.sending = some (message, s)) (awaiting : s.awaiting = true)
    (inbound : a.inbound = bytes :: rest) (room : Frame.controlSize ≤ capacity) :
    Step p r a { a with
      sending := some (message, s.judged (Sending.acked (.ok (bytes.take capacity))))
      inbound := rest }
  | waitInVain {a : Sketch} {message : Bytes} {s : Sending}
    (sending : a.sending = some (message, s)) (awaiting : s.awaiting = true)
    (hasty : r.hastySender = true) :
    Step p r a { a with sending := some (message, s.judged false) }
  | writeEnds {a : Sketch} {message : Bytes} {s : Sending} {result : Except Error Nat}
    (sending : a.sending = some (message, s))
    (whole : ∀ n, result = .ok n → s = ⟨[], 0, false⟩)
    (broken : ∀ e, result = .error e →
      s.Broken p.sender.send.retry.maxAttempts.toNat (r.hastySender = true)) :
    Step p r a { a with
      sending := none
      outcomes := a.outcomes ++ [(message, result)] }
  | read {a : Sketch} {x : Exchange} (resting : a.receiving = none) (role : x.mode = .receiver)
    (idle : x.IsIdle) :
    Step p r a { a with receiving := some (.listening x) }
  | readHeld {a : Sketch} {x : Exchange} (resting : a.receiving = none) (role : x.mode ≠ .sender) :
    Step p r a { a with receiving := some (.ended x []) }
  | receive {a : Sketch} {x : Exchange} {bytes : Bytes} {rest : List Bytes}
    (receiving : a.receiving = some (.listening x)) (outbound : a.outbound = bytes :: rest) :
    Step p r a { a with
      receiving := some (.taken x (bytes.take p.receiver.send.mtu))
      outbound := rest }
  | receiveInVain {a : Sketch} {x : Exchange} (receiving : a.receiving = some (.listening x))
    (hasty : r.hastyReceiver = true) :
    Step p r a { a with receiving := some (.ended x []) }
  | enter {a : Sketch} {x : Exchange} {bytes : Bytes}
    (receiving : a.receiving = some (.taken x bytes)) :
    Step p r a { a with receiving := some (Receiving.noted (.taken x bytes)) }
  | reply {a : Sketch} {step : StopAndWait.Step} {x : Exchange} {inbound : List Bytes}
    (receiving : a.receiving = some (.replying step x))
    (carried : inbound = a.inbound ++ [step.reply.encode] ∨
      r.lossy = true ∧ inbound = a.inbound) :
    Step p r a { a with
      receiving := some ((Receiving.replying step x).replied (.ok step.reply.encode.length))
      inbound }
  | complete {a : Sketch} {x : Exchange} (receiving : a.receiving = some (.completing x)) :
    Step p r a { a with
      receiving := some (.ended x [x.buffer])
      completed := a.completed ++ [x.buffer] }
  | readEnds {a : Sketch} {stage : Receiving} (receiving : a.receiving = some stage)
    (ended : (∃ x messages, stage = .ended x messages) ∨
      (∃ x, stage = .listening x) ∧ r.hastyReceiver = true) :
    Step p r a { a with receiving := none }

def OfPlan (p : Pair) (buffer : Bytes) : Prop :=
  ∃ message, ∃ frame ∈ plan message p.sender.capacity, buffer = frame.encode

structure Planned (p : Pair) (a : Sketch) : Prop where
  outbound : ∀ buffer ∈ a.outbound, OfPlan p buffer
  sending : ∀ message s, a.sending = some (message, s) → s.left <:+ plan message p.sender.capacity
  taken : ∀ x buffer, a.receiving = some (.taken x buffer) → OfPlan p buffer
  role : ∀ stage, a.receiving = some stage → stage.exchange.mode ≠ .sender

theorem OfPlan.take_eq {p : Pair} {buffer : Bytes} (h : OfPlan p buffer) :
    buffer.take p.receiver.send.mtu = buffer := by
  obtain ⟨message, frame, hf, rfl⟩ := h
  exact List.take_of_length_le (p.length_encode_le hf)

theorem OfPlan.onBuffer {p : Pair} {buffer : Bytes} (h : OfPlan p buffer) (x : Exchange) :
    ∃ step x', x.onBuffer buffer = .ok (step, x') ∧ x'.mode = x.mode := by
  obtain ⟨message, frame, hf, rfl⟩ := h
  obtain ⟨hx, hm⟩ := x.onBuffer_of_mem_plan p.sender.capacity_pos hf
  exact ⟨_, _, hx, hm⟩

theorem Planned.step {p : Pair} {r : Regime} {a a' : Sketch} (h : Planned p a)
    (hs : Step p r a a') : Planned p a' := by
  obtain ⟨hout, hsend, htaken, hrole⟩ := h
  cases hs with
  | write message resting =>
    refine ⟨hout, ?_, htaken, hrole⟩
    intro m s heq
    cases heq
    exact List.suffix_refl _
  -- What is sent is the first frame left of a plan, lost or not.
  | @transmit message frame rest used outbound sending budget carried =>
    have hl := hsend _ _ sending
    have hf : frame ∈ plan message p.sender.capacity := hl.subset (by simp)
    refine ⟨fun buffer hb => ?_, ?_, htaken, hrole⟩
    · rcases carried with rfl | ⟨-, rfl⟩
      · rcases List.mem_append.1 hb with hb | hb
        · exact hout buffer hb
        · exact ⟨message, frame, hf, List.mem_singleton.1 hb⟩
      · exact hout buffer hb
    · intro m s heq
      cases heq
      exact hl
  -- A verdict at most takes the first frame off.
  | getVerdict sending awaiting inbound room =>
    refine ⟨hout, ?_, htaken, hrole⟩
    intro m s heq
    cases heq
    exact (Sending.left_judged_suffix _ _).trans (hsend _ _ sending)
  | waitInVain sending awaiting hasty =>
    refine ⟨hout, ?_, htaken, hrole⟩
    intro m s heq
    cases heq
    exact (Sending.left_judged_suffix _ _).trans (hsend _ _ sending)
  | writeEnds sending whole broken => exact ⟨hout, by simp, htaken, hrole⟩
  | read resting role idle =>
    refine ⟨hout, hsend, by simp, ?_⟩
    intro stage heq
    cases heq
    simp [Receiving.exchange, role]
  | readHeld resting role =>
    refine ⟨hout, hsend, by simp, ?_⟩
    intro stage heq
    cases heq
    exact role
  | @receive x bytes rest receiving outbound =>
    rw [outbound] at hout
    have hb := hout bytes (by simp)
    refine ⟨fun buffer h => hout buffer (by simp [h]), hsend, ?_, ?_⟩
    · intro x buffer heq
      cases heq
      rwa [hb.take_eq]
    · intro stage heq
      cases heq
      exact hrole (.listening x) receiving
  | @receiveInVain x receiving hasty =>
    refine ⟨hout, hsend, by simp, ?_⟩
    intro stage heq
    cases heq
    exact hrole (.listening x) receiving
  -- Frames of plans ask for no change of role.
  | @enter x bytes receiving =>
    obtain ⟨step, x', hx, hm⟩ := (htaken _ _ receiving).onBuffer x
    refine ⟨hout, hsend, ?_, ?_⟩
    · simp [Receiving.noted, hx]
    · simp only [Receiving.noted, hx]
      intro stage heq
      cases heq
      simpa [Receiving.exchange, hm] using hrole (.taken x bytes) receiving
  | @reply step x inbound receiving carried =>
    have hx : x.mode ≠ .sender := hrole (.replying step x) receiving
    refine ⟨hout, hsend, ?_, ?_⟩
    · cases ho : step.outcome <;> simp [Receiving.replied, ho]
    · intro stage heq
      cases heq
      cases ho : step.outcome <;> simpa [Receiving.replied, Receiving.exchange, ho] using hx
  | @complete x receiving =>
    refine ⟨hout, hsend, by simp, ?_⟩
    intro stage heq
    cases heq
    exact hrole (.completing x) receiving
  | readEnds receiving ended => exact ⟨hout, hsend, by simp, by simp⟩

end Sketch

end StopAndWait
