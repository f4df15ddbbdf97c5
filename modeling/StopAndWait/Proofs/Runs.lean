import StopAndWait.Proofs.Calls

namespace StopAndWait

open Dialog

namespace World

open Engine

section

variable {p : Pair} {r : Regime} {e : Engine} {message : Bytes} {room : Nat} {deadline : Deadline}
  {frame : Frame} {rest : List Frame} {metrics : TransmitMetrics} {q : Reception} {x : Exchange}
  {writer : Activity Bytes Nat} {reader : Activity Nat Delivery} {outbound inbound : List Bytes}
  {clock : Instant} {written completed returned : List Bytes}
  {outcomes : List (Bytes × Except Error Nat)}

theorem Reachable.tick (n : Nat) (h : Reachable p r
      ⟨writer, reader, outbound, inbound, clock, written, outcomes, completed, returned⟩) :
    Reachable p r
      ⟨writer, reader, outbound, inbound, clock + n, written, outcomes, completed, returned⟩ :=
  h.tail (.tick n)

theorem Reachable.write {frames : List Frame} (message : Bytes) (limit : Millis) (h : Reachable p r
      ⟨.resting e, reader, outbound, inbound, clock, written, outcomes, completed, returned⟩)
    (he : e.mode ≠ .receiver) (hp : r.hastySender = false → limit = Millis.unlimited)
    (hf : plan message e.config.capacity = frames) :
    Reachable p r
      ⟨.calling message (e.sendingOn message (.after limit clock) frames {}), reader, outbound,
        inbound, clock, written ++ [message], outcomes, completed, returned⟩ := by
  subst hf
  have hbegin := h.tail (.write message limit rfl hp)
  exact hbegin.trans (run_sender rfl (performs_write he limit) (List.append_nil _) rfl nofun)

theorem Reachable.read (room : Nat) (limit : Millis) (h : Reachable p r
      ⟨writer, .resting e, outbound, inbound, clock, written, outcomes, completed, returned⟩)
    (he : e.mode ≠ .sender) (hx : e.exchange.pending = []) (hr : r.room ≤ room)
    (hp : r.hastyReceiver = false → limit = Millis.unlimited) :
    Reachable p r
      ⟨writer, .calling room (e.readingOn room (.after limit clock)
        ⟨e.exchange.reset.withMode .receiver, {}⟩), outbound, inbound, clock, written, outcomes,
        completed, returned⟩ := by
  have hbegin := h.tail (.read room limit rfl hr hp)
  exact hbegin.trans
    (run_receiver rfl (performs_read he hx room limit) rfl (List.append_nil _) (List.append_nil _))

theorem Reachable.resend {allowed : Nat} {t : Retransmission} (h : Reachable p r
      ⟨.calling message (e.retryingOn message deadline frame rest metrics (allowed + 1) t), reader,
        outbound, inbound, clock, written, outcomes, completed, returned⟩)
    (hd : deadline.isExpired clock = false) :
    ∃ d metrics, Reachable p r
        ⟨.calling message d, reader, outbound ++ [frame.encode], inbound, clock, written, outcomes,
          completed, returned⟩ ∧
      d.Performs clock [.gets Control.ack.encode] (e.sendingOn message deadline rest metrics) := by
  obtain ⟨mid, hsend, hget⟩ := (performs_replied hd .ack).split
  exact ⟨mid, _, h.trans (run_sender rfl hsend rfl rfl nofun), hget⟩

theorem Reachable.send (h : Reachable p r
      ⟨.calling message (e.sendingOn message deadline (frame :: rest) metrics), reader, outbound,
        inbound, clock, written, outcomes, completed, returned⟩)
    (hd : deadline.isExpired clock = false) :
    ∃ d metrics, Reachable p r
        ⟨.calling message d, reader, outbound ++ [frame.encode], inbound, clock, written, outcomes,
          completed, returned⟩ ∧
      d.Performs clock [.gets Control.ack.encode] (e.sendingOn message deadline rest metrics) := by
  obtain ⟨allowed, hall⟩ := e.config.exists_maxAttempts_eq
  rw [e.sendingOn_cons, hall] at h
  exact h.resend hd

theorem Reachable.get {d d' : Dialog (End Nat)} {bytes : Bytes} (h : Reachable p r
      ⟨.calling message d, reader, outbound, bytes :: inbound, clock, written, outcomes, completed,
        returned⟩)
    (hd : d.Performs clock [.gets bytes] d') :
    Reachable p r
      ⟨.calling message d', reader, outbound, inbound, clock, written, outcomes, completed,
        returned⟩ :=
  h.trans (run_sender rfl hd (List.append_nil _) rfl nofun)

theorem Reachable.writeEnds {d : Dialog (End Nat)} {result : Except Error Nat} (h : Reachable p r
      ⟨.calling message d, reader, outbound, inbound, clock, written, outcomes, completed, returned⟩)
    (hd : d.Performs clock [] (.pure (result, e))) :
    Reachable p r
      ⟨.resting e, reader, outbound, inbound, clock, written, outcomes ++ [(message, result)],
        completed, returned⟩ := by
  have hrun := h.trans (run_sender rfl hd (List.append_nil _) rfl nofun)
  exact hrun.tail (.writeEnds rfl rfl)

theorem Reachable.writeExpires (h : Reachable p r
      ⟨.calling message (e.sendingOn message deadline (frame :: rest) metrics), reader, outbound,
        inbound, clock, written, outcomes, completed, returned⟩)
    (hd : deadline.isExpired clock = true) :
    Reachable p r
      ⟨.resting (e.withMode .sender).reset, reader, outbound, inbound, clock, written,
        outcomes ++ [(message, .error (Error.whileWriting .timeout))], completed, returned⟩ := by
  rw [e.sendingOn_cons] at h
  exact h.writeEnds (performs_outOfTime hd)

theorem Reachable.sendInVain (h : Reachable p r
      ⟨.calling message (e.sendingOn message deadline (frame :: rest) metrics), reader, outbound,
        inbound, clock, written, outcomes, completed, returned⟩)
    (hd : deadline.isExpired clock = false) (hr : r.hastySender = true) :
    ∃ allowed t, allowed + 1 = e.config.send.retry.maxAttempts.toNat ∧ Reachable p r
      ⟨.calling message (e.retryingOn message deadline frame rest metrics allowed t), reader,
        outbound ++ [frame.encode], inbound, clock, written, outcomes, completed, returned⟩ := by
  obtain ⟨allowed, hall⟩ := e.config.exists_maxAttempts_eq
  rw [e.sendingOn_cons, hall] at h
  exact ⟨allowed, _, hall.symm, h.trans (run_sender rfl (performs_missed hd) rfl rfl fun _ => hr)⟩

theorem Reachable.take (h : Reachable p r
      ⟨writer, .calling room (e.readingOn room deadline q), frame.encode :: outbound, inbound, clock,
        written, outcomes, completed, returned⟩)
    (hd : deadline.isExpired clock = false) (hl : frame.encode.length ≤ e.config.send.mtu)
    (hx : q.exchange.onBuffer frame.encode = .ok (.ack .proceed, x)) :
    ∃ metrics, Reachable p r
      ⟨writer, .calling room (e.readingOn room deadline ⟨x, metrics⟩), outbound,
        inbound ++ [Control.ack.encode], clock, written, outcomes, completed, returned⟩ := by
  have htake : frame.encode.take e.config.send.mtu = frame.encode := List.take_of_length_le hl
  rw [← htake] at hx
  obtain ⟨m, hserve⟩ := performs_exchange room hd hx
  exact ⟨m, h.trans (run_receiver rfl hserve rfl rfl (List.append_nil _))⟩

theorem Reachable.handOut (h : Reachable p r
      ⟨writer, .calling room (e.readingOn room deadline q), frame.encode :: outbound, inbound, clock,
        written, outcomes, completed, returned⟩)
    (hd : deadline.isExpired clock = false) (hl : frame.encode.length ≤ e.config.send.mtu)
    (hx : q.exchange.onBuffer frame.encode = .ok (.ack .complete, x))
    (hroom : x.buffer.length ≤ room) :
    ∃ metrics, Reachable p r
      ⟨writer, .resting { e with exchange := x.reset, lastReceive := some metrics }, outbound,
        inbound ++ [Control.ack.encode], clock, written, outcomes, completed ++ [x.buffer],
        returned ++ [x.buffer]⟩ := by
  have htake : frame.encode.take e.config.send.mtu = frame.encode := List.take_of_length_le hl
  rw [← htake] at hx
  obtain ⟨m, hserve⟩ := performs_whole hd hx hroom
  have hrun := h.trans (run_receiver rfl hserve rfl rfl rfl)
  have hend := hrun.tail (.readEnds rfl rfl)
  exact ⟨m, hend⟩

theorem Reachable.readExpires (h : Reachable p r
      ⟨writer, .calling room (e.readingOn room deadline q), outbound, inbound, clock, written,
        outcomes, completed, returned⟩)
    (hd : deadline.isExpired clock = true) :
    Reachable p r
      ⟨writer, .resting { e with exchange := q.exchange.reset }, outbound, inbound, clock, written,
        outcomes, completed, returned⟩ := by
  have hloop : Performs clock (e.readingOn room deadline q) []
      (.pure (e.received room (.error .timeout, q))) := performs_last (Reception.performs_timeout q hd)
  have hrun := h.trans (run_receiver rfl hloop rfl (List.append_nil _) (List.append_nil _))
  have hend := hrun.tail (.readEnds rfl rfl)
  -- Nothing is handed out by a read that fails.
  simp only [handed, List.append_nil] at hend
  exact hend

/-- A frame goes there and its acknowledgment back, with nothing else under way. -/
theorem Reachable.exchange {e' : Engine} {deadline' : Deadline} (h : Reachable p r
      ⟨.calling message (e.sendingOn message deadline (frame :: rest) metrics),
        .calling room (e'.readingOn room deadline' q), [], [], clock, written, outcomes, completed,
        returned⟩)
    (hd : deadline.isExpired clock = false) (hd' : deadline'.isExpired clock = false)
    (hl : frame.encode.length ≤ e'.config.send.mtu)
    (hx : q.exchange.onBuffer frame.encode = .ok (.ack .proceed, x)) :
    ∃ metrics metrics', Reachable p r
      ⟨.calling message (e.sendingOn message deadline rest metrics),
        .calling room (e'.readingOn room deadline' ⟨x, metrics'⟩), [], [], clock, written, outcomes,
        completed, returned⟩ := by
  obtain ⟨d, m, hsent, hget⟩ := h.send hd
  obtain ⟨m', htaken⟩ := Reachable.take hsent hd' hl hx
  exact ⟨m, m', Reachable.get htaken hget⟩

end

end World

end StopAndWait
