import StopAndWait.Proofs.Runs
import StopAndWait.Proofs.Sketch

namespace StopAndWait

theorem plan_concat {bytes : Bytes} {capacity : Nat} (hc : 0 < capacity)
    (hb : bytes.length = capacity) (last : UInt8) :
    plan (bytes ++ [last]) capacity =
      [.control .seqBegin, .data 1 bytes, .data 2 [last], .control .seqEnd] := by
  -- The first piece fills a frame, the second is the one byte left.
  obtain ⟨first, rest, rfl⟩ := List.exists_cons_of_length_pos (by omega : 0 < bytes.length)
  simp only [List.length_cons] at hb
  have htake : (rest ++ [last]).take (capacity - 1) = rest := List.take_left' (by omega)
  have hdrop : (rest ++ [last]).drop (capacity - 1) = [last] := List.drop_left' (by omega)
  have hlong : ¬ (first :: (rest ++ [last])).length ≤ capacity := by
    simp only [List.length_cons, List.length_append]
    omega
  simp only [plan, List.cons_append, List.cons_ne_nil, if_false, if_neg hlong, chunks_cons, htake,
    hdrop, List.take_nil, List.drop_nil, chunks_nil, numbered]
  rfl

theorem Pair.length_encode_concat_le (p : Pair) {bytes : Bytes}
    (hb : bytes.length = p.sender.capacity) (last : UInt8) :
    ∀ frame ∈ [Frame.control .seqBegin, .data 1 bytes, .data 2 [last], .control .seqEnd],
      frame.encode.length ≤ p.receiver.send.mtu := by
  intro frame hf
  rw [← plan_concat p.sender.capacity_pos hb last] at hf
  exact p.length_encode_le hf

theorem Pair.plan_single (p : Pair) (byte : UInt8) :
    plan [byte] p.sender.capacity = [.data 1 [byte]] :=
  plan_eq_data (List.cons_ne_nil byte []) p.sender.capacity_pos

theorem Pair.length_encode_single_le (p : Pair) (byte : UInt8) :
    (Frame.data 1 [byte]).encode.length ≤ p.receiver.send.mtu := by
  have hframe : Frame.data 1 [byte] ∈ plan [byte] p.sender.capacity := by
    rw [p.plan_single byte]
    exact List.mem_singleton_self _
  exact p.length_encode_le hframe

namespace World

variable {p : Pair} {r : Regime}

theorem live_at_once : (Deadline.after 1 0).isExpired 0 = false := by decide

theorem over_in_time : (Deadline.after 1 0).isExpired (0 + Instant.perMilli) = true := by decide

/-- A reader that runs out of time after the opening of a sequence takes the first piece of it for a
whole message. -/
theorem fragment_returned (hr : r.hastyReceiver = true) {bytes : Bytes}
    (hb : bytes.length = p.sender.capacity) (last : UInt8) :
    ∃ w, Reachable p r w ∧ w.written = [bytes ++ [last]] ∧ w.returned = [bytes] := by
  have hplan := plan_concat p.sender.capacity_pos hb last
  have hfit := p.length_encode_concat_le hb last
  have hbusy : r.hastyReceiver = false → (1 : Millis) = Millis.unlimited := by simp [hr]
  let x : Exchange := { mode := .receiver }
  have hbegin : x.onBuffer (Frame.control .seqBegin).encode =
      .ok (.ack .proceed, { x with inSequence := true }) :=
    x.onBuffer_encode (Frame.decode_encode_control .seqBegin)
  have hdata : x.onBuffer (Frame.data 1 bytes).encode =
      .ok (.ack .complete, { x with sequence := 1, buffer := bytes }) :=
    x.onBuffer_encode (Frame.decode_encode_data 1 bytes)
  have hstart : Reachable p r (start p) := .refl
  have hwrite := hstart.write (bytes ++ [last]) Millis.unlimited nofun (fun _ => rfl) hplan
  have hread := hwrite.read (r.room + bytes.length) 1 nofun rfl (by omega) hbusy
  obtain ⟨_, _, hopened⟩ := hread.exchange rfl live_at_once (hfit _ (by simp)) hbegin
  -- The reader is out of time within the sequence, and its next read does not know of it.
  have hexpired := (hopened.tick Instant.perMilli).readExpires over_in_time
  have hagain := hexpired.read (r.room + bytes.length) Millis.unlimited nofun rfl (by omega)
    fun _ => rfl
  -- The writer goes on with the first piece as if nothing had happened.
  obtain ⟨_, _, hsent, -⟩ := hagain.send rfl
  obtain ⟨_, hout⟩ := Reachable.handOut hsent rfl (hfit _ (by simp)) hdata (by simp)
  exact ⟨_, hout, rfl, rfl⟩

/-- A writer that runs out of time after the first piece of a message has it put together with the
rest of the next one: the reader drops the first piece of that as a repetition. -/
theorem splice_returned (hr : r.hastySender = true) {bytes bytes' : Bytes}
    (hb : bytes.length = p.sender.capacity) (hb' : bytes'.length = p.sender.capacity)
    (last last' : UInt8) :
    ∃ w, Reachable p r w ∧ w.written = [bytes ++ [last], bytes' ++ [last']] ∧
      w.returned = [bytes ++ [last']] := by
  have hplan := plan_concat p.sender.capacity_pos hb last
  have hplan' := plan_concat p.sender.capacity_pos hb' last'
  have hfit := p.length_encode_concat_le hb last
  have hfit' := p.length_encode_concat_le hb' last'
  have hbusy : r.hastySender = false → (1 : Millis) = Millis.unlimited := by simp [hr]
  let x : Exchange := { mode := .receiver }
  let opened : Exchange := { x with inSequence := true }
  let first : Exchange := { opened with sequence := 1, buffer := bytes }
  let second : Exchange := { opened with sequence := 2, buffer := bytes ++ [last'] }
  have hbegin : x.onBuffer (Frame.control .seqBegin).encode = .ok (.ack .proceed, opened) :=
    x.onBuffer_encode (Frame.decode_encode_control .seqBegin)
  have hfirst : opened.onBuffer (Frame.data 1 bytes).encode = .ok (.ack .proceed, first) :=
    opened.onBuffer_encode (Frame.decode_encode_data 1 bytes)
  have hreopen : first.onBuffer (Frame.control .seqBegin).encode = .ok (.ack .proceed, first) :=
    first.onBuffer_encode (Frame.decode_encode_control .seqBegin)
  have hrepeat : first.onBuffer (Frame.data 1 bytes').encode = .ok (.ack .proceed, first) :=
    first.onBuffer_encode (Frame.decode_encode_data 1 bytes')
  have hsecond : first.onBuffer (Frame.data 2 [last']).encode = .ok (.ack .proceed, second) :=
    first.onBuffer_encode (Frame.decode_encode_data 2 [last'])
  have hend : second.onBuffer (Frame.control .seqEnd).encode =
      .ok (.ack .complete, { second with inSequence := false }) :=
    second.onBuffer_encode (Frame.decode_encode_control .seqEnd)
  have hstart : Reachable p r (start p) := .refl
  have hwrite := hstart.write (bytes ++ [last]) 1 nofun hbusy hplan
  have hread := hwrite.read (r.room + bytes.length + 1) Millis.unlimited nofun rfl (by omega)
    fun _ => rfl
  obtain ⟨_, _, hopened⟩ := hread.exchange live_at_once rfl (hfit _ (by simp)) hbegin
  obtain ⟨_, _, htaken⟩ := hopened.exchange live_at_once rfl (hfit _ (by simp)) hfirst
  -- The writer is out of time; the reader keeps the first piece.
  have hexpired := (htaken.tick Instant.perMilli).writeExpires over_in_time
  have hnext := hexpired.write (bytes' ++ [last']) Millis.unlimited nofun (fun _ => rfl) hplan'
  obtain ⟨_, _, hreopened⟩ := hnext.exchange rfl rfl (hfit' _ (by simp)) hreopen
  -- The number of the new first piece is that of the old one.
  obtain ⟨_, _, hrepeated⟩ := hreopened.exchange rfl rfl (hfit' _ (by simp)) hrepeat
  obtain ⟨_, _, hadded⟩ := hrepeated.exchange rfl rfl (hfit' _ (by simp)) hsecond
  obtain ⟨_, _, hsent, -⟩ := hadded.send rfl
  obtain ⟨_, hout⟩ := Reachable.handOut hsent rfl (hfit' _ (by simp)) hend
    (by simp [second])
  exact ⟨_, hout, rfl, rfl⟩

/-- A writer that does not wait for the acknowledgment of a short message sends it once more, to the
next read. -/
theorem duplicate_returned (hr : r.hastySender = true)
    (ha : 2 ≤ p.sender.send.retry.maxAttempts.toNat) (byte : UInt8) :
    ∃ w, Reachable p r w ∧ w.written = [[byte]] ∧ w.returned = [[byte], [byte]] := by
  have hplan := p.plan_single byte
  have hfit := p.length_encode_single_le byte
  let x : Exchange := { mode := .receiver }
  have hdata : x.onBuffer (Frame.data 1 [byte]).encode =
      .ok (.ack .complete, { x with sequence := 1, buffer := [byte] }) :=
    x.onBuffer_encode (Frame.decode_encode_data 1 [byte])
  have hstart : Reachable p r (start p) := .refl
  have hwrite := hstart.write [byte] Millis.unlimited nofun (fun _ => rfl) hplan
  have hread := hwrite.read (r.room + 1) Millis.unlimited nofun rfl (by omega) fun _ => rfl
  obtain ⟨allowed, t, hall, hsent⟩ := hread.sendInVain rfl hr
  replace hall : allowed + 1 = p.sender.send.retry.maxAttempts.toNat := hall
  -- The first copy is handed out; its acknowledgment is under way.
  obtain ⟨_, hout⟩ := Reachable.handOut hsent rfl hfit hdata (by simp)
  obtain ⟨allowed', rfl⟩ : ∃ allowed', allowed = allowed' + 1 := ⟨allowed - 1, by omega⟩
  obtain ⟨_, _, hresent, -⟩ := hout.resend rfl
  -- The second copy meets a read that counts from the beginning.
  have hagain := hresent.read (r.room + 1) Millis.unlimited nofun rfl (by omega) fun _ => rfl
  obtain ⟨_, htwice⟩ := Reachable.handOut hagain rfl hfit hdata (by simp)
  exact ⟨_, htwice, rfl, rfl⟩

/-- A writer that gives a short message up too early takes the late acknowledgment of it for that of
the next one. -/
theorem stale_acknowledged (hr : r.hastySender = true) (byte byte' : UInt8) :
    ∃ w e, Reachable p r w ∧ w.written = [[byte], [byte']] ∧ ([byte'], .ok 1) ∈ w.outcomes ∧
      w.completed = [[byte]] ∧ w.receiver = .resting e := by
  have hplan := p.plan_single byte
  have hplan' := p.plan_single byte'
  have hfit := p.length_encode_single_le byte
  have hbusy : r.hastySender = false → (1 : Millis) = Millis.unlimited := by simp [hr]
  let x : Exchange := { mode := .receiver }
  have hdata : x.onBuffer (Frame.data 1 [byte]).encode =
      .ok (.ack .complete, { x with sequence := 1, buffer := [byte] }) :=
    x.onBuffer_encode (Frame.decode_encode_data 1 [byte])
  have hstart : Reachable p r (start p) := .refl
  have hwrite := hstart.write [byte] 1 nofun hbusy hplan
  have hread := hwrite.read (r.room + 1) Millis.unlimited nofun rfl (by omega) fun _ => rfl
  obtain ⟨allowed, t, -, hsent⟩ := hread.sendInVain live_at_once hr
  have hexpired := (hsent.tick Instant.perMilli).writeEnds (Engine.performs_outOfTime over_in_time)
  -- The writer is gone when the reader replies.
  obtain ⟨_, hout⟩ := Reachable.handOut hexpired rfl hfit hdata (by simp)
  have hnext := hout.write [byte'] Millis.unlimited nofun (fun _ => rfl) hplan'
  obtain ⟨_, _, hsent', hget⟩ := hnext.send rfl
  -- The reply to the first message is the first thing that the second write reads.
  have hacked := hsent'.get hget
  have hend := hacked.writeEnds (.refl _)
  refine ⟨_, _, hend, rfl, ?_, rfl, rfl⟩
  simp

/-- A reader that runs out of time before the end of a sequence takes the end of it for that of an
empty message, and the writer takes its acknowledgment for that of its own. -/
theorem emptied_acknowledged (hr : r.hastyReceiver = true) {bytes : Bytes}
    (hb : bytes.length = p.sender.capacity) (last : UInt8) :
    ∃ w e, Reachable p r w ∧ w.written = [bytes ++ [last]] ∧
      (bytes ++ [last], .ok (bytes ++ [last]).length) ∈ w.outcomes ∧ w.completed = [[]] ∧
      w.receiver = .resting e := by
  have hplan := plan_concat p.sender.capacity_pos hb last
  have hfit := p.length_encode_concat_le hb last
  have hbusy : r.hastyReceiver = false → (1 : Millis) = Millis.unlimited := by simp [hr]
  let x : Exchange := { mode := .receiver }
  let opened : Exchange := { x with inSequence := true }
  let first : Exchange := { opened with sequence := 1, buffer := bytes }
  let second : Exchange := { opened with sequence := 2, buffer := bytes ++ [last] }
  have hbegin : x.onBuffer (Frame.control .seqBegin).encode = .ok (.ack .proceed, opened) :=
    x.onBuffer_encode (Frame.decode_encode_control .seqBegin)
  have hfirst : opened.onBuffer (Frame.data 1 bytes).encode = .ok (.ack .proceed, first) :=
    opened.onBuffer_encode (Frame.decode_encode_data 1 bytes)
  have hsecond : first.onBuffer (Frame.data 2 [last]).encode = .ok (.ack .proceed, second) :=
    first.onBuffer_encode (Frame.decode_encode_data 2 [last])
  have hend : x.onBuffer (Frame.control .seqEnd).encode = .ok (.ack .complete, x) :=
    x.onBuffer_encode (Frame.decode_encode_control .seqEnd)
  have hstart : Reachable p r (start p) := .refl
  have hwrite := hstart.write (bytes ++ [last]) Millis.unlimited nofun (fun _ => rfl) hplan
  have hread := hwrite.read r.room 1 nofun rfl (Nat.le_refl _) hbusy
  obtain ⟨_, _, hopened⟩ := hread.exchange rfl live_at_once (hfit _ (by simp)) hbegin
  obtain ⟨_, _, htaken⟩ := hopened.exchange rfl live_at_once (hfit _ (by simp)) hfirst
  obtain ⟨_, _, hadded⟩ := htaken.exchange rfl live_at_once (hfit _ (by simp)) hsecond
  -- All pieces are taken, and then forgotten.
  have hexpired := (hadded.tick Instant.perMilli).readExpires over_in_time
  have hagain := hexpired.read r.room Millis.unlimited nofun rfl (Nat.le_refl _) fun _ => rfl
  obtain ⟨_, _, hsent, hget⟩ := hagain.send rfl
  -- To a fresh exchange the end of a sequence is the end of an empty message.
  obtain ⟨_, hout⟩ := Reachable.handOut hsent rfl (hfit _ (by simp)) hend (by simp [x])
  have hacked := hout.get hget
  have hdone := hacked.writeEnds (.refl _)
  refine ⟨_, _, hdone, rfl, ?_, rfl, rfl⟩
  simp

end World

end StopAndWait
