import StopAndWait.Exchange.State
import StopAndWait.Wire.Segmentation

namespace StopAndWait

namespace Frame

theorem decode_encode_control (kind : Control) :
    decode (encode (control kind)) = .ok (control kind) := by
  cases kind <;> rfl

theorem decode_encode_data (sequence : UInt8) (payload : Bytes) :
    decode (encode (data sequence payload)) = .ok (data sequence payload) :=
  decode_eq_ok_iff.2 (decode?_eq_data_iff.2 ⟨_, rfl⟩)

end Frame

namespace Exchange

theorem onBuffer_encode (x : Exchange) {frame : Frame} (h : Frame.decode frame.encode = .ok frame) :
    x.onBuffer frame.encode = .ok (x.onFrame frame) := by
  exact onBuffer_eq_ok_iff.2 (.inr ⟨frame.isIntact_encode, frame, Frame.decode_eq_ok_iff.1 h, rfl⟩)

end Exchange

inductive Course (message : Bytes) : Exchange → List Frame → Prop
  -- The last frame makes the message whole.
  | last {x y : Exchange} {frame : Frame}
      (step : x.onBuffer frame.encode = .ok (.ack .complete, y))
      (whole : y.buffer = message) (mode : y.mode = x.mode) : Course message x [frame]
  -- Any other frame leads on, and may be taken again without effect.
  | more {x y : Exchange} {frame : Frame} {rest : List Frame}
      (step : x.onBuffer frame.encode = .ok (.ack .proceed, y))
      (again : y.onBuffer frame.encode = .ok (.ack .proceed, y))
      (mode : y.mode = x.mode) (onward : Course message y rest) :
      Course message x (frame :: rest)

namespace Course

/-- The data frames of a message and the end of it, from the middle of a sequence on. -/
theorem numbered {message : Bytes} (payloads : List Bytes) (x : Exchange)
    (hx : x.inSequence = true) (hm : x.buffer ++ payloads.flatten = message) :
    Course message x (numbered x.sequence payloads ++ [.control .seqEnd]) := by
  induction payloads generalizing x with
  | nil =>
    refine .last (y := { x with inSequence := false })
      (x.onBuffer_encode (Frame.decode_encode_control .seqEnd)) ?_ rfl
    simpa using hm
  | cons payload rest ih =>
    -- Numbers that follow each other differ, also where they wrap.
    have hne : x.sequence + 1 ≠ x.sequence := by grind
    have hd := Frame.decode_encode_data (x.sequence + 1) payload
    let x' := { x with sequence := x.sequence + 1, buffer := x.buffer ++ payload }
    refine .more (y := x') ?_ ?_ rfl (ih x' hx (by simpa [x'] using hm))
    · rw [x.onBuffer_encode hd]
      simp [Exchange.onFrame, Exchange.onData, hne, hx, x']
    · rw [x'.onBuffer_encode hd]
      simp [Exchange.onFrame, Exchange.onData, x']

/-- Every message takes its course from an idle exchange. -/
theorem plan {message : Bytes} (hm : message ≠ []) (capacity : Nat) (x : Exchange)
    (hx : x.IsIdle) : Course message x (plan message capacity) := by
  obtain ⟨hs, hi, hb⟩ := hx
  unfold StopAndWait.plan
  rw [if_neg hm]
  by_cases hl : message.length ≤ capacity
  -- One data frame outside of a sequence makes the message whole.
  · rw [if_pos hl]
    refine .last (y := { x with sequence := 1, buffer := message }) ?_ rfl rfl
    rw [x.onBuffer_encode (Frame.decode_encode_data 1 message)]
    simp [Exchange.onFrame, Exchange.onData, hs, hi, hb]
  · rw [if_neg hl]
    -- The opening of a sequence may be repeated at no cost.
    let x' := { x with inSequence := true }
    refine .more (y := x') (x.onBuffer_encode (Frame.decode_encode_control .seqBegin))
      (x'.onBuffer_encode (Frame.decode_encode_control .seqBegin)) rfl ?_
    rw [← hs]
    exact numbered (chunks capacity message) x' rfl (by simp [x', hb, flatten_chunks])

end Course

theorem plan_eq_nil {message : Bytes} {capacity : Nat} :
    plan message capacity = [] ↔ message = [] := by
  unfold plan
  by_cases hm : message = []
  · simp [hm]
  · by_cases hl : message.length ≤ capacity <;> simp [hm, hl]

theorem plan_eq_data {message : Bytes} {capacity : Nat} (hm : message ≠ [])
    (hl : message.length ≤ capacity) : plan message capacity = [.data 1 message] := by
  simp [plan, hm, hl]

theorem length_plan_of_fits {message : Bytes} {capacity : Nat} (hl : message.length ≤ capacity) :
    (plan message capacity).length ≤ 1 := by
  by_cases hm : message = []
  · simp [hm]
  · simp [plan_eq_data hm hl]

theorem length_le_of_mem_chunks {size : Nat} (hs : 0 < size) {bytes piece : Bytes}
    (h : piece ∈ chunks size bytes) : piece.length ≤ size := by
  match bytes with
  | [] => simp at h
  | first :: rest =>
    rw [chunks_cons] at h
    rcases List.mem_cons.1 h with rfl | h
    · simp only [List.length_cons, List.length_take]
      omega
    · exact length_le_of_mem_chunks hs h
termination_by bytes.length
decreasing_by simp only [List.length_drop, List.length_cons]; omega

theorem mem_numbered {sequence : UInt8} {payloads : List Bytes} {frame : Frame}
    (h : frame ∈ numbered sequence payloads) :
    ∃ s, ∃ payload ∈ payloads, frame = .data s payload := by
  induction payloads generalizing sequence with
  | nil => simp [StopAndWait.numbered] at h
  | cons payload rest ih =>
    rcases List.mem_cons.1 h with rfl | h
    · exact ⟨_, payload, by simp, rfl⟩
    · obtain ⟨s, p, hp, rfl⟩ := ih h
      exact ⟨s, p, by simp [hp], rfl⟩

/-- The frames of a plan open a sequence, close it, or carry at most `capacity` bytes. -/
theorem mem_plan {message : Bytes} {capacity : Nat} (hc : 0 < capacity) {frame : Frame}
    (h : frame ∈ plan message capacity) :
    frame = .control .seqBegin ∨ frame = .control .seqEnd ∨
      ∃ sequence payload, frame = .data sequence payload ∧ payload.length ≤ capacity := by
  unfold plan at h
  split at h
  · simp at h
  · split at h
    · obtain rfl := List.mem_singleton.1 h
      exact .inr (.inr ⟨1, message, rfl, by assumption⟩)
    · simp only [List.mem_cons, List.mem_append, List.not_mem_nil, or_false] at h
      rcases h with rfl | h | rfl
      · exact .inl rfl
      · obtain ⟨s, payload, hp, rfl⟩ := mem_numbered h
        exact .inr (.inr ⟨s, payload, rfl, length_le_of_mem_chunks hc hp⟩)
      · exact .inr (.inl rfl)

theorem length_encode_le_of_mem_plan {message : Bytes} {capacity : Nat} (hc : 0 < capacity)
    {frame : Frame} (h : frame ∈ plan message capacity) :
    frame.encode.length ≤ capacity + Frame.dataOverhead := by
  rw [Frame.length_encode]
  rcases mem_plan hc h with rfl | rfl | ⟨s, payload, rfl, hp⟩
  · exact Nat.le_add_left_of_le (by decide)
  · exact Nat.le_add_left_of_le (by decide)
  · exact Nat.add_le_add_right hp _

/-- A frame of a plan is taken as what it is, and leaves the role alone. -/
theorem Exchange.onBuffer_of_mem_plan (x : Exchange) {message : Bytes} {capacity : Nat}
    (hc : 0 < capacity) {frame : Frame} (h : frame ∈ plan message capacity) :
    x.onBuffer frame.encode = .ok (x.onFrame frame) ∧ (x.onFrame frame).2.mode = x.mode := by
  rcases mem_plan hc h with rfl | rfl | ⟨s, payload, rfl, -⟩
  · exact ⟨x.onBuffer_encode (Frame.decode_encode_control _), rfl⟩
  · exact ⟨x.onBuffer_encode (Frame.decode_encode_control _), rfl⟩
  · refine ⟨x.onBuffer_encode (Frame.decode_encode_data _ _), ?_⟩
    unfold onFrame onData
    grind

end StopAndWait
