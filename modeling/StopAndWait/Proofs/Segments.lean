import Mathlib.Algebra.Order.Floor.Div
import StopAndWait.Engine.Settings
import StopAndWait.Proofs.Course

namespace StopAndWait

/-- What a message is cut into: pieces as long as the capacity, and a last one of what is left. -/
structure Cuts (message : Bytes) (capacity : Nat) (pieces : List Bytes) : Prop where
  whole : pieces.flatten = message
  count : pieces.length = message.length ⌈/⌉ capacity
  full : ∀ piece ∈ pieces.dropLast, piece.length = capacity
  last : ∃ piece, pieces.getLast? = some piece ∧ 0 < piece.length ∧ piece.length ≤ capacity

section Cuts

variable {message : Bytes} {capacity : Nat}

theorem chunks_of_le (hm : message ≠ []) (hl : message.length ≤ capacity) :
    chunks capacity message = [message] := by
  obtain ⟨first, rest, rfl⟩ := List.exists_cons_of_ne_nil hm
  have hrest : rest.length ≤ capacity - 1 := Nat.le_sub_one_of_lt hl
  rw [chunks_cons, List.take_of_length_le hrest, List.drop_of_length_le hrest, chunks_nil]

theorem chunks_of_lt (hc : 0 < capacity) (hl : capacity < message.length) :
    chunks capacity message = message.take capacity :: chunks capacity (message.drop capacity) := by
  obtain ⟨first, rest, rfl⟩ := List.exists_cons_of_length_pos (Nat.zero_lt_of_lt hl)
  obtain ⟨left, rfl⟩ := Nat.exists_eq_add_one.2 hc
  exact chunks_cons _ first rest

theorem cuts_singleton (hm : message ≠ []) (hl : message.length ≤ capacity) :
    Cuts message capacity [message] := by
  have hpos : 0 < message.length := List.length_pos_iff.2 hm
  refine ⟨List.flatten_singleton, ?_, nofun, message, rfl, hpos, hl⟩
  have hone : (message.length + capacity - 1) / capacity = 1 :=
    Nat.div_eq_of_lt_le (by omega) (by omega)
  rw [Nat.ceilDiv_eq_add_pred_div, hone]
  rfl

/-- With one piece more in front the count goes up by one. -/
theorem Cuts.cons (hc : 0 < capacity) (hl : capacity < message.length) {pieces : List Bytes}
    (h : Cuts (message.drop capacity) capacity pieces) :
    Cuts message capacity (message.take capacity :: pieces) := by
  obtain ⟨last, hlast, hsize⟩ := h.last
  have hne : pieces ≠ [] := by
    rintro rfl
    cases hlast
  refine ⟨?_, ?_, ?_, last, ?_, hsize⟩
  · rw [List.flatten_cons, h.whole, List.take_append_drop]
  · have hsub : message.length - capacity + capacity - 1 = message.length - 1 := by omega
    have hadd : message.length + capacity - 1 = message.length - 1 + capacity := by omega
    rw [List.length_cons, h.count, List.length_drop, Nat.ceilDiv_eq_add_pred_div,
      Nat.ceilDiv_eq_add_pred_div, hsub, hadd, Nat.add_div_right _ hc]
  · rw [List.dropLast_cons_of_ne_nil hne]
    intro piece hp
    rcases List.mem_cons.1 hp with rfl | hp
    · rw [List.length_take]
      omega
    · exact h.full piece hp
  · rw [List.getLast?_cons, hlast]
    rfl

theorem cuts_chunks (hc : 0 < capacity) (message : Bytes) (hm : message ≠ []) :
    Cuts message capacity (chunks capacity message) := by
  by_cases hl : message.length ≤ capacity
  · rw [chunks_of_le hm hl]
    exact cuts_singleton hm hl
  · have hlt : capacity < message.length := Nat.lt_of_not_le hl
    have hdrop : message.drop capacity ≠ [] := by
      apply List.ne_nil_of_length_pos
      rw [List.length_drop]
      omega
    rw [chunks_of_lt hc hlt]
    exact (cuts_chunks hc (message.drop capacity) hdrop).cons hc hlt
termination_by message.length
decreasing_by
  rw [List.length_drop]
  omega

theorem Cuts.two_le_length (hc : 0 < capacity) (hl : capacity < message.length)
    {pieces : List Bytes} (h : Cuts message capacity pieces) : 2 ≤ pieces.length := by
  rw [h.count, Nat.ceilDiv_eq_add_pred_div, Nat.le_div_iff_mul_le hc]
  omega

end Cuts

/-- Numbers go up by one from frame to frame, modulo 256. -/
theorem numbered_eq_mapIdx (sequence : UInt8) (payloads : List Bytes) :
    numbered sequence payloads =
      payloads.mapIdx fun i payload => .data (sequence + UInt8.ofNat (i + 1)) payload := by
  induction payloads generalizing sequence with
  | nil => rfl
  | cons payload rest ih =>
    have hnext (i : Nat) :
        sequence + 1 + UInt8.ofNat (i + 1) = sequence + UInt8.ofNat (i + 1 + 1) := by
      rw [UInt8.ofNat_add (i + 1) 1, UInt8.add_assoc, UInt8.add_comm 1]
      rfl
    rw [numbered, ih, List.mapIdx_cons]
    simp only [hnext]
    rfl

theorem plan_of_lt {message : Bytes} {capacity : Nat} (hl : capacity < message.length) :
    plan message capacity = .control .seqBegin ::
      ((chunks capacity message).mapIdx fun i piece => .data (UInt8.ofNat (i + 1)) piece) ++
        [.control .seqEnd] := by
  have hm : message ≠ [] := List.ne_nil_of_length_pos (Nat.zero_lt_of_lt hl)
  rw [plan, if_neg hm, if_neg (Nat.not_le_of_lt hl), numbered_eq_mapIdx]
  simp only [UInt8.zero_add]
  rfl

def Frame.payload : Frame → Bytes
  | data _ payload => payload
  | control _ | unknown _ => []

def carriedBy (frames : List Frame) : Bytes := frames.flatMap Frame.payload

theorem carriedBy_numbered (sequence : UInt8) (payloads : List Bytes) :
    carriedBy (numbered sequence payloads) = payloads.flatten := by
  induction payloads generalizing sequence with
  | nil => rfl
  | cons payload rest ih => exact congrArg (payload ++ ·) (ih (sequence + 1))

theorem carriedBy_plan (message : Bytes) (capacity : Nat) :
    carriedBy (plan message capacity) = message := by
  unfold plan
  split
  · next hm => exact hm.symm
  · split
    · exact List.append_nil message
    · have hbetween : carriedBy (numbered 0 (chunks capacity message)) = message := by
        rw [carriedBy_numbered, flatten_chunks]
      simpa [carriedBy, Frame.payload] using hbetween

/-- A message that fits travels alone, under the number one. A longer one is cut into pieces, two at
least, which are numbered from one on modulo 256 and go between the opening and the closing of a
sequence. No two messages have the same plan. Settings that are accepted leave room for a byte in
each data frame, so that there is a plan for every message, and none of its frames is longer than
the settings allow. -/
theorem segmentation :
    (∀ message capacity, message ≠ [] → 0 < capacity →
      (message.length ≤ capacity → plan message capacity = [.data 1 message]) ∧
      (capacity < message.length → ∃ pieces, Cuts message capacity pieces ∧ 2 ≤ pieces.length ∧
        plan message capacity = .control .seqBegin ::
          (pieces.mapIdx fun i piece => .data (UInt8.ofNat (i + 1)) piece) ++
            [.control .seqEnd])) ∧
    (∀ capacity, Function.Injective (plan · capacity)) ∧
    ∀ (settings : Settings) (config : Config), settings.check = .ok config →
      config.capacity + Frame.dataOverhead = settings.send.mtu ∧ 0 < config.capacity ∧
      ∀ message, plan? message config.capacity = some (plan message config.capacity) ∧
        ∀ frame ∈ plan message config.capacity, frame.encode.length ≤ settings.send.mtu := by
  refine ⟨?_, ?_, ?_⟩
  · intro message capacity hm hc
    refine ⟨plan_eq_data hm, fun hl => ?_⟩
    have hcuts : Cuts message capacity (chunks capacity message) := cuts_chunks hc message hm
    exact ⟨chunks capacity message, hcuts, hcuts.two_le_length hc hl, plan_of_lt hl⟩
  · intro capacity
    have hread : Function.LeftInverse carriedBy (plan · capacity) := fun message =>
      carriedBy_plan message capacity
    exact hread.injective
  · intro settings config hcheck
    obtain rfl := Settings.toSettings_of_check hcheck
    have hroom : config.capacity + Frame.dataOverhead = config.send.mtu :=
      Nat.sub_add_cancel (Nat.le_of_lt config.mtu_bounds.1)
    refine ⟨hroom, config.capacity_pos, fun message => ⟨?_, fun frame hf => ?_⟩⟩
    · have hpos : config.capacity ≠ 0 := Nat.ne_of_gt config.capacity_pos
      exact if_neg fun h => hpos h.1
    · rw [← hroom]
      exact length_encode_le_of_mem_plan config.capacity_pos hf

/-- With one byte in each frame the number of the 256th is zero. -/
theorem segmentation_of_wrap : ∃ pieces, Cuts (List.replicate 300 0x61) 1 pieces ∧
    pieces.length = 300 ∧
    (∃ piece, (plan (List.replicate 300 0x61) 1)[256]? = some (.data 0 piece)) ∧
    ∀ frame ∈ plan (List.replicate 300 0x61) 1, frame.encode.length ≤ 4 := by
  generalize hm : List.replicate 300 (0x61 : UInt8) = message
  have hlength : message.length = 300 := by rw [← hm, List.length_replicate]
  have hlong : 1 < message.length := by omega
  have hne : message ≠ [] := List.ne_nil_of_length_pos (by omega)
  obtain ⟨pieces, hcuts, -, hplan⟩ := (segmentation.1 message 1 hne (by decide)).2 hlong
  have hcount : pieces.length = 300 := by
    rw [hcuts.count, Nat.ceilDiv_eq_add_pred_div, hlength]
  have hfits := (segmentation.2.2 { send := { mtu := 4 } } ⟨{ send := { mtu := 4 } }, rfl⟩ rfl).2.2
  refine ⟨pieces, hcuts, hcount, ⟨pieces[255], ?_⟩, (hfits message).2⟩
  have hnumbered : 255 < (pieces.mapIdx fun i piece =>
      Frame.data (UInt8.ofNat (i + 1)) piece).length := by
    rw [List.length_mapIdx]
    omega
  rw [hplan, List.cons_append, List.getElem?_cons_succ, List.getElem?_append_left hnumbered,
    List.getElem?_mapIdx, List.getElem?_eq_getElem (by omega)]
  rfl

end StopAndWait
