import StopAndWait.Exchange.Acknowledgment
import StopAndWait.Proofs.Course

namespace StopAndWait

namespace Frame

variable {bytes : Bytes}

/-- Not an unknown frame under a code that is known. -/
def IsProper : Frame → Prop
  | unknown code => code < 0x0a ∨ 0x10 < code
  | control _ | data _ _ => True

instance (frame : Frame) : Decidable frame.IsProper :=
  match frame with
  | unknown code => inferInstanceAs (Decidable (code < 0x0a ∨ 0x10 < code))
  | control _ | data _ _ => inferInstanceAs (Decidable True)

/-- The known codes leave no gap. -/
theorem isProper_unknown_iff (code : UInt8) :
    (unknown code).IsProper ↔ code ≠ dataCode ∧ Control.ofCode? code = none := by
  rw [Control.ofCode?_eq_none_iff]
  constructor
  · intro h
    refine ⟨?_, fun kind => ?_⟩
    · rintro rfl
      exact absurd h (by decide)
    · rintro rfl
      revert h
      cases kind <;> decide
  · rintro ⟨hdata, hcontrol⟩
    have hack := hcontrol .ack
    have hnack := hcontrol .nack
    have hbegin := hcontrol .seqBegin
    have hend := hcontrol .seqEnd
    have hsend := hcontrol .setSend
    have hrecv := hcontrol .setRecv
    simp only [Control.code, dataCode] at *
    show code < 0x0a ∨ 0x10 < code
    grind

theorem decode_encode {frame : Frame} (h : frame.IsProper) : decode frame.encode = .ok frame := by
  cases frame with
  | control kind => exact decode_encode_control kind
  | data sequence payload => exact decode_encode_data sequence payload
  | unknown code =>
    have hcode := (isProper_unknown_iff code).1 h
    exact decode_eq_ok_iff.2 (decode?_eq_unknown_iff.2 ⟨rfl, hcode⟩)

theorem exists_closed_of_isIntact (h : isIntact bytes = true) : ∃ body, bytes = closed body :=
  (isIntact_iff bytes).1 h

theorem eq_of_closed_eq {body front : Bytes} {last : UInt8} (h : closed body = front ++ [last]) :
    body = front :=
  (List.append_inj' h rfl).1

/-- Among the intact buffers only a bare data code is no frame. -/
theorem decode_fails_iff (h : isIntact bytes = true) :
    (∃ e, decode bytes = .error e) ↔ bytes = closed [dataCode] := by
  obtain ⟨body, rfl⟩ := exists_closed_of_isIntact h
  simp only [decode_eq_error_iff, exists_and_left, exists_eq, and_true, decode?_eq_none_iff]
  constructor
  · rintro (hnil | hone | ⟨last, htwo⟩)
    · simp [closed] at hnil
    -- The checksum of nothing is no data code.
    · obtain ⟨rfl, hlast⟩ : body = [] ∧ checksum body = dataCode := by
        simpa [closed, List.append_eq_singleton_iff] using hone
      exact absurd hlast (by decide)
    · rw [@eq_of_closed_eq body [dataCode] last htwo]
  · intro hbody
    exact .inr (.inr ⟨_, hbody⟩)

/-- An intact data frame is the written form of what it says. -/
theorem eq_encode_of_data {sequence : UInt8} {payload : Bytes} (h : isIntact bytes = true)
    (hd : decode? bytes = some (data sequence payload)) :
    bytes = encode (data sequence payload) := by
  obtain ⟨body, rfl⟩ := exists_closed_of_isIntact h
  obtain ⟨last, hlast⟩ := decode?_eq_data_iff.1 hd
  rw [@eq_of_closed_eq body (dataCode :: sequence :: payload) last hlast]
  rfl

/-- An intact buffer of just two bytes is the written form of what it says. -/
theorem eq_encode_of_length {frame : Frame} (h : isIntact bytes = true)
    (hd : decode? bytes = some frame) (hl : bytes.length = controlSize) :
    bytes = frame.encode := by
  obtain ⟨body, rfl⟩ := exists_closed_of_isIntact h
  obtain ⟨code, rfl⟩ : ∃ code, body = [code] := by
    apply List.length_eq_one_iff.1
    simpa [closed, controlSize] using hl
  cases frame with
  | data sequence payload => exact eq_encode_of_data h hd
  | control kind =>
    obtain rfl : code = kind.code := Option.some.inj (decode?_eq_control_iff.1 hd)
    rfl
  | unknown other =>
    obtain rfl : code = other := Option.some.inj (decode?_eq_unknown_iff.1 hd).1
    rfl

/-- The codec, both ways: every frame is read back from its written form, and every intact buffer
but a bare data code says a frame, whose written form it is if it says data or has two bytes. -/
theorem codec_roundtrip :
    (∀ frame : Frame, frame.IsProper → frame.encode.length = frame.encodedLength ∧
      isIntact frame.encode = true ∧ decode frame.encode = .ok frame) ∧
    (∀ frame other : Frame, frame.IsProper → other.IsProper → frame.encode = other.encode →
      frame = other) ∧
    (∀ bytes, isIntact bytes = true →
      ((∃ e, decode bytes = .error e) ↔ bytes = closed [dataCode]) ∧
      (∀ sequence payload, decode bytes = .ok (data sequence payload) →
        bytes = encode (data sequence payload)) ∧
      ∀ frame, decode bytes = .ok frame → bytes.length = 2 → frame.encode = bytes) ∧
    ∀ (bytes : Bytes) (kind : Control), kind.isWrittenAs bytes = true ↔ bytes = kind.encode := by
  refine ⟨?_, ?_, ?_, fun bytes kind => kind.isWrittenAs_iff bytes⟩
  · intro frame hp
    exact ⟨length_encode frame, isIntact_encode frame, decode_encode hp⟩
  · intro frame other hp ho heq
    have hframe := decode_encode hp
    rw [heq, decode_encode ho] at hframe
    exact (Except.ok.inj hframe).symm
  · intro bytes hi
    refine ⟨decode_fails_iff hi, ?_, ?_⟩
    · intro sequence payload hd
      exact eq_encode_of_data hi (decode_eq_ok_iff.1 hd)
    · intro frame hd hl
      exact (eq_encode_of_length hi (decode_eq_ok_iff.1 hd) hl).symm

/-- An unknown frame there and back. -/
theorem codec_roundtrip_of_unknown :
    decode (encode (unknown 0x42)) = .ok (unknown 0x42) ∧
      ∀ frame, decode (encode (unknown 0x42)) = .ok frame →
        frame.encode = encode (unknown 0x42) :=
  have hthere := codec_roundtrip.1 (unknown 0x42) (by decide)
  ⟨hthere.2.2, fun frame hd =>
    (codec_roundtrip.2.2.1 _ hthere.2.1).2.2 frame hd hthere.1⟩

def hears? (bytes : Bytes) : Option Frame :=
  if isIntact bytes then decode? bytes else none

theorem hears?_eq_some_iff {frame : Frame} :
    hears? bytes = some frame ↔ isIntact bytes = true ∧ decode? bytes = some frame := by
  unfold hears?
  cases isIntact bytes <;> simp

/-- The receive loop looks at no more of a control frame than its code. -/
theorem hears?_eq_control_iff {kind : Control} :
    hears? bytes = some (control kind) ↔ ∃ rest, bytes = closed (kind.code :: rest) := by
  rw [hears?_eq_some_iff, decode?_eq_control_iff]
  constructor
  · rintro ⟨hi, hhead⟩
    obtain ⟨body, rfl⟩ := exists_closed_of_isIntact hi
    cases body with
    | nil =>
      have hzero : kind.code = 0 := (Option.some.inj hhead).symm
      exact absurd hzero (by cases kind <;> decide)
    | cons code rest =>
      obtain rfl : code = kind.code := Option.some.inj hhead
      exact ⟨rest, rfl⟩
  · rintro ⟨rest, rfl⟩
    exact ⟨isIntact_closed _, rfl⟩

end Frame

open StopAndWait.Frame

theorem Verdict.ofBytes_eq_missing_iff (bytes : Bytes) :
    ofBytes bytes = missing ↔ bytes ≠ Control.ack.encode ∧ bytes ≠ Control.nack.encode := by
  unfold ofBytes
  simp only [Control.isWrittenAs_iff]
  grind

theorem Exchange.onBuffer_of_hears (x : Exchange) {bytes : Bytes} {frame : Frame}
    (h : hears? bytes = some frame) : x.onBuffer bytes = .ok (x.onFrame frame) := by
  obtain ⟨hi, hd⟩ := hears?_eq_some_iff.1 h
  exact onBuffer_eq_ok_iff.2 (.inr ⟨hi, frame, hd, rfl⟩)

/-- A control frame is heard in every intact buffer that begins with its code, and acts as its
written form does; only that form passes for a verdict. The two differ just where more bytes follow
the code. -/
theorem control_heard_iff (bytes : Bytes) (kind : Control) :
    (hears? bytes = some (control kind) ↔ ∃ rest, bytes = closed (kind.code :: rest)) ∧
    (∀ (rest : Bytes) (x : Exchange),
      x.onBuffer (closed (kind.code :: rest)) = x.onBuffer kind.encode) ∧
    ((hears? bytes = some (control kind) ↔ kind.isWrittenAs bytes = true) ↔
      ¬ ∃ first rest, bytes = closed (kind.code :: first :: rest)) ∧
    (Verdict.ofBytes bytes = .missing ↔
      Control.ack.isWrittenAs bytes = false ∧ Control.nack.isWrittenAs bytes = false) := by
  refine ⟨hears?_eq_control_iff, ?_, ?_, ?_⟩
  · intro rest x
    have hlong : hears? (closed (kind.code :: rest)) = some (control kind) :=
      hears?_eq_control_iff.2 ⟨rest, rfl⟩
    have hexact : hears? kind.encode = some (control kind) := hears?_eq_control_iff.2 ⟨[], rfl⟩
    rw [x.onBuffer_of_hears hlong, x.onBuffer_of_hears hexact]
  · rw [hears?_eq_control_iff, Control.isWrittenAs_iff]
    constructor
    · rintro hsame ⟨first, rest, rfl⟩
      have hlong : closed (kind.code :: first :: rest) = kind.encode := hsame.1 ⟨_, rfl⟩
      simpa [closed] using congrArg List.length hlong
    · intro hshort
      constructor
      · rintro ⟨rest, rfl⟩
        cases rest with
        | nil => rfl
        | cons first rest => exact (hshort ⟨first, rest, rfl⟩).elim
      · rintro rfl
        exact ⟨[], rfl⟩
  · simp only [Verdict.ofBytes_eq_missing_iff, ← Control.isWrittenAs_iff, ne_eq,
      Bool.not_eq_true]

set_option maxRecDepth 8000 in
/-- Three bytes open a sequence that are no control frame. -/
theorem not_heard_iff_isWrittenAs :
    (Control.seqBegin.isWrittenAs [0x0c, 0x00, 0x69] = false ∧
      Exchange.onBuffer {} [0x0c, 0x00, 0x69] =
        .ok (.ack .proceed, { inSequence := true })) ∧
    ¬ ∀ (bytes : Bytes) (kind : Control),
      hears? bytes = some (control kind) ↔ kind.isWrittenAs bytes = true := by
  refine ⟨⟨rfl, rfl⟩, ?_⟩
  intro hall
  have hwritten := (hall [0x0c, 0x00, 0x69] .seqBegin).1 rfl
  exact absurd hwritten (by decide)

end StopAndWait
