import StopAndWait.Wire.Checksum

namespace StopAndWait

inductive Control
  | ack
  | nack
  | seqBegin
  | seqEnd
  -- The peer is to send from now on.
  | setSend
  -- The peer is to receive from now on.
  | setRecv
  deriving DecidableEq, Repr

namespace Control

def all : List Control := [ack, nack, seqBegin, seqEnd, setSend, setRecv]

def code : Control → UInt8
  | ack => 0x0a
  | nack => 0x0b
  | seqBegin => 0x0c
  | seqEnd => 0x0d
  | setSend => 0x0e
  | setRecv => 0x0f

def ofCode? (code : UInt8) : Option Control :=
  all.find? (·.code == code)

def name : Control → String
  | ack => "Ack"
  | nack => "Nack"
  | seqBegin => "SeqBegin"
  | seqEnd => "SeqEnd"
  | setSend => "SetSend"
  | setRecv => "SetRecv"

def encode (kind : Control) : Bytes := [kind.code, checksum [kind.code]]

def isWrittenAs (kind : Control) (bytes : Bytes) : Bool :=
  bytes.length == 2 && bytes.head? == some kind.code && isIntact bytes

@[simp] theorem ofCode?_code (kind : Control) : ofCode? kind.code = some kind := by
  cases kind <;> rfl

theorem ofCode?_eq_some_iff {code : UInt8} {kind : Control} :
    ofCode? code = some kind ↔ kind.code = code := by
  constructor
  · intro h
    simpa using List.find?_some h
  · rintro rfl
    exact ofCode?_code kind

theorem ofCode?_eq_none_iff {code : UInt8} :
    ofCode? code = none ↔ ∀ kind : Control, kind.code ≠ code := by
  rw [Option.eq_none_iff_forall_ne_some]
  simp only [ne_eq, ofCode?_eq_some_iff]

@[simp] theorem length_encode (kind : Control) : kind.encode.length = 2 := rfl

theorem encode_injective : Function.Injective encode := by
  intro kind kind' h
  have hcode : ofCode? kind.code = ofCode? kind'.code := by rw [(List.cons.inj h).1]
  rwa [ofCode?_code, ofCode?_code, Option.some.injEq] at hcode

/-- Only the written form itself is taken for it. -/
theorem isWrittenAs_iff (kind : Control) (bytes : Bytes) :
    kind.isWrittenAs bytes = true ↔ bytes = kind.encode := by
  match bytes with
  | [] | [_] | _ :: _ :: _ :: _ => simp [isWrittenAs, encode]
  | [code, last] =>
    have hi : isIntact [code, last] = (checksum [code] == last) := isIntact_concat [code] last
    simp only [isWrittenAs, encode, hi]
    grind

end Control

inductive Frame
  | control (kind : Control)
  | data (sequence : UInt8) (payload : Bytes)
  -- A first byte that stands for nothing.
  | unknown (code : UInt8)
  deriving DecidableEq, Repr

namespace Frame

def dataCode : UInt8 := 0x10

def controlSize : Nat := 2

def dataOverhead : Nat := 3

def closed (body : Bytes) : Bytes := body ++ [checksum body]

def encode : Frame → Bytes
  | control kind => kind.encode
  | data sequence payload => closed (dataCode :: sequence :: payload)
  | unknown code => closed [code]

def encodedLength : Frame → Nat
  | data _ payload => payload.length + dataOverhead
  | control _ | unknown _ => controlSize

/-- Nothing is read from no bytes, nor from a data code that brings no room for its sequence number
and checksum. Only a data frame's length matters. -/
def decode? : Bytes → Option Frame
  | [] => none
  | code :: rest =>
    if code = dataCode then
      match rest with
      | sequence :: tail@(_ :: _) => some (data sequence tail.dropLast)
      | _ => none
    else match Control.ofCode? code with
      | some kind => some (control kind)
      | none => some (unknown code)

def hexCode (code : UInt8) : String :=
  String.ofList [Nat.digitChar (code.toNat / 16), Nat.digitChar (code.toNat % 16)]

def describe : Frame → String
  | control kind => kind.name
  | data sequence payload => s!"Data(seq={sequence.toNat}, {payload.length} bytes)"
  | unknown code => "Unknown(0x" ++ hexCode code ++ ")"

section Decode

variable {bytes : Bytes}

theorem decode?_eq_data_iff {sequence : UInt8} {payload : Bytes} :
    decode? bytes = some (data sequence payload) ↔
      ∃ last, bytes = dataCode :: sequence :: (payload ++ [last]) := by
  constructor
  · intro h
    revert h
    fun_cases decode? bytes with
    | case2 sequence first rest =>
      intro h
      obtain ⟨rfl, rfl⟩ := data.inj (Option.some.inj h)
      refine ⟨(first :: rest).getLast (by simp), ?_⟩
      rw [List.dropLast_concat_getLast]
    | case1 | case3 | case4 | case5 => simp
  · rintro ⟨last, rfl⟩
    cases payload with
    | nil => rfl
    | cons first rest =>
      simp only [decode?, if_pos, List.cons_append]
      simp only [← List.cons_append, List.dropLast_concat]

/-- A control frame shows in the first byte alone. -/
theorem decode?_eq_control_iff {kind : Control} :
    decode? bytes = some (control kind) ↔ bytes.head? = some kind.code := by
  have hdata : kind.code ≠ dataCode := by cases kind <;> decide
  fun_cases decode? bytes with
  | case1 => simp
  | case2 | case3 =>
    simpa using hdata.symm
  | case4 code rest hcode other hother =>
    obtain rfl := Control.ofCode?_eq_some_iff.1 hother
    rw [List.head?_cons, Option.some.injEq, control.injEq, Option.some.injEq]
    constructor
    · rintro rfl
      rfl
    · intro h
      rw [h, Control.ofCode?_code] at hother
      exact (Option.some.inj hother).symm
  | case5 code rest hcode hother =>
    simpa using Control.ofCode?_eq_none_iff.1 hother kind ∘ Eq.symm

theorem decode?_eq_unknown_iff {code : UInt8} :
    decode? bytes = some (unknown code) ↔
      bytes.head? = some code ∧ code ≠ dataCode ∧ Control.ofCode? code = none := by
  fun_cases decode? bytes <;> grind

theorem decode?_eq_none_iff :
    decode? bytes = none ↔ bytes = [] ∨ bytes = [dataCode] ∨ ∃ last, bytes = [dataCode, last] := by
  fun_cases decode? bytes with
  | case1 | case2 => simp
  | case3 rest hshort =>
    match rest with
    | [] | [_] => simp
    | sequence :: first :: later => exact (hshort sequence first later rfl).elim
  | case4 code rest hcode | case5 code rest hcode => simp [hcode]

end Decode

@[simp] theorem isIntact_closed (body : Bytes) : isIntact (closed body) = true := by
  simp [closed]

@[simp] theorem isIntact_encode (f : Frame) : isIntact f.encode = true := by
  cases f with
  | control kind => exact isIntact_closed [kind.code]
  | data => exact isIntact_closed _
  | unknown => exact isIntact_closed _

@[simp] theorem length_encode (f : Frame) : f.encode.length = f.encodedLength := by
  cases f <;> simp [encode, encodedLength, closed, controlSize, dataOverhead]

end Frame

end StopAndWait
