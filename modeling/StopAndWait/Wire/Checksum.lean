namespace StopAndWait

abbrev Bytes := List UInt8

namespace Checksum

/-- The generator, lowest degree last: bit 7 stands for `1`, bit 0 for `x^7`. -/
def generator : UInt8 := 0x91

def bitStep (r : UInt8) : UInt8 :=
  -- A set lowest bit is cancelled by the generator.
  (if r &&& 1 = 0 then r else r ^^^ generator) >>> 1

def byteStep (r : UInt8) : UInt8 :=
  bitStep (bitStep (bitStep (bitStep (bitStep (bitStep (bitStep (bitStep r)))))))

def table : Vector UInt8 256 := Vector.ofFn fun i => byteStep (UInt8.ofNat i)

def lookup (r : UInt8) : UInt8 := table[r.toFin]

@[simp] theorem lookup_eq_byteStep (r : UInt8) : lookup r = byteStep r := by
  simp [lookup, table]

end Checksum

def checksum (bytes : Bytes) : UInt8 :=
  bytes.foldl (fun r b => Checksum.lookup (r ^^^ b)) 0

/-- Whether a buffer ends in the checksum of all before it. The empty buffer does not. -/
def isIntact (bytes : Bytes) : Bool :=
  bytes.getLast?.any fun last => checksum bytes.dropLast == last

@[simp] theorem checksum_nil : checksum [] = 0 := rfl

theorem checksum_append (xs ys : Bytes) :
    checksum (xs ++ ys) = ys.foldl (fun r b => Checksum.lookup (r ^^^ b)) (checksum xs) :=
  List.foldl_append

@[simp] theorem isIntact_nil : isIntact [] = false := rfl

@[simp] theorem isIntact_concat (body : Bytes) (last : UInt8) :
    isIntact (body ++ [last]) = (checksum body == last) := by
  simp [isIntact]

theorem isIntact_iff (bytes : Bytes) :
    isIntact bytes = true ↔ ∃ body, bytes = body ++ [checksum body] := by
  constructor
  · intro h
    obtain ⟨last, hlast, -⟩ := (Option.any_eq_true _ _).1 h
    obtain ⟨body, rfl⟩ := List.getLast?_eq_some_iff.1 hlast
    rw [isIntact_concat, beq_iff_eq] at h
    exact ⟨body, by rw [h]⟩
  · rintro ⟨body, rfl⟩
    rw [isIntact_concat, beq_self_eq_true]

end StopAndWait
