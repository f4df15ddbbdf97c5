import StopAndWait.Dialog.Run
import StopAndWait.Random.Source

namespace StopAndWait

structure LossStats where
  passed : Nat := 0
  dropped : Nat := 0
  corrupted : Nat := 0
  deriving DecidableEq, Repr

inductive Fate
  | passed
  | dropped
  | corrupted (index : Nat) (bit : UInt8)
  deriving DecidableEq, Repr

def flipBit (bytes : Bytes) (index : Nat) (bit : UInt8) : Bytes :=
  bytes.modify index (· ^^^ (1 <<< bit))

def nearestRate (rate : Float) : Float :=
  if rate < 0 then 0 else if 1 < rate then 1 else rate

namespace Fate

variable {γ : Type} [RandomSource γ]

-- First the loss of a buffer, then its damage, then where.
def draw (dropRate corruptRate : Float) (length : Nat) (g : γ) : Option (Fate × γ) := do
  let (isDropped, g) ← RandomSource.event dropRate g
  if isDropped then return (dropped, g)
  else
    let (isCorrupted, g) ← RandomSource.event corruptRate g
    if isCorrupted then
      let (index, g) := RandomSource.below length g
      let (bit, g) := RandomSource.bit g
      return (corrupted index bit, g)
    else return (passed, g)

def apply (bytes : Bytes) : Fate → Option Bytes
  | passed => some bytes
  | dropped => none
  | corrupted index bit => some (flipBit bytes index bit)

end Fate

def LossStats.count (s : LossStats) : Fate → LossStats
  | .passed => { s with passed := s.passed + 1 }
  | .dropped => { s with dropped := s.dropped + 1 }
  | .corrupted _ _ => { s with corrupted := s.corrupted + 1 }

structure LossyLink (σ γ : Type) where
  inner : σ
  source : γ
  dropRate : Float := 0
  corruptRate : Float := 0
  stats : LossStats := {}

namespace LossyLink

variable {σ γ : Type} [Link σ] [RandomSource γ]

def ofSeed (inner : σ) (seed : UInt64) : LossyLink σ γ :=
  { inner, source := RandomSource.ofSeed seed }

def withDropRate (s : LossyLink σ γ) (rate : Float) : LossyLink σ γ :=
  { s with dropRate := nearestRate rate }

def withCorruptRate (s : LossyLink σ γ) (rate : Float) : LossyLink σ γ :=
  { s with corruptRate := nearestRate rate }

def writeInner (s : LossyLink σ γ) (bytes : Bytes) (timeout : Millis) :
    Option (Except LinkError Nat × LossyLink σ γ) :=
  (Link.write s.inner bytes timeout).map fun (answer, inner) => (answer, { s with inner })

/-- Empty buffers always pass and are not counted. The writer is not told of a loss. -/
def write (s : LossyLink σ γ) (bytes : Bytes) (timeout : Millis) :
    Option (Except LinkError Nat × LossyLink σ γ) :=
  if bytes = [] then s.writeInner bytes timeout
  else do
    let (fate, source) ← Fate.draw s.dropRate s.corruptRate bytes.length s.source
    let s := { s with source, stats := s.stats.count fate }
    match fate.apply bytes with
    | none => return (.ok bytes.length, s)
    | some arriving => s.writeInner arriving timeout

def read (s : LossyLink σ γ) (capacity : Nat) (timeout : Millis) :
    Option (Except LinkError Bytes × LossyLink σ γ) :=
  (Link.read s.inner capacity timeout).map fun (answer, inner) => (answer, { s with inner })

instance : Link (LossyLink σ γ) where
  read := read
  write := write

end LossyLink

theorem isProbability_nearestRate {rate : Float} (h : rate.isNaN = false) :
    IsProbability (nearestRate rate) := by
  unfold nearestRate
  split
  · decide
  · split
    · decide
    · exact ⟨h, ‹_›, ‹_›⟩

@[simp] theorem length_flipBit (bytes : Bytes) (index : Nat) (bit : UInt8) :
    (flipBit bytes index bit).length = bytes.length := by
  simp [flipBit]

end StopAndWait
