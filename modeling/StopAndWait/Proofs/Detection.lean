import Mathlib.Data.List.Basic
import Mathlib.Data.List.GetD
import StopAndWait.Link.Lossy
import StopAndWait.Proofs.Register

namespace StopAndWait

def damage (bytes pattern : Bytes) : Bytes := List.zipWith (· ^^^ ·) bytes pattern

/-- All set bits lie within `width` positions, the checksum's and its unused one among them. -/
def LiesWithin (pattern : Bytes) (first width : Nat) : Prop :=
  ∀ p, bitAt pattern p = true → first ≤ p ∧ p < first + width

theorem bitAt_of_le {bytes : Bytes} {p : Nat} (h : 8 * bytes.length ≤ p) :
    bitAt bytes p = false := by
  have hbyte : bytes.length ≤ p / 8 := by omega
  rw [bitAt, List.getD_eq_default _ _ hbyte, bitOf_zero]

theorem liesWithin_iff (pattern : Bytes) (first width : Nat) :
    LiesWithin pattern first width ↔
      ∀ p, p < 8 * pattern.length → bitAt pattern p = true → first ≤ p ∧ p < first + width := by
  constructor
  · intro h p _ hp
    exact h p hp
  · intro h p hp
    by_contra hout
    have hend : ¬ p < 8 * pattern.length := fun hlt => hout (h p hlt hp)
    rw [bitAt_of_le (by omega)] at hp
    exact Bool.noConfusion hp

instance (pattern : Bytes) (first width : Nat) : Decidable (LiesWithin pattern first width) :=
  decidable_of_iff' _ (liesWithin_iff pattern first width)

theorem length_damage {frame pattern : Bytes} (hl : pattern.length = frame.length) :
    (damage frame pattern).length = frame.length := by
  rw [damage, List.length_zipWith, hl, Nat.min_self]

theorem bitAt_damage {frame pattern : Bytes} (hl : pattern.length = frame.length) (p : Nat) :
    bitAt (damage frame pattern) p = (bitAt frame p ^^ bitAt pattern p) := by
  have hbyte : (damage frame pattern).getD (p / 8) 0 =
      frame.getD (p / 8) 0 ^^^ pattern.getD (p / 8) 0 := by
    unfold damage
    grind
  rw [bitAt, hbyte, bitOf_xor, bitAt, bitAt]

/-- What two buffers differ in leads from the one to the other. -/
theorem damage_damage {frame other : Bytes} (hl : other.length = frame.length) :
    damage frame (damage frame other) = other := by
  apply List.ext_getElem?
  intro i
  unfold damage
  rw [List.getElem?_zipWith, List.getElem?_zipWith]
  by_cases hi : i < frame.length
  · have hi' : i < other.length := hl ▸ hi
    rw [List.getElem?_eq_getElem hi, List.getElem?_eq_getElem hi']
    dsimp only
    rw [← UInt8.xor_assoc, UInt8.xor_self, UInt8.zero_xor]
  · simp [hi, hl]

/-- The checksum takes an intact buffer to zero as a whole. -/
theorem checksum_eq_zero_of_isIntact {bytes : Bytes} (h : isIntact bytes = true) :
    checksum bytes = 0 := by
  obtain ⟨body, rfl⟩ := (isIntact_iff _).1 h
  rw [checksum_append, List.foldl_cons, UInt8.xor_self, Checksum.lookup_eq_byteStep]
  rfl

/-- The frame cancels out of the test, so that it judges the pattern. -/
theorem isIntact_damage {frame pattern : Bytes} (hf : isIntact frame = true)
    (hl : pattern.length = frame.length) :
    isIntact (damage frame pattern) = isIntact pattern := by
  obtain ⟨body, rfl⟩ := (isIntact_iff _).1 hf
  obtain rfl | ⟨flips, last, rfl⟩ := List.eq_nil_or_concat' pattern
  · simp at hl
  · have hbody : body.length = flips.length := by simpa using hl.symm
    have hsplit : damage (body ++ [checksum body]) (flips ++ [last]) =
        damage body flips ++ [checksum body ^^^ last] := List.zipWith_append hbody
    rw [hsplit, isIntact_concat, isIntact_concat]
    unfold damage
    rw [checksum_zipWith_xor hbody, Bool.eq_iff_iff, beq_iff_eq, beq_iff_eq]
    exact UInt8.xor_right_inj (checksum body)

theorem exists_bitAt_of_ne_zero {pattern : Bytes} {byte : UInt8} (hm : byte ∈ pattern)
    (hne : byte ≠ 0) : ∃ p, bitAt pattern p = true := by
  obtain ⟨i, hi, rfl⟩ := List.mem_iff_getElem.1 hm
  by_contra hnone
  apply hne
  apply eq_of_bitOf_eq
  intro j hj
  rw [bitOf_zero]
  by_contra hset
  apply hnone
  refine ⟨8 * i + j, ?_⟩
  have hdiv : (8 * i + j) / 8 = i := by omega
  have hmod : (8 * i + j) % 8 = j := by omega
  rw [bitAt, hdiv, hmod, List.getD_eq_getElem _ _ hi]
  simpa using hset

theorem getD_bits (bytes : Bytes) (p : Nat) : (bits bytes).getD p false = bitAt bytes p := by
  by_cases hp : p < 8 * bytes.length
  · rw [List.getD_eq_getElem?_getD, getElem?_bits bytes hp, Option.getD_some]
  · have hend : (bits bytes).length ≤ p := by
      rw [length_bits]
      omega
    rw [List.getD_eq_default _ _ hend, bitAt_of_le (by omega)]

/-- No short burst passes for intact. -/
theorem isIntact_eq_false_of_liesWithin {pattern : Bytes} {p first : Nat}
    (hp : bitAt pattern p = true) (hw : LiesWithin pattern first 7) :
    isIntact pattern = false := by
  by_contra hintact
  have hzero : (bits pattern).foldl Checksum.feed 0 = 0 := by
    rw [← checksum_eq_foldl]
    exact checksum_eq_zero_of_isIntact (by simpa using hintact)
  have hclear := Checksum.getD_eq_false_of_foldl_eq_zero
    (fun q hq => hw q (by rwa [getD_bits] at hq)) hzero p
  rw [getD_bits, hp] at hclear
  exact Bool.noConfusion hclear

def singleBit (length index : Nat) (bit : UInt8) : Bytes :=
  flipBit (List.replicate length 0) index bit

theorem flipBit_eq_damage (frame : Bytes) (index : Nat) (bit : UInt8) :
    flipBit frame index bit = damage frame (singleBit frame.length index bit) := by
  apply List.ext_getElem?
  intro i
  unfold damage singleBit flipBit
  rw [List.getElem?_zipWith, List.getElem?_modify, List.getElem?_modify, List.getElem?_replicate]
  grind

theorem bitOf_one_shiftLeft {bit : UInt8} (hb : bit < 8) (i : Nat) :
    bitOf (1 <<< bit) i = decide (i = bit.toNat) := by
  have hlt : bit.toNat < 8 := hb
  have hmod : (bit.toBitVec % 8).toNat = bit.toNat := by
    simpa using Nat.mod_eq_of_lt hlt
  rw [bitOf, UInt8.toBitVec_shiftLeft, BitVec.shiftLeft_eq', hmod]
  have hone : (1 : UInt8).toBitVec = 1#8 := rfl
  rw [hone, BitVec.getLsbD_shiftLeft, BitVec.getLsbD_one]
  grind

theorem bitAt_singleBit {length index : Nat} {bit : UInt8} (hi : index < length) (hb : bit < 8)
    (p : Nat) : bitAt (singleBit length index bit) p = decide (p = 8 * index + bit.toNat) := by
  have hlt : bit.toNat < 8 := hb
  have hbyte : (singleBit length index bit).getD (p / 8) 0 =
      if p / 8 = index then 1 <<< bit else 0 := by
    unfold singleBit flipBit
    grind
  rw [bitAt, hbyte]
  split
  · rw [bitOf_one_shiftLeft hb, decide_eq_decide]
    omega
  · rw [bitOf_zero, eq_comm, decide_eq_false_iff_not]
    omega

/-- An intact frame of any length: damage shows unless its pattern is itself intact, and it shows
in particular if all flipped bits lie within seven positions, be it a single one. -/
theorem detects_bursts {frame : Bytes} (hf : isIntact frame = true) :
    (∀ pattern, pattern.length = frame.length →
      isIntact (damage frame pattern) = isIntact pattern ∧
      ∀ first, (∃ byte ∈ pattern, byte ≠ 0) → LiesWithin pattern first 7 →
        isIntact (damage frame pattern) = false) ∧
    ∀ index bit, index < frame.length → bit < 8 → isIntact (flipBit frame index bit) = false := by
  constructor
  · intro pattern hl
    refine ⟨isIntact_damage hf hl, ?_⟩
    rintro first ⟨byte, hm, hne⟩ hw
    obtain ⟨p, hp⟩ := exists_bitAt_of_ne_zero hm hne
    rw [isIntact_damage hf hl]
    exact isIntact_eq_false_of_liesWithin hp hw
  · intro index bit hi hb
    have hl : (singleBit frame.length index bit).length = frame.length := by
      simp [singleBit]
    have hw : LiesWithin (singleBit frame.length index bit) (8 * index + bit.toNat) 7 := by
      intro p hp
      rw [bitAt_singleBit hi hb, decide_eq_true_eq] at hp
      omega
    rw [flipBit_eq_damage, isIntact_damage hf hl]
    exact isIntact_eq_false_of_liesWithin (by rw [bitAt_singleBit hi hb, decide_eq_true_eq]) hw

set_option maxRecDepth 8000 in
/-- A burst that runs from the last payload byte into the checksum. -/
theorem detects_bursts_across_bytes :
    isIntact [0x10, 0x01, 0x01, 0x0f] = true ∧
      isIntact (damage [0x10, 0x01, 0x01, 0x0f] [0x00, 0x00, 0xc0, 0x11]) = false :=
  ⟨rfl, ((@detects_bursts [0x10, 0x01, 0x01, 0x0f] rfl).1 [0x00, 0x00, 0xc0, 0x11] rfl).2 22
    ⟨0xc0, by decide, by decide⟩ (by decide)⟩

set_option maxRecDepth 8000 in
-- Eight positions are too many: the generator itself goes unnoticed.
example : isIntact (damage [0x10, 0x01, 0x01, 0x0f] [0x00, 0x91, 0x00, 0x00]) = true := rfl

end StopAndWait
