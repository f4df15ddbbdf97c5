import Mathlib
import StopAndWait.Proofs.Register

/-!
The checksum as a remainder. A row of bits is a polynomial over the field of two elements, the first
bit at the highest degree. The register holds the remainder of all bits so far, moved up by seven
degrees, under division by `x^7 + x^3 + 1`.
-/
namespace StopAndWait

open Polynomial

noncomputable def ofBits : List Bool → (ZMod 2)[X]
  | [] => 0
  | bit :: rest => (if bit then X^rest.length else 0) + ofBits rest

theorem coeff_ofBits (input : List Bool) (d : Nat) :
    (ofBits input).coeff d =
      if d < input.length ∧ input.getD (input.length - 1 - d) false = true then 1 else 0 := by
  induction input with
  | nil => simp [ofBits]
  | cons bit rest ih =>
    have hfirst : (if bit then X^rest.length else 0 : (ZMod 2)[X]).coeff d =
        if d = rest.length ∧ bit = true then 1 else 0 := by
      cases bit <;> simp [coeff_X_pow]
    rw [ofBits, coeff_add, ih, hfirst, List.length_cons, Nat.add_sub_cancel]
    rcases Nat.lt_trichotomy d rest.length with hd | rfl | hd
    · have hbehind : rest.length - d = rest.length - 1 - d + 1 := by omega
      rw [hbehind, List.getD_cons_succ]
      simp [hd, hd.ne, Nat.lt_succ_of_lt hd]
    · simp
    · have hlong : ¬ d < rest.length + 1 := by omega
      simp [hd.ne', hd.not_gt, hlong]

theorem degree_ofBits_lt (input : List Bool) : (ofBits input).degree < input.length := by
  rw [degree_lt_iff_coeff_zero]
  intro d hd
  have hlong : ¬ d < input.length := by omega
  simp [coeff_ofBits, hlong]

/-- One more bit moves the others up by a degree. -/
theorem ofBits_concat (input : List Bool) (bit : Bool) :
    ofBits (input ++ [bit]) = X * ofBits input + if bit then 1 else 0 := by
  induction input with
  | nil => simp [ofBits]
  | cons first rest ih =>
    rw [List.cons_append, ofBits, ih, ofBits, List.length_append, List.length_singleton]
    cases first with
    | false => simp
    | true =>
      rw [if_pos rfl, if_pos rfl]
      ring

namespace Checksum

/-- What the seven bits of the register stand for: bit `k` is the coefficient of `x^(6-k)`. -/
noncomputable def content (r : UInt8) : (ZMod 2)[X] := ofBits ((List.range 7).map (bitOf r))

noncomputable def divisor : (ZMod 2)[X] := X^7 + X^3 + 1

theorem monic_divisor : divisor.Monic := by
  unfold divisor
  monicity!

theorem degree_divisor : divisor.degree = 7 := by
  unfold divisor
  compute_degree!

theorem coeff_content (r : UInt8) (d : Nat) :
    (content r).coeff d = if d < 7 ∧ bitOf r (6 - d) = true then 1 else 0 := by
  rw [content, coeff_ofBits, List.length_map, List.length_range]
  by_cases hd : d < 7
  · rw [List.getD_eq_getElem _ _ (by simp; omega), List.getElem_map, List.getElem_range]
  · simp [hd]

theorem content_zero : content 0 = 0 := by
  ext d
  rw [coeff_content, bitOf_zero]
  simp

/-- Registers add up without carry. -/
theorem content_xor (r s : UInt8) : content (r ^^^ s) = content r + content s := by
  ext d
  rw [coeff_add, coeff_content, coeff_content, coeff_content, bitOf_xor]
  by_cases hd : d < 7
  · cases bitOf r (6 - d) <;> cases bitOf s (6 - d) <;> simp [hd, CharTwo.add_self_eq_zero]
  · simp [hd]

/-- A register of seven bits moves up by a degree as it is shifted, and its lowest bit leaves at the
top. -/
theorem X_mul_content {r : UInt8} (hr : bitOf r 7 = false) :
    X * content r = (if bitOf r 0 then X^7 else 0) + content (r >>> 1) := by
  have hbits : (List.range 7).map (bitOf r) =
      bitOf r 0 :: (List.range 6).map (bitOf (r >>> 1)) := by
    simp [List.range_succ, bitOf_shiftRight_one]
  have hshifted : (List.range 7).map (bitOf (r >>> 1)) =
      (List.range 6).map (bitOf (r >>> 1)) ++ [false] := by
    rw [List.range_succ, List.map_append, List.map_singleton, bitOf_shiftRight_one, hr]
  rw [content, content, hbits, hshifted, ofBits_concat, ofBits]
  cases bitOf r 0 with
  | false => simp
  | true =>
    simp
    ring

theorem content_feedback : content 0x48 = X^3 + 1 := by
  have hbits : (List.range 7).map (bitOf 0x48) =
      [false, false, false, true, false, false, true] := by decide
  rw [content, hbits]
  simp [ofBits]

/-- A step moves the register up and takes the bit in at the seventh degree. A coefficient that
comes out there is cancelled by the divisor. -/
theorem content_feed {r : UInt8} (hr : bitOf r 7 = false) (bit : Bool) :
    content (feed r bit) = X * content r + (if bit then X^7 else 0) +
      if bitOf r 0 ^^ bit then divisor else 0 := by
  have htwo := CharTwo.add_self_eq_zero (X^7 : (ZMod 2)[X])
  have hdivisor : divisor = X^7 + content 0x48 := by rw [content_feedback, divisor, add_assoc]
  rw [X_mul_content hr, feed, content_xor, hdivisor]
  cases bitOf r 0 <;> cases bit <;>
    simp only [Bool.false_xor, Bool.true_xor, Bool.not_true, Bool.not_false, if_true,
      Bool.false_eq_true, if_false, content_zero]
  case false.false => ring
  case false.true | true.false | true.true => linear_combination -htwo

/-- What the register holds and what it has taken in differ by a multiple of the divisor. -/
theorem exists_quotient (input : List Bool) :
    ∃ q, content (input.foldl feed 0) + divisor * q = ofBits input * X^7 := by
  induction input using List.reverseRecOn with
  | nil => exact ⟨0, by simp [content_zero, ofBits]⟩
  | append_singleton input bit ih =>
    obtain ⟨q, hq⟩ := ih
    have hseven := bitOf_foldl_seven (bitOf_zero 7) input
    refine ⟨X * q - (if bitOf (input.foldl feed 0) 0 ^^ bit then 1 else 0), ?_⟩
    rw [List.foldl_append, List.foldl_cons, List.foldl_nil, content_feed hseven, ofBits_concat]
    cases bitOf (input.foldl feed 0) 0 ^^ bit <;> cases bit <;>
      simp only [if_true, Bool.false_eq_true, if_false] <;>
      linear_combination X * hq

end Checksum

open Checksum

theorem coeff_ofBits_bits (bytes : Bytes) (d : Nat) :
    (ofBits (bits bytes)).coeff d =
      if d < 8 * bytes.length ∧ bitAt bytes (8 * bytes.length - 1 - d) = true then 1 else 0 := by
  rw [coeff_ofBits, length_bits]
  by_cases hd : d < 8 * bytes.length
  · rw [List.getD_eq_getElem?_getD, getElem?_bits bytes (by omega), Option.getD_some]
  · simp [hd]

theorem modByMonic_eq_content (bytes : Bytes) :
    (ofBits (bits bytes) * X^7) %ₘ divisor = content (checksum bytes) := by
  obtain ⟨q, hq⟩ := exists_quotient (bits bytes)
  rw [← checksum_eq_foldl] at hq
  have hdegree : (content (checksum bytes)).degree < divisor.degree := by
    rw [degree_divisor]
    exact degree_ofBits_lt ((List.range 7).map (bitOf (checksum bytes)))
  exact (div_modByMonic_unique q _ monic_divisor ⟨hq, hdegree⟩).2

theorem checksum_lt (bytes : Bytes) : checksum bytes < 128 := by
  have hseven : (checksum bytes).toBitVec.msb = false := by
    rw [BitVec.msb_eq_getLsbD_last, checksum_eq_foldl]
    exact bitOf_foldl_seven (bitOf_zero 7) (bits bytes)
  have hlt := BitVec.msb_eq_false_iff_two_mul_lt.1 hseven
  rw [UInt8.lt_iff_toNat_lt]
  show (checksum bytes).toNat < 128
  rw [UInt8.toNat_toBitVec] at hlt
  omega

/-- The checksum of a buffer, as a polynomial: the remainder of its bits, those of each byte lowest
first and moved up by seven degrees, under division by `x^7 + x^3 + 1`; and as a register of seven
bits that takes these bits in one by one. -/
theorem checksum_is_remainder (bytes : Bytes) :
    (∀ d, (ofBits (bits bytes)).coeff d =
      if d < 8 * bytes.length ∧ bitAt bytes (8 * bytes.length - 1 - d) = true then 1 else 0) ∧
    (∀ d, ((ofBits (bits bytes) * X^7) %ₘ (X^7 + X^3 + 1)).coeff d =
      if d < 7 ∧ bitOf (checksum bytes) (6 - d) = true then 1 else 0) ∧
    checksum bytes = (bits bytes).foldl feed 0 ∧ checksum bytes < 128 := by
  refine ⟨coeff_ofBits_bits bytes, fun d => ?_, checksum_eq_foldl bytes, checksum_lt bytes⟩
  have hremainder := modByMonic_eq_content bytes
  rw [divisor] at hremainder
  rw [hremainder, coeff_content]

end StopAndWait
