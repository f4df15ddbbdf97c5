import Mathlib.Dynamics.PeriodicPts.Lemmas
import Mathlib.Tactic.NormNum.Prime
import StopAndWait.Proofs.Detection

namespace StopAndWait

/-- The buffer with one bit flipped: bit `j` of byte `i` is the one at `8 * i + j`. -/
def flipAt (bytes : Bytes) (p : Nat) : Bytes := flipBit bytes (p / 8) (UInt8.ofNat (p % 8))

section Flips

variable {bytes : Bytes} {p : Nat}

@[simp] theorem length_flipAt : (flipAt bytes p).length = bytes.length :=
  length_flipBit bytes _ _

/-- Just the one bit changes. -/
theorem bitAt_flipAt (hp : p < 8 * bytes.length) (r : Nat) :
    bitAt (flipAt bytes p) r = (bitAt bytes r ^^ decide (r = p)) := by
  have hbyte : (flipAt bytes p).getD (r / 8) 0 =
      if r / 8 = p / 8 then bytes.getD (r / 8) 0 ^^^ (1 <<< UInt8.ofNat (p % 8))
      else bytes.getD (r / 8) 0 := by
    unfold flipAt flipBit
    grind
  have hbit : UInt8.ofNat (p % 8) < 8 := by
    rw [UInt8.lt_iff_toNat_lt, UInt8.toNat_ofNat']
    have hlt : p % 8 % 2^8 < 8 := by omega
    exact hlt
  have hnat : (UInt8.ofNat (p % 8)).toNat = p % 8 := by
    rw [UInt8.toNat_ofNat']
    omega
  rw [bitAt, hbyte, bitAt]
  by_cases hr : r / 8 = p / 8
  · rw [if_pos hr, bitOf_xor, bitOf_one_shiftLeft hbit, hnat]
    congr 1
    rw [decide_eq_decide]
    omega
  · have hne : r ≠ p := fun h => hr (by rw [h])
    rw [if_neg hr, decide_eq_false hne, Bool.xor_false]

/-- A flip on top of other damage is more damage. -/
theorem flipAt_damage (bytes pattern : Bytes) (p : Nat) :
    flipAt (damage bytes pattern) p = damage bytes (flipAt pattern p) := by
  apply List.ext_getElem?
  intro i
  unfold damage flipAt flipBit
  rw [List.getElem?_zipWith, List.getElem?_modify, List.getElem?_modify, List.getElem?_zipWith]
  by_cases hi : p / 8 = i
  · simp only [if_pos hi]
    cases bytes[i]? <;> cases pattern[i]? <;> simp [UInt8.xor_assoc]
  · simp only [if_neg hi]
    cases bytes[i]? <;> cases pattern[i]? <;> simp

theorem damage_zeros (bytes : Bytes) : damage bytes (List.replicate bytes.length 0) = bytes := by
  apply List.ext_getElem?
  intro i
  unfold damage
  rw [List.getElem?_zipWith, List.getElem?_replicate]
  by_cases hi : i < bytes.length
  · simp [hi]
  · simp [hi]

def bitPair (length p q : Nat) : Bytes := flipAt (flipAt (List.replicate length 0) p) q

@[simp] theorem length_bitPair (length p q : Nat) : (bitPair length p q).length = length := by
  simp [bitPair]

theorem flipAt_flipAt_eq_damage (bytes : Bytes) (p q : Nat) :
    flipAt (flipAt bytes p) q = damage bytes (bitPair bytes.length p q) := by
  unfold bitPair
  rw [← flipAt_damage, ← flipAt_damage, damage_zeros]

theorem bitAt_zeros (length r : Nat) : bitAt (List.replicate length 0) r = false := by
  have hbyte : (List.replicate length (0 : UInt8)).getD (r / 8) 0 = 0 := by
    grind
  rw [bitAt, hbyte, bitOf_zero]

theorem bitAt_bitPair {length p q : Nat} (hp : p < 8 * length) (hq : q < 8 * length) (r : Nat) :
    bitAt (bitPair length p q) r = (decide (r = p) ^^ decide (r = q)) := by
  unfold bitPair
  rw [bitAt_flipAt (by simpa using hq), bitAt_flipAt (by simpa using hp), bitAt_zeros,
    Bool.false_xor]

end Flips

namespace Checksum

theorem foldl_replicate_eq_iterate (n : Nat) (r : UInt8) :
    (List.replicate n false).foldl feed r = bitStep^[n] r := by
  induction n generalizing r with
  | zero => rfl
  | succ n ih =>
    rw [List.replicate_succ, List.foldl_cons, ih, ← bitStep_eq_feed, Function.iterate_succ_apply]

/-- One set bit in an empty register comes round after 127 zeros and not before. -/
theorem minimalPeriod_bitStep : Function.minimalPeriod bitStep 0x48 = 127 := by
  have hprime : Fact (Nat.Prime 127) := ⟨by norm_num⟩
  apply Function.minimalPeriod_eq_prime
  · show bitStep^[127] 0x48 = 0x48
    decide +kernel
  · show ¬ bitStep 0x48 = 0x48
    decide

theorem feed_zero_true : feed 0 true = 0x48 := rfl

/-- A set bit empties the register if a zero would make it what one set bit makes of an empty one.
-/
theorem feed_true_eq_zero_iff (r : UInt8) : feed r true = 0 ↔ bitStep r = 0x48 := by
  have hlinear := feed_xor r 0 false true
  rw [UInt8.xor_zero, Bool.false_xor, ← bitStep_eq_feed, feed_zero_true] at hlinear
  rw [hlinear, UInt8.xor_eq_zero_iff]

/-- Two set bits among zeros leave nothing behind just at the multiples of the period. -/
theorem foldl_pair_eq_zero_iff (before between after : Nat) :
    (List.replicate before false ++ true ::
      (List.replicate between false ++ true :: List.replicate after false)).foldl feed 0 = 0 ↔
      127 ∣ between + 1 := by
  rw [← minimalPeriod_bitStep, ← Function.isPeriodicPt_iff_minimalPeriod_dvd,
    Function.IsPeriodicPt, Function.IsFixedPt, Function.iterate_succ_apply',
    ← feed_true_eq_zero_iff, List.foldl_append, foldl_replicate_zero, List.foldl_cons, feed_zero_true,
    List.foldl_append, foldl_replicate_eq_iterate, List.foldl_cons]
  constructor
  · intro h
    by_contra hne
    exact foldl_replicate_ne_zero (bitOf_feed_seven _ _) hne after h
  · intro h
    rw [h, foldl_replicate_zero]

end Checksum

/-- An intact buffer is one without the unused bit that leaves the register empty. -/
theorem isIntact_iff_foldl {bytes : Bytes} (hb : bytes ≠ []) :
    isIntact bytes = true ↔
      bitAt bytes (8 * bytes.length - 1) = false ∧ (bits bytes).foldl Checksum.feed 0 = 0 := by
  obtain ⟨body, last, rfl⟩ := (List.eq_nil_or_concat' bytes).resolve_left hb
  have hlast : bitAt (body ++ [last]) (8 * (body ++ [last]).length - 1) = bitOf last 7 := by
    have hdiv : (8 * (body ++ [last]).length - 1) / 8 = body.length := by
      rw [List.length_append, List.length_singleton]
      omega
    have hmod : (8 * (body ++ [last]).length - 1) % 8 = 7 := by
      rw [List.length_append, List.length_singleton]
      omega
    rw [bitAt, hdiv, hmod]
    simp
  have hseven : bitOf (checksum body) 7 = false := by
    rw [checksum_eq_foldl]
    exact Checksum.bitOf_foldl_seven (bitOf_zero 7) _
  rw [hlast, ← checksum_eq_foldl]
  constructor
  · intro h
    have hzero := checksum_eq_zero_of_isIntact h
    rw [isIntact_concat, beq_iff_eq] at h
    exact ⟨h ▸ hseven, hzero⟩
  · rintro ⟨htop, hzero⟩
    rw [isIntact_concat, beq_iff_eq, ← UInt8.xor_eq_zero_iff]
    rw [checksum_append, List.foldl_cons, List.foldl_nil, Checksum.lookup_eq_byteStep,
      Checksum.byteStep_eq_foldl] at hzero
    by_contra hne
    refine Checksum.foldl_replicate_ne_zero ?_ hne 8 hzero
    rw [bitOf_xor, hseven, htop, Bool.xor_false]

theorem bits_bitPair {length p q : Nat} (hpq : p < q) (hq : q < 8 * length) :
    bits (bitPair length p q) = List.replicate p false ++ true ::
      (List.replicate (q - p - 1) false ++ true :: List.replicate (8 * length - q - 1) false) := by
  apply List.ext_getElem?
  intro r
  by_cases hr : r < 8 * length
  · have hset : (decide (r = p) ^^ decide (r = q)) = decide (r = p ∨ r = q) := by
      by_cases hp : r = p
      · simp [hp, hpq.ne]
      · simp [hp]
    rw [getElem?_bits _ (by simpa using hr), bitAt_bitPair (by omega) hq, hset]
    grind
  · rw [List.getElem?_eq_none (by rw [length_bits, length_bitPair]; omega),
      List.getElem?_eq_none (by simp; omega)]

/-- Two flipped bits of an intact frame go unnoticed just if the later one is not the unused bit of
the checksum byte and 127 divides their distance. Up to 16 bytes leave no room for that; every
longer frame does. -/
theorem pair_passes_iff {frame : Bytes} (hf : isIntact frame = true) :
    (∀ p q, p < q → q < 8 * frame.length →
      (isIntact (flipAt (flipAt frame p) q) = true ↔
        q ≠ 8 * frame.length - 1 ∧ 127 ∣ q - p)) ∧
    (frame.length ≤ 16 ↔ ∀ p q, p < q → q < 8 * frame.length →
      isIntact (flipAt (flipAt frame p) q) = false) := by
  have hpair : ∀ p q, p < q → q < 8 * frame.length →
      (isIntact (flipAt (flipAt frame p) q) = true ↔
        q ≠ 8 * frame.length - 1 ∧ 127 ∣ q - p) := by
    intro p q hpq hq
    have hne : bitPair frame.length p q ≠ [] := by
      apply List.ne_nil_of_length_pos
      rw [length_bitPair]
      omega
    have hdist : q - p - 1 + 1 = q - p := by omega
    have hp : 8 * frame.length - 1 ≠ p := by omega
    rw [flipAt_flipAt_eq_damage, isIntact_damage hf (length_bitPair _ _ _), isIntact_iff_foldl hne,
      bits_bitPair hpq hq, Checksum.foldl_pair_eq_zero_iff, hdist, length_bitPair,
      bitAt_bitPair (by omega) hq, decide_eq_false hp, Bool.false_xor, decide_eq_false_iff_not, ne_comm]
  refine ⟨hpair, ?_, ?_⟩
  · intro hlen p q hpq hq
    rw [Bool.eq_false_iff, ne_eq, hpair p q hpq hq]
    rintro ⟨htop, hdvd⟩
    -- The one distance that fits leads from the first bit to the last one.
    have hle := Nat.le_of_dvd (by omega) hdvd
    omega
  · intro hall
    by_contra hlong
    have hmiss := (hpair 0 127 (by omega) (by omega)).2 ⟨by omega, by decide⟩
    rw [hall 0 127 (by omega) (by omega)] at hmiss
    exact Bool.noConfusion hmiss

/-- In a frame of 17 bytes one such pair goes unnoticed, and one with the unused bit shows. -/
theorem pair_passes_of_seventeen_bytes :
    isIntact (flipAt (flipAt (Frame.data 1 (List.replicate 14 0x61)).encode 0) 127) = true ∧
      ¬ isIntact (flipAt (flipAt (Frame.data 1 (List.replicate 14 0x61)).encode 8) 135) = true :=
  ⟨((pair_passes_iff (Frame.isIntact_encode _)).1 0 127 (by decide) (by decide)).2
      ⟨by decide, by decide⟩,
    fun h => (((pair_passes_iff (Frame.isIntact_encode _)).1 8 135 (by decide) (by decide)).1 h).1
      rfl⟩

end StopAndWait
