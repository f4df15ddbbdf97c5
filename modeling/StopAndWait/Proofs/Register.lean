import Mathlib.Tactic.ByContra
import StopAndWait.Wire.Checksum

namespace StopAndWait

def bitOf (byte : UInt8) (i : Nat) : Bool := byte.toBitVec.getLsbD i

def bitsOf (byte : UInt8) : List Bool := (List.range 8).map (bitOf byte)

def bits (bytes : Bytes) : List Bool := bytes.flatMap bitsOf

def bitAt (bytes : Bytes) (p : Nat) : Bool := bitOf (bytes.getD (p / 8) 0) (p % 8)

theorem eq_of_bitOf_eq {a b : UInt8} (h : ∀ i, i < 8 → bitOf a i = bitOf b i) : a = b := by
  apply UInt8.toBitVec_inj.1
  apply BitVec.eq_of_getLsbD_eq
  intro i hi
  exact h i hi

theorem bitOf_of_le (byte : UInt8) {i : Nat} (h : 8 ≤ i) : bitOf byte i = false :=
  BitVec.getLsbD_of_ge byte.toBitVec i h

theorem bitOf_xor (a b : UInt8) (i : Nat) : bitOf (a ^^^ b) i = (bitOf a i ^^ bitOf b i) := by
  simp only [bitOf, UInt8.toBitVec_xor, BitVec.getLsbD_xor]

theorem bitOf_zero (i : Nat) : bitOf 0 i = false := by
  simp [bitOf]

theorem length_bits (bytes : Bytes) : (bits bytes).length = 8 * bytes.length := by
  induction bytes with
  | nil => rfl
  | cons byte rest ih =>
    have hbyte : (bitsOf byte).length = 8 := by simp [bitsOf]
    simp only [bits, List.flatMap_cons, List.length_append, List.length_cons] at ih ⊢
    omega

theorem getElem?_bits (bytes : Bytes) {p : Nat} (h : p < 8 * bytes.length) :
    (bits bytes)[p]? = some (bitAt bytes p) := by
  induction bytes generalizing p with
  | nil => simp at h
  | cons byte rest ih =>
    have hbyte : (bitsOf byte).length = 8 := by simp [bitsOf]
    have hbits : bits (byte :: rest) = bitsOf byte ++ bits rest := rfl
    rw [hbits]
    by_cases hp : p < 8
    · rw [List.getElem?_append_left (by omega)]
      have hdiv : p / 8 = 0 := by omega
      have hmod : p % 8 = p := by omega
      simp [bitsOf, bitAt, hp, hdiv, hmod]
    · rw [List.getElem?_append_right (by omega), hbyte]
      simp only [List.length_cons] at h
      rw [ih (by omega)]
      have hdiv : p / 8 = (p - 8) / 8 + 1 := by omega
      have hmod : p % 8 = (p - 8) % 8 := by omega
      simp only [bitAt, hdiv, hmod, List.getD_cons_succ]

namespace Checksum

/-- Take one bit into the register: where it differs from the lowest bit of the register, `x^7` is
taken for `x^3 + 1`. -/
def feed (r : UInt8) (bit : Bool) : UInt8 :=
  (r >>> 1) ^^^ (if bitOf r 0 ^^ bit then 0x48 else 0)

theorem bitOf_shiftRight_one (r : UInt8) (i : Nat) : bitOf (r >>> 1) i = bitOf r (i + 1) := by
  have h : (r >>> 1).toBitVec = r.toBitVec >>> 1 := rfl
  simp only [bitOf, h, BitVec.getLsbD_ushiftRight, Nat.add_comm]

theorem bitOf_feed (r : UInt8) (bit : Bool) (i : Nat) :
    bitOf (feed r bit) i = (bitOf r (i + 1) ^^ ((bitOf r 0 ^^ bit) && bitOf 0x48 i)) := by
  unfold feed
  rw [bitOf_xor, bitOf_shiftRight_one]
  cases bitOf r 0 ^^ bit with
  | true => rfl
  | false => exact congrArg _ (bitOf_zero i)

theorem bitOf_feed_seven (r : UInt8) (bit : Bool) : bitOf (feed r bit) 7 = false := by
  have hlast : bitOf 0x48 7 = false := rfl
  rw [bitOf_feed, hlast, Bool.and_false, Bool.xor_false]
  exact bitOf_of_le r (Nat.le_refl 8)

@[simp] theorem feed_zero : feed 0 false = 0 := rfl

/-- The step is linear. -/
theorem feed_xor (r s : UInt8) (a b : Bool) :
    feed (r ^^^ s) (a ^^ b) = feed r a ^^^ feed s b := by
  apply eq_of_bitOf_eq
  intro i _
  simp only [bitOf_xor, bitOf_feed]
  cases bitOf 0x48 i with
  | false =>
    simp only [Bool.and_false, Bool.xor_false]
  | true =>
    simp only [Bool.and_true, Bool.xor_assoc, Bool.xor_left_comm]

theorem and_one_eq_zero_iff (r : UInt8) : r &&& 1 = 0 ↔ bitOf r 0 = false := by
  have h : (r &&& 1).toBitVec = BitVec.setWidth 8 (BitVec.ofBool (bitOf r 0)) := by
    rw [UInt8.toBitVec_and]
    exact BitVec.and_one_eq_setWidth_ofBool_getLsbD
  rw [← UInt8.toBitVec_inj, h]
  cases bitOf r 0 <;> decide

/-- A step of the division takes a zero into the register. -/
theorem bitStep_eq_feed (r : UInt8) : bitStep r = feed r false := by
  unfold bitStep feed
  rw [Bool.xor_false]
  by_cases h : bitOf r 0 = false
  · rw [if_pos ((and_one_eq_zero_iff r).2 h), h]
    exact UInt8.xor_zero.symm
  · rw [if_neg (mt (and_one_eq_zero_iff r).1 h), if_pos (by simpa using h)]
    -- Half of the generator: its lowest bit cancels that of the register.
    have hhalf : (0x48 : UInt8) = generator >>> 1 := rfl
    rw [hhalf]
    apply eq_of_bitOf_eq
    intro i _
    simp only [bitOf_xor, bitOf_shiftRight_one]

theorem byteStep_eq_foldl (r : UInt8) :
    byteStep r = (List.replicate 8 false).foldl feed r := by
  simp only [byteStep, bitStep_eq_feed]
  rfl

theorem byteStep_xor (r s : UInt8) : byteStep (r ^^^ s) = byteStep r ^^^ byteStep s := by
  have hstep (r s : UInt8) : bitStep (r ^^^ s) = bitStep r ^^^ bitStep s := by
    simp only [bitStep_eq_feed]
    exact feed_xor r s false false
  simp only [byteStep, hstep]

/-- Bits mixed into the register beforehand come down to its low end one by one, just when they are
due. -/
theorem bitOf_foldl_replicate (r byte : UInt8) (n i : Nat) :
    bitOf ((List.replicate n false).foldl feed (r ^^^ byte)) i =
      (bitOf (((List.range n).map (bitOf byte)).foldl feed r) i ^^ bitOf byte (i + n)) := by
  induction n generalizing i with
  | zero => exact bitOf_xor r byte i
  | succ n ih =>
    rw [List.replicate_succ', List.range_succ, List.map_append, List.foldl_append,
      List.foldl_append]
    simp only [List.foldl_cons, List.foldl_nil, List.map_cons, List.map_nil, bitOf_feed, ih,
      Bool.xor_false, Nat.zero_add]
    have hi : i + 1 + n = i + (n + 1) := by omega
    rw [hi, Bool.xor_assoc, Bool.xor_assoc, Bool.xor_comm (bitOf byte _)]

/-- The table takes the eight bits of a byte at once. -/
theorem lookup_eq_foldl (r byte : UInt8) : lookup (r ^^^ byte) = (bitsOf byte).foldl feed r := by
  rw [lookup_eq_byteStep, byteStep_eq_foldl]
  apply eq_of_bitOf_eq
  intro i _
  rw [bitOf_foldl_replicate, bitOf_of_le byte (Nat.le_add_left 8 i), Bool.xor_false]
  rfl

end Checksum

open Checksum

/-- The checksum is what the bits of the buffer leave in an empty register. -/
theorem checksum_eq_foldl (bytes : Bytes) : checksum bytes = (bits bytes).foldl feed 0 := by
  unfold checksum
  generalize (0 : UInt8) = r
  induction bytes generalizing r with
  | nil => rfl
  | cons byte rest ih =>
    have hbits : bits (byte :: rest) = bitsOf byte ++ bits rest := rfl
    rw [List.foldl_cons, lookup_eq_foldl, ih, hbits, List.foldl_append]

/-- The checksum is linear. -/
theorem checksum_zipWith_xor {xs ys : Bytes} (h : xs.length = ys.length) :
    checksum (List.zipWith (· ^^^ ·) xs ys) = checksum xs ^^^ checksum ys := by
  have hfold : ∀ r s : UInt8,
      (List.zipWith (· ^^^ ·) xs ys).foldl (fun r b => lookup (r ^^^ b)) (r ^^^ s) =
        xs.foldl (fun r b => lookup (r ^^^ b)) r ^^^ ys.foldl (fun r b => lookup (r ^^^ b)) s := by
    induction xs generalizing ys with
    | nil =>
      intro r s
      rw [List.eq_nil_of_length_eq_zero h.symm]
      rfl
    | cons x xs ih =>
      intro r s
      match ys, h with
      | y :: ys, h =>
        have hmix : r ^^^ s ^^^ (x ^^^ y) = r ^^^ x ^^^ (s ^^^ y) := by
          rw [UInt8.xor_assoc, UInt8.xor_assoc, ← UInt8.xor_assoc s, UInt8.xor_comm s x,
            UInt8.xor_assoc x]
        simp only [List.zipWith_cons_cons, List.foldl_cons, lookup_eq_byteStep] at ih ⊢
        rw [hmix, byteStep_xor]
        exact ih (Nat.succ.inj h) _ _
  exact hfold 0 0

namespace Checksum

theorem foldl_replicate_zero (n : Nat) : (List.replicate n false).foldl feed 0 = 0 := by
  induction n with
  | zero => rfl
  | succ n ih => rw [List.replicate_succ, List.foldl_cons, feed_zero, ih]

theorem bitOf_foldl_seven {r : UInt8} (hr : bitOf r 7 = false) (input : List Bool) :
    bitOf (input.foldl feed r) 7 = false := by
  induction input generalizing r with
  | nil => exact hr
  | cons bit rest ih => exact ih (bitOf_feed_seven r bit)

/-- What a few bits bring to zero holds just these bits. -/
theorem bitOf_of_foldl_eq_zero {input : List Bool} (hl : input.length ≤ 7) {r : UInt8}
    (hr : bitOf r 7 = false) (h : input.foldl feed r = 0) (i : Nat) :
    bitOf r i = input.getD i false := by
  induction input generalizing r i with
  | nil =>
    rw [show r = 0 from h]
    exact bitOf_zero i
  | cons bit rest ih =>
    simp only [List.length_cons] at hl
    have hrest := ih (by omega) (bitOf_feed_seven r bit) h
    -- The top bit of the register tells that the bit taken in was its lowest one.
    have hlow : bitOf r 0 = bit := by
      have htop := hrest 6
      have hsix : bitOf 0x48 6 = true := rfl
      rw [bitOf_feed, hr, hsix, Bool.and_true, Bool.false_xor,
        List.getD_eq_getElem?_getD, List.getElem?_eq_none (by omega)] at htop
      simpa using htop
    cases i with
    | zero => exact hlow
    | succ i =>
      have hi := hrest i
      rw [bitOf_feed, hlow, Bool.xor_self, Bool.false_and, Bool.xor_false] at hi
      exact hi

/-- Zeros never lead back to zero. -/
theorem foldl_replicate_ne_zero {r : UInt8} (hr : bitOf r 7 = false) (h : r ≠ 0) (n : Nat) :
    (List.replicate n false).foldl feed r ≠ 0 := by
  induction n generalizing r with
  | zero => exact h
  | succ n ih =>
    rw [List.replicate_succ, List.foldl_cons]
    apply ih (bitOf_feed_seven r false)
    intro hfeed
    have hone : [false].foldl feed r = 0 := hfeed
    apply h
    apply eq_of_bitOf_eq
    intro i _
    rw [bitOf_of_foldl_eq_zero (by decide) hr hone, bitOf_zero]
    cases i <;> rfl

theorem eq_replicate_of_getD {input : List Bool} (h : ∀ p, input.getD p false = false) :
    input = List.replicate input.length false := by
  apply List.eq_replicate_of_mem
  intro bit hbit
  obtain ⟨p, hp⟩ := List.mem_iff_getElem?.1 hbit
  simpa [hp] using h p

/-- Bits that leave an empty register empty are all zero, if those that are set lie within seven
positions. -/
theorem getD_eq_false_of_foldl_eq_zero {input : List Bool} {first : Nat}
    (hb : ∀ p, input.getD p false = true → first ≤ p ∧ p < first + 7)
    (h : input.foldl feed 0 = 0) (p : Nat) : input.getD p false = false := by
  let window := (input.drop first).take 7
  let after := (input.drop first).drop 7
  have hbefore : ∀ p, (input.take first).getD p false = false := by
    intro p
    by_contra hset
    rw [List.getD_eq_getElem?_getD, List.getElem?_take] at hset
    split at hset
    · have hp := hb p (by simpa using hset)
      omega
    · exact hset rfl
  have hafter : ∀ p, after.getD p false = false := by
    intro p
    by_contra hset
    rw [List.getD_eq_getElem?_getD, List.getElem?_drop, List.getElem?_drop] at hset
    have hp := hb (first + (7 + p)) (by simpa using hset)
    omega
  have hsplit : input = input.take first ++ (window ++ after) := by
    rw [List.take_append_drop, List.take_append_drop]
  -- The register is still empty before the window, and empty again behind it.
  have hwindow : window.foldl feed 0 = 0 := by
    rw [hsplit, List.foldl_append, List.foldl_append, eq_replicate_of_getD hbefore,
      foldl_replicate_zero, eq_replicate_of_getD hafter] at h
    by_contra hne
    exact foldl_replicate_ne_zero (bitOf_foldl_seven (bitOf_zero 7) window) hne _ h
  by_contra hset
  obtain ⟨hlow, hhigh⟩ := hb p (by simpa using hset)
  have hbit := bitOf_of_foldl_eq_zero (List.length_take_le 7 _) (bitOf_zero 7) hwindow (p - first)
  rw [bitOf_zero, List.getD_eq_getElem?_getD, List.getElem?_take_of_lt (by omega),
    List.getElem?_drop, ← List.getD_eq_getElem?_getD, Nat.add_sub_cancel' hlow] at hbit
  exact hset hbit.symm

end Checksum

end StopAndWait
