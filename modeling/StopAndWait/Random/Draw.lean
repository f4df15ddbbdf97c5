import StopAndWait.Random.ChaCha
import StopAndWait.Random.Source

namespace StopAndWait

namespace Generator

/-- Certainty needs no draw. Any other probability is taken in units of `2^-64`, rounded down. -/
def event (p : Float) (g : Generator) : Option (Bool × Generator) :=
  if p.isNaN ∨ p < 0 ∨ 1 < p then none
  else if p < 1 then
    let (v, g) := g.doubleWord
    some (v < (p * 18446744073709551616).toUInt64, g)
  else some (true, g)

/-- Whether a draw may decide a number below `bound`. Of the draws that may, each number has
equally many. -/
def isFair (bound : Nat) (v : UInt64) : Bool :=
  v.toNat * bound % UInt64.size < bound <<< (63 - bound.log2)

def belowWithin (bound : Nat) : (tries : Nat) → Generator → Nat × Generator
  | 0, g =>
    let (v, g) := g.doubleWord
    (v.toNat * bound / UInt64.size, g)
  | tries + 1, g =>
    let (v, g) := g.doubleWord
    if isFair bound v then (v.toNat * bound / UInt64.size, g) else belowWithin bound tries g

-- There are `2^64` blocks of eight double words. After them the same words come again, so that a
-- stream without a fair draw among them has none at all.
def period : Nat := 8 * UInt64.size

def below (bound : Nat) (g : Generator) : Nat × Generator := belowWithin bound period g

def bit (g : Generator) : UInt8 × Generator :=
  let (w, g) := g.word
  ((w >>> 29).toUInt8, g)

instance : RandomSource Generator := ⟨ofSeed, event, below, bit⟩

theorem belowWithin_lt (bound tries : Nat) (hb : 0 < bound) (g : Generator) :
    (belowWithin bound tries g).1 < bound := by
  have h (v : UInt64) : v.toNat * bound / UInt64.size < bound :=
    Nat.div_lt_of_lt_mul (Nat.mul_lt_mul_of_pos_right v.toNat_lt_size hb)
  induction tries generalizing g with
  | zero => exact h _
  | succ tries ih =>
    simp only [belowWithin]
    split
    · exact h _
    · exact ih _

theorem bit_lt (g : Generator) : g.bit.1 < 8 := by
  have hshift : (g.word.1 >>> 29).toNat = g.word.1.toNat / 2 ^ 29 := by
    rw [UInt32.toNat_shiftRight, Nat.shiftRight_eq_div_pow]
    rfl
  have hword := g.word.1.toNat_lt
  have hbit : g.bit.1.toNat = (g.word.1 >>> 29).toNat % 2 ^ 8 := UInt32.toNat_toUInt8 _
  have hlimit : (8 : UInt8).toNat = 8 := rfl
  rw [UInt8.lt_iff_toNat_lt, hbit, hshift, hlimit]
  omega

theorem exists_event {p : Float} (hp : IsProbability p) (g : Generator) :
    ∃ happens g', g.event p = some (happens, g') := by
  obtain ⟨hnumber, hlow, hhigh⟩ := hp
  unfold event
  rw [if_neg (not_or.2 ⟨Bool.eq_false_iff.1 hnumber, not_or.2 ⟨hlow, hhigh⟩⟩)]
  split
  · exact ⟨_, _, rfl⟩
  · exact ⟨true, g, rfl⟩

theorem laws : RandomSource.Laws Generator where
  exists_event _ g hp := exists_event hp g
  below_lt bound g hb := belowWithin_lt bound period hb g
  bit_lt := bit_lt

end Generator

end StopAndWait
