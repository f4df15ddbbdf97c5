import StopAndWait.Time.Deadline

namespace StopAndWait

def satMul (a b : UInt64) : UInt64 :=
  if a.toNat * b.toNat < UInt64.size then a * b else 0xffffffffffffffff

def satScale (factor : UInt64) : Nat → UInt64 → UInt64
  | 0, acc => acc
  | times + 1, acc =>
    let next := satMul acc factor
    -- A product that changes nothing will not change anything later.
    if next = acc then acc else satScale factor times next

def satPow (factor : UInt64) (exponent : Nat) : UInt64 := satScale factor exponent 1

/-- The wait of an attempt, counted from zero: `base * multiplier ^ attempt`, at most `ceiling`. -/
def backoff (attempt : UInt32) (base : Millis) (multiplier : UInt64) (ceiling : Millis) : Millis :=
  min (satMul base (satPow multiplier attempt.toNat)) ceiling

structure RetryPolicy where
  maxAttempts : UInt32 := 5
  ackTimeout : Millis := 200
  -- The growth of the wait from attempt to attempt; one keeps it.
  multiplier : UInt64 := 1
  maxAckTimeout : Millis := 2000
  deriving DecidableEq, Repr

structure Retransmission where
  attempt : UInt32 := 0
  deriving DecidableEq, Repr

namespace Retransmission

def record (r : Retransmission) : Retransmission := ⟨r.attempt + 1⟩

def nextTimeout (r : Retransmission) (policy : RetryPolicy) : Millis :=
  backoff r.attempt policy.ackTimeout policy.multiplier policy.maxAckTimeout

def isExhausted (r : Retransmission) (policy : RetryPolicy) : Bool :=
  policy.maxAttempts ≤ r.attempt

def remaining (r : Retransmission) (policy : RetryPolicy) : Nat :=
  policy.maxAttempts.toNat - r.attempt.toNat

theorem remaining_eq_zero_iff (r : Retransmission) (policy : RetryPolicy) :
    r.remaining policy = 0 ↔ r.isExhausted policy = true := by
  simp only [remaining, isExhausted, decide_eq_true_eq, UInt32.le_iff_toNat_le]
  omega

end Retransmission

end StopAndWait
