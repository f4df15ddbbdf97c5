/-!
The overall limit of a call. Time is an input: a deadline is set, tested and measured at a given
instant. Limits are whole milliseconds and instants are nanoseconds.
-/
namespace StopAndWait

/-- A length of time. The greatest value stands for no limit. -/
abbrev Millis := UInt64

namespace Millis

def unlimited : Millis := 0xffffffffffffffff

end Millis

abbrev Instant := Nat

def Instant.perMilli : Nat := 1000000

structure Deadline where
  expiry : Option Instant
  deriving DecidableEq, Repr

namespace Deadline

def never : Deadline := ⟨none⟩

def after (limit : Millis) (now : Instant) : Deadline :=
  if limit = Millis.unlimited then never else ⟨some (now + limit.toNat * Instant.perMilli)⟩

def isExpired (d : Deadline) (now : Instant) : Bool :=
  d.expiry.any (· ≤ now)

/-- Whole milliseconds left. A deadline that is still ahead leaves at least one. -/
def remaining (d : Deadline) (now : Instant) : Millis :=
  match d.expiry with
  | none => Millis.unlimited
  | some expiry =>
    if expiry ≤ now then 0 else max 1 (UInt64.ofNat ((expiry - now) / Instant.perMilli))

def clamp (d : Deadline) (wait : Millis) (now : Instant) : Millis :=
  min wait (d.remaining now)

theorem isExpired_of_lt {expiry now : Instant} (h : now < expiry) :
    isExpired ⟨some expiry⟩ now = false :=
  decide_eq_false (Nat.not_le_of_lt h)

@[simp] theorem isExpired_never (now : Instant) : never.isExpired now = false := rfl

@[simp] theorem remaining_never (now : Instant) : never.remaining now = Millis.unlimited := rfl

theorem clamp_never (wait : Millis) (now : Instant) : never.clamp wait now = wait := by
  have hle : wait ≤ Millis.unlimited := by
    rw [UInt64.le_iff_toNat_le]
    exact Nat.le_of_lt_succ wait.toNat_lt
  rw [clamp, remaining_never]
  exact if_pos hle

@[simp] theorem after_unlimited (now : Instant) : after Millis.unlimited now = never := rfl

end Deadline

end StopAndWait
