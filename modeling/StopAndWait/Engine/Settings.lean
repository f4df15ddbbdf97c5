import StopAndWait.Error
import StopAndWait.Role
import StopAndWait.Time.Backoff

namespace StopAndWait

structure SendSettings where
  -- The size of the largest data frame.
  mtu : Nat := 1024
  retry : RetryPolicy := {}
  deriving DecidableEq, Repr

namespace SendSettings

def withMtu (s : SendSettings) (mtu : Nat) : SendSettings := { s with mtu }

def withAttempts (s : SendSettings) (attempts : UInt32) : SendSettings :=
  { s with retry.maxAttempts := attempts }

def withAckTimeout (s : SendSettings) (timeout : Millis) : SendSettings :=
  { s with retry.ackTimeout := timeout }

def withBackoff (s : SendSettings) (multiplier : UInt64) (ceiling : Millis) : SendSettings :=
  { s with retry.multiplier := multiplier, retry.maxAckTimeout := ceiling }

end SendSettings

structure ReceiveSettings where
  -- The room to keep ready for a message. It bounds nothing.
  reserve : Nat := 3 * 1024 * 1024
  -- How long writing a reply may take.
  replyTimeout : Millis := 200
  deriving DecidableEq, Repr

namespace ReceiveSettings

def withReserve (s : ReceiveSettings) (reserve : Nat) : ReceiveSettings := { s with reserve }

def withReplyTimeout (s : ReceiveSettings) (timeout : Millis) : ReceiveSettings :=
  { s with replyTimeout := timeout }

end ReceiveSettings

structure Settings where
  switching : Switching := .auto
  send : SendSettings := {}
  receive : ReceiveSettings := {}
  deriving DecidableEq, Repr

namespace Settings

def maxMtu : Nat := 65535

def withSwitching (s : Settings) (switching : Switching) : Settings := { s with switching }

def withMtu (s : Settings) (mtu : Nat) : Settings := { s with send := s.send.withMtu mtu }

def withReserve (s : Settings) (reserve : Nat) : Settings :=
  { s with receive := s.receive.withReserve reserve }

def withAttempts (s : Settings) (attempts : UInt32) : Settings :=
  { s with send := s.send.withAttempts attempts }

-- Replies get the same time as the wait for an acknowledgment.
def withAckTimeout (s : Settings) (timeout : Millis) : Settings :=
  { s with
    send := s.send.withAckTimeout timeout
    receive := s.receive.withReplyTimeout timeout }

def withBackoff (s : Settings) (multiplier : UInt64) (ceiling : Millis) : Settings :=
  { s with send := s.send.withBackoff multiplier ceiling }

def fault? (s : Settings) : Option ParameterFault :=
  if s.send.mtu ≤ Frame.dataOverhead ∨ maxMtu < s.send.mtu then
    some (.mtuOutOfRange (Frame.dataOverhead + 1) maxMtu s.send.mtu)
  else if s.send.retry.maxAttempts = 0 then some .noAttempts
  else if s.send.retry.ackTimeout = 0 ∨ s.receive.replyTimeout = 0 then some .noTimeout
  else if s.send.retry.multiplier = 0 then some .noMultiplier
  else none

theorem fault?_eq_none_iff (s : Settings) :
    s.fault? = none ↔ Frame.dataOverhead < s.send.mtu ∧ s.send.mtu ≤ maxMtu ∧
      s.send.retry.maxAttempts ≠ 0 ∧ s.send.retry.ackTimeout ≠ 0 ∧ s.receive.replyTimeout ≠ 0 ∧
      s.send.retry.multiplier ≠ 0 := by
  unfold fault?
  grind

end Settings

structure Config extends Settings where
  faultless : toSettings.fault? = none

namespace Config

instance : Inhabited Config := ⟨{}, rfl⟩

def capacity (c : Config) : Nat := c.send.mtu - Frame.dataOverhead

theorem mtu_bounds (c : Config) :
    Frame.dataOverhead < c.send.mtu ∧ c.send.mtu ≤ Settings.maxMtu := by
  obtain ⟨hlow, hhigh, -⟩ := (Settings.fault?_eq_none_iff _).1 c.faultless
  exact ⟨hlow, hhigh⟩

theorem capacity_pos (c : Config) : 0 < c.capacity :=
  Nat.sub_pos_of_lt c.mtu_bounds.1

end Config

def Settings.check (s : Settings) : Except Error Config :=
  match h : s.fault? with
  | none => .ok ⟨s, h⟩
  | some fault => .error (.incorrectParameter fault)

/-- Settings are accepted as they are. -/
theorem Settings.toSettings_of_check {settings : Settings} {config : Config}
    (h : settings.check = .ok config) : config.toSettings = settings := by
  unfold check at h
  split at h
  · cases h
    rfl
  · cases h

end StopAndWait
