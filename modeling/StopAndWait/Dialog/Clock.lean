import StopAndWait.Dialog.Basic

namespace StopAndWait

namespace Deadline

variable {α : Type}

def consult (d : Deadline) (question : Instant → α) : Dialog α :=
  match d.expiry with
  | none => return question 0
  | some _ => return question (← Dialog.now)

def start (limit : Millis) : Dialog Deadline :=
  if limit = Millis.unlimited then return never else return after limit (← Dialog.now)

def hasExpired (d : Deadline) : Dialog Bool := d.consult d.isExpired

def timeLeft (d : Deadline) : Dialog Millis := d.consult d.remaining

def clampNow (d : Deadline) (wait : Millis) : Dialog Millis := d.consult (d.clamp wait)

@[simp] theorem start_unlimited : start Millis.unlimited = .pure never := rfl

@[simp] theorem hasExpired_never : never.hasExpired = .pure false := rfl

@[simp] theorem timeLeft_never : never.timeLeft = .pure Millis.unlimited := rfl

@[simp] theorem clampNow_never (wait : Millis) : never.clampNow wait = .pure wait :=
  congrArg Dialog.pure (clamp_never wait 0)

end Deadline

end StopAndWait
