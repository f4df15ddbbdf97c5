import StopAndWait.Error
import StopAndWait.Time.Deadline

/-!
A dialogue is all that an engine does as its surroundings see it: it asks for reads, writes and
clock readings one at a time, and every answer decides what it asks next. What the link and the
clock answer is no part of it. A dialogue may go round a loop without limit; `view` takes it one
step on.
-/
namespace StopAndWait

inductive Notice
  | consumed (buffer : Bytes)
  -- A whole message was put together, and its last frame answered.
  | completed (message : Bytes)
  deriving DecidableEq, Repr

inductive Request
  -- One buffer from the link, cut to `capacity` bytes, within `timeout`.
  | read (capacity : Nat) (timeout : Millis)
  | write (bytes : Bytes) (timeout : Millis)
  | now
  | note (notice : Notice)
  deriving DecidableEq, Repr

abbrev Request.Answer : Request → Type
  | read _ _ => Except LinkError Bytes
  | write _ _ => Except LinkError Nat
  | now => Instant
  | note _ => Unit

inductive Dialog : Type → Type 1
  | pure {α : Type} (result : α) : Dialog α
  | ask {α : Type} (request : Request) (next : request.Answer → Dialog α) : Dialog α
  -- Go through `round` from `start` on until it ends with a result for `next`.
  | loop {σ β α : Type} (round : σ → Dialog (σ ⊕ β)) (start : σ) (next : β → Dialog α) : Dialog α

namespace Dialog

variable {α β γ σ : Type}

def bind {α β : Type} : Dialog α → (α → Dialog β) → Dialog β
  | pure result, f => f result
  | ask request next, f => ask request fun answer => (next answer).bind f
  | loop round start next, f => loop round start fun result => (next result).bind f

instance : Monad Dialog where
  pure := pure
  bind := bind

@[simp] theorem pure_bind (a : α) (f : α → Dialog β) : (pure a).bind f = f a := rfl

@[simp] theorem ask_bind (q : Request) (k : q.Answer → Dialog α) (f : α → Dialog β) :
    (ask q k).bind f = ask q fun answer => (k answer).bind f := rfl

@[simp] theorem loop_bind (round : σ → Dialog (σ ⊕ γ)) (start : σ) (k : γ → Dialog α)
    (f : α → Dialog β) :
    (loop round start k).bind f = loop round start fun result => (k result).bind f := rfl

@[simp] theorem monad_pure (a : α) : (Pure.pure a : Dialog α) = pure a := rfl

@[simp] theorem monad_bind (d : Dialog α) (f : α → Dialog β) : d >>= f = d.bind f := rfl

@[simp] theorem bind_pure (d : Dialog α) : d.bind pure = d := by
  induction d with
  | pure => rfl
  | ask q k ih => simp [ih]
  | loop round start k _ ih => simp [ih]

theorem bind_assoc (d : Dialog α) (f : α → Dialog β) (g : β → Dialog γ) :
    (d.bind f).bind g = d.bind fun a => (f a).bind g := by
  induction d with
  | pure => rfl
  | ask q k ih => simp [ih]
  | loop round start k _ ih => simp [ih]

instance : LawfulMonad Dialog :=
  LawfulMonad.mk' Dialog (fun d => bind_pure d) (fun _ _ => rfl) (fun d f g => bind_assoc d f g)

def read (capacity : Nat) (timeout : Millis) : Dialog (Except LinkError Bytes) :=
  ask (.read capacity timeout) pure

def write (bytes : Bytes) (timeout : Millis) : Dialog (Except LinkError Nat) :=
  ask (.write bytes timeout) pure

def now : Dialog Instant := ask .now pure

def note (notice : Notice) : Dialog Unit := ask (.note notice) pure

def iterate (round : σ → Dialog (σ ⊕ α)) (start : σ) : Dialog α :=
  loop round start pure

inductive View (α : Type) : Type 1
  | done (result : α)
  | ask (request : Request) (next : request.Answer → Dialog α)
  -- One more round begins: nothing shows from outside.
  | silent (next : Dialog α)

def view {α : Type} : Dialog α → View α
  | pure result => .done result
  | ask request next => .ask request next
  | loop round start next => .silent <| (round start).bind fun
    | .inl again => loop round again next
    | .inr result => next result

end Dialog

end StopAndWait
