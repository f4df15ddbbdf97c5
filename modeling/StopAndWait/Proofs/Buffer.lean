import StopAndWait.Engine.Calls

/-!
The caller's buffer. What a read does depends on the size of the buffer and not on what is in it,
and nothing but a message that is handed out changes it.
-/
namespace StopAndWait

namespace Exchange

def told (out : Bytes) : Except Error Bytes × Exchange → (Except Error Nat × Exchange) × Bytes
  | (.ok bytes, x) => ((.ok bytes.length, x), copyInto out bytes)
  | (.error error, x) => ((.error error, x), out)

theorem deliverInto_eq (x : Exchange) (out : Bytes) :
    x.deliverInto out = told out (x.deliver out.length) := by
  rw [deliver_eq, deliverInto]
  split <;> rfl

end Exchange

namespace Engine

open Dialog

variable {e : Engine}

/-- The exchange of a read, by what it brings. -/
def readExchange (e : Engine) (room : Nat) (deadline : Deadline) : Dialog (End Delivery) := do
  match ← e.resolveMode .receiver .read deadline with
  | (.error error, e) => return (.error error, e)
  | (.ok (), e) => match ← e.receive deadline with
    | (.error error, e) => return (.error error, e)
    | (.ok (.switched _), e) => return (.ok .handover, e)
    | (.ok .message, e) =>
      let (delivered, exchange) := e.exchange.deliver room
      return (delivered.map .message, { e with exchange })

def told (out : Bytes) : End Delivery → End Receipt × Bytes
  | (.ok (.message bytes), e) => ((.ok (.message bytes.length), e), Exchange.copyInto out bytes)
  | (.ok .handover, e) => ((.ok .handover, e), out)
  | (.error error, e) => ((.error error, e), out)

/-- The caller finds what was brought. -/
theorem delivery_told (out : Bytes) (ended : End Delivery) :
    ((told out ended).1.1.map (·.delivery (told out ended).2), (told out ended).1.2) = ended := by
  match ended with
  | (.ok (.message bytes), e) => simp [told, Except.map, Receipt.delivery]
  | (.ok .handover, e) => rfl
  | (.error error, e) => rfl

/-- A failure leaves the buffer alone. -/
theorem eq_of_told_eq_error {out out' : Bytes} {ended : End Delivery} {error : Error}
    {e' : Engine} (h : told out ended = ((.error error, e'), out')) :
    ended = (.error error, e') ∧ out' = out := by
  match ended with
  | (.ok (.message bytes), e) => cases h
  | (.ok .handover, e) => cases h
  | (.error error, e) =>
    cases h
    exact ⟨rfl, rfl⟩

theorem told_finish (view : Error → Error) (out : Bytes) (ended : End Delivery) :
    told out (finish view ended) = (finish view (told out ended).1, (told out ended).2) := by
  match ended with
  | (.ok (.message bytes), e) => rfl
  | (.ok .handover, e) => rfl
  | (.error error, e) => rfl

theorem readExchangeInto_eq (e : Engine) (out : Bytes) (deadline : Deadline) :
    e.readExchangeInto out deadline =
      (e.readExchange out.length deadline).bind fun ended => .pure (told out ended) := by
  unfold readExchangeInto readExchange
  simp only [monad_bind, bind_assoc]
  congr 1
  funext resolved
  obtain ⟨result, e₁⟩ := resolved
  cases result with
  | error error => rfl
  | ok =>
    simp only [bind_assoc]
    congr 1
    funext received
    obtain ⟨result, e₂⟩ := received
    cases result with
    | error error => rfl
    | ok what =>
      cases what with
      | switched mode => rfl
      | message =>
        simp only [Exchange.deliverInto_eq]
        obtain ⟨delivered, exchange⟩ := e₂.exchange.deliver out.length
        cases delivered <;> rfl

theorem readInto_of_empty (hp : e.exchange.pending = []) (out : Bytes) (limit : Millis) :
    e.readInto out limit = (Deadline.start limit).bind fun deadline =>
      (e.reset.readExchange out.length deadline).bind fun ended =>
        .pure (told out (finish Error.whileReading ended)) := by
  unfold readInto
  simp only [Exchange.deliverPendingInto?, hp, readExchangeInto_eq, monad_bind, monad_pure,
    bind_assoc, pure_bind, told_finish]

/-- A held message is copied out where there is room for it, without a word to link or clock. -/
theorem readInto_of_pending {oldest : Bytes} {rest : List Bytes}
    (hp : e.exchange.pending = oldest :: rest) (out : Bytes) (limit : Millis) :
    e.readInto out limit =
      if out.length < oldest.length then
        .pure ((.error (.bufferOverflow oldest.length out.length), e), out)
      else .pure ((.ok (.message oldest.length),
        { e with exchange := { e.exchange with pending := rest } }),
        Exchange.copyInto out oldest) := by
  unfold readInto
  simp only [Exchange.deliverPendingInto?, hp]
  by_cases hroom : out.length < oldest.length
  · rw [if_pos hroom, if_pos hroom]
    rfl
  · rw [if_neg hroom, if_neg hroom]
    rfl

/-- Without a held message a read runs its exchange between two fresh starts. -/
theorem read_of_empty (hp : e.exchange.pending = []) (room : Nat) (limit : Millis) :
    e.read room limit = (Deadline.start limit).bind fun deadline =>
      (e.reset.readExchange room deadline).bind fun ended =>
        .pure (finish Error.whileReading ended) := by
  unfold read
  simp only [readInto_of_empty hp, monad_bind, monad_pure, bind_assoc, pure_bind, delivery_told,
    List.length_replicate]

theorem read_of_pending {oldest : Bytes} {rest : List Bytes}
    (hp : e.exchange.pending = oldest :: rest) (room : Nat) (limit : Millis) :
    e.read room limit =
      if room < oldest.length then .pure (.error (.bufferOverflow oldest.length room), e)
      else .pure (.ok (.message oldest),
        { e with exchange := { e.exchange with pending := rest } }) := by
  unfold read
  simp only [readInto_of_pending hp, List.length_replicate]
  split
  · rfl
  · simp [Except.map, Receipt.delivery]

/-- Into any buffer of a size the same is read. -/
theorem readInto_eq (e : Engine) (out : Bytes) (limit : Millis) :
    e.readInto out limit =
      (e.read out.length limit).bind fun ended => .pure (told out ended) := by
  cases hp : e.exchange.pending with
  | nil =>
    simp only [readInto_of_empty hp, read_of_empty hp, bind_assoc, pure_bind]
  | cons oldest rest =>
    rw [readInto_of_pending hp, read_of_pending hp]
    split <;> rfl

end Engine

end StopAndWait
