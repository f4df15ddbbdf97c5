import StopAndWait.Proofs.Attempts
import StopAndWait.Proofs.Growth

namespace StopAndWait

open Dialog

namespace Transmission

variable {frame : Bytes} {policy : RetryPolicy} {deadline : Deadline}

theorem loopless_attempt (timeout : Millis) :
    Honours .loopless (fun _ _ => True) () (attempt frame timeout) := by
  refine honours_ask trivial fun written => ?_
  match written with
  | .error e => exact honours_pure trivial
  | .ok n =>
    by_cases hn : n = frame.length
    · simp only [Dialog.pure_bind, if_pos hn]
      refine honours_ask trivial fun answer => ?_
      match answer with
      | .ok bytes => exact honours_pure trivial
      | .error .timeout | .error .closed | .error (.system _) => exact honours_pure trivial
    · simp only [Dialog.pure_bind, if_neg hn]
      exact honours_pure trivial

theorem loopless_attempts (allowed : Nat) (r : Retransmission) :
    Honours .loopless (fun _ _ => True) () (attempts frame policy deadline allowed r) := by
  induction allowed generalizing r with
  | zero =>
    refine (loopless_consult deadline deadline.isExpired).bind fun _ expired _ => ?_
    cases expired <;> exact honours_pure trivial
  | succ allowed ih =>
    refine (loopless_consult deadline deadline.isExpired).bind fun _ expired _ => ?_
    cases expired with
    | true => exact honours_pure trivial
    | false =>
      refine (loopless_consult deadline _).bind fun _ timeout _ => ?_
      refine (loopless_attempt timeout).bind fun _ acked _ => ?_
      cases acked with
      | true => exact honours_pure trivial
      | false => exact ih r.record

/-- However it is answered, the sending of a frame comes to an end. -/
theorem exists_yields_sendFrame (frame : Bytes) (policy : RetryPolicy) (deadline : Deadline)
    (answers : Surroundings) : ∃ log result,
      (sendFrame frame policy deadline).Yields log result ∧ answers.Answer [] log :=
  (loopless_attempts _ {}).exists_yields_of_loopless answers []

/-- Without a limit the waits are those of the policy, as if there were no greatest number. -/
theorem Timed.toNat_timeout {block : List Attempt} (h : Timed policy .never {} block) {i : Nat}
    {a : Attempt} (ha : block[i]? = some a) :
    a.timeout.toNat = min (policy.ackTimeout.toNat * policy.multiplier.toNat ^ i)
      policy.maxAckTimeout.toNat := by
  obtain ⟨r, hr, instant, hwait⟩ := h i a ha
  have hi : r.attempt.toNat = i := by simpa using hr
  rw [hwait, Deadline.clamp_never, Retransmission.nextTimeout, toNat_backoff, hi]

namespace Tries

variable {allowed : Nat} {block : List Attempt} {acked : Bool}

/-- The first attempt that succeeds is the last one made. -/
theorem length_of_succeeds (h : Tries frame allowed block acked) {i : Nat} {a : Attempt}
    (ha : block[i]? = some a) (hs : a.Succeeds) : acked = true ∧ block.length = i + 1 := by
  induction h generalizing i with
  | spent => simp at ha
  | acked same good =>
    cases i with
    | zero => exact ⟨rfl, rfl⟩
    | succ i => simp at ha
  | again same bad later ih =>
    cases i with
    | zero =>
      obtain rfl := Option.some.inj ha
      exact absurd hs bad
    | succ i =>
      obtain ⟨hacked, hlength⟩ := ih ha
      exact ⟨hacked, congrArg Nat.succ hlength⟩

theorem failed_of_not_succeeds (h : Tries frame allowed block acked)
    (hbad : ∀ a ∈ block, ¬ a.Succeeds) : acked = false := by
  cases acked with
  | false => rfl
  | true =>
    obtain ⟨a, hlast, hgood⟩ := h.acked_of_true
    exact absurd hgood (hbad a (List.mem_of_getLast? hlast))

end Tries

/-- The sending of a frame, whatever the link does, comes to an end. Under a deadline that does not
pass, all that goes over the link is a block of attempts at the same bytes. One that succeeds is the
last, and its number is the result; if none does, there are as many as the policy allows, and the
sending fails. Without a limit the waits of an attempt are those of its number. -/
theorem first_success (frame : Bytes) (policy : RetryPolicy) (deadline : Deadline) :
    (∀ answers : Surroundings, ∃ log result,
      (sendFrame frame policy deadline).Yields log result ∧ answers.Answer [] log) ∧
    ∀ log result, (sendFrame frame policy deadline).Yields log result → deadline.Outlasts log →
      ∃ block : List Attempt,
        linkTurns log = block.flatMap Attempt.turns ∧ (∀ a ∈ block, a.frame = frame) ∧
        block.length ≤ policy.maxAttempts.toNat ∧
        (∀ i a, block[i]? = some a → a.Succeeds →
          block.length = i + 1 ∧ ∃ n, result = .ok n ∧ n.toNat = i + 1) ∧
        ((∀ a ∈ block, ¬ a.Succeeds) → block.length = policy.maxAttempts.toNat ∧
          result = .error
            (.writeFailed (.unacknowledged frame.length policy.maxAttempts.toNat))) ∧
        (deadline = .never → ∀ i a, block[i]? = some a →
          a.timeout.toNat = min (policy.ackTimeout.toNat * policy.multiplier.toNat ^ i)
            policy.maxAckTimeout.toNat) := by
  refine ⟨exists_yields_sendFrame frame policy deadline, fun log result h hd => ?_⟩
  obtain ⟨block, acked, hlink, htries, htimed, hok, herror⟩ := yields_sendFrame h hd
  refine ⟨block, hlink, htries.same_of_mem, htries.length_le, ?_, ?_, ?_⟩
  · intro i a ha hs
    obtain ⟨rfl, hlength⟩ := htries.length_of_succeeds ha hs
    obtain ⟨n, hresult, hn⟩ := hok rfl
    exact ⟨hlength, n, hresult, hn.trans hlength⟩
  · intro hbad
    obtain rfl := htries.failed_of_not_succeeds hbad
    exact ⟨htries.length_of_failed, herror rfl⟩
  · rintro rfl i a ha
    exact htimed.toNat_timeout ha

-- The checksums of the replies are worked out here.
set_option maxRecDepth 8000

/-- A write that fails, a refusal, and then an acknowledgment, with doubled waits under a ceiling. -/
theorem first_success_of_third :
    ∃ log, (sendFrame [0x0e, 0x79] ⟨4, 200, 2, 500⟩ .never).Yields log (.ok 3) ∧
      ∃ block : List Attempt, linkTurns log = block.flatMap Attempt.turns ∧ block.length = 3 ∧
        ∀ i a, block[i]? = some a → a.timeout.toNat = min (200 * 2 ^ i) 500 := by
  let log : List Turn := [
    .write [0x0e, 0x79] 200 (.error .closed),
    .write [0x0e, 0x79] 400 (.ok 2), .read 256 400 (.ok Control.nack.encode),
    .write [0x0e, 0x79] 500 (.ok 2), .read 256 500 (.ok Control.ack.encode)]
  have h : (sendFrame [0x0e, 0x79] ⟨4, 200, 2, 500⟩ .never).Yields log (.ok 3) := by
    apply Yields.write (.error .closed) rfl
    apply Yields.write (.ok 2) rfl
    apply Yields.read (.ok Control.nack.encode) rfl
    apply Yields.write (.ok 2) rfl
    apply Yields.read (.ok Control.ack.encode) rfl
    exact .done rfl
  obtain ⟨block, hlink, -, -, hgood, hbad, hwaits⟩ :=
    (first_success [0x0e, 0x79] ⟨4, 200, 2, 500⟩ .never).2 log _ h
      (by simp [Deadline.Outlasts, log])
  refine ⟨log, h, block, hlink, ?_, hwaits rfl⟩
  by_contra hlength
  have hnone : ∀ a ∈ block, ¬ a.Succeeds := by
    intro a ha hs
    obtain ⟨i, hi⟩ := List.mem_iff_getElem?.1 ha
    obtain ⟨hlast, n, hn, hnumber⟩ := hgood i a hi hs
    cases hn
    exact hlength (hlast.trans hnumber.symm)
  cases (hbad hnone).2

end Transmission

end StopAndWait
