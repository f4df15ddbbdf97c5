import StopAndWait.Proofs.Attempts
import StopAndWait.Proofs.Growth

namespace StopAndWait

theorem backoff_le_ceiling (attempt : UInt32) (base : Millis) (multiplier : UInt64)
    (ceiling : Millis) : backoff attempt base multiplier ceiling ≤ ceiling := by
  rw [UInt64.le_iff_toNat_le, toNat_backoff]
  exact Nat.min_le_right _ _

/-- Under a factor that is not zero no attempt waits less than an earlier one. -/
theorem backoff_mono {multiplier : UInt64} (hm : 1 ≤ multiplier) {attempt later : UInt32}
    (hl : attempt ≤ later) (base ceiling : Millis) :
    backoff attempt base multiplier ceiling ≤ backoff later base multiplier ceiling := by
  have hpow : multiplier.toNat ^ attempt.toNat ≤ multiplier.toNat ^ later.toNat :=
    Nat.pow_le_pow_right (UInt64.le_iff_toNat_le.1 hm) (UInt32.le_iff_toNat_le.1 hl)
  rw [UInt64.le_iff_toNat_le, toNat_backoff, toNat_backoff]
  exact min_le_min_right _ (Nat.mul_le_mul_left _ hpow)

namespace Retransmission

variable {policy : RetryPolicy} {n : Nat} {r : Retransmission}

inductive Counts (policy : RetryPolicy) : Nat → Retransmission → Prop
  | fresh : Counts policy 0 {}
  | record {n : Nat} {r : Retransmission} (earlier : Counts policy n r)
    (live : r.isExhausted policy = false) : Counts policy (n + 1) r.record

theorem isExhausted_eq_false_iff :
    r.isExhausted policy = false ↔ r.attempt.toNat < policy.maxAttempts.toNat := by
  rw [isExhausted, decide_eq_false_iff_not, UInt32.le_iff_toNat_le, Nat.not_le]

/-- With an attempt left there is room for one more record. -/
theorem toNat_record (live : r.isExhausted policy = false) :
    r.record.attempt.toNat = r.attempt.toNat + 1 := by
  have hleft := isExhausted_eq_false_iff.1 live
  have hlt := policy.maxAttempts.toNat_lt
  have hone : (1 : UInt32).toNat = 1 := rfl
  rw [record, UInt32.toNat_add, hone, Nat.mod_eq_of_lt (by omega)]

theorem remaining_record (live : r.isExhausted policy = false) :
    r.remaining policy = r.record.remaining policy + 1 := by
  have hleft := isExhausted_eq_false_iff.1 live
  rw [remaining, remaining, toNat_record live]
  omega

theorem Counts.toNat_attempt (h : Counts policy n r) : r.attempt.toNat = n := by
  induction h with
  | fresh => rfl
  | record earlier live ih => rw [toNat_record live, ih]

theorem Counts.le (h : Counts policy n r) : n ≤ policy.maxAttempts.toNat := by
  cases h with
  | fresh => exact Nat.zero_le _
  | record earlier live =>
    rw [← earlier.toNat_attempt]
    exact isExhausted_eq_false_iff.1 live

/-- The counter is the number of records, and there can be as many as attempts are allowed. -/
theorem counts_iff :
    Counts policy n r ↔ r.attempt.toNat = n ∧ n ≤ policy.maxAttempts.toNat := by
  refine ⟨fun h => ⟨h.toNat_attempt, h.le⟩, ?_⟩
  rintro ⟨hr, hn⟩
  have hlt := policy.maxAttempts.toNat_lt
  induction n generalizing r with
  | zero =>
    have hfresh : ({} : Retransmission) = r := congrArg mk (UInt32.toNat_inj.1 hr).symm
    exact hfresh ▸ .fresh
  | succ n ih =>
    let earlier : Retransmission := ⟨UInt32.ofNat n⟩
    have hearlier : earlier.attempt.toNat = n := UInt32.toNat_ofNat_of_lt' (show n < 2^32 by omega)
    have live : earlier.isExhausted policy = false :=
      isExhausted_eq_false_iff.2 (by rw [hearlier]; omega)
    have hnext : earlier.record.attempt.toNat = r.attempt.toNat := by
      rw [toNat_record live, hearlier, hr]
    have hrecord : earlier.record = r := congrArg mk (UInt32.toNat_inj.1 hnext)
    exact hrecord ▸ .record (ih hearlier (by omega)) live

end Retransmission

def Turn.isWrite : Turn → Bool
  | write _ _ _ => true
  | read _ _ _ | now _ | note _ => false

namespace Transmission

open Dialog Retransmission

variable {frame : Bytes} {policy : RetryPolicy} {deadline : Deadline} {n : Nat}
  {r : Retransmission} {log : List Turn}

theorem countP_turns (a : Attempt) : a.turns.countP Turn.isWrite = 1 := by
  cases h : a.reply <;> simp [Attempt.turns, h, Turn.isWrite, List.countP_cons]

theorem countP_consult {α : Type} {question : Instant → α} {answer : α}
    (h : (deadline.consult question).Yields log answer) : log.countP Turn.isWrite = 0 := by
  rcases yields_consult h with ⟨-, rfl, -⟩ | ⟨instant, -, rfl, -⟩ <;> rfl

/-- The loop: the counter is tested before each attempt, and moved on just where the test lets the
attempt be made. -/
theorem attempts_eq (frame : Bytes) (policy : RetryPolicy) (deadline : Deadline)
    (r : Retransmission) : attempts frame policy deadline (r.remaining policy) r =
      (if r.isExhausted policy then do
        if ← deadline.hasExpired then return .error .timeout
        else return .error (.writeFailed (.unacknowledged frame.length r.attempt.toNat))
      else do
        if ← deadline.hasExpired then return .error .timeout
        else if ← attempt frame (← deadline.clampNow (r.nextTimeout policy)) then
          return .ok r.record.attempt
        else attempts frame policy deadline (r.record.remaining policy) r.record) := by
  by_cases hr : r.isExhausted policy = true
  · rw [if_pos hr, (remaining_eq_zero_iff r policy).2 hr, attempts]
  · rw [if_neg hr, remaining_record (Bool.eq_false_of_not_eq_true hr), attempts]

/-- What the counter tells where attempts have come to an end: it has been moved on as often as the
frame has been written, and only an exhausted one makes the sending fail. -/
structure Tells (policy : RetryPolicy) (frame : Bytes) (written : Nat) (r : Retransmission)
    (result : Except Error UInt32) : Prop where
  counts : Counts policy written r
  acked : ∀ number, result = .ok number → number = r.attempt
  givenUp : ∀ fault, result = .error (.writeFailed fault) →
    fault = .unacknowledged frame.length r.attempt.toNat ∧ r.isExhausted policy = true

theorem tells_of_attempts {result : Except Error UInt32} (hc : Counts policy n r)
    (h : (attempts frame policy deadline (r.remaining policy) r).Yields log result) :
    ∃ r', Tells policy frame (n + log.countP Turn.isWrite) r' result := by
  -- By induction on the attempts left, each of which the loop tests for before it is made.
  obtain ⟨left, hleft⟩ : ∃ left, r.remaining policy = left := ⟨_, rfl⟩
  induction left generalizing n r log with
  | zero =>
    have hr := (remaining_eq_zero_iff r policy).1 hleft
    rw [attempts_eq, if_pos hr] at h
    obtain ⟨expired, first, second, rfl, hexp, h⟩ := yields_bind.1 h
    refine ⟨r, ?_⟩
    cases expired with
    | true | false =>
      obtain ⟨rfl, rfl⟩ := yields_pure.1 h
      rw [List.append_nil, countP_consult hexp]
      exact ⟨hc, nofun, by rintro _ ⟨⟩ <;> exact ⟨rfl, hr⟩⟩
  | succ left ih =>
    have live : r.isExhausted policy = false := by
      rw [← Bool.not_eq_true, ← remaining_eq_zero_iff, hleft]
      exact Nat.succ_ne_zero left
    rw [attempts_eq, live, if_neg Bool.false_ne_true] at h
    obtain ⟨expired, first, second, rfl, hexp, h⟩ := yields_bind.1 h
    rw [List.countP_append, countP_consult hexp, Nat.zero_add]
    cases expired with
    | true =>
      obtain ⟨rfl, rfl⟩ := yields_pure.1 h
      exact ⟨r, hc, nofun, nofun⟩
    | false =>
      obtain ⟨timeout, clamping, third, rfl, hclamp, h⟩ := yields_bind.1 h
      obtain ⟨acked, tried, later, rfl, htry, h⟩ := yields_bind.1 h
      obtain ⟨a, -, -, rfl, -⟩ := yields_attempt htry
      rw [List.countP_append, List.countP_append, countP_consult hclamp, countP_turns,
        Nat.zero_add, ← Nat.add_assoc]
      cases acked with
      | true =>
        obtain ⟨rfl, rfl⟩ := yields_pure.1 h
        exact ⟨r.record, .record hc live, by rintro _ ⟨⟩; rfl, nofun⟩
      | false =>
        have hrest := remaining_record live
        exact ih (.record hc live) h (by omega)

/-- The wait of an attempt is its formula in unbounded arithmetic: at most the ceiling, and under a
factor that is not zero no shorter than any before it. A counter that is moved on only while
attempts are left is the number of its records, whatever the number of attempts allowed; and in the
sending of a frame, whatever the link and the clock do, it is moved on just so, once for each time
that the frame is written. -/
theorem attempts_in_range :
    (∀ (attempt : UInt32) (base : Millis) (multiplier : UInt64) (ceiling : Millis),
      (backoff attempt base multiplier ceiling).toNat =
        min (base.toNat * multiplier.toNat ^ attempt.toNat) ceiling.toNat ∧
      backoff attempt base multiplier ceiling ≤ ceiling ∧
      (1 ≤ multiplier → ∀ later, attempt ≤ later →
        backoff attempt base multiplier ceiling ≤ backoff later base multiplier ceiling)) ∧
    (∀ (policy : RetryPolicy) (n : Nat) (r : Retransmission),
      (Counts policy n r ↔ r.attempt.toNat = n ∧ n ≤ policy.maxAttempts.toNat) ∧
      (Counts policy n r → r.isExhausted policy = false → r.attempt.toNat + 1 < 2^32)) ∧
    ∀ (frame : Bytes) (policy : RetryPolicy) (deadline : Deadline) (log : List Turn)
      (result : Except Error UInt32), (sendFrame frame policy deadline).Yields log result →
      ∃ r, Tells policy frame (log.countP Turn.isWrite) r result := by
  refine ⟨fun attempt base multiplier ceiling => ?_, fun policy n r => ?_, ?_⟩
  · exact ⟨toNat_backoff attempt base multiplier ceiling,
      backoff_le_ceiling attempt base multiplier ceiling,
      fun hm later hl => backoff_mono hm hl base ceiling⟩
  · refine ⟨counts_iff, fun _ live => ?_⟩
    rw [← toNat_record live]
    exact r.record.attempt.toNat_lt
  · intro frame policy deadline log result h
    have htells := tells_of_attempts .fresh h
    rwa [Nat.zero_add] at htells

-- The checksums of the replies are worked out here.
set_option maxRecDepth 8000

/-- Two attempts allowed, the first of them refused and the second not answered. -/
theorem attempts_in_range_of_second :
    backoff 3 100 2 5000 ≤ backoff 0xffffffff 100 2 5000 ∧
    (⟨1⟩ : Retransmission).attempt.toNat + 1 < 2^32 ∧
    ∃ log, (sendFrame [0x0e, 0x79] ⟨2, 200, 1, 2000⟩ .never).Yields log
        (.error (.writeFailed (.unacknowledged 2 2))) ∧
      log.countP Turn.isWrite = 2 := by
  obtain ⟨hbackoff, hcounts, hruns⟩ := attempts_in_range
  let policy : RetryPolicy := ⟨2, 200, 1, 2000⟩
  let log : List Turn := [
    .write [0x0e, 0x79] 200 (.ok 2), .read 256 200 (.ok Control.nack.encode),
    .write [0x0e, 0x79] 200 (.ok 2), .read 256 200 (.error .timeout)]
  have h : (sendFrame [0x0e, 0x79] policy .never).Yields log
      (.error (.writeFailed (.unacknowledged 2 2))) := by
    apply Yields.write (.ok 2) rfl
    apply Yields.read (.ok Control.nack.encode) rfl
    apply Yields.write (.ok 2) rfl
    apply Yields.read (.error .timeout) rfl
    exact .done rfl
  obtain ⟨r, htells⟩ := hruns [0x0e, 0x79] policy .never log _ h
  refine ⟨(hbackoff 3 100 2 5000).2.2 (by decide) 0xffffffff (by decide),
    (hcounts policy 1 ⟨1⟩).2 (.record .fresh rfl) rfl, log, h, ?_⟩
  -- The counter that the failure names is the number of the writes.
  obtain ⟨hfault, -⟩ := htells.givenUp _ rfl
  obtain ⟨-, hnumber⟩ := TransferFault.unacknowledged.inj hfault
  rw [hnumber]
  exact htells.counts.toNat_attempt.symm

end Transmission

end StopAndWait
