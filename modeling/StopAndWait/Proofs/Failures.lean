import StopAndWait.Proofs.Attempts
import StopAndWait.Proofs.Roles

namespace StopAndWait

inductive ErrorKind
  | incorrectParameter
  | incorrectMode
  | timeout
  | writeFailed
  | readFailed
  | invalidFrame
  | bufferOverflow
  deriving DecidableEq

def Error.kind : Error → ErrorKind
  | incorrectParameter _ => .incorrectParameter
  | incorrectMode _ _ => .incorrectMode
  | timeout => .timeout
  | writeFailed _ => .writeFailed
  | readFailed _ => .readFailed
  | invalidFrame _ => .invalidFrame
  | bufferOverflow _ _ => .bufferOverflow

theorem Error.isTransient_iff {error : Error} :
    error.isTransient = true ↔ error.kind ∈ [.readFailed, .writeFailed, .timeout] := by
  cases error <;> simp [isTransient, kind]

def ErrorKind.receiving : List ErrorKind := [.timeout, .readFailed, .invalidFrame]

def ErrorKind.awaiting : List ErrorKind := .incorrectMode :: receiving

/-- A read knows no failed write, so it has nothing to tell in other words. -/
theorem Error.whileReading_eq_self {error : Error}
    (h : error.kind ∈ .bufferOverflow :: ErrorKind.awaiting) : error.whileReading = error := by
  cases error with
  | writeFailed fault => simp [kind, ErrorKind.awaiting, ErrorKind.receiving] at h
  | _ => rfl

/-- A write tells the failures of its wait for a role as its own. -/
theorem Error.kind_whileWriting {error : Error}
    (h : error.kind ∈ .writeFailed :: ErrorKind.awaiting) :
    error.whileWriting.kind ∈ [.writeFailed, .timeout, .incorrectMode, .invalidFrame] := by
  cases error with
  | incorrectParameter | bufferOverflow =>
    simp [kind, ErrorKind.awaiting, ErrorKind.receiving] at h
  | incorrectMode | timeout | writeFailed | readFailed | invalidFrame => simp [whileWriting, kind]

namespace Call

def failures : Call → List ErrorKind
  | read _ _ => .bufferOverflow :: ErrorKind.awaiting
  | write _ _ => [.writeFailed, .timeout, .incorrectMode, .invalidFrame]
  | waitForSend _ | waitForReceive _ => ErrorKind.awaiting
  | switchToReceive _ | switchToSend _ => [.writeFailed, .timeout]

def tell : Call → Error → Error
  | read _ _ => Error.whileReading
  | write _ _ => Error.whileWriting
  | waitForSend _ | waitForReceive _ | switchToReceive _ | switchToSend _ => id

end Call

def Turn.Fails : Turn → Prop
  | read _ _ (.error _) => True
  | write bytes _ answer => answer ≠ .ok bytes.length
  | read _ _ (.ok _) | now _ | note _ => False

def lastOnLink (log : List Turn) : Option Turn := (linkTurns log).getLast?

theorem lastOnLink_append (log log' : List Turn) :
    lastOnLink (log ++ log') = (lastOnLink log').or (lastOnLink log) := by
  rw [lastOnLink, linkTurns_append, List.getLast?_append]
  rfl

theorem lastOnLink_append_of_quiet {log log' : List Turn} (h : linkTurns log' = []) :
    lastOnLink (log ++ log') = lastOnLink log := by
  rw [lastOnLink, linkTurns_append, h, List.append_nil]
  rfl

theorem lastOnLink_append_of_some {log log' : List Turn} {turn : Turn}
    (h : lastOnLink log' = some turn) : lastOnLink (log ++ log') = some turn := by
  rw [lastOnLink_append, h]
  rfl

def Answered (log : List Turn) : Prop :=
  ∃ (reply : Control) (wait : Millis),
    lastOnLink log = some (.write reply.encode wait (.ok reply.encode.length))

theorem Answered.prepend {log : List Turn} (h : Answered log) (before : List Turn) :
    Answered (before ++ log) := by
  obtain ⟨reply, wait, hlast⟩ := h
  exact ⟨reply, wait, lastOnLink_append_of_some hlast⟩

inductive Breakdown (log : List Turn) : Error → Prop
  | expired {instant : Instant} (last : log.getLast? = some (.now instant)) :
    Breakdown log .timeout
  | unread {capacity : Nat} {wait : Millis} {e : LinkError}
    (last : lastOnLink log = some (.read capacity wait (.error e))) (real : e ≠ .timeout) :
    Breakdown log (.readFailed (.link e))
  -- An intact buffer that is no frame.
  | malformed {capacity : Nat} {wait : Millis} {buffer : Bytes}
    (last : lastOnLink log = some (.read capacity wait (.ok buffer)))
    (noFrame : isIntact buffer = true ∧ Frame.decode? buffer = none) :
    Breakdown log (.invalidFrame buffer.length)
  | unanswered {reply : Control} {wait : Millis} {written : Except LinkError Nat}
    {fault : TransferFault} (last : lastOnLink log = some (.write reply.encode wait written))
    (short : reply.fault? written = some fault) : Breakdown log (.readFailed fault)
  -- The last attempt that was allowed was in vain.
  | unacknowledged {a : Transmission.Attempt} {attempts : Nat}
    (last : lastOnLink log = a.turns.getLast?) (vain : ¬ a.Succeeds) :
    Breakdown log (.writeFailed (.unacknowledged a.frame.length attempts))

/-- How a call fails: a loop of it breaks off, or ends in another way than was wanted, or the call
does not get as far as the link. -/
inductive Failure (log : List Turn) : Error → Prop
  | broken {error : Error} (breakdown : Breakdown log error) : Failure log error
  | misplaced {operation : Operation} {mode : Mode} (ended : linkTurns log = [] ∨ Answered log) :
    Failure log (.incorrectMode operation mode)
  | overflowed {required available : Nat} (ended : linkTurns log = [] ∨ Answered log) :
    Failure log (.bufferOverflow required available)

theorem Breakdown.prepend {log : List Turn} {error : Error} (h : Breakdown log error)
    (before : List Turn) : Breakdown (before ++ log) error := by
  cases h with
  | expired last => exact .expired (by rw [List.getLast?_append, last]; rfl)
  | unread last real => exact .unread (lastOnLink_append_of_some last) real
  | malformed last noFrame => exact .malformed (lastOnLink_append_of_some last) noFrame
  | unanswered last short => exact .unanswered (lastOnLink_append_of_some last) short
  | @unacknowledged a attempts last vain =>
    obtain ⟨turn, hturn⟩ : ∃ turn, a.turns.getLast? = some turn := ⟨_, List.getLast?_cons⟩
    rw [hturn] at last
    exact .unacknowledged ((lastOnLink_append_of_some last).trans hturn.symm) vain

/-- What comes before without a word on the link changes nothing. -/
theorem Failure.prepend {log : List Turn} {error : Error} (h : Failure log error)
    {before : List Turn} (hb : linkTurns before = []) : Failure (before ++ log) error := by
  have hended (h : linkTurns log = [] ∨ Answered log) :
      linkTurns (before ++ log) = [] ∨ Answered (before ++ log) :=
    h.imp (fun hnil => by rw [linkTurns_append, hb, hnil]; rfl) fun ha => ha.prepend before
  cases h with
  | broken breakdown => exact .broken (breakdown.prepend before)
  | misplaced ended => exact .misplaced (hended ended)
  | overflowed ended => exact .overflowed (hended ended)

theorem Call.isTransient_tell (call : Call) (error : Error) :
    (call.tell error).isTransient = error.isTransient := by
  cases call <;> simp [tell]

/-- What the link fails at last may be tried again. -/
theorem Failure.isTransient_of_fails {log : List Turn} {error : Error} (h : Failure log error)
    {turn : Turn} (hl : lastOnLink log = some turn) (hf : turn.Fails) :
    error.isTransient = true := by
  have hended : ¬ (linkTurns log = [] ∨ Answered log) := by
    rintro (hquiet | ⟨reply, wait, hlast⟩)
    · rw [lastOnLink, hquiet] at hl
      cases hl
    · cases hlast.symm.trans hl
      exact hf rfl
  cases h with
  | broken breakdown =>
    cases breakdown with
    | expired | unread | unanswered | unacknowledged => rfl
    | malformed last =>
      cases last.symm.trans hl
      exact hf.elim
  | misplaced ended | overflowed ended => exact absurd ended hended

section Parts

open Dialog

variable {log : List Turn} {deadline : Deadline} {error : Error}

/-- A deadline that has passed shows on the clock. -/
theorem now_of_hasExpired (h : deadline.hasExpired.Yields log true) :
    ∃ instant, log = [.now instant] := by
  rcases yields_consult h with ⟨hnone, -, hexpired⟩ | ⟨instant, -, hlog, -⟩
  · simp [Deadline.isExpired, hnone] at hexpired
  · exact ⟨instant, hlog⟩

namespace Transmission

variable {policy : RetryPolicy}

def Vain (frame : Bytes) (log : List Turn) : Prop :=
  ∃ a : Attempt, a.frame = frame ∧ ¬ a.Succeeds ∧ lastOnLink log = a.turns.getLast?

theorem breakdown_of_attempts {frame : Bytes} {allowed : Nat} {r : Retransmission}
    (h : (attempts frame policy deadline allowed r).Yields log (.error error))
    {before : List Turn} (hv : allowed = 0 → Vain frame before) :
    Breakdown (before ++ log) error := by
  -- By induction on the attempts left: with none left there was one before.
  induction allowed generalizing r log before with
  | zero =>
    obtain ⟨expired, first, second, rfl, hexp, h⟩ := yields_bind.1 h
    cases expired with
    | true =>
      obtain ⟨rfl, hend⟩ := yields_pure.1 h
      cases hend
      obtain ⟨instant, rfl⟩ := now_of_hasExpired hexp
      exact (Breakdown.expired rfl).prepend before
    | false =>
      obtain ⟨rfl, hend⟩ := yields_pure.1 h
      cases hend
      obtain ⟨a, rfl, hvain, hlast⟩ := hv rfl
      have hquiet : linkTurns (first ++ []) = [] := by
        rw [List.append_nil, linkTurns_consult hexp]
      exact .unacknowledged ((lastOnLink_append_of_quiet hquiet).trans hlast) hvain
  | succ allowed ih =>
    obtain ⟨expired, first, second, rfl, hexp, h⟩ := yields_bind.1 h
    cases expired with
    | true =>
      obtain ⟨rfl, hend⟩ := yields_pure.1 h
      cases hend
      obtain ⟨instant, rfl⟩ := now_of_hasExpired hexp
      exact (Breakdown.expired rfl).prepend before
    | false =>
      obtain ⟨timeout, clamping, third, rfl, -, h⟩ := yields_bind.1 h
      obtain ⟨acked, tried, fourth, rfl, htry, h⟩ := yields_bind.1 h
      obtain ⟨a, hframe, -, rfl, hacked⟩ := yields_attempt htry
      cases acked with
      | true => cases (yields_pure.1 h).2
      | false =>
        have hvain : Vain frame (before ++ first ++ clamping ++ a.turns) := by
          refine ⟨a, hframe, fun hs => Bool.noConfusion (hacked.2 hs), ?_⟩
          have hlast : lastOnLink a.turns = some _ :=
            (congrArg List.getLast? a.linkTurns_turns).trans List.getLast?_cons
          exact (lastOnLink_append_of_some hlast).trans List.getLast?_cons.symm
        simpa only [List.append_assoc] using ih h fun _ => hvain

theorem breakdown_of_sendFrame {frame : Bytes} (hp : 0 < policy.maxAttempts.toNat)
    (h : (sendFrame frame policy deadline).Yields log (.error error)) : Breakdown log error := by
  have hwhole : Breakdown ([] ++ log) error :=
    breakdown_of_attempts h fun hz => absurd hz (Nat.ne_of_gt hp)
  exact hwhole

theorem breakdown_of_sendFrames {frames : List Frame} {metrics : TransmitMetrics}
    (hp : 0 < policy.maxAttempts.toNat)
    (h : (sendFrames policy deadline frames metrics).Yields log (.error error)) :
    Breakdown log error := by
  induction frames generalizing metrics log with
  | nil => cases (yields_pure.1 h).2
  | cons frame rest ih =>
    obtain ⟨sent, first, second, rfl, hsend, h⟩ := yields_bind.1 h
    cases sent with
    | error e =>
      obtain ⟨rfl, hend⟩ := yields_pure.1 h
      cases hend
      rw [List.append_nil]
      exact breakdown_of_sendFrame hp hsend
    | ok n => exact (ih h).prepend first

end Transmission

namespace Reception

variable {capacity : Nat} {replyTimeout : Millis}

theorem breakdown_of_round {r r' : Reception}
    (h : (round capacity replyTimeout deadline r).Yields log (.inr (.error error, r'))) :
    Breakdown log error := by
  obtain ⟨expired, first, second, rfl, hexp, h⟩ := yields_bind.1 h
  cases expired with
  | true =>
    obtain ⟨rfl, hend⟩ := yields_pure.1 h
    cases hend
    obtain ⟨instant, rfl⟩ := now_of_hasExpired hexp
    exact .expired rfl
  | false =>
    obtain ⟨wait, third, fourth, rfl, -, h⟩ := yields_bind.1 h
    obtain ⟨answer, rest, rfl, hread⟩ := yields_ask.1 h
    apply Breakdown.prepend _ first
    apply Breakdown.prepend _ third
    match answer with
    | .ok buffer =>
      obtain ⟨reply, htaken, rfl⟩ := taken_of_yields hread
      cases htaken with
      | malformed step =>
        have hnoFrame := Exchange.onBuffer_eq_error_iff.1 ⟨error, step⟩
        obtain rfl := Exchange.error_of_onBuffer step
        exact .malformed rfl hnoFrame
      | unanswered step short => exact .unanswered rfl short
    | .error .timeout => cases (yields_pure.1 hread).2
    | .error .closed | .error (.system _) =>
      obtain ⟨rfl, hend⟩ := yields_pure.1 hread
      cases hend
      exact .unread rfl nofun

theorem breakdown_of_receive {r r' : Reception}
    (h : (receive capacity replyTimeout deadline r).Yields log (.error error, r')) :
    Breakdown log error := by
  refine yields_iterate (P := fun _ log finish => ∀ error, finish.1 = .error error →
    Breakdown log error) ?_ ?_ h error rfl
  · intro r s log log' finish hround hlater error he
    exact (hlater error he).prepend log
  · rintro r log ⟨result, s⟩ hround error rfl
    exact breakdown_of_round hround

/-- A loop that comes to its end has answered the last frame. -/
theorem Heard.answered {x y : Exchange} {received : Received}
    (h : Heard capacity replyTimeout deadline x log (.ok received) y) : Answered log := by
  generalize hr : Except.ok received = result at h
  induction h with
  | expired | broken | unanswered => cases hr
  | malformed wait step => cases hr
  | clock instant later ih => exact (ih hr).prepend [.now instant]
  | missed wait later ih => exact (ih hr).prepend [.read capacity wait (.error .timeout)]
  | proceed wait step later ih => exact (ih hr).prepend _
  | @switched x y buffer reply mode wait step => exact ⟨reply, replyTimeout, rfl⟩
  | @complete x y buffer reply wait step => exact ⟨reply, replyTimeout, rfl⟩

end Reception

structure Fails (kinds : List ErrorKind) (log : List Turn) (error : Error) : Prop where
  kind : error.kind ∈ kinds
  failure : Failure log error

theorem Fails.prepend {kinds : List ErrorKind} (h : Fails kinds log error) {before : List Turn}
    (hb : linkTurns before = []) : Fails kinds (before ++ log) error :=
  ⟨h.kind, h.failure.prepend hb⟩

theorem Fails.mono {kinds kinds' : List ErrorKind} (h : Fails kinds log error)
    (hk : kinds ⊆ kinds') : Fails kinds' log error :=
  ⟨hk h.kind, h.failure⟩

namespace Engine

variable {e e' : Engine} {target : Mode} {operation : Operation}

theorem breakdown_of_receive (h : (e.receive deadline).Yields log (.error error, e')) :
    error.kind ∈ ErrorKind.receiving ∧ Breakdown log error := by
  obtain ⟨⟨received, r⟩, first, second, rfl, hloop, h⟩ := yields_bind.1 h
  cases received with
  | ok received => cases (yields_pure.1 h).2
  | error e =>
    obtain ⟨rfl, hend⟩ := yields_pure.1 h
    cases hend
    rw [List.append_nil]
    refine ⟨?_, Reception.breakdown_of_receive hloop⟩
    rcases (Reception.heard_of_yields hloop).error_cases with rfl | ⟨fault, rfl⟩ | ⟨length, rfl⟩
    · simp [Error.kind, ErrorKind.receiving]
    · simp [Error.kind, ErrorKind.receiving]
    · simp [Error.kind, ErrorKind.receiving]

/-- The wait ends with a message, or with the role that was not wanted. -/
theorem fails_of_awaitMode
    (h : (e.awaitMode target operation deadline).Yields log (.error error, e')) :
    Fails ErrorKind.awaiting log error := by
  unfold awaitMode at h
  by_cases hm : e.mode = target
  · rw [if_pos hm] at h
    cases (yields_pure.1 h).2
  · rw [if_neg hm] at h
    obtain ⟨⟨received, e₁⟩, first, second, rfl, hreceive, h⟩ := yields_bind.1 h
    match received with
    | .error e =>
      obtain ⟨rfl, hend⟩ := yields_pure.1 h
      cases hend
      obtain ⟨hkind, hbroken⟩ := breakdown_of_receive hreceive
      rw [List.append_nil]
      exact ⟨List.mem_cons_of_mem _ hkind, .broken hbroken⟩
    | .ok .message =>
      obtain ⟨rfl, hend⟩ := yields_pure.1 h
      cases hend
      rw [List.append_nil]
      exact ⟨List.mem_cons_self, .misplaced (.inr (yields_receive hreceive).answered)⟩
    | .ok (.switched mode) =>
      simp only at h
      split at h
      · cases (yields_pure.1 h).2
      · obtain ⟨rfl, hend⟩ := yields_pure.1 h
        cases hend
        rw [List.append_nil]
        exact ⟨List.mem_cons_self, .misplaced (.inr (yields_receive hreceive).answered)⟩

/-- A role is refused without a word, or awaited in vain. -/
theorem fails_of_resolveMode
    (h : (e.resolveMode target operation deadline).Yields log (.error error, e')) :
    Fails ErrorKind.awaiting log error := by
  unfold resolveMode at h
  split at h
  · cases (yields_pure.1 h).2
  · split at h
    · cases (yields_pure.1 h).2
    · split at h
      · obtain ⟨rfl, hend⟩ := yields_pure.1 h
        cases hend
        exact ⟨List.mem_cons_self, .misplaced (.inl rfl)⟩
      · obtain ⟨⟨awaited, e₁⟩, first, second, rfl, hawait, h⟩ := yields_bind.1 h
        cases awaited with
        | ok => cases (yields_pure.1 h).2
        | error e =>
          obtain ⟨rfl, hend⟩ := yields_pure.1 h
          cases hend
          rw [List.append_nil]
          exact fails_of_awaitMode hawait

theorem fails_of_readExchange {room : Nat}
    (h : (e.readExchange room deadline).Yields log (.error error, e')) :
    Fails (.bufferOverflow :: ErrorKind.awaiting) log error := by
  obtain ⟨⟨resolved, e₁⟩, first, second, rfl, hresolve, h⟩ := yields_bind.1 h
  cases resolved with
  | error e =>
    obtain ⟨rfl, hend⟩ := yields_pure.1 h
    cases hend
    rw [List.append_nil]
    exact (fails_of_resolveMode hresolve).mono (List.subset_cons_self _ _)
  | ok =>
    obtain ⟨⟨received, e₂⟩, third, fourth, rfl, hreceive, h⟩ := yields_bind.1 h
    match received with
    | .error e =>
      obtain ⟨rfl, hend⟩ := yields_pure.1 h
      cases hend
      obtain ⟨hkind, hbroken⟩ := breakdown_of_receive hreceive
      rw [List.append_nil]
      exact ⟨List.mem_cons_of_mem _ (List.mem_cons_of_mem _ hkind),
        .broken (hbroken.prepend first)⟩
    | .ok (.switched mode) => cases (yields_pure.1 h).2
    | .ok .message =>
      simp only [Exchange.deliver_eq] at h
      split at h
      · obtain ⟨rfl, hend⟩ := yields_pure.1 h
        cases hend
        rw [List.append_nil]
        exact ⟨List.mem_cons_self,
          .overflowed (.inr ((yields_receive hreceive).answered.prepend first))⟩
      · cases (yields_pure.1 h).2

theorem fails_of_writeExchange {message : Bytes}
    (h : (e.writeExchange message deadline).Yields log (.error error, e')) :
    Fails (.writeFailed :: ErrorKind.awaiting) log error := by
  obtain ⟨⟨resolved, e₁⟩, first, second, rfl, hresolve, h⟩ := yields_bind.1 h
  cases resolved with
  | error e =>
    obtain ⟨rfl, hend⟩ := yields_pure.1 h
    cases hend
    rw [List.append_nil]
    exact (fails_of_resolveMode hresolve).mono (List.subset_cons_self _ _)
  | ok =>
    obtain ⟨sent, third, fourth, rfl, hsend, h⟩ := yields_bind.1 h
    cases sent with
    | ok metrics => cases (yields_pure.1 h).2
    | error e =>
      have hbroken := Transmission.breakdown_of_sendFrames e₁.config.maxAttempts_pos hsend
      obtain ⟨rfl, hend⟩ := yields_pure.1 h
      cases hend
      refine ⟨?_, .broken ?_⟩
      · rcases Transmission.error_of_sendFrames hsend with rfl | ⟨fault, rfl⟩
        · simp [Error.kind, ErrorKind.awaiting, ErrorKind.receiving]
        · simp [Error.kind]
      · rw [List.append_nil]
        exact hbroken.prepend first

theorem fails_of_waitForMode {limit : Millis}
    (h : (e.waitForMode target operation limit).Yields log (.error error, e')) :
    Fails ErrorKind.awaiting log error := by
  obtain ⟨deadline, first, second, rfl, hstart, h⟩ := yields_bind.1 h
  obtain ⟨⟨awaited, e₁⟩, third, fourth, rfl, hawait, h⟩ := yields_bind.1 h
  obtain ⟨rfl, hend⟩ := yields_pure.1 h
  cases awaited with
  | ok => cases hend
  | error e =>
    cases hend
    rw [List.append_nil]
    exact (fails_of_awaitMode hawait).prepend (linkTurns_start hstart)

theorem fails_of_requestSwitch {request : Control} {role : Mode} {limit : Millis}
    (h : (e.requestSwitch request role limit).Yields log (.error error, e')) :
    Fails [.writeFailed, .timeout] log error := by
  obtain ⟨deadline, first, second, rfl, hstart, h⟩ := yields_bind.1 h
  obtain ⟨sent, third, fourth, rfl, hsend, h⟩ := yields_bind.1 h
  cases sent with
  | ok n => cases (yields_pure.1 h).2
  | error e =>
    obtain ⟨rfl, hend⟩ := yields_pure.1 h
    cases hend
    have hbroken := Transmission.breakdown_of_sendFrame e.config.maxAttempts_pos hsend
    refine ⟨?_, .broken ?_⟩
    · rcases Transmission.error_of_attempts hsend with rfl | ⟨fault, rfl⟩
      · simp [Error.kind]
      · simp [Error.kind]
    · rw [List.append_nil]
      exact hbroken.prepend first

/-- A call tells what a part of it fails with, in its own words. -/
theorem fails_of_call {call : Call} (h : (call.dialog e).Yields log (.error error, e')) :
    error.kind ∈ call.failures ∧ ∃ cause, Failure log cause ∧ error = call.tell cause := by
  cases call with
  | read room limit =>
    cases hp : e.exchange.pending with
    | cons oldest rest =>
      have hread : (e.read room limit).Yields log (.error error, e') := h
      rw [read_of_pending hp] at hread
      split at hread
      · obtain ⟨rfl, hend⟩ := yields_pure.1 hread
        cases hend
        exact ⟨List.mem_cons_self, _, .overflowed (.inl rfl), rfl⟩
      · cases (yields_pure.1 hread).2
    | nil =>
      have hread : (e.read room limit).Yields log (.error error, e') := h
      rw [read_of_empty hp] at hread
      obtain ⟨deadline, first, second, rfl, hstart, hread⟩ := yields_bind.1 hread
      obtain ⟨⟨exchanged, e₁⟩, third, fourth, rfl, hexchange, hread⟩ := yields_bind.1 hread
      obtain ⟨rfl, hend⟩ := yields_pure.1 hread
      cases exchanged with
      | ok => cases hend
      | error cause =>
        cases hend
        have hfails := (fails_of_readExchange hexchange).prepend (linkTurns_start hstart)
        rw [List.append_nil]
        refine ⟨?_, cause, hfails.failure, rfl⟩
        rw [Error.whileReading_eq_self hfails.kind]
        exact hfails.kind
  | write message limit =>
    obtain ⟨deadline, first, second, rfl, hstart, h⟩ := yields_bind.1 h
    obtain ⟨⟨exchanged, e₁⟩, third, fourth, rfl, hexchange, h⟩ := yields_bind.1 h
    obtain ⟨rfl, hend⟩ := yields_pure.1 h
    cases exchanged with
    | ok => cases hend
    | error cause =>
      cases hend
      have hfails := (fails_of_writeExchange hexchange).prepend (linkTurns_start hstart)
      rw [List.append_nil]
      exact ⟨Error.kind_whileWriting hfails.kind, cause, hfails.failure, rfl⟩
  | waitForSend limit | waitForReceive limit =>
    have hfails := fails_of_waitForMode h
    exact ⟨hfails.kind, error, hfails.failure, rfl⟩
  | switchToReceive limit | switchToSend limit =>
    have hfails := fails_of_requestSwitch h
    exact ⟨hfails.kind, error, hfails.failure, rfl⟩

/-- Whatever the engine, the link and the clock, a call fails with a failure of its own kinds, and
tells in its own words how its transcript ends. Where the last thing on the link was a read or a
write that failed, be it in the call itself or in a wait for a role, the failure is that of a read,
of a write or of time, and the call may be tried again. -/
theorem failure_kinds {call : Call} (h : (call.dialog e).Yields log (.error error, e')) :
    error.kind ∈ call.failures ∧ (∃ cause, Failure log cause ∧ error = call.tell cause) ∧
      ∀ turn, lastOnLink log = some turn → turn.Fails →
        error.isTransient = true ∧ error.kind ∈ [.readFailed, .writeFailed, .timeout] := by
  obtain ⟨hkind, cause, hfailure, htold⟩ := fails_of_call h
  refine ⟨hkind, ⟨cause, hfailure, htold⟩, fun turn hl hf => ?_⟩
  have htransient : error.isTransient = true := by
    rw [htold, Call.isTransient_tell]
    exact hfailure.isTransient_of_fails hl hf
  exact ⟨htransient, Error.isTransient_iff.1 htransient⟩

/-- A write awaits its role and hears a damaged buffer, which it cannot refuse because the link is
closed: a failed write in a receive loop in a wait for a role, told as a failed write. -/
theorem failure_kinds_of_unrefused :
    ∃ log e', (Call.dialog ⟨default, { mode := .receiver }, none, none⟩
        (.write [0x61] Millis.unlimited)).Yields log
          (.error (.writeFailed (.replyNotWritten .nack .closed)), e') ∧
      lastOnLink log = some (.write Control.nack.encode 200 (.error .closed)) ∧
      ∃ cause, Failure log cause ∧
        Error.writeFailed (.replyNotWritten .nack .closed) = cause.whileWriting := by
  have hwrite : (Call.dialog ⟨default, { mode := .receiver }, none, none⟩
      (.write [0x61] Millis.unlimited)).Yields
      [.read 1024 Millis.unlimited (.ok []), .note (.consumed []),
        .write Control.nack.encode 200 (.error .closed)]
      (.error (.writeFailed (.replyNotWritten .nack .closed)),
        ⟨default, { mode := .receiver }, none, none⟩) := by
    apply Yields.silent rfl
    apply Yields.read (.ok []) rfl
    apply Yields.note rfl
    apply Yields.write (.error .closed) rfl
    exact .done rfl
  exact ⟨_, _, hwrite, rfl, (failure_kinds hwrite).2.1⟩

end Engine

end Parts

end StopAndWait
