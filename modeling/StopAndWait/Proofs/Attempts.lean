import Mathlib
import StopAndWait.Proofs.Course
import StopAndWait.Proofs.Sending
import StopAndWait.Proofs.Transcript

namespace StopAndWait

namespace Transmission

open Dialog

structure Attempt where
  frame : Bytes
  timeout : Millis
  written : Except LinkError Nat
  reply : Option (Except LinkError Bytes)
  heard : reply.isSome = true ↔ written = .ok frame.length

namespace Attempt

def turns (a : Attempt) : List Turn :=
  .write a.frame a.timeout a.written :: (a.reply.map (.read verdictCapacity a.timeout)).toList

def Succeeds (a : Attempt) : Prop :=
  a.written = .ok a.frame.length ∧ a.reply = some (.ok Control.ack.encode)

/-- Nothing but the link takes part in an attempt. -/
theorem linkTurns_turns (a : Attempt) : linkTurns a.turns = a.turns := by
  cases h : a.reply <;> simp [turns, h, linkTurns, Turn.isOnLink]

end Attempt

def Acked (block : List Attempt) : Prop := ∃ a, block.getLast? = some a ∧ a.Succeeds

/-- Attempts at one frame: at least one, at most `budget`, and none before the last succeeds. -/
structure IsBlock (budget : Nat) (frame : Frame) (block : List Attempt) : Prop where
  same : ∀ a ∈ block, a.frame = frame.encode
  nonempty : block ≠ []
  within : block.length ≤ budget
  once : ∀ a ∈ block.dropLast, ¬ a.Succeeds

/-- The attempts are given the waits of their numbers, from `r` on, cut down to what the deadline
leaves. -/
def Timed (policy : RetryPolicy) (deadline : Deadline) (r : Retransmission)
    (block : List Attempt) : Prop :=
  ∀ i a, block[i]? = some a → ∃ r' : Retransmission, r'.attempt.toNat = r.attempt.toNat + i ∧
    ∃ instant, a.timeout = deadline.clamp (r'.nextTimeout policy) instant

theorem Timed.cons {policy : RetryPolicy} {deadline : Deadline} {r : Retransmission}
    {a : Attempt} {block : List Attempt} (hr : r.record.attempt.toNat = r.attempt.toNat + 1)
    (ha : ∃ instant, a.timeout = deadline.clamp (r.nextTimeout policy) instant)
    (h : Timed policy deadline r.record block) : Timed policy deadline r (a :: block) := by
  intro i b hb
  cases i with
  | zero =>
    obtain rfl := Option.some.inj hb
    exact ⟨r, rfl, ha⟩
  | succ i =>
    obtain ⟨r', hr', hinstant⟩ := h i b hb
    exact ⟨r', by rw [hr', hr, Nat.add_assoc, Nat.add_comm 1], hinstant⟩

inductive Tries (frame : Bytes) : Nat → List Attempt → Bool → Prop
  | spent : Tries frame 0 [] false
  | acked {allowed : Nat} {a : Attempt} (same : a.frame = frame) (good : a.Succeeds) :
    Tries frame (allowed + 1) [a] true
  | again {allowed : Nat} {a : Attempt} {block : List Attempt} {acked : Bool}
    (same : a.frame = frame) (bad : ¬ a.Succeeds) (later : Tries frame allowed block acked) :
    Tries frame (allowed + 1) (a :: block) acked

inductive Relay (budget : Nat) : List Frame → List (List Attempt) → Bool → Prop
  | done : Relay budget [] [] true
  | next {frame : Frame} {rest : List Frame} {block : List Attempt} {blocks : List (List Attempt)}
    {whole : Bool} (tries : Tries frame.encode budget block true)
    (later : Relay budget rest blocks whole) : Relay budget (frame :: rest) (block :: blocks) whole
  | failed {frame : Frame} {rest : List Frame} {block : List Attempt}
    (tries : Tries frame.encode budget block false) : Relay budget (frame :: rest) [block] false

namespace Tries

variable {frame : Bytes} {allowed : Nat} {block : List Attempt} {acked : Bool}

theorem same_of_mem (h : Tries frame allowed block acked) : ∀ a ∈ block, a.frame = frame := by
  induction h with
  | spent => simp
  | acked same good => simpa using same
  | again same bad later ih => simpa using ⟨same, ih⟩

theorem length_le (h : Tries frame allowed block acked) : block.length ≤ allowed := by
  induction h with
  | spent => exact Nat.le_refl 0
  | acked same good => simp
  | again same bad later ih => simpa using ih

theorem length_of_failed (h : Tries frame allowed block false) : block.length = allowed := by
  generalize hb : false = acked at h
  induction h with
  | spent => rfl
  | acked same good => cases hb
  | again same bad later ih => simp [ih hb]

theorem not_succeeds_of_failed (h : Tries frame allowed block false) :
    ∀ a ∈ block, ¬ a.Succeeds := by
  generalize hb : false = acked at h
  induction h with
  | spent => simp
  | acked same good => cases hb
  | again same bad later ih => simpa using ⟨bad, ih hb⟩

theorem not_succeeds_of_mem_dropLast (h : Tries frame allowed block acked) :
    ∀ a ∈ block.dropLast, ¬ a.Succeeds := by
  induction h with
  | spent => simp
  | acked same good => simp
  | @again allowed a block acked same bad later ih =>
    intro b hb
    cases block with
    | nil => simp at hb
    | cons c rest =>
      rw [List.dropLast_cons_cons] at hb
      rcases List.mem_cons.1 hb with rfl | hb
      · exact bad
      · exact ih b hb

theorem acked_of_true (h : Tries frame allowed block true) : Acked block := by
  generalize hb : true = acked at h
  induction h with
  | spent => cases hb
  | @acked allowed a same good => exact ⟨a, rfl, good⟩
  | again same bad later ih =>
    obtain ⟨b, hlast, hgood⟩ := ih hb
    exact ⟨b, by simp [List.getLast?_cons, hlast], hgood⟩

theorem not_acked_of_false (h : Tries frame allowed block false) : ¬ Acked block := by
  rintro ⟨a, hlast, hgood⟩
  exact h.not_succeeds_of_failed a (List.mem_of_getLast? hlast) hgood

/-- With an attempt allowed there is one. -/
theorem isBlock {f : Frame} (h : Tries f.encode allowed block acked) (hpos : 0 < allowed) :
    IsBlock allowed f block where
  same := h.same_of_mem
  nonempty := by
    rintro rfl
    cases h
    omega
  within := h.length_le
  once := h.not_succeeds_of_mem_dropLast

end Tries

namespace Relay

variable {budget : Nat} {frames : List Frame} {blocks : List (List Attempt)} {whole : Bool}

theorem blocks_take (h : Relay budget frames blocks whole) (hpos : 0 < budget) :
    List.Forall₂ (IsBlock budget) (frames.take blocks.length) blocks := by
  induction h with
  | done => exact .nil
  | next tries later ih => exact .cons (tries.isBlock hpos) ih
  | failed tries => exact .cons (tries.isBlock hpos) .nil

theorem acked_of_mem_dropLast (h : Relay budget frames blocks whole) :
    ∀ block ∈ blocks.dropLast, Acked block := by
  induction h with
  | done => simp
  | @next frame rest block blocks whole tries later ih =>
    intro b hb
    cases blocks with
    | nil => simp at hb
    | cons c blocks =>
      rw [List.dropLast_cons_cons] at hb
      rcases List.mem_cons.1 hb with rfl | hb
      · exact tries.acked_of_true
      · exact ih b hb
  | failed tries => simp

/-- The frames are all acknowledged just when there is a block for each and all of them succeed. -/
theorem whole_iff (h : Relay budget frames blocks whole) :
    whole = true ↔ blocks.length = frames.length ∧ ∀ block ∈ blocks, Acked block := by
  induction h with
  | done => simp
  | next tries later ih => simp [ih, tries.acked_of_true]
  | failed tries => simp [tries.not_acked_of_false]

theorem last_of_failed (h : Relay budget frames blocks false) :
    ∃ block, blocks.getLast? = some block ∧ block.length = budget ∧ ¬ Acked block := by
  generalize hw : false = whole at h
  induction h with
  | done => cases hw
  | next tries later ih =>
    obtain ⟨block, hlast, hlen, hbad⟩ := ih hw
    exact ⟨block, by simp [List.getLast?_cons, hlast], hlen, hbad⟩
  | @failed frame rest block tries =>
    exact ⟨block, rfl, tries.length_of_failed, tries.not_acked_of_false⟩

end Relay

section Transcripts

variable {log : List Turn} {frame : Bytes} {policy : RetryPolicy} {deadline : Deadline}

theorem yields_attempt {timeout : Millis} {acked : Bool}
    (h : (attempt frame timeout).Yields log acked) :
    ∃ a : Attempt, a.frame = frame ∧ a.timeout = timeout ∧ log = a.turns ∧
      (acked = true ↔ a.Succeeds) := by
  obtain ⟨written, rest, rfl, hwritten⟩ := yields_ask.1 h
  match written with
  | .error e =>
    obtain ⟨rfl, rfl⟩ := yields_pure.1 hwritten
    exact ⟨⟨frame, timeout, .error e, none, by simp⟩, rfl, rfl, rfl, by simp [Attempt.Succeeds]⟩
  | .ok n =>
    simp only [Dialog.pure_bind, monad_bind, monad_pure] at hwritten
    by_cases hn : n = frame.length
    · rw [if_pos hn] at hwritten
      subst hn
      -- The write was whole, so the reply is read.
      obtain ⟨answer, rest, rfl, hread⟩ := yields_ask.1 hwritten
      let a : Attempt := ⟨frame, timeout, .ok frame.length, some answer, by simp⟩
      suffices hacked : rest = [] ∧ (acked = true ↔ answer = .ok Control.ack.encode) by
        obtain ⟨rfl, hacked⟩ := hacked
        exact ⟨a, rfl, rfl, rfl, by simpa [Attempt.Succeeds, a] using hacked⟩
      match answer with
      | .ok bytes =>
        obtain ⟨rfl, rfl⟩ := yields_pure.1 hread
        refine ⟨rfl, ?_⟩
        rw [Except.ok.injEq, ← Control.isWrittenAs_iff]
        unfold Verdict.ofBytes
        cases Control.ack.isWrittenAs bytes <;> cases Control.nack.isWrittenAs bytes <;> simp
      | .error .timeout | .error .closed | .error (.system _) =>
        obtain ⟨rfl, rfl⟩ := yields_pure.1 hread
        exact ⟨rfl, by simp⟩
    · rw [if_neg hn] at hwritten
      obtain ⟨rfl, rfl⟩ := yields_pure.1 hwritten
      exact ⟨⟨frame, timeout, .ok n, none, by simpa using hn⟩, rfl, rfl, rfl,
        by simp [Attempt.Succeeds]⟩

/-- The attempts at a frame, under a deadline that does not pass meanwhile. -/
theorem yields_attempts {allowed : Nat} {r : Retransmission} {result : Except Error UInt32}
    (h : (attempts frame policy deadline allowed r).Yields log result)
    (hd : deadline.Outlasts log) (hr : r.attempt.toNat + allowed < 2^32) :
    ∃ block acked, linkTurns log = block.flatMap Attempt.turns ∧ Tries frame allowed block acked ∧
      Timed policy deadline r block ∧
      (acked = true → ∃ n, result = .ok n ∧ n.toNat = r.attempt.toNat + block.length) ∧
      (acked = false → result =
        .error (.writeFailed (.unacknowledged frame.length (r.attempt.toNat + allowed)))) := by
  -- By induction on the attempts left: the number of those made does not wrap.
  induction allowed generalizing log r with
  | zero =>
    obtain ⟨expired, first, second, rfl, hexp, h⟩ := yields_bind.1 h
    obtain ⟨hfirst, hsecond⟩ := Deadline.outlasts_append.1 hd
    obtain rfl := hasExpired_of_outlasts hexp hfirst
    obtain ⟨rfl, rfl⟩ := yields_pure.1 h
    exact ⟨[], false, by simpa using linkTurns_consult hexp, .spent, by simp [Timed], nofun,
      fun _ => rfl⟩
  | succ allowed ih =>
    obtain ⟨expired, first, second, rfl, hexp, h⟩ := yields_bind.1 h
    obtain ⟨hfirst, hsecond⟩ := Deadline.outlasts_append.1 hd
    obtain rfl := hasExpired_of_outlasts hexp hfirst
    obtain ⟨timeout, clamping, third, rfl, hclamp, h⟩ := yields_bind.1 h
    obtain ⟨acked, tried, fourth, rfl, htry, h⟩ := yields_bind.1 h
    obtain ⟨a, rfl, htimeout, rfl, hacked⟩ := yields_attempt htry
    have hwait : ∃ instant, a.timeout = deadline.clamp (r.nextTimeout policy) instant := by
      rw [htimeout]
      rcases yields_consult hclamp with ⟨-, -, hanswer⟩ | ⟨instant, -, -, hanswer⟩
      · exact ⟨0, hanswer⟩
      · exact ⟨instant, hanswer⟩
    have hlink : linkTurns (first ++ (clamping ++ (a.turns ++ fourth))) =
        a.turns ++ linkTurns fourth := by
      simp [linkTurns_consult hexp, linkTurns_consult hclamp, a.linkTurns_turns]
    have hrecord : r.record.attempt.toNat = r.attempt.toNat + 1 := by
      have hlt : r.attempt.toNat + 1 < 2^32 := by omega
      simpa [Retransmission.record, UInt32.toNat_add] using hlt
    cases acked with
    | true =>
      obtain ⟨rfl, rfl⟩ := yields_pure.1 h
      exact ⟨[a], true, by simpa using hlink, .acked rfl (hacked.1 rfl),
        .cons hrecord hwait (by simp [Timed]), fun _ => ⟨_, rfl, by simpa using hrecord⟩, nofun⟩
    | false =>
      have hfourth : deadline.Outlasts fourth := by
        simp only [Deadline.outlasts_append] at hsecond
        exact hsecond.2.2
      obtain ⟨block, acked, hblock, htries, htimed, hok, herror⟩ := ih h hfourth (by omega)
      have hbad : ¬ a.Succeeds := fun hs => Bool.noConfusion (hacked.2 hs)
      refine ⟨a :: block, acked, by rw [hlink, hblock]; rfl, .again rfl hbad htries,
        htimed.cons hrecord hwait, fun ht => ?_, fun hf => ?_⟩
      · obtain ⟨n, rfl, hn⟩ := hok ht
        exact ⟨n, rfl, by rw [hn, hrecord, List.length_cons]; omega⟩
      · rw [herror hf, hrecord, Nat.add_assoc, Nat.add_comm 1]

theorem yields_sendFrame {result : Except Error UInt32}
    (h : (sendFrame frame policy deadline).Yields log result) (hd : deadline.Outlasts log) :
    ∃ block acked, linkTurns log = block.flatMap Attempt.turns ∧
      Tries frame policy.maxAttempts.toNat block acked ∧ Timed policy deadline {} block ∧
      (acked = true → ∃ n, result = .ok n ∧ n.toNat = block.length) ∧
      (acked = false → result =
        .error (.writeFailed (.unacknowledged frame.length policy.maxAttempts.toNat))) := by
  have hlt := policy.maxAttempts.toNat_lt
  have hends := yields_attempts h hd (by simpa [Retransmission.remaining] using hlt)
  simpa [Retransmission.remaining] using hends

def payloadBytes : List Frame → Nat
  | [] => 0
  | .data _ payload :: rest => payload.length + payloadBytes rest
  | _ :: rest => payloadBytes rest

theorem payloadBytes_append (frames frames' : List Frame) :
    payloadBytes (frames ++ frames') = payloadBytes frames + payloadBytes frames' := by
  induction frames with
  | nil => simp [payloadBytes]
  | cons frame rest ih => cases frame <;> simp [payloadBytes, ih, Nat.add_assoc]

theorem payloadBytes_numbered (sequence : UInt8) (payloads : List Bytes) :
    payloadBytes (numbered sequence payloads) = payloads.flatten.length := by
  induction payloads generalizing sequence with
  | nil => rfl
  | cons payload rest ih => simp [numbered, payloadBytes, ih]

/-- A plan carries its message and nothing else. -/
theorem payloadBytes_plan (message : Bytes) (capacity : Nat) :
    payloadBytes (plan message capacity) = message.length := by
  unfold plan
  split
  · simp_all [payloadBytes]
  · split
    · simp [payloadBytes]
    · simp [payloadBytes, payloadBytes_append, payloadBytes_numbered, flatten_chunks]

structure Counted (before : TransmitMetrics) (sent : List Frame) (blocks : List (List Attempt))
    (after : TransmitMetrics) : Prop where
  frames : after.frames = before.frames + sent.length
  bytes : after.bytes = before.bytes + payloadBytes sent
  attempts : after.frames + after.retransmissions =
    before.frames + before.retransmissions + (blocks.map List.length).sum

theorem Counted.cons {before after : TransmitMetrics} {first : Frame} {rest : List Frame}
    {block : List Attempt} {blocks : List (List Attempt)} {n : UInt32}
    (hn : n.toNat = block.length) (hblock : block ≠ [])
    (h : Counted (before.count first n) rest blocks after) :
    Counted before (first :: rest) (block :: blocks) after := by
  have hpos := List.length_pos_iff.2 hblock
  obtain ⟨hframes, hbytes, hattempts⟩ := h
  refine ⟨?_, ?_, ?_⟩
  · simp only [hframes, TransmitMetrics.count, List.length_cons]
    omega
  · cases first <;> simp [hbytes, TransmitMetrics.count, payloadBytes, Nat.add_assoc]
  · simp only [hattempts, TransmitMetrics.count, List.map_cons, List.sum_cons]
    omega

theorem yields_sendFrames {frames : List Frame} {metrics : TransmitMetrics}
    {result : Except Error TransmitMetrics}
    (h : (sendFrames policy deadline frames metrics).Yields log result)
    (hd : deadline.Outlasts log) :
    ∃ blocks whole, linkTurns log = blocks.flatten.flatMap Attempt.turns ∧
      Relay policy.maxAttempts.toNat frames blocks whole ∧
      (whole = true → ∃ after, result = .ok after ∧ Counted metrics frames blocks after) ∧
      (whole = false → ∃ frame, (frames.take blocks.length).getLast? = some frame ∧ result =
        .error (.writeFailed (.unacknowledged frame.encode.length policy.maxAttempts.toNat))) := by
  induction frames generalizing log metrics with
  | nil =>
    obtain ⟨rfl, rfl⟩ := yields_pure.1 h
    exact ⟨[], true, rfl, .done, fun _ => ⟨metrics, rfl, rfl, rfl, rfl⟩, nofun⟩
  | cons frame rest ih =>
    obtain ⟨sent, first, second, rfl, hsend, h⟩ := yields_bind.1 h
    obtain ⟨hfirst, hsecond⟩ := Deadline.outlasts_append.1 hd
    obtain ⟨block, acked, hblock, htries, -, hok, herror⟩ := yields_sendFrame hsend hfirst
    cases acked with
    | true =>
      obtain ⟨n, rfl, hn⟩ := hok rfl
      obtain ⟨blocks, whole, hblocks, hrelay, hwhole, hfailed⟩ := ih h hsecond
      have hne : block ≠ [] := by
        rintro rfl
        obtain ⟨a, hlast, -⟩ := htries.acked_of_true
        cases hlast
      refine ⟨block :: blocks, whole, ?_, .next htries hrelay, fun hw => ?_, fun hw => ?_⟩
      · simp [hblock, hblocks]
      · obtain ⟨after, rfl, hcount⟩ := hwhole hw
        exact ⟨after, rfl, hcount.cons hn hne⟩
      · obtain ⟨f, hf, rfl⟩ := hfailed hw
        exact ⟨f, by simp [List.getLast?_cons, hf], rfl⟩
    | false =>
      obtain rfl := herror rfl
      obtain ⟨rfl, rfl⟩ := yields_pure.1 h
      exact ⟨[block], false, by simp [hblock], .failed htries, nofun,
        fun _ => ⟨frame, by simp, rfl⟩⟩

end Transcripts

/-- Every sending comes to an end, whatever the link does. Without a deadline that passes, what goes
over the link is a block of attempts at each frame of the plan in turn. All blocks but the last end
with an acknowledgment, and so does the last just when the sending succeeds; else its attempts are
all that are allowed. -/
theorem stop_and_wait (message : Bytes) (capacity : Nat) (policy : RetryPolicy)
    (deadline : Deadline) (hp : policy.maxAttempts ≠ 0) :
    (∀ answers : Surroundings, ∃ log result,
      (sendMessage message capacity policy deadline).Yields log result ∧ answers.Answer [] log) ∧
    ∀ log result, (sendMessage message capacity policy deadline).Yields log result →
      deadline.Outlasts log →
      ∃ blocks : List (List Attempt),
        linkTurns log = blocks.flatten.flatMap Attempt.turns ∧
        List.Forall₂ (IsBlock policy.maxAttempts.toNat)
          ((plan message capacity).take blocks.length) blocks ∧
        (∀ block ∈ blocks.dropLast, Acked block) ∧
        ((∃ metrics, result = .ok metrics) ↔
          blocks.length = (plan message capacity).length ∧ ∀ block ∈ blocks, Acked block) ∧
        (∀ e, result = .error e →
          ∃ frame block, ((plan message capacity).take blocks.length).getLast? = some frame ∧
            blocks.getLast? = some block ∧ ¬ Acked block ∧
            block.length = policy.maxAttempts.toNat ∧
            e = .writeFailed (.unacknowledged frame.encode.length policy.maxAttempts.toNat)) ∧
        ∀ metrics, result = .ok metrics →
          metrics.frames = (plan message capacity).length ∧ metrics.bytes = message.length ∧
          metrics.frames + metrics.retransmissions = (blocks.map List.length).sum := by
  have hpos : 0 < policy.maxAttempts.toNat :=
    Nat.pos_of_ne_zero fun h0 => hp (UInt32.toNat_inj.1 h0)
  refine ⟨fun answers => ?_, fun log result h hd => ?_⟩
  · have honoured := honours_sendMessage message capacity policy deadline
    exact honoured.exists_yields (fun _ h => h) answers []
  · obtain ⟨blocks, whole, hlink, hrelay, hok, herror⟩ := yields_sendFrames h hd
    refine ⟨blocks, hlink, hrelay.blocks_take hpos, hrelay.acked_of_mem_dropLast, ?_, ?_, ?_⟩
    · rw [← hrelay.whole_iff]
      cases whole with
      | true =>
        obtain ⟨after, rfl, -⟩ := hok rfl
        exact ⟨fun _ => rfl, fun _ => ⟨after, rfl⟩⟩
      | false =>
        obtain ⟨frame, -, rfl⟩ := herror rfl
        exact ⟨nofun, nofun⟩
    · rintro e rfl
      cases whole with
      | true =>
        obtain ⟨after, hafter, -⟩ := hok rfl
        cases hafter
      | false =>
        obtain ⟨frame, hframe, he⟩ := herror rfl
        obtain ⟨block, hlast, hlen, hbad⟩ := hrelay.last_of_failed
        exact ⟨frame, block, hframe, hlast, hbad, hlen, Except.error.inj he⟩
    · rintro metrics rfl
      cases whole with
      | true =>
        obtain ⟨after, hafter, hframes, hbytes, hattempts⟩ := hok rfl
        cases hafter
        rw [payloadBytes_plan] at hbytes
        exact ⟨by simpa using hframes, by simpa using hbytes, by simpa using hattempts⟩
      | false =>
        obtain ⟨frame, -, hf⟩ := herror rfl
        cases hf

-- The checksums of the replies are worked out here.
set_option maxRecDepth 8000

/-- Two frames of four: the second one is refused once, and then cannot be written. -/
theorem stop_and_wait_given_up :
    ∃ log, (sendMessage [0x61, 0x62] 1 { maxAttempts := 2 } .never).Yields log
        (.error (.writeFailed (.unacknowledged 4 2))) ∧
      ∃ blocks : List (List Attempt), linkTurns log = blocks.flatten.flatMap Attempt.turns ∧
        ∃ block, blocks.getLast? = some block ∧ ¬ Acked block ∧ block.length = 2 := by
  let log : List Turn := [
    .write [0x0c, 0x6a] 200 (.ok 2), .read 256 200 (.ok Control.ack.encode),
    .write [0x10, 0x01, 0x61, 0x39] 200 (.ok 4), .read 256 200 (.ok Control.nack.encode),
    .write [0x10, 0x01, 0x61, 0x39] 200 (.error .closed)]
  have h : (sendMessage [0x61, 0x62] 1 { maxAttempts := 2 } .never).Yields log
      (.error (.writeFailed (.unacknowledged 4 2))) := by
    apply Yields.write (.ok 2) rfl
    apply Yields.read (.ok Control.ack.encode) rfl
    apply Yields.write (.ok 4) rfl
    apply Yields.read (.ok Control.nack.encode) rfl
    apply Yields.write (.error .closed) rfl
    exact .done rfl
  obtain ⟨blocks, hlink, -, -, -, herror, -⟩ :=
    (stop_and_wait [0x61, 0x62] 1 { maxAttempts := 2 } .never (by decide)).2 log _ h
      (by simp [Deadline.Outlasts, log])
  obtain ⟨frame, block, -, hlast, hbad, hlen, -⟩ := herror _ rfl
  exact ⟨log, h, blocks, hlink, block, hlast, hbad, hlen⟩

end Transmission

end StopAndWait
