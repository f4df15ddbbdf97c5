import StopAndWait.Proofs.Assembly
import StopAndWait.Proofs.Hearing

/-!
The receive loop round by round, as long as its deadline does not pass: one read and at most one
reply in each, the exchange that they lead to, and the account that the metrics keep of them.
-/
namespace StopAndWait

def Turn.isRead : Turn → Bool
  | read _ _ _ => true
  | write _ _ _ | now _ | note _ => false

structure Round where
  wait : Millis
  read : Except LinkError Bytes
  reply : Option (Control × Except LinkError Nat)

namespace Round

def turns (capacity : Nat) (replyTimeout : Millis) (a : Round) : List Turn :=
  .read capacity a.wait a.read :: Reception.replying replyTimeout a.reply

def isHeard (a : Round) : Bool := a.read.isOk

def isAnswered (kind : Control) (a : Round) : Bool :=
  match a.reply with
  | some (reply, .ok n) => reply = kind ∧ n = reply.encode.length
  | _ => false

theorem isAnswered_iff {a : Round} {kind : Control} :
    a.isAnswered kind = true ↔ a.reply = some (kind, .ok kind.encode.length) := by
  match a with
  | ⟨_, _, none⟩ | ⟨_, _, some (_, .error _)⟩ => simp [isAnswered]
  | ⟨_, _, some (reply, .ok n)⟩ =>
    simp only [isAnswered, decide_eq_true_eq, Option.some.injEq, Prod.mk.injEq, Except.ok.injEq]
    exact and_congr_right fun h => h ▸ Iff.rfl

/-- A reply that was not written as a whole does not count. -/
theorem isAnswered_of_short {reply : Control} {written : Except LinkError Nat}
    {fault : TransferFault} (short : reply.fault? written = some fault) (kind : Control)
    (wait : Millis) (read : Except LinkError Bytes) :
    isAnswered kind ⟨wait, read, some (reply, written)⟩ = false := by
  rw [Bool.eq_false_iff]
  intro hanswered
  obtain ⟨rfl, rfl⟩ := Prod.mk.inj (Option.some.inj (isAnswered_iff.1 hanswered))
  exact Control.ne_whole_of_fault short rfl

/-- A whole reply counts once. -/
theorem countP_whole {kind : Control} (h : kind = .ack ∨ kind = .nack) (wait : Millis)
    (buffer : Bytes) :
    let a : Round := ⟨wait, .ok buffer, some (kind, .ok kind.encode.length)⟩
    [a].countP isHeard = [a].countP (isAnswered .ack) + [a].countP (isAnswered .nack) := by
  rcases h with rfl | rfl <;> rfl

/-- The rounds of a receive loop can be read off its turns with the link. -/
theorem flatMap_turns_injective (capacity : Nat) (replyTimeout : Millis) :
    Function.Injective (List.flatMap (turns capacity replyTimeout)) := by
  intro rounds rounds' h
  induction rounds generalizing rounds' with
  | nil =>
    cases rounds' with
    | nil => rfl
    | cons => cases h
  | cons a rest ih =>
    cases rounds' with
    | nil => cases h
    | cons b rest' =>
      obtain ⟨wait, read, reply⟩ := a
      obtain ⟨wait', read', reply'⟩ := b
      simp only [List.flatMap_cons, turns, List.cons_append, List.cons.injEq, Turn.read.injEq,
        true_and] at h
      obtain ⟨⟨rfl, rfl⟩, h⟩ := h
      -- The next turn tells whether there was a reply: a round begins with a read.
      match reply, reply' with
      | none, none => rw [ih h]
      | none, some _ =>
        cases rest with
        | nil => cases h
        | cons => cases h
      | some _, none =>
        cases rest' with
        | nil => cases h
        | cons => cases h
      | some (kind, written), some (kind', written') =>
        obtain ⟨hwrite, hrest⟩ := List.cons.inj h
        obtain ⟨hkind, -, rfl⟩ := Turn.write.inj hwrite
        rw [Control.encode_injective hkind, ih hrest]

end Round

namespace Exchange

def listened (x : Exchange) : Except LinkError Bytes → Exchange
  | .error _ => x
  | .ok buffer => match x.onBuffer buffer with
    | .ok (_, y) => y
    | .error _ => x

def through (x : Exchange) (rounds : List Round) : Exchange :=
  rounds.foldl (fun x a => x.listened a.read) x

/-- What is answered with a NACK: damage, and data out of order. -/
def Refuses (x : Exchange) (buffer : Bytes) : Prop :=
  isIntact buffer = false ∨ ∃ sequence payload,
    Frame.decode? buffer = some (.data sequence payload) ∧ sequence ≠ x.sequence ∧
      sequence ≠ x.sequence + 1

@[simp] theorem through_nil (x : Exchange) : x.through [] = x := rfl

@[simp] theorem through_cons (x : Exchange) (a : Round) (rounds : List Round) :
    x.through (a :: rounds) = (x.listened a.read).through rounds := rfl

variable {x y : Exchange} {buffer : Bytes} {reply : Control} {outcome : Outcome}

theorem listened_of_onBuffer {step : Step} (h : x.onBuffer buffer = .ok (step, y)) :
    x.listened (.ok buffer) = y := by
  simp only [listened, h]

theorem listened_of_error {e : Error} (h : x.onBuffer buffer = .error e) :
    x.listened (.ok buffer) = x := by
  simp only [listened, h]

/-- Of all intact frames only data out of order is refused. -/
theorem reply_onFrame_iff (x : Exchange) (frame : Frame) :
    (x.onFrame frame).1.reply = .nack ↔ ∃ sequence payload, frame = .data sequence payload ∧
      sequence ≠ x.sequence ∧ sequence ≠ x.sequence + 1 := by
  cases frame with
  | data sequence payload =>
    rcases x.onFrame_data_cases sequence with rfl | rfl | ⟨hr, hn⟩
    · simp [onFrame_repeated, Step.ack]
    · simp [onFrame_next, Step.ack]
    · simp [onFrame_refused payload hr hn, Step.nack, hr, hn]
  | unknown code => simp [onFrame, Step.ack]
  | control kind =>
    cases kind with
    | ack | nack | seqBegin | seqEnd => simp [onFrame, Step.ack]
    | setSend | setRecv =>
      simp only [onFrame, onSwitch]
      split <;> simp [Step.ack]

theorem isReply_of_onBuffer (h : x.onBuffer buffer = .ok (⟨reply, outcome⟩, y)) :
    reply = .ack ∨ reply = .nack :=
  (ack_or_nack_of_onBuffer h).imp_right And.left

theorem nack_iff_of_onBuffer (h : x.onBuffer buffer = .ok (⟨reply, outcome⟩, y)) :
    reply = .nack ↔ x.Refuses buffer := by
  rcases onBuffer_eq_ok_iff.1 h with ⟨hdamaged, hrefused⟩ | ⟨hintact, frame, hframe, hstep⟩
  · cases hrefused
    exact iff_of_true rfl (.inl hdamaged)
  · have hreply : reply = (x.onFrame frame).1.reply := by rw [hstep]
    rw [hreply, reply_onFrame_iff]
    simp [Refuses, hintact, hframe]

/-- What is not refused is acknowledged. -/
theorem reply_of_onBuffer (h : x.onBuffer buffer = .ok (⟨reply, outcome⟩, y)) :
    (x.Refuses buffer → reply = .nack) ∧ (¬ x.Refuses buffer → reply = .ack) := by
  rw [← nack_iff_of_onBuffer h]
  exact ⟨id, (isReply_of_onBuffer h).resolve_right⟩

theorem buffer_of_switched {mode : Mode} (h : x.onBuffer buffer = .ok (⟨reply, .switched mode⟩, y)) :
    y.buffer = [] := by
  rcases onBuffer_eq_ok_iff.1 h with ⟨-, hrefused⟩ | ⟨-, frame, -, hstep⟩
  · cases hrefused
  · revert hstep
    fun_cases onFrame x frame <;> grind [onSwitch, onData, Step.ack, Step.nack, withMode, reset]

end Exchange

structure Round.IsDue (x : Exchange) (a : Round) (isLast : Prop) : Prop where
  -- Only buffers are answered. A read that fails ends the loop, and one that times out does not.
  unheard : ∀ e, a.read = .error e → a.reply = none ∧ (isLast ↔ e ≠ .timeout)
  -- The one buffer without a reply is the one that is no frame.
  unanswered : ∀ buffer, a.read = .ok buffer → a.reply = none →
    isLast ∧ x.onBuffer buffer = .error (.invalidFrame buffer.length)
  answered : ∀ buffer kind written, a.read = .ok buffer → a.reply = some (kind, written) →
    (x.Refuses buffer → kind = .nack) ∧ (¬ x.Refuses buffer → kind = .ack) ∧
      ∃ outcome y, x.onBuffer buffer = .ok (⟨kind, outcome⟩, y) ∧
        (isLast ↔ outcome ≠ .proceed ∨ written ≠ .ok kind.encode.length)

inductive Round.Ends (x : Exchange) (a : Round) : Except Error Received → Nat → Prop
  | broken {e : LinkError} (read : a.read = .error e) :
    Ends x a (.error (.readFailed (.link e))) 0
  | malformed {buffer : Bytes} (read : a.read = .ok buffer) (reply : a.reply = none) :
    Ends x a (.error (.invalidFrame buffer.length)) 1
  | unanswered {buffer : Bytes} {kind : Control} {written : Except LinkError Nat}
    {fault : TransferFault} (read : a.read = .ok buffer) (reply : a.reply = some (kind, written))
    (short : kind.fault? written = some fault) : Ends x a (.error (.readFailed fault)) 1
  | complete {buffer : Bytes} {kind : Control} {y : Exchange} (read : a.read = .ok buffer)
    (reply : a.reply = some (kind, .ok kind.encode.length))
    (step : x.onBuffer buffer = .ok (⟨kind, .complete⟩, y)) : Ends x a (.ok .message) 0
  | switched {buffer : Bytes} {kind : Control} {mode : Mode} {y : Exchange}
    (read : a.read = .ok buffer) (reply : a.reply = some (kind, .ok kind.encode.length))
    (step : x.onBuffer buffer = .ok (⟨kind, .switched mode⟩, y)) :
    Ends x a (.ok (.switched mode)) 0

structure ReceiveMetrics.Tallies (before : ReceiveMetrics) (rounds : List Round)
    (after : ReceiveMetrics) : Prop where
  frames : after.frames = before.frames + rounds.countP Round.isHeard
  acks : after.acks = before.acks + rounds.countP (Round.isAnswered .ack)
  nacks : after.nacks = before.nacks + rounds.countP (Round.isAnswered .nack)

theorem ReceiveMetrics.Tallies.cons {before mid after : ReceiveMetrics} {a : Round}
    {rounds : List Round} (h : before.Tallies [a] mid) (later : mid.Tallies rounds after) :
    before.Tallies (a :: rounds) after := by
  obtain ⟨hframes, hacks, hnacks⟩ := h
  simp only [List.countP_singleton] at hframes hacks hnacks
  constructor
  · rw [later.frames, hframes, List.countP_cons]
    omega
  · rw [later.acks, hacks, List.countP_cons]
    omega
  · rw [later.nacks, hnacks, List.countP_cons]
    omega

namespace Reception

open Dialog

variable {capacity : Nat} {replyTimeout : Millis} {deadline : Deadline}

inductive Met (r : Reception) : Round → Reception ⊕ End → Prop
  | missed (wait : Millis) : Met r ⟨wait, .error .timeout, none⟩ (.inl r)
  | broken (wait : Millis) {e : LinkError} (real : e ≠ .timeout) :
    Met r ⟨wait, .error e, none⟩ (.inr (.error (.readFailed (.link e)), r))
  | taken (wait : Millis) {buffer : Bytes} {reply : Option (Control × Except LinkError Nat)}
    {out : Reception ⊕ End} (taken : r.Taken buffer reply out) : Met r ⟨wait, .ok buffer, reply⟩ out

inductive Rounds (deadline : Deadline) : Reception → List Round → End → Prop
  | last {r : Reception} {a : Round} {finish : End}
    (wait : ∃ instant, a.wait = deadline.remaining instant) (met : r.Met a (.inr finish)) :
    Rounds deadline r [a] finish
  | again {r s : Reception} {a : Round} {rounds : List Round} {finish : End}
    (wait : ∃ instant, a.wait = deadline.remaining instant) (met : r.Met a (.inl s))
    (later : Rounds deadline s rounds finish) : Rounds deadline r (a :: rounds) finish

theorem linkTurns_replying (reply : Option (Control × Except LinkError Nat)) :
    linkTurns (replying replyTimeout reply) = replying replyTimeout reply := by
  cases reply <;> rfl

theorem linkTurns_closing (out : Reception ⊕ End) : linkTurns (closing out) = [] := by
  unfold closing
  split <;> rfl

theorem met_of_yields {r : Reception} {log : List Turn} {out : Reception ⊕ End}
    (h : (round capacity replyTimeout deadline r).Yields log out) (hd : deadline.Outlasts log) :
    ∃ a : Round, (∃ instant, a.wait = deadline.remaining instant) ∧ r.Met a out ∧
      linkTurns log = a.turns capacity replyTimeout := by
  obtain ⟨expired, first, second, rfl, hexp, h⟩ := yields_bind.1 h
  obtain ⟨hfirst, -⟩ := Deadline.outlasts_append.1 hd
  obtain rfl := hasExpired_of_outlasts hexp hfirst
  obtain ⟨wait, third, fourth, rfl, hleft, h⟩ := yields_bind.1 h
  have hwait : ∃ instant, wait = deadline.remaining instant := by
    rcases yields_consult hleft with ⟨-, -, hwait⟩ | ⟨instant, -, -, hwait⟩
    · exact ⟨0, hwait⟩
    · exact ⟨instant, hwait⟩
  have hclock : linkTurns (first ++ (third ++ fourth)) = linkTurns fourth := by
    simp [linkTurns_consult hexp, linkTurns_consult hleft]
  rw [hclock]
  obtain ⟨answer, rest, rfl, hread⟩ := yields_ask.1 h
  match answer with
  | .ok buffer =>
    obtain ⟨reply, htaken, rfl⟩ := taken_of_yields hread
    refine ⟨⟨wait, .ok buffer, reply⟩, hwait, .taken wait htaken, ?_⟩
    have hrest : linkTurns (replying replyTimeout reply ++ closing out) =
        replying replyTimeout reply := by
      rw [linkTurns_append, linkTurns_replying, linkTurns_closing, List.append_nil]
    exact congrArg (List.cons (.read capacity wait (.ok buffer))) hrest
  | .error .timeout =>
    obtain ⟨rfl, rfl⟩ := yields_pure.1 hread
    exact ⟨_, hwait, .missed wait, rfl⟩
  | .error .closed | .error (.system _) =>
    obtain ⟨rfl, rfl⟩ := yields_pure.1 hread
    exact ⟨_, hwait, .broken wait nofun, rfl⟩

theorem rounds_of_yields {r : Reception} {log : List Turn} {finish : End}
    (h : (receive capacity replyTimeout deadline r).Yields log finish)
    (hd : deadline.Outlasts log) :
    ∃ rounds, Rounds deadline r rounds finish ∧
      linkTurns log = rounds.flatMap (Round.turns capacity replyTimeout) := by
  revert hd
  refine yields_iterate (P := fun r log finish => deadline.Outlasts log →
    ∃ rounds, Rounds deadline r rounds finish ∧
      linkTurns log = rounds.flatMap (Round.turns capacity replyTimeout)) ?_ ?_ h
  · intro r s log log' finish hround hlater hd
    obtain ⟨hfirst, hsecond⟩ := Deadline.outlasts_append.1 hd
    obtain ⟨a, hwait, hmet, hlink⟩ := met_of_yields hround hfirst
    obtain ⟨rounds, hrounds, hlinks⟩ := hlater hsecond
    exact ⟨a :: rounds, .again hwait hmet hrounds, by simp [hlink, hlinks]⟩
  · intro r log finish hround hd
    obtain ⟨a, hwait, hmet, hlink⟩ := met_of_yields hround hd
    exact ⟨[a], .last hwait hmet, by simp [hlink]⟩

def left : Reception ⊕ End → Reception
  | .inl r | .inr (_, r) => r

def Lacks (x : Exchange) (a : Round) (missing : Nat) : Reception ⊕ End → Prop
  | .inl _ => missing = 0
  | .inr (result, _) => a.Ends x result missing

def Gauges (before : Nat) : Reception ⊕ End → Prop
  | .inl r | .inr (.error _, r) => r.metrics.bytes = before
  | .inr (.ok .message, r) => r.metrics.bytes = r.exchange.buffer.length
  | .inr (.ok (.switched _), r) => r.metrics.bytes = 0

namespace Met

variable {r : Reception} {a : Round} {out : Reception ⊕ End}

theorem exchange_eq (h : r.Met a out) : (left out).exchange = r.exchange.listened a.read := by
  cases h with
  | missed | broken => rfl
  | taken wait htaken =>
    cases htaken with
    | malformed step => exact (Exchange.listened_of_error step).symm
    | unanswered step | proceed step | complete step | switched step =>
      exact (Exchange.listened_of_onBuffer step).symm

theorem next_eq {s : Reception} (h : r.Met a (.inl s)) :
    s.exchange = r.exchange.listened a.read :=
  h.exchange_eq

theorem isDue (h : r.Met a out) : a.IsDue r.exchange (out.isRight = true) := by
  cases h with
  | missed =>
    refine ⟨fun e he => ?_, nofun, nofun⟩
    cases he
    exact ⟨rfl, by simp⟩
  | broken wait real =>
    refine ⟨fun e he => ?_, nofun, nofun⟩
    cases he
    exact ⟨rfl, by simpa using real⟩
  | taken wait htaken =>
    refine ⟨nofun, fun buffer hread hnone => ?_, fun buffer kind written hread hreply => ?_⟩
    · cases hread
      cases htaken with
      | malformed step => exact ⟨rfl, Exchange.error_of_onBuffer step ▸ step⟩
      | unanswered | proceed | complete | switched => cases hnone
    · cases hread
      cases htaken with
      | malformed => cases hreply
      | unanswered step short =>
        cases hreply
        obtain ⟨hnack, hack⟩ := Exchange.reply_of_onBuffer step
        have hwhole := Control.ne_whole_of_fault short
        exact ⟨hnack, hack, _, _, step, iff_of_true rfl (.inr hwhole)⟩
      | proceed step | complete step | switched step =>
        cases hreply
        obtain ⟨hnack, hack⟩ := Exchange.reply_of_onBuffer step
        exact ⟨hnack, hack, _, _, step, by simp⟩

theorem tallies (h : r.Met a out) : r.metrics.Tallies [a] (left out).metrics := by
  cases h with
  | missed | broken => exact ⟨rfl, rfl, rfl⟩
  | taken wait htaken =>
    cases htaken with
    | malformed => exact ⟨rfl, rfl, rfl⟩
    | unanswered step short =>
      constructor
      · rfl
      · rw [List.countP_singleton, Round.isAnswered_of_short short]
        rfl
      · rw [List.countP_singleton, Round.isAnswered_of_short short]
        rfl
    | proceed step | complete step | switched step =>
      rcases Exchange.isReply_of_onBuffer step with rfl | rfl <;> exact ⟨rfl, rfl, rfl⟩

theorem lacks (h : r.Met a out) : ∃ missing, Lacks r.exchange a missing out ∧
    [a].countP Round.isHeard = [a].countP (Round.isAnswered .ack) +
      [a].countP (Round.isAnswered .nack) + missing := by
  cases h with
  | missed => exact ⟨0, rfl, rfl⟩
  | broken => exact ⟨0, .broken rfl, rfl⟩
  | taken wait htaken =>
    cases htaken with
    | malformed step =>
      obtain rfl := Exchange.error_of_onBuffer step
      exact ⟨1, .malformed rfl rfl, rfl⟩
    | unanswered step short =>
      refine ⟨1, .unanswered rfl rfl short, ?_⟩
      simp only [List.countP_singleton, Round.isAnswered_of_short short]
      rfl
    | proceed step =>
      exact ⟨0, rfl, Round.countP_whole (Exchange.isReply_of_onBuffer step) wait _⟩
    | complete step =>
      exact ⟨0, .complete rfl rfl step, Round.countP_whole (Exchange.isReply_of_onBuffer step) wait _⟩
    | switched step =>
      exact ⟨0, .switched rfl rfl step, Round.countP_whole (Exchange.isReply_of_onBuffer step) wait _⟩

theorem gauges (h : r.Met a out) : Gauges r.metrics.bytes out := by
  cases h with
  | missed | broken => rfl
  | taken wait htaken =>
    cases htaken with
    | malformed | unanswered | complete => rfl
    | @proceed x reply step => cases reply <;> rfl
    | switched step => exact congrArg List.length (Exchange.buffer_of_switched step)

end Met

namespace Rounds

variable {r : Reception} {rounds : List Round} {finish : End}

theorem ne_nil (h : Rounds deadline r rounds finish) : rounds ≠ [] := by
  cases h <;> exact List.cons_ne_nil _ _

theorem exchange_eq (h : Rounds deadline r rounds finish) :
    finish.2.exchange = r.exchange.through rounds := by
  induction h with
  | last wait met => exact met.exchange_eq
  | again wait met later ih => rw [ih, Exchange.through_cons, met.next_eq]

theorem tallies (h : Rounds deadline r rounds finish) :
    r.metrics.Tallies rounds finish.2.metrics := by
  induction h with
  | last wait met => exact met.tallies
  | again wait met later ih => exact met.tallies.cons ih

theorem gauges (h : Rounds deadline r rounds finish) : Gauges r.metrics.bytes (.inr finish) := by
  induction h with
  | last wait met => exact met.gauges
  | again wait met later ih => exact met.gauges ▸ ih

theorem isDue (h : Rounds deadline r rounds finish) {i : Nat} {a : Round}
    (ha : rounds[i]? = some a) :
    a.IsDue (r.exchange.through (rounds.take i)) (i + 1 = rounds.length) := by
  induction h generalizing i with
  | last wait met =>
    cases i with
    | zero =>
      obtain rfl := Option.some.inj ha
      simpa using met.isDue
    | succ i => simp at ha
  | again wait met later ih =>
    cases i with
    | zero =>
      obtain rfl := Option.some.inj ha
      simpa [later.ne_nil] using met.isDue
    | succ i =>
      have hlater := ih ha
      rw [met.next_eq] at hlater
      simpa using hlater

theorem ends (h : Rounds deadline r rounds finish) : ∃ a missing, rounds.getLast? = some a ∧
    a.Ends (r.exchange.through rounds.dropLast) finish.1 missing ∧
    rounds.countP Round.isHeard = rounds.countP (Round.isAnswered .ack) +
      rounds.countP (Round.isAnswered .nack) + missing := by
  induction h with
  | last wait met =>
    obtain ⟨missing, hends, hcount⟩ := met.lacks
    exact ⟨_, missing, rfl, hends, hcount⟩
  | @again r s a rounds finish wait met later ih =>
    obtain ⟨b, missing, hlast, hends, hcount⟩ := ih
    obtain ⟨none, rfl, hnone⟩ := met.lacks
    obtain ⟨first, rest, rfl⟩ := List.exists_cons_of_ne_nil later.ne_nil
    refine ⟨b, missing, ?_, ?_, ?_⟩
    · rw [List.getLast?_cons_cons, hlast]
    · rw [List.dropLast_cons_cons, Exchange.through_cons, ← met.next_eq]
      exact hends
    · simp only [List.countP_singleton, Nat.add_zero] at hnone
      simp only [List.countP_cons (a := a), hnone, hcount]
      omega

end Rounds

theorem loopless_take (r : Reception) (buffer : Bytes) :
    Honours .loopless (fun _ _ => True) () (r.take replyTimeout buffer) := by
  refine honours_ask trivial fun _ => ?_
  simp only [Dialog.pure_bind, monad_bind, monad_pure]
  cases r.exchange.onBuffer buffer with
  | error e => exact honours_pure trivial
  | ok made =>
    obtain ⟨⟨reply, outcome⟩, x⟩ := made
    refine honours_ask trivial fun written => ?_
    match written with
    | .error e => exact honours_pure trivial
    | .ok n =>
      simp only [Dialog.pure_bind, monad_pure]
      by_cases hn : n = reply.encode.length
      · rw [if_pos hn]
        cases outcome with
        | proceed | switched => exact honours_pure trivial
        | complete => exact honours_ask trivial fun _ => honours_pure trivial
      · rw [if_neg hn]
        exact honours_pure trivial

theorem loopless_round (r : Reception) :
    Honours .loopless (fun _ _ => True) () (round capacity replyTimeout deadline r) := by
  refine (loopless_consult deadline deadline.isExpired).bind fun _ expired _ => ?_
  cases expired with
  | true => exact honours_pure trivial
  | false =>
    refine (loopless_consult deadline deadline.remaining).bind fun _ wait _ => ?_
    refine honours_ask trivial fun answer => ?_
    match answer with
    | .ok buffer => exact loopless_take r buffer
    | .error .timeout | .error .closed | .error (.system _) => exact honours_pure trivial

end Reception

def brought (capacity : Nat) (events : List (Except LinkError Bytes)) : Except LinkError Bytes :=
  (events.headD (.error .closed)).map (·.take capacity)

def Surroundings.script (events : List (Except LinkError Bytes))
    (writes : List Turn → Bytes → Except LinkError Nat) : Surroundings
  | past, .read capacity _ => brought capacity (events.drop (past.countP Turn.isRead))
  | past, .write bytes _ => writes past bytes
  | _, .now => 0
  | _, .note _ => ()

def Reads : List (Except LinkError Bytes) → List Turn → Prop
  | _, [] => True
  | events, .read capacity _ answer :: log => answer = brought capacity events ∧ Reads events.tail log
  | events, _ :: log => Reads events log

section Script

variable {events : List (Except LinkError Bytes)} {writes : List Turn → Bytes → Except LinkError Nat}
  {past log : List Turn}

theorem reads_of_answer (h : (Surroundings.script events writes).Answer past log) :
    Reads (events.drop (past.countP Turn.isRead)) log := by
  induction log generalizing past with
  | nil => trivial
  | cons turn log ih =>
    obtain ⟨⟨request, rfl⟩, hlater⟩ := h
    have hreads := ih hlater
    rw [List.countP_append] at hreads
    cases request with
    | read capacity timeout =>
      refine ⟨rfl, ?_⟩
      rwa [List.tail_drop]
    | write | now | note => exact hreads

theorem reads_linkTurns : Reads events (linkTurns log) ↔ Reads events log := by
  induction log generalizing events with
  | nil => rfl
  | cons turn log ih =>
    cases turn with
    | read => exact and_congr_right fun _ => ih
    | write | now | note => exact ih

theorem countP_linkTurns (log : List Turn) :
    (linkTurns log).countP Turn.isRead = log.countP Turn.isRead := by
  rw [linkTurns, List.countP_filter]
  refine List.countP_congr fun turn _ => ?_
  cases turn <;> simp [Turn.isRead, Turn.isOnLink]

namespace Round

variable {capacity : Nat} {replyTimeout : Millis}

theorem reads_turns_append (a : Round) :
    Reads events (a.turns capacity replyTimeout ++ log) ↔
      a.read = brought capacity events ∧ Reads events.tail log := by
  obtain ⟨wait, read, reply⟩ := a
  cases reply <;> rfl

theorem countP_turns (a : Round) : (a.turns capacity replyTimeout).countP Turn.isRead = 1 := by
  obtain ⟨wait, read, reply⟩ := a
  cases reply <;> rfl

end Round

end Script

namespace Reception

open Dialog

variable {capacity : Nat} {replyTimeout : Millis}
  {events : List (Except LinkError Bytes)} {writes : List Turn → Bytes → Except LinkError Nat}

theorem exists_yields_round (capacity : Nat) (replyTimeout : Millis) (r : Reception)
    (events : List (Except LinkError Bytes)) (writes : List Turn → Bytes → Except LinkError Nat)
    (past : List Turn) :
    ∃ log out a, (round capacity replyTimeout .never r).Yields log out ∧
      (Surroundings.script events writes).Answer past log ∧ r.Met a out ∧
      a.read = brought capacity (events.drop (past.countP Turn.isRead)) ∧
      log.countP Turn.isRead = 1 := by
  obtain ⟨log, out, hround, hanswer⟩ :=
    (loopless_round r).exists_yields_of_loopless (Surroundings.script events writes) past
  obtain ⟨a, -, hmet, hlink⟩ := met_of_yields hround (Deadline.outlasts_never log)
  have hreads := reads_linkTurns.2 (reads_of_answer hanswer)
  rw [hlink, ← List.append_nil (a.turns capacity replyTimeout), Round.reads_turns_append] at hreads
  refine ⟨log, out, a, hround, hanswer, hmet, hreads.1, ?_⟩
  rw [← countP_linkTurns, hlink, Round.countP_turns]

/-- At any script the loop comes to an end. -/
theorem exists_yields_receive (r : Reception) (past : List Turn) :
    ∃ log finish, (receive capacity replyTimeout .never r).Yields log finish ∧
      (Surroundings.script events writes).Answer past log := by
  generalize hqueue : events.drop (past.countP Turn.isRead) = queue
  induction queue generalizing r past with
  | nil =>
    obtain ⟨log, out, a, hround, hanswer, hmet, hread, -⟩ :=
      exists_yields_round capacity replyTimeout r events writes past
    rw [hqueue] at hread
    cases out with
    | inr finish => exact ⟨log, finish, hround.last, hanswer⟩
    -- The link is closed.
    | inl s => cases hmet <;> cases hread
  | cons event queue ih =>
    obtain ⟨log, out, a, hround, hanswer, hmet, hread, hcount⟩ :=
      exists_yields_round capacity replyTimeout r events writes past
    cases out with
    | inr finish => exact ⟨log, finish, hround.last, hanswer⟩
    | inl s =>
      have hrest : events.drop ((past ++ log).countP Turn.isRead) = queue := by
        rw [List.countP_append, hcount, ← List.tail_drop, hqueue, List.tail_cons]
      obtain ⟨log', finish, hlater, hanswer'⟩ := ih s (past ++ log) hrest
      exact ⟨log ++ log', finish, hround.again hlater,
        Surroundings.answer_append.2 ⟨hanswer, hanswer'⟩⟩

/-- The receive loop comes to an end at every script of reads, however its writes go. Under a
deadline that does not pass it goes round by round: each buffer is answered at most once, with a
NACK if it is damaged or data out of order and else with an ACK, and nothing is read before the
reply has gone out as a whole. The first buffer with another outcome than to proceed is the last,
and so is the first read that fails and the first reply that does. Each buffer counts as a frame,
each whole reply as what it is; the last round tells the result, and whether its buffer is one for
which no reply counts. -/
theorem receive_accounts (capacity : Nat) (replyTimeout : Millis) (r : Reception) :
    (∀ (events : List (Except LinkError Bytes))
      (writes : List Turn → Bytes → Except LinkError Nat), ∃ log finish,
      (receive capacity replyTimeout .never r).Yields log finish ∧
        (Surroundings.script events writes).Answer [] log) ∧
    ∀ (deadline : Deadline) (log : List Turn) (result : Except Error Received) (r' : Reception),
      (receive capacity replyTimeout deadline r).Yields log (result, r') →
      deadline.Outlasts log →
      ∃ rounds : List Round,
        linkTurns log = rounds.flatMap (Round.turns capacity replyTimeout) ∧
        (∀ (i : Nat) (a : Round), rounds[i]? = some a →
          a.IsDue (r.exchange.through (rounds.take i)) (i + 1 = rounds.length)) ∧
        r'.exchange = r.exchange.through rounds ∧
        r.metrics.Tallies rounds r'.metrics ∧
        (∃ a missing, rounds.getLast? = some a ∧
          a.Ends (r.exchange.through rounds.dropLast) result missing ∧
          rounds.countP Round.isHeard = rounds.countP (Round.isAnswered .ack) +
            rounds.countP (Round.isAnswered .nack) + missing) ∧
        (result = .ok .message → completed log = [r'.exchange.buffer] ∧
          r'.metrics.bytes = r'.exchange.buffer.length) ∧
        (∀ mode, result = .ok (.switched mode) → r'.metrics.bytes = 0) ∧
        ∀ e, result = .error e → r'.metrics.bytes = r.metrics.bytes := by
  refine ⟨fun events writes => exists_yields_receive r [], fun deadline log result r' h hd => ?_⟩
  obtain ⟨rounds, hrounds, hlink⟩ := rounds_of_yields h hd
  have hbytes := hrounds.gauges
  refine ⟨rounds, hlink, fun i a => hrounds.isDue, hrounds.exchange_eq, hrounds.tallies,
    hrounds.ends, ?_, ?_, ?_⟩
  · rintro rfl
    exact ⟨(heard_of_yields h).completed_eq, hbytes⟩
  · rintro mode rfl
    exact hbytes
  · rintro e rfl
    exact hbytes

-- The checksums of the buffers are worked out here.
set_option maxRecDepth 8000

/-- A damaged buffer, silence, and a data frame whose acknowledgment is cut short. -/
theorem receive_accounts_of_cut_short : ∃ log r',
    (receive 256 100 .never ⟨{}, {}⟩).Yields log
      (.error (.readFailed (.replyCutShort .ack 1)), r') ∧
    ∃ rounds : List Round, linkTurns log = rounds.flatMap (Round.turns 256 100) ∧
      r'.exchange = ({} : Exchange).through rounds ∧
      r'.metrics.frames = r'.metrics.acks + r'.metrics.nacks + 1 := by
  let frame : Bytes := (Frame.data 1 [0x61]).encode
  let log : List Turn := [
    .read 256 Millis.unlimited (.ok [0x01]), .note (.consumed [0x01]),
    .write Control.nack.encode 100 (.ok 2),
    .read 256 Millis.unlimited (.error .timeout),
    .read 256 Millis.unlimited (.ok frame), .note (.consumed frame),
    .write Control.ack.encode 100 (.ok 1)]
  let r' : Reception := ⟨⟨.undefined, 1, false, [0x61], []⟩, ⟨2, 0, 1, 0⟩⟩
  have h : (receive 256 100 .never ⟨{}, {}⟩).Yields log
      (.error (.readFailed (.replyCutShort .ack 1)), r') := by
    apply Yields.silent rfl
    apply Yields.read (.ok [0x01]) rfl
    apply Yields.note rfl
    apply Yields.write (.ok 2) rfl
    apply Yields.silent rfl
    apply Yields.read (.error .timeout) rfl
    apply Yields.silent rfl
    apply Yields.read (.ok frame) rfl
    apply Yields.note rfl
    apply Yields.write (.ok 1) rfl
    exact .done rfl
  obtain ⟨rounds, hlink, -, hexchange, htallies, ⟨a, missing, -, hends, hcount⟩, -⟩ :=
    (receive_accounts 256 100 ⟨{}, {}⟩).2 .never log _ r' h (Deadline.outlasts_never log)
  refine ⟨log, r', h, rounds, hlink, hexchange, ?_⟩
  obtain rfl : missing = 1 := by
    cases hends with
    | unanswered => rfl
  rw [htallies.frames, htallies.acks, htallies.nacks, hcount]
  simp

end Reception

end StopAndWait
