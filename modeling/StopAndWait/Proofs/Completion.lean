import StopAndWait.Proofs.Course
import StopAndWait.Proofs.Rendezvous

namespace StopAndWait

open Dialog

namespace Engine

def Awaits (b : Engine) (room : Nat) (x : Exchange) (d : Dialog (End Delivery)) : Prop :=
  d.IsListening ∧ ∃ metrics, Performs 0 (b.readingOn room .never ⟨x, metrics⟩) [] d

variable {b : Engine} {room : Nat} {x y : Exchange} {d : Dialog (End Delivery)} {buffer : Bytes}
  {reply : Control}

theorem exists_awaits (b : Engine) (room : Nat) (x : Exchange) (metrics : ReceiveMetrics) :
    ∃ d, Performs 0 (b.readingOn room .never ⟨x, metrics⟩) [] d ∧ b.Awaits room x d := by
  have h : ∃ d, Performs 0 (b.readingOn room .never ⟨x, metrics⟩) [] d ∧ d.IsListening :=
    ⟨_, .silent rfl (.refl _), _, _, _, rfl⟩
  obtain ⟨d, hd, hl⟩ := h
  exact ⟨d, hd, hl, metrics, hd⟩

theorem Awaits.proceed (h : b.Awaits room x d)
    (hx : x.onBuffer (buffer.take b.config.send.mtu) = .ok (⟨reply, .proceed⟩, y)) :
    ∃ d', b.Awaits room y d' ∧ Performs 0 d
      [.gets buffer, .notes (.consumed (buffer.take b.config.send.mtu)), .sends reply.encode] d' := by
  obtain ⟨hl, metrics, hd⟩ := h
  obtain ⟨metrics', hloop⟩ := performs_exchange (e := b) (r := ⟨x, metrics⟩) room
    (Deadline.isExpired_never 0) hx
  obtain ⟨d', hd', hawaits⟩ := exists_awaits b room y metrics'
  exact ⟨d', hawaits, hd.resume hl (hloop.trans hd')⟩

theorem Awaits.complete (h : b.Awaits room x d)
    (hx : x.onBuffer (buffer.take b.config.send.mtu) = .ok (⟨reply, .complete⟩, y))
    (hroom : y.buffer.length ≤ room) :
    ∃ e, Performs 0 d
      [.gets buffer, .notes (.consumed (buffer.take b.config.send.mtu)), .sends reply.encode,
        .notes (.completed y.buffer)] (.pure (.ok (.message y.buffer), e)) := by
  obtain ⟨hl, metrics, hd⟩ := h
  obtain ⟨metrics', hlast⟩ := performs_whole (e := b) (r := ⟨x, metrics⟩)
    (Deadline.isExpired_never 0) hx hroom
  exact ⟨_, hd.resume hl hlast⟩

end Engine

/-- The attempt that ends a frame: the first whole copy with a reply that is not lost. The reader is
gone after the first whole copy of the last frame, so only the reply to that one ends it. -/
structure AckedAt {capacity : Nat} (last : Prop) (passages : Nat → Passage capacity) (i : Nat) :
    Prop where
  acked : passages i = .whole true
  first : ∀ j < i, passages j ≠ .whole true
  sole : last → ∀ j < i, passages j ≠ .whole false

def Acknowledged {capacity : Nat} (attempts : Nat) : Nat → (Nat → Passage capacity) → Prop
  | 0, _ => True
  | left + 1, passages => ∃ i < attempts, AckedAt (left = 0) passages i ∧
      Acknowledged attempts left fun n => passages (i + 1 + n)

section

variable {capacity : Nat} {last : Prop} {passages : Nat → Passage capacity} {i k : Nat}

theorem ackedAt_zero : AckedAt last passages 0 ↔ passages 0 = .whole true :=
  ⟨AckedAt.acked, fun h => ⟨h, fun _ h => absurd h (Nat.not_lt_zero _),
    fun _ _ h => absurd h (Nat.not_lt_zero _)⟩⟩

theorem ackedAt_succ : AckedAt last passages (i + 1) ↔
    passages 0 ≠ .whole true ∧ (last → passages 0 ≠ .whole false) ∧
      AckedAt last (fun n => passages (n + 1)) i := by
  -- The first passage is taken off.
  constructor
  · intro h
    refine ⟨h.first 0 (by omega), fun hl => h.sole hl 0 (by omega), h.acked, ?_, ?_⟩
    · intro j hj
      exact h.first (j + 1) (by omega)
    · intro hl j hj
      exact h.sole hl (j + 1) (by omega)
  · intro hends
    obtain ⟨hfirst, hsole, h⟩ := hends
    refine ⟨h.acked, ?_, ?_⟩
    · intro j hj
      cases j with
      | zero => exact hfirst
      | succ j => exact h.first j (by omega)
    · intro hl j hj
      cases j with
      | zero => exact hsole hl
      | succ j => exact h.sole hl j (by omega)

theorem AckedAt.unique (h : AckedAt last passages i) (h' : AckedAt last passages k) : i = k := by
  rcases Nat.lt_trichotomy i k with hik | hik | hik
  · exact absurd h.acked (h'.first i hik)
  · exact hik
  · exact absurd h'.acked (h.first k hik)

end

namespace Rendezvous

variable {b : Engine} {room : Nat} {s t : Rendezvous b.config.send.mtu}

structure Waits (room : Nat) (x : Exchange) (s : Rendezvous b.config.send.mtu) : Prop where
  reader : b.Awaits room x s.reader
  outbound : s.outbound = none

structure Attempted (s t : Rendezvous b.config.send.mtu) (d : Dialog (Engine.End Nat)) : Prop where
  leads : Leads s t
  writer : t.writer = d
  inbound : t.inbound = none
  passages : t.passages = fun n => s.passages (n + 1)

theorem Waits.quiet {x : Exchange} (h : s.Waits room x) : s.Quiet :=
  .inr ⟨h.outbound, h.reader.1⟩

theorem map_encode_ite (answered : Bool) (reply : Control) :
    (if answered then some reply else none).map Control.encode =
      if answered then some reply.encode else none := by
  cases answered <;> rfl

section

variable {bytes : Bytes} {x y : Exchange} {answered : Bool} {result : Except Error Delivery}
  {after : Option Control → Dialog (Engine.End Nat)}
  (h : ∀ verdict, s.writer.Performs 0 (.sends bytes :: hearing verdict) (after verdict))
  (hi : s.inbound = none)

include h hi

theorem attempt_of_readerDone (hr : s.ReaderDone result) :
    ∃ t, s.Attempted t (after none) ∧ t.ReaderDone result := by
  obtain ⟨answered, hrun⟩ := leads_attempt none _ rfl hi (.inl ⟨result, hr⟩) (h none)
    (.refl s.reader) rfl rfl (.inl ⟨result, hr⟩)
  exact ⟨_, ⟨hrun, rfl, rfl, rfl⟩, hr⟩

theorem attempt_of_lost (hw : s.Waits room x) (hp : s.passages 0 = .lost) :
    ∃ t, s.Attempted t (after none) ∧ t.Waits room x := by
  obtain ⟨answered, hrun⟩ := leads_attempt none none rfl hi hw.quiet (h none)
    (.refl s.reader) (by rw [hp]; rfl) rfl (.inr ⟨rfl, hw.reader.1⟩)
  exact ⟨_, ⟨hrun, rfl, rfl, rfl⟩, hw.reader, rfl⟩

theorem attempt_of_proceed {buffer : Bytes} {reply : Control} (hw : s.Waits room x)
    (ha : (s.passages 0).arrival bytes = some buffer)
    (hx : x.onBuffer (buffer.take b.config.send.mtu) = .ok (⟨reply, .proceed⟩, y)) :
    ∃ t, s.Attempted t (after (if (s.passages 0).answered then some reply else none)) ∧
      t.Waits room y := by
  obtain ⟨reader', hawaits, hreader⟩ := hw.reader.proceed hx
  obtain ⟨answered, hrun⟩ := leads_attempt
    (if (s.passages 0).answered then some reply else none) none rfl hi hw.quiet (h _) hreader
    (by rw [ha]; exact ⟨rfl, rfl⟩) (map_encode_ite _ reply).symm (.inr ⟨rfl, hawaits.1⟩)
  exact ⟨_, ⟨hrun, rfl, rfl, rfl⟩, hawaits, rfl⟩

theorem attempt_of_damaged {buffer : Bytes}
    {broken : isIntact (buffer.take b.config.send.mtu) = false} (hw : s.Waits room x)
    (hp : s.passages 0 = .damaged buffer broken answered) :
    ∃ t, s.Attempted t (after (if answered then some .nack else none)) ∧ t.Waits room x := by
  -- The checksum fails on what is read, so the exchange stays as it is.
  have hx : x.onBuffer (buffer.take b.config.send.mtu) = .ok (⟨.nack, .proceed⟩, x) := by
    unfold Exchange.onBuffer
    rw [broken]
    rfl
  have hrun := attempt_of_proceed h hi hw (by rw [hp]; rfl) hx
  rwa [hp] at hrun

theorem attempt_of_complete (hw : s.Waits room x) (hp : s.passages 0 = .whole answered)
    (hx : x.onBuffer (bytes.take b.config.send.mtu) = .ok (.ack .complete, y))
    (hroom : y.buffer.length ≤ room) :
    ∃ t, s.Attempted t (after (if answered then some .ack else none)) ∧
      t.ReaderDone (.ok (.message y.buffer)) := by
  obtain ⟨e, hreader⟩ := hw.reader.complete hx hroom
  obtain ⟨answered', hrun⟩ := leads_attempt (if answered then some .ack else none) none
    rfl hi hw.quiet (h _) hreader (by rw [hp]; exact ⟨rfl, rfl⟩)
    (by rw [hp]; exact (map_encode_ite answered .ack).symm) (.inl ⟨_, e, rfl⟩)
  exact ⟨_, ⟨hrun, rfl, rfl, rfl⟩, e, rfl⟩

end

inductive Due (message : Bytes) (x : Exchange) (frame : Frame) (rest : List Frame) : Prop
  | fresh (course : Course message x (frame :: rest))
  | again (step : x.onBuffer frame.encode = .ok (.ack .proceed, x)) (onward : Course message x rest)

theorem Due.step {message : Bytes} {x : Exchange} {frame : Frame} {rest : List Frame}
    (h : Due message x frame rest) :
    (rest = [] ∧ ∃ y, x.onBuffer frame.encode = .ok (.ack .complete, y) ∧ y.buffer = message) ∨
      ∃ y, x.onBuffer frame.encode = .ok (.ack .proceed, y) ∧
        y.onBuffer frame.encode = .ok (.ack .proceed, y) ∧ Course message y rest := by
  cases h with
  | fresh course =>
    cases course with
    | last step whole mode => exact .inl ⟨rfl, _, step, whole⟩
    | more step again mode onward => exact .inr ⟨_, step, again, onward⟩
  | again step onward => exact .inr ⟨x, step, step, onward⟩

structure Before (a : Engine) (room : Nat) (message : Bytes) (frames : List Frame)
    (s : Rendezvous b.config.send.mtu) : Prop where
  writer : ∃ metrics, s.writer = a.sendingOn message .never frames metrics
  inbound : s.inbound = none
  reader : (frames = [] ∧ s.ReaderDone (.ok (.message message))) ∨
    ∃ x, s.Waits room x ∧ Course message x frames

structure Settled (message : Bytes) (s : Rendezvous b.config.send.mtu) : Prop where
  quiet : s.Quiet
  reader : ∀ result, s.ReaderDone result → result = .ok (.message message)

def FrameEnds (a : Engine) (room : Nat) (message : Bytes) (rest : List Frame) (acked : Nat → Prop)
    (allowed : Nat) (s : Rendezvous b.config.send.mtu) : Prop :=
  (∃ i < allowed, acked i ∧ ∃ t : Rendezvous b.config.send.mtu, Leads s t ∧
    Before a room message rest t ∧ t.passages = fun n => s.passages (i + 1 + n)) ∨
  (∀ i < allowed, ¬ acked i) ∧ ∃ t : Rendezvous b.config.send.mtu, Leads s t ∧
    (∃ error, t.WriterDone (.error error)) ∧ Settled message t

theorem Waits.settled {x : Exchange} (h : s.Waits room x) (message : Bytes) : s.Settled message := by
  refine ⟨h.quiet, ?_⟩
  intro result ⟨e, hdone⟩
  obtain ⟨capacity, timeout, next, hask⟩ := h.reader.1
  rw [hask] at hdone
  cases hdone

theorem settled_of_readerDone {message : Bytes} (h : s.ReaderDone (.ok (.message message))) :
    s.Settled message :=
  ⟨.inl ⟨_, h⟩, fun _ h' => h'.unique h⟩

section

variable {a : Engine} {message : Bytes} {frame : Frame} {rest : List Frame}
  {metrics : TransmitMetrics} {r : Retransmission} {allowed : Nat} {acked acked' : Nat → Prop}
  {d : Dialog (Engine.End Nat)}

theorem FrameEnds.now (hs : s.Attempted t d) (ht : t.Before a room message rest) (h : acked 0) :
    FrameEnds a room message rest acked (allowed + 1) s := by
  refine .inl ⟨0, by omega, h, t, hs.leads, ht, ?_⟩
  rw [hs.passages]
  funext n
  congr 1
  omega

theorem FrameEnds.later (hs : s.Attempted t d)
    (ht : FrameEnds a room message rest acked' allowed t) (h : ¬ acked 0)
    (hnext : ∀ i, acked (i + 1) ↔ acked' i) :
    FrameEnds a room message rest acked (allowed + 1) s := by
  rcases ht with ⟨i, hi, hacked, u, hrun, hu, hp⟩ | ⟨hnone, u, hrun, hu⟩
  · refine .inl ⟨i + 1, by omega, (hnext i).2 hacked, u, hs.leads.trans hrun, hu, ?_⟩
    rw [hp, hs.passages]
    funext n
    show s.passages (i + 1 + n + 1) = s.passages (i + 1 + 1 + n)
    congr 1
    omega
  · refine .inr ⟨?_, u, hs.leads.trans hrun, hu⟩
    intro i hi
    cases i with
    | zero => exact h
    | succ i => exact fun hacked => hnone i (by omega) ((hnext i).1 hacked)

theorem frameEnds_zero (hw : s.writer = a.retryingOn message .never frame rest metrics 0 r)
    (hi : s.inbound = none) (hs : s.Settled message) :
    FrameEnds a room message rest acked 0 s := by
  obtain ⟨error, hspent⟩ : ∃ error, Performs 0
      (a.retryingOn message .never frame rest metrics 0 r) []
      (.pure (a.sent message (.error error))) := Engine.performs_givenUp
  -- The reader waits, or is done, while the writer gives up.
  have hrun := leads_writer hw hspent hi hs.quiet
  exact .inr ⟨fun i h => absurd h (Nat.not_lt_zero i), _, hrun, ⟨_, _, rfl⟩, hs.quiet, hs.reader⟩

theorem performs_heard (hw : s.writer =
      a.retryingOn message .never frame rest metrics (allowed + 1) r) (verdict : Option Control) :
    s.writer.Performs 0 (.sends frame.encode :: hearing verdict)
      (if verdict = some .ack then
          a.sendingOn message .never rest (metrics.count frame r.record.attempt)
        else a.retryingOn message .never frame rest metrics allowed r.record) := by
  rw [hw]
  cases verdict with
  | none => exact Engine.performs_missed (Deadline.isExpired_never 0)
  | some verdict =>
    have h : Performs 0 (a.retryingOn message .never frame rest metrics (allowed + 1) r)
        [.sends frame.encode, .gets verdict.encode] _ :=
      Engine.performs_replied (Deadline.isExpired_never 0) verdict
    simp only [Option.some.injEq]
    exact h

theorem frameEnds_of_readerDone (hover : s.ReaderDone (.ok (.message message)))
    (hw : s.writer = a.retryingOn message .never frame rest metrics allowed r)
    (hi : s.inbound = none) :
    FrameEnds a room message rest (fun _ => False) allowed s := by
  induction allowed generalizing s r with
  | zero => exact frameEnds_zero hw hi (settled_of_readerDone hover)
  | succ allowed ih =>
    obtain ⟨t, ht, hover⟩ := attempt_of_readerDone (performs_heard hw) hi hover
    exact .later ht (ih hover ht.writer ht.inbound) id fun i => Iff.rfl

theorem FrameEnds.again (hs : s.Attempted t d)
    (ht : FrameEnds a room message rest (AckedAt (rest = []) t.passages) allowed t)
    (h : s.passages 0 ≠ .whole true) (hsole : rest = [] → s.passages 0 ≠ .whole false) :
    FrameEnds a room message rest (AckedAt (rest = []) s.passages) (allowed + 1) s := by
  apply FrameEnds.later hs ht (fun hacked => h hacked.acked)
  intro i
  rw [ackedAt_succ, hs.passages]
  exact ⟨fun hacked => hacked.2.2, fun hacked => ⟨h, hsole, hacked⟩⟩

/-- What the passages make of a frame that is due. -/
theorem frameEnds_of_due {x : Exchange} (hx : s.Waits room x) (hdue : Due message x frame rest)
    (hroom : message.length ≤ room) (hfit : frame.encode.length ≤ b.config.send.mtu)
    (hw : s.writer = a.retryingOn message .never frame rest metrics allowed r)
    (hi : s.inbound = none) :
    FrameEnds a room message rest (AckedAt (rest = []) s.passages) allowed s := by
  -- By induction on the attempts left; what the reader has made of the frame goes along.
  induction allowed generalizing s r x with
  | zero => exact frameEnds_zero hw hi (hx.settled message)
  | succ allowed ih =>
    have hheard := performs_heard hw
    cases hp : s.passages 0 with
    | lost =>
      obtain ⟨t, ht, hwaits⟩ := attempt_of_lost hheard hi hx hp
      have hlater := ih hwaits hdue ht.writer ht.inbound
      exact .again ht hlater (by rw [hp]; nofun) (by rw [hp]; nofun)
    | damaged buffer broken answered =>
      obtain ⟨t, ht, hwaits⟩ := attempt_of_damaged hheard hi hx hp
      have hwriter := ht.writer
      rw [if_neg (by cases answered <;> nofun)] at hwriter
      have hlater := ih hwaits hdue hwriter ht.inbound
      exact .again ht hlater (by rw [hp]; nofun) (by rw [hp]; nofun)
    | whole answered =>
      -- A whole copy makes the message whole, or leads on, be it the first copy or not.
      rcases hdue.step with ⟨rfl, y, hstep, rfl⟩ | ⟨y, hstep, hagain, honward⟩
      · rw [← List.take_of_length_le hfit] at hstep
        obtain ⟨t, ht, hover⟩ := attempt_of_complete hheard hi hx hp hstep hroom
        cases answered with
        | true => exact .now ht ⟨⟨_, ht.writer⟩, ht.inbound, .inl ⟨rfl, hover⟩⟩ (ackedAt_zero.2 hp)
        | false =>
          -- The reader is gone: no later copy counts.
          refine .later ht (frameEnds_of_readerDone hover ht.writer ht.inbound) ?_ ?_
          · rw [ackedAt_zero, hp]
            nofun
          · intro i
            exact ⟨fun hacked => (ackedAt_succ.1 hacked).2.1 rfl hp, False.elim⟩
      · rw [← List.take_of_length_le hfit] at hstep
        obtain ⟨t, ht, hwaits⟩ := attempt_of_proceed hheard hi hx (by rw [hp]; rfl) hstep
        have hwriter := ht.writer
        simp only [hp, Passage.answered] at hwriter
        cases answered with
        | true =>
          exact .now ht ⟨⟨_, hwriter⟩, ht.inbound, .inr ⟨y, hwaits, honward⟩⟩ (ackedAt_zero.2 hp)
        | false =>
          have hlater := ih hwaits (.again hagain honward) hwriter ht.inbound
          apply FrameEnds.again ht hlater (by rw [hp]; nofun)
          rintro rfl
          cases honward

theorem Settled.next_eq {result : Except Error Nat} (h : s.Settled message)
    (hw : s.WriterDone result) : s.next = s :=
  next_of_writerDone h.quiet hw

/-- What the passages make of a message: both calls bring it, or the writer gives up. -/
theorem exists_end {frames : List Frame} (hs : s.Before a room message frames)
    (hroom : message.length ≤ room)
    (hfit : ∀ frame ∈ frames, frame.encode.length ≤ b.config.send.mtu) :
    ∃ t, Leads s t ∧ t.Settled message ∧
      ((Acknowledged a.config.send.retry.maxAttempts.toNat frames.length s.passages ∧
          t.WriterDone (.ok message.length) ∧ t.ReaderDone (.ok (.message message))) ∨
        (¬ Acknowledged a.config.send.retry.maxAttempts.toNat frames.length s.passages ∧
          ∃ error, t.WriterDone (.error error))) := by
  -- By induction on the frames left; the passages of a frame are used up before the next.
  induction frames generalizing s with
  | nil =>
    obtain ⟨⟨metrics, hw⟩, hi, hr⟩ := hs
    rcases hr with ⟨-, hover⟩ | ⟨x, -, honward⟩
    · exact ⟨s, .refl s, settled_of_readerDone hover, .inl ⟨trivial, ⟨_, by rw [hw]; rfl⟩, hover⟩⟩
    · cases honward
  | cons frame rest ih =>
    obtain ⟨⟨metrics, hw⟩, hi, hr⟩ := hs
    rcases hr with ⟨hnil, -⟩ | ⟨x, hx, hcourse⟩
    · cases hnil
    · rw [Engine.sendingOn_cons] at hw
      have hends := frameEnds_of_due hx (.fresh hcourse) hroom (hfit frame List.mem_cons_self) hw hi
      have hlast : (rest = []) = (rest.length = 0) := by
        rw [List.length_eq_zero_iff]
      rw [hlast] at hends
      rcases hends with ⟨i, hi, hacked, t, hrun, ht, hp⟩ | ⟨hnone, t, hrun, hgiven, hsettled⟩
      · obtain ⟨u, hlater, hu, hend⟩ := ih ht fun frame h => hfit frame (List.mem_cons_of_mem _ h)
        refine ⟨u, hrun.trans hlater, hu, ?_⟩
        rw [hp] at hend
        rcases hend with ⟨hall, hboth⟩ | ⟨hnot, hgiven⟩
        · exact .inl ⟨⟨i, hi, hacked, hall⟩, hboth⟩
        · refine .inr ⟨?_, hgiven⟩
          intro hends
          obtain ⟨k, -, hk, hall⟩ := hends
          -- The frame can have been acknowledged at one attempt only.
          obtain rfl := hacked.unique hk
          exact hnot hall
      · refine ⟨t, hrun, hsettled, .inr ⟨?_, hgiven⟩⟩
        intro hends
        obtain ⟨k, hk, hacked, -⟩ := hends
        exact hnone k hk hacked

end

def start (a b : Engine) (message : Bytes) (room : Nat)
    (passages : Nat → Passage b.config.send.mtu) : Rendezvous b.config.send.mtu where
  writer := a.write message Millis.unlimited
  reader := b.read room Millis.unlimited
  passages

theorem leads_start {a b : Engine} (ha : a.mode ≠ .receiver) (hb : b.mode ≠ .sender)
    (hp : b.exchange.pending = []) {message : Bytes} (hm : message ≠ []) (room : Nat)
    (passages : Nat → Passage b.config.send.mtu) :
    ∃ s, Leads (start a b message room passages) s ∧ s.passages = passages ∧
      s.Before a room message (plan message a.config.capacity) := by
  let x := b.exchange.reset.withMode .receiver
  have hread : Performs 0 (b.read room Millis.unlimited) []
      (b.readingOn room .never ⟨x, {}⟩) := Engine.performs_read hb hp room Millis.unlimited
  obtain ⟨reader, hloop, hawaits⟩ := b.exists_awaits room x {}
  have hwrite : Performs 0 (a.write message Millis.unlimited) []
      (a.sendingOn message .never (plan message a.config.capacity) {}) :=
    Engine.performs_write ha Millis.unlimited
  -- The writer has something to send, so it is not done while the reader makes ready.
  obtain ⟨frame, rest, hplan⟩ : ∃ frame rest, plan message a.config.capacity = frame :: rest :=
    List.exists_cons_of_ne_nil (mt plan_eq_nil.1 hm)
  obtain ⟨left, hleft⟩ := a.config.exists_maxAttempts_eq
  have hbusy : ∀ result, ¬ (start a b message room passages).WriterDone result := by
    have hfirst := hwrite
    rw [hplan, Engine.sendingOn_cons, hleft] at hfirst
    exact busy_of_performs (hfirst.trans (Engine.performs_missed (Deadline.isExpired_never 0))) rfl
  -- The reader comes first, then the writer begins its plan.
  have hready := leads_reader (s := start a b message room passages) rfl
    (hread.trans hloop) rfl hbusy
  have hbegun := leads_writer (s := { start a b message room passages with reader })
    rfl hwrite rfl (.inr ⟨rfl, hawaits.1⟩)
  have hidle : x.IsIdle := ⟨rfl, rfl, rfl⟩
  exact ⟨_, hready.trans hbegun, rfl, ⟨{}, rfl⟩, rfl,
    .inr ⟨x, ⟨hawaits, rfl⟩, Course.plan hm a.config.capacity x hidle⟩⟩

/-- A write and a read without limits, whatever becomes of each transmission: the read returns
nothing but the message; a write that succeeds tells its length, and the read has then returned it;
and both succeed if and only if every frame is acknowledged within its attempts. -/
theorem exact_delivery {a b : Engine} (ha : a.mode ≠ .receiver) (hb : b.mode ≠ .sender)
    (hp : b.exchange.pending = []) (hmtu : a.config.send.mtu = b.config.send.mtu)
    {message : Bytes} (hm : message ≠ []) {room : Nat} (hroom : message.length ≤ room)
    (passages : Nat → Passage b.config.send.mtu) :
    (∀ n result, (next^[n] (start a b message room passages)).ReaderDone result →
      result = .ok (.message message)) ∧
    (∀ n count, (next^[n] (start a b message room passages)).WriterDone (.ok count) →
      count = message.length ∧
        (next^[n] (start a b message room passages)).ReaderDone (.ok (.message message))) ∧
    (Acknowledged a.config.send.retry.maxAttempts.toNat (plan message a.config.capacity).length
        passages ↔
      ∃ n, (next^[n] (start a b message room passages)).WriterDone (.ok message.length) ∧
        (next^[n] (start a b message room passages)).ReaderDone (.ok (.message message))) := by
  obtain ⟨s, hbegun, hpass, hbefore⟩ := leads_start ha hb hp hm room passages
  -- Both engines have the same unit, so no frame is cut.
  have hfit : ∀ frame ∈ plan message a.config.capacity,
      frame.encode.length ≤ b.config.send.mtu := by
    intro frame hframe
    have hle := length_encode_le_of_mem_plan a.config.capacity_pos hframe
    have hover := a.config.mtu_bounds.1
    unfold Config.capacity at hle
    omega
  obtain ⟨t, hlater, hsettled, hend⟩ := exists_end hbefore hroom hfit
  rw [hpass] at hend
  have hrun := hbegun.trans hlater
  obtain ⟨result, hdone⟩ : ∃ result, t.WriterDone result := by
    rcases hend with ⟨-, hwriter, -⟩ | ⟨-, error, hwriter⟩
    · exact ⟨_, hwriter⟩
    · exact ⟨_, hwriter⟩
  -- Where the run has come to its end nothing moves any more, so it decides for all times.
  have hstay := hsettled.next_eq hdone
  refine ⟨?_, ?_, ?_, ?_⟩
  · intro n result hreader
    exact hsettled.reader result (hrun.readerDone hstay hreader)
  · intro n count hwriter
    have hn := hrun.iterate_of_writerDone hstay hwriter
    rw [hn] at hwriter ⊢
    rcases hend with ⟨-, hok, hreader⟩ | ⟨-, error, herror⟩
    · exact ⟨Except.ok.inj (hwriter.unique hok), hreader⟩
    · cases hwriter.unique herror
  · intro hall
    rcases hend with ⟨-, hboth⟩ | ⟨hnot, -⟩
    · obtain ⟨n, hn⟩ := hrun.iterate
      refine ⟨n, ?_⟩
      rw [hn]
      exact hboth
    · exact absurd hall hnot
  · intro hends
    obtain ⟨n, hwriter, -⟩ := hends
    rw [hrun.iterate_of_writerDone hstay hwriter] at hwriter
    rcases hend with ⟨hall, -⟩ | ⟨-, error, herror⟩
    · exact hall
    · cases hwriter.unique herror

theorem exact_delivery_after_loss :
    ∃ n, (next^[n] (start ⟨default, {}, none, none⟩ ⟨default, {}, none, none⟩ [0x61] 1
          fun k => if k = 0 then .lost else .whole true)).WriterDone (.ok 1) ∧
      (next^[n] (start ⟨default, {}, none, none⟩ ⟨default, {}, none, none⟩ [0x61] 1
          fun k => if k = 0 then .lost else .whole true)).ReaderDone (.ok (.message [0x61])) := by
  have hplan : (plan [0x61] (default : Config).capacity).length = 1 := by
    rw [plan_eq_data (by decide) (by decide)]
    rfl
  refine (exact_delivery (a := ⟨default, {}, none, none⟩) (b := ⟨default, {}, none, none⟩)
    (by decide) (by decide) rfl rfl (show ([0x61] : Bytes) ≠ [] by decide)
    (show ([0x61] : Bytes).length ≤ 1 by decide)
    fun k => if k = 0 then .lost else .whole true).2.2.1 ?_
  rw [hplan]
  refine ⟨1, by decide, ⟨rfl, ?_, ?_⟩, trivial⟩
  · intro j hj
    obtain rfl : j = 0 := by omega
    nofun
  · intro _ j hj
    obtain rfl : j = 0 := by omega
    nofun

end Rendezvous

end StopAndWait
