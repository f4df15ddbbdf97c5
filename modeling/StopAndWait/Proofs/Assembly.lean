import StopAndWait.Exchange.State

namespace StopAndWait

namespace Exchange

inductive Event
  | frame (frame : Frame)
  -- A buffer that is not intact has come.
  | corrupt
  | setMode (mode : Mode)
  | reset
  | stash
  | deliver (room : Nat)
  | deliverPending (room : Nat)
  deriving DecidableEq

def Event.clears : Event → Bool
  | .reset | .stash | .deliver _ => true
  | .frame (.control .setSend) | .frame (.control .setRecv) => true
  | _ => false

def after (x : Exchange) : Event → Exchange
  | .frame frame => (x.onFrame frame).2
  | .corrupt => x.onCorrupt.2
  | .setMode mode => x.withMode mode
  | .reset => x.reset
  | .stash => x.stash
  | .deliver room => (x.deliver room).2
  | .deliverPending room => ((x.deliverPending? room).map Prod.snd).getD x

/-- The exchange to which all this has happened since it was new, the latest event first. -/
def ofHistory : List Event → Exchange
  | [] => {}
  | event :: past => (ofHistory past).after event

def Accepts (x : Exchange) (sequence : UInt8) (payload : Bytes) : Prop :=
  ∃ outcome, x.onFrame (.data sequence payload) =
    (.ack outcome, { x with sequence := x.sequence + 1, buffer := x.buffer ++ payload })

/-- A sequence was opened, and since then nothing has closed it or begun anew. -/
def SequenceOpen (past : List Event) : Prop :=
  ∃ later earlier, past = later ++ .frame (.control .seqBegin) :: earlier ∧
    ∀ event ∈ later, event.clears = false ∧ event ≠ .frame (.control .seqEnd)

variable {x : Exchange} {sequence : UInt8} {payload : Bytes}

theorem ne_add_one (n : UInt8) : n ≠ n + 1 := by grind

theorem onFrame_repeated (x : Exchange) (payload : Bytes) :
    x.onFrame (.data x.sequence payload) = (.ack .proceed, x) :=
  if_pos rfl

theorem onFrame_next (x : Exchange) (payload : Bytes) :
    x.onFrame (.data (x.sequence + 1) payload) =
      (.ack (if x.inSequence then .proceed else .complete),
        { x with sequence := x.sequence + 1, buffer := x.buffer ++ payload }) := by
  simp only [onFrame, onData, if_neg (ne_add_one x.sequence).symm, if_pos]

theorem onFrame_refused (payload : Bytes) (hr : sequence ≠ x.sequence)
    (hn : sequence ≠ x.sequence + 1) : x.onFrame (.data sequence payload) = (.nack, x) := by
  simp only [onFrame, onData, if_neg hr, if_neg hn]

/-- The three ways of a data frame. -/
theorem onFrame_data_cases (x : Exchange) (sequence : UInt8) :
    sequence = x.sequence ∨ sequence = x.sequence + 1 ∨
      sequence ≠ x.sequence ∧ sequence ≠ x.sequence + 1 := by
  by_cases hr : sequence = x.sequence
  · exact .inl hr
  · by_cases hn : sequence = x.sequence + 1
    · exact .inr (.inl hn)
    · exact .inr (.inr ⟨hr, hn⟩)

theorem accepts_iff : x.Accepts sequence payload ↔ sequence = x.sequence + 1 := by
  constructor
  · rintro ⟨outcome, h⟩
    rcases x.onFrame_data_cases sequence with rfl | hn | ⟨hr, hn⟩
    -- The counter shows that nothing was taken.
    · rw [onFrame_repeated] at h
      have hcount : x.sequence = x.sequence + 1 := congrArg (fun made => made.2.sequence) h
      exact absurd hcount (ne_add_one _)
    · exact hn
    · rw [onFrame_refused payload hr hn] at h
      cases h
  · rintro rfl
    exact ⟨_, x.onFrame_next payload⟩

instance : Decidable (x.Accepts sequence payload) := decidable_of_iff _ accepts_iff.symm

theorem repeated_iff :
    ((x.onFrame (.data sequence payload)).1.reply = .ack ∧
      (x.onFrame (.data sequence payload)).2 = x) ↔ sequence = x.sequence := by
  constructor
  · rintro ⟨hreply, hsame⟩
    rcases x.onFrame_data_cases sequence with hr | rfl | ⟨hr, hn⟩
    · exact hr
    · rw [onFrame_next] at hsame
      have hcount : x.sequence + 1 = x.sequence := congrArg Exchange.sequence hsame
      exact absurd hcount.symm (ne_add_one _)
    · rw [onFrame_refused payload hr hn] at hreply
      cases hreply
  · rintro rfl
    rw [onFrame_repeated]
    exact ⟨rfl, rfl⟩

/-- A message is whole with the end of a sequence, or with a frame accepted outside of one. -/
theorem outcome_complete_iff (x : Exchange) (frame : Frame) :
    (x.onFrame frame).1.outcome = .complete ↔
      frame = .control .seqEnd ∨ ∃ sequence payload, frame = .data sequence payload ∧
        x.Accepts sequence payload ∧ x.inSequence = false := by
  cases frame with
  | control kind =>
    cases kind with
    | setSend | setRecv =>
      simp only [onFrame, onSwitch]
      split <;> simp [Step.ack]
    | ack | nack | seqBegin | seqEnd => simp [onFrame, Step.ack]
  | unknown code => simp [onFrame, Step.ack]
  | data sequence payload =>
    simp only [reduceCtorEq, Frame.data.injEq, false_or, accepts_iff]
    rcases x.onFrame_data_cases sequence with rfl | rfl | ⟨hr, hn⟩
    · rw [onFrame_repeated]
      simp [Step.ack]
    · rw [onFrame_next]
      cases x.inSequence <;> simp [Step.ack]
    · rw [onFrame_refused payload hr hn]
      simp [Step.nack, hn]

def gain (x : Exchange) : Event → List Bytes
  | .frame (.data sequence payload) => if x.Accepts sequence payload then [payload] else []
  | _ => []

/-- The payloads of the data frames accepted since the exchange last began anew, in order. -/
def accepted : List Event → List Bytes
  | [] => []
  | event :: past => if event.clears then [] else accepted past ++ (ofHistory past).gain event

theorem not_sequenceOpen_nil : ¬ SequenceOpen [] := by
  rintro ⟨later, earlier, h, -⟩
  cases later <;> cases h

theorem sequenceOpen_cons {event : Event} {past : List Event} :
    SequenceOpen (event :: past) ↔ event = .frame (.control .seqBegin) ∨
      event.clears = false ∧ event ≠ .frame (.control .seqEnd) ∧ SequenceOpen past := by
  constructor
  · rintro ⟨later, earlier, h, hl⟩
    cases later with
    | nil => exact .inl (List.cons.inj h).1
    | cons first later =>
      obtain ⟨rfl, rfl⟩ := List.cons.inj h
      obtain ⟨hfirst, hlater⟩ := List.forall_mem_cons.1 hl
      exact .inr ⟨hfirst.1, hfirst.2, later, earlier, rfl, hlater⟩
  · rintro (rfl | ⟨hc, he, later, earlier, rfl, hl⟩)
    · exact ⟨[], past, rfl, by simp⟩
    · exact ⟨event :: later, earlier, rfl, List.forall_mem_cons.2 ⟨⟨hc, he⟩, hl⟩⟩

structure Keeps (x : Exchange) (past : List Event) : Prop where
  buffer : x.buffer = (accepted past).flatten
  sequence : x.sequence.toNat = (accepted past).length % 256
  inSequence : x.inSequence = true ↔ SequenceOpen past

section Steps

variable {past : List Event} {event : Event}

/-- An event with which the exchange begins anew leaves nothing of the past. -/
theorem Keeps.of_clears {y : Exchange} (hc : event.clears = true) (hy : y.IsIdle) :
    y.Keeps (event :: past) := by
  obtain ⟨hs, hi, hb⟩ := hy
  have htaken : accepted (event :: past) = [] := if_pos hc
  have hopen : event ≠ .frame (.control .seqBegin) := by
    rintro rfl
    cases hc
  refine ⟨by simp [hb, htaken], by simp [hs, htaken], ?_⟩
  rw [sequenceOpen_cons, hi]
  simp [hc, hopen]

/-- An event that brings no payload, neither opens nor closes a sequence and does not begin anew
leaves all as it is. -/
theorem Keeps.of_neutral {y : Exchange} (h : x.Keeps past) (hc : event.clears = false)
    (hg : (ofHistory past).gain event = []) (ho : event ≠ .frame (.control .seqBegin))
    (he : event ≠ .frame (.control .seqEnd)) (hs : y.sequence = x.sequence)
    (hi : y.inSequence = x.inSequence) (hb : y.buffer = x.buffer) : y.Keeps (event :: past) := by
  have htaken : accepted (event :: past) = accepted past := by simp [accepted, hc, hg]
  refine ⟨by rw [hb, h.buffer, htaken], by rw [hs, h.sequence, htaken], ?_⟩
  rw [hi, h.inSequence, sequenceOpen_cons]
  simp [hc, ho, he]

theorem Keeps.onFrame_data (h : (ofHistory past).Keeps past) (sequence : UInt8)
    (payload : Bytes) :
    ((ofHistory past).onFrame (.data sequence payload)).2.Keeps
      (.frame (.data sequence payload) :: past) := by
  rcases (ofHistory past).onFrame_data_cases sequence with rfl | rfl | ⟨hr, hn⟩
  · rw [onFrame_repeated]
    refine h.of_neutral rfl ?_ nofun nofun rfl rfl rfl
    simp [gain, accepts_iff]
  · rw [onFrame_next]
    have htaken : accepted (.frame (.data ((ofHistory past).sequence + 1) payload) :: past) =
        accepted past ++ [payload] := by
      simp [accepted, Event.clears, gain, accepts_iff]
    refine ⟨by simp [htaken, h.buffer], ?_, ?_⟩
    · simp only [htaken, UInt8.toNat_add, h.sequence, List.length_append, List.length_singleton,
        UInt8.toNat_one]
      omega
    · rw [sequenceOpen_cons]
      simpa [Event.clears] using h.inSequence
  · rw [onFrame_refused payload hr hn]
    refine h.of_neutral rfl ?_ nofun nofun rfl rfl rfl
    simp [gain, accepts_iff, hn]

theorem isIdle_onSwitch (x : Exchange) (target : Mode) : (x.onSwitch target).2.IsIdle := by
  unfold onSwitch
  split <;> exact ⟨rfl, rfl, rfl⟩

theorem isIdle_deliver (x : Exchange) (room : Nat) : (x.deliver room).2.IsIdle := by
  rw [deliver_eq]
  split
  · exact x.isIdle_stash
  · exact x.isIdle_reset

/-- One more event: a case for each kind. -/
theorem Keeps.after (h : (ofHistory past).Keeps past) (event : Event) :
    ((ofHistory past).after event).Keeps (event :: past) := by
  cases event with
  | frame frame =>
    cases frame with
    | control kind =>
      cases kind with
      | ack | nack => exact h.of_neutral rfl rfl nofun nofun rfl rfl rfl
      | seqBegin =>
        have htaken : accepted (.frame (.control .seqBegin) :: past) = accepted past := by
          simp [accepted, Event.clears, gain]
        refine ⟨by rw [htaken]; exact h.buffer, by rw [htaken]; exact h.sequence, ?_⟩
        simp [sequenceOpen_cons, Exchange.after, onFrame]
      | seqEnd =>
        have htaken : accepted (.frame (.control .seqEnd) :: past) = accepted past := by
          simp [accepted, Event.clears, gain]
        refine ⟨by rw [htaken]; exact h.buffer, by rw [htaken]; exact h.sequence, ?_⟩
        simp [sequenceOpen_cons, Exchange.after, onFrame]
      | setSend => exact .of_clears rfl (isIdle_onSwitch _ .sender)
      | setRecv => exact .of_clears rfl (isIdle_onSwitch _ .receiver)
    | data sequence payload => exact h.onFrame_data sequence payload
    | unknown code => exact h.of_neutral rfl rfl nofun nofun rfl rfl rfl
  | corrupt => exact h.of_neutral rfl rfl nofun nofun rfl rfl rfl
  | setMode mode => exact h.of_neutral rfl rfl nofun nofun rfl rfl rfl
  | reset => exact .of_clears rfl (isIdle_reset _)
  | stash => exact .of_clears rfl (isIdle_stash _)
  | deliver room => exact .of_clears rfl (isIdle_deliver _ room)
  | deliverPending room =>
    -- Only the held messages change.
    have hsame : ∀ y, y = (ofHistory past).after (.deliverPending room) →
        y.sequence = (ofHistory past).sequence ∧ y.inSequence = (ofHistory past).inSequence ∧
          y.buffer = (ofHistory past).buffer := by
      rintro y rfl
      simp only [Exchange.after, deliverPending?_eq]
      split
      · simp
      · split <;> simp
    obtain ⟨hs, hi, hb⟩ := hsame _ rfl
    exact h.of_neutral rfl rfl nofun nofun hs hi hb

end Steps

theorem keeps_ofHistory (past : List Event) : (ofHistory past).Keeps past := by
  induction past with
  | nil => exact ⟨rfl, rfl, by simp [ofHistory, not_sequenceOpen_nil]⟩
  | cons event past ih => exact ih.after event

/-- Whatever has happened to an exchange since it was new, its buffer holds the payloads accepted
since it last began anew, its counter their number, and the flag tells of an open sequence. The next
data frame in number is accepted, the last one again changes nothing, any other is refused; and a
message is whole with the end of a sequence or a frame accepted outside of one. -/
theorem reassembly (past : List Event) :
    (ofHistory past).buffer = (accepted past).flatten ∧
    (ofHistory past).sequence.toNat = (accepted past).length % 256 ∧
    ((ofHistory past).inSequence = true ↔ SequenceOpen past) ∧
    (∀ sequence payload,
      ((ofHistory past).Accepts sequence payload ↔
        sequence.toNat = ((accepted past).length + 1) % 256) ∧
      (((ofHistory past).onFrame (.data sequence payload)).1.reply = .ack ∧
          ((ofHistory past).onFrame (.data sequence payload)).2 = ofHistory past ↔
        sequence.toNat = (accepted past).length % 256) ∧
      (sequence.toNat ≠ ((accepted past).length + 1) % 256 →
        sequence.toNat ≠ (accepted past).length % 256 →
        (ofHistory past).onFrame (.data sequence payload) = (.nack, ofHistory past))) ∧
    (ofHistory past).onCorrupt = (.nack, ofHistory past) ∧
    ∀ frame, ((ofHistory past).onFrame frame).1.outcome = .complete ↔
      frame = .control .seqEnd ∨ ∃ sequence payload, frame = .data sequence payload ∧
        (ofHistory past).Accepts sequence payload ∧ (ofHistory past).inSequence = false := by
  have hkeeps := keeps_ofHistory past
  have hsame (sequence : UInt8) : sequence = (ofHistory past).sequence ↔
      sequence.toNat = (accepted past).length % 256 := by
    rw [← UInt8.toNat_inj, hkeeps.sequence]
  have hnext (sequence : UInt8) : sequence = (ofHistory past).sequence + 1 ↔
      sequence.toNat = ((accepted past).length + 1) % 256 := by
    rw [← UInt8.toNat_inj, UInt8.toNat_add, hkeeps.sequence, UInt8.toNat_one]
    omega
  refine ⟨hkeeps.buffer, hkeeps.sequence, hkeeps.inSequence, fun sequence payload => ⟨?_, ?_, ?_⟩,
    rfl, (ofHistory past).outcome_complete_iff⟩
  · rw [accepts_iff, hnext]
  · rw [repeated_iff, hsame]
  · intro hn hr
    exact onFrame_refused payload (mt (hsame sequence).1 hr) (mt (hnext sequence).1 hn)

end Exchange

end StopAndWait
