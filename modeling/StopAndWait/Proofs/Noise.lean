import StopAndWait.Proofs.Rounds

namespace StopAndWait

def thin {α : Type} (removed : Nat → Bool) : List α → List α
  | [] => []
  | a :: rest =>
    if removed 0 then thin (fun i => removed (i + 1)) rest
    else a :: thin (fun i => removed (i + 1)) rest

section Thin

variable {α : Type} {removed : Nat → Bool}

theorem thin_of_removed (h : removed 0 = true) (l : List α) :
    thin removed l = thin (fun i => removed (i + 1)) l.tail := by
  cases l with
  | nil => rfl
  | cons a rest => exact if_pos h

theorem tail_thin (h : removed 0 = false) (l : List α) :
    (thin removed l).tail = thin (fun i => removed (i + 1)) l.tail := by
  cases l with
  | nil => rfl
  | cons a rest => simp [thin, h]

theorem headD_thin (h : removed 0 = false) (l : List α) (a : α) :
    (thin removed l).headD a = l.headD a := by
  cases l with
  | nil => rfl
  | cons b rest => simp [thin, h]

theorem thin_cons (h : removed 0 = false) (a : α) (l : List α) :
    thin removed (a :: l) = a :: thin (fun i => removed (i + 1)) l := by
  simp [thin, h]

theorem thin_eq_self (h : ∀ i, removed i = false) (l : List α) : thin removed l = l := by
  induction l generalizing removed with
  | nil => rfl
  | cons a rest ih => rw [thin_cons (h 0), ih fun i => h (i + 1)]

end Thin

namespace Exchange

/-- What makes no difference to an exchange in this state: silence, damage, late replies, unknown
frames and every data frame but the next. -/
inductive IsNoise (x : Exchange) : Except LinkError Bytes → Prop
  | timeout : IsNoise x (.error .timeout)
  | damaged {buffer : Bytes} (bad : isIntact buffer = false) : IsNoise x (.ok buffer)
  | reply {buffer : Bytes} {kind : Control} (intact : isIntact buffer = true)
    (decoded : Frame.decode? buffer = some (.control kind)) (late : kind = .ack ∨ kind = .nack) :
    IsNoise x (.ok buffer)
  | unknown {buffer : Bytes} {code : UInt8} (intact : isIntact buffer = true)
    (decoded : Frame.decode? buffer = some (.unknown code)) : IsNoise x (.ok buffer)
  | data {buffer : Bytes} {sequence : UInt8} {payload : Bytes} (intact : isIntact buffer = true)
    (decoded : Frame.decode? buffer = some (.data sequence payload))
    (other : sequence ≠ x.sequence + 1) : IsNoise x (.ok buffer)

def round (x : Exchange) : Except LinkError Bytes →
    Option (Control × Except LinkError Nat) × (Exchange ⊕ Except Error Received × Exchange)
  | .error .timeout => (none, .inl x)
  | .error e => (none, .inr (.error (.readFailed (.link e)), x))
  | .ok buffer => match x.onBuffer buffer with
    | .error e => (none, .inr (.error e, x))
    | .ok (step, y) => (some (step.reply, .ok step.reply.encode.length), match step.outcome with
      | .proceed => .inl y
      | .complete => .inr (.ok .message, y)
      | .switched mode => .inr (.ok (.switched mode), y))

variable {x y : Exchange} {buffer : Bytes}

theorem round_of_onBuffer {e : Error} (h : x.onBuffer buffer = .error e) :
    x.round (.ok buffer) = (none, .inr (.error e, x)) := by
  simp only [round, h]

theorem onBuffer_of_noise (h : x.IsNoise (.ok buffer)) :
    ∃ reply : Control, x.onBuffer buffer = .ok (⟨reply, .proceed⟩, x) := by
  have intactStep {frame : Frame} (hi : isIntact buffer = true)
      (hd : Frame.decode? buffer = some frame) : x.onBuffer buffer = .ok (x.onFrame frame) :=
    onBuffer_eq_ok_iff.2 (.inr ⟨hi, frame, hd, rfl⟩)
  cases h with
  | damaged bad => exact ⟨.nack, onBuffer_eq_ok_iff.2 (.inl ⟨bad, rfl⟩)⟩
  | reply intact decoded late =>
    refine ⟨.ack, (intactStep intact decoded).trans ?_⟩
    rcases late with rfl | rfl <;> rfl
  | unknown intact decoded => exact ⟨.ack, intactStep intact decoded⟩
  | @data _ sequence payload intact decoded other =>
    rcases x.onFrame_data_cases sequence with rfl | hn | ⟨hr, hn⟩
    · exact ⟨.ack, (intactStep intact decoded).trans (congrArg _ (x.onFrame_repeated payload))⟩
    · exact absurd hn other
    · exact ⟨.nack, (intactStep intact decoded).trans (congrArg _ (onFrame_refused payload hr hn))⟩

/-- A round of noise leaves the exchange as it is, and the loop goes on. -/
theorem round_of_isNoise {read : Except LinkError Bytes} (h : x.IsNoise read) :
    ∃ reply, x.round read = (reply, .inl x) := by
  match read with
  | .error e =>
    cases h
    exact ⟨none, rfl⟩
  | .ok buffer =>
    obtain ⟨reply, hstep⟩ := onBuffer_of_noise h
    exact ⟨some (reply, .ok reply.encode.length), by simp only [round, hstep]⟩

theorem listened_of_round {read : Except LinkError Bytes}
    {reply : Option (Control × Except LinkError Nat)} (h : x.round read = (reply, .inl y)) :
    x.listened read = y := by
  match read with
  | .error .timeout =>
    cases h
    rfl
  | .error .closed | .error (.system _) => cases h
  | .ok buffer =>
    cases hx : x.onBuffer buffer with
    | error e =>
      rw [round_of_onBuffer hx] at h
      cases h
    | ok made =>
      obtain ⟨⟨kind, outcome⟩, z⟩ := made
      rw [listened_of_onBuffer hx]
      simp only [round, hx] at h
      cases outcome <;> cases h
      rfl

def Removable (x : Exchange) (rounds : List Round) (removed : Nat → Bool) : Prop :=
  ∀ i, removed i = true → ∃ a, rounds[i]? = some a ∧ (x.through (rounds.take i)).IsNoise a.read

namespace Removable

variable {a : Round} {rounds : List Round} {removed : Nat → Bool}

theorem tail (h : x.Removable (a :: rounds) removed) :
    (x.listened a.read).Removable rounds fun i => removed (i + 1) := by
  intro i hi
  obtain ⟨b, hb, hnoise⟩ := h (i + 1) hi
  exact ⟨b, by simpa using hb, by simpa using hnoise⟩

theorem head (h : x.Removable (a :: rounds) removed) (h0 : removed 0 = true) :
    x.IsNoise a.read := by
  obtain ⟨b, hb, hnoise⟩ := h 0 h0
  obtain rfl := Option.some.inj hb
  exact hnoise

/-- The last round of a loop is no noise. -/
theorem last {finish : Except Error Received × Exchange}
    {reply : Option (Control × Except LinkError Nat)} (h : x.Removable [a] removed)
    (hround : x.round a.read = (reply, .inr finish)) (i : Nat) : removed i = false := by
  rw [Bool.eq_false_iff]
  intro hi
  cases i with
  | zero =>
    obtain ⟨_, hnoisy⟩ := round_of_isNoise (h.head hi)
    cases hround.symm.trans hnoisy
  | succ i =>
    obtain ⟨b, hb, -⟩ := h (i + 1) hi
    cases hb

end Removable

inductive Attends (capacity : Nat) : Exchange → List (Except LinkError Bytes) → List Round →
    Except Error Received × Exchange → Prop
  | last {x : Exchange} {events : List (Except LinkError Bytes)}
    {reply : Option (Control × Except LinkError Nat)} {finish : Except Error Received × Exchange}
    (round : x.round (brought capacity events) = (reply, .inr finish)) :
    Attends capacity x events [⟨Millis.unlimited, brought capacity events, reply⟩] finish
  | again {x y : Exchange} {events : List (Except LinkError Bytes)}
    {reply : Option (Control × Except LinkError Nat)} {rounds : List Round}
    {finish : Except Error Received × Exchange}
    (round : x.round (brought capacity events) = (reply, .inl y))
    (later : Attends capacity y events.tail rounds finish) :
    Attends capacity x events (⟨Millis.unlimited, brought capacity events, reply⟩ :: rounds) finish

namespace Attends

variable {capacity : Nat} {events : List (Except LinkError Bytes)} {rounds rounds' : List Round}
  {finish finish' : Except Error Received × Exchange}

theorem read_eq (h : Attends capacity x events rounds finish) {i : Nat} {a : Round}
    (ha : rounds[i]? = some a) : a.read = brought capacity (events.drop i) := by
  induction h generalizing i with
  | last round =>
    cases i with
    | zero =>
      obtain rfl := Option.some.inj ha
      rfl
    | succ i => simp at ha
  | again round later ih =>
    cases i with
    | zero =>
      obtain rfl := Option.some.inj ha
      rfl
    | succ i => rw [ih ha, List.drop_tail]

/-- Without its noise a script brings the same rounds but for those of the noise, and the same end.
-/
theorem of_thin (h : Attends capacity x events rounds finish) {removed : Nat → Bool}
    (hr : x.Removable rounds removed)
    (h' : Attends capacity x (thin removed events) rounds' finish') :
    rounds' = thin removed rounds ∧ finish' = finish ∧
      (thin removed events).drop rounds'.length = events.drop rounds.length := by
  induction h generalizing removed rounds' with
  | @last x events reply finish hround =>
    have hnone := hr.last hround
    rw [thin_eq_self hnone] at h' ⊢
    rw [thin_eq_self hnone]
    cases h' with
    | last hround' =>
      cases hround.symm.trans hround'
      exact ⟨rfl, rfl, rfl⟩
    | again hround' => cases hround.symm.trans hround'
  | @again x y events reply rounds finish hround later ih =>
    have hnext : x.listened (brought capacity events) = y := listened_of_round hround
    have htail := hnext ▸ hr.tail
    cases h0 : removed 0 with
    | true =>
      obtain ⟨_, hnoisy⟩ := round_of_isNoise (hr.head h0)
      cases hround.symm.trans hnoisy
      rw [thin_of_removed h0] at h' ⊢
      rw [thin_of_removed h0, List.tail_cons]
      obtain ⟨hrounds, hfinish, hrest⟩ := ih htail h'
      exact ⟨hrounds, hfinish, by rw [hrest, List.length_cons, List.drop_tail]⟩
    | false =>
      have hkept : brought capacity (thin removed events) = brought capacity events := by
        rw [brought, headD_thin h0, brought]
      rw [thin_cons h0]
      cases h' with
      | last hround' =>
        rw [hkept] at hround'
        cases hround.symm.trans hround'
      | again hround' later' =>
        rw [hkept] at hround'
        cases hround.symm.trans hround'
        rw [tail_thin h0] at later'
        obtain ⟨rfl, hfinish, hrest⟩ := ih htail later'
        refine ⟨by rw [hkept], hfinish, ?_⟩
        rw [List.length_cons, List.length_cons, ← List.drop_tail, ← List.drop_tail, tail_thin h0, hrest]

end Attends

end Exchange

def Round.IsWhole (a : Round) : Prop :=
  ∀ kind written, a.reply = some (kind, written) → written = .ok kind.encode.length

def Surroundings.serving (events : List (Except LinkError Bytes)) : Surroundings :=
  script events fun _ bytes => .ok bytes.length

namespace Reception

open Dialog

variable {capacity : Nat} {replyTimeout : Millis} {events : List (Except LinkError Bytes)}

def bare : Reception ⊕ End → Exchange ⊕ Except Error Received × Exchange :=
  Sum.map Reception.exchange (Prod.map id Reception.exchange)

theorem Met.round_eq {r : Reception} {a : Round} {out : Reception ⊕ End} (h : r.Met a out)
    (hw : a.IsWhole) : r.exchange.round a.read = (a.reply, bare out) := by
  cases h with
  | missed => rfl
  | @broken wait e real =>
    cases e with
    | timeout => exact absurd rfl real
    | closed | system => rfl
  | taken wait htaken =>
    cases htaken with
    | malformed step => exact Exchange.round_of_onBuffer step
    | unanswered step short => exact absurd (hw _ _ rfl) (Control.ne_whole_of_fault short)
    | proceed step | complete step | switched step =>
      simp only [Exchange.round, step]
      rfl

theorem Rounds.attends {r : Reception} {rounds : List Round} {finish : End}
    (h : Rounds .never r rounds finish) (hw : ∀ a ∈ rounds, a.IsWhole)
    (hreads : Reads events (rounds.flatMap (Round.turns capacity replyTimeout))) :
    r.exchange.Attends capacity events rounds (finish.1, finish.2.exchange) := by
  induction h generalizing events with
  | @last r a finish wait met =>
    rw [List.flatMap_cons, Round.reads_turns_append] at hreads
    have hround := met.round_eq (hw a List.mem_cons_self)
    obtain ⟨w, read, reply⟩ := a
    obtain ⟨⟨_, rfl⟩, rfl, -⟩ := And.intro wait hreads
    exact .last hround
  | @again r s a rounds finish wait met later ih =>
    rw [List.flatMap_cons, Round.reads_turns_append] at hreads
    have hround := met.round_eq (hw a List.mem_cons_self)
    have hlater := ih (fun b hb => hw b (List.mem_cons_of_mem a hb)) hreads.2
    obtain ⟨w, read, reply⟩ := a
    obtain ⟨⟨_, rfl⟩, rfl, -⟩ := And.intro wait hreads
    exact .again hround hlater

theorem attends_of_yields {r r' : Reception} {log : List Turn} {result : Except Error Received}
    (h : (receive capacity replyTimeout .never r).Yields log (result, r'))
    (ha : (Surroundings.serving events).Answer [] log) :
    ∃ rounds, r.exchange.Attends capacity events rounds (result, r'.exchange) ∧
      linkTurns log = rounds.flatMap (Round.turns capacity replyTimeout) := by
  obtain ⟨rounds, hrounds, hlink⟩ := rounds_of_yields h (Deadline.outlasts_never log)
  have hreads := reads_linkTurns.2 (reads_of_answer ha)
  rw [hlink] at hreads
  refine ⟨rounds, hrounds.attends (fun a hmem kind written hreply => ?_) hreads, hlink⟩
  -- What a reply is written with is an answer like the others.
  have hturn : Turn.write kind.encode replyTimeout written ∈ linkTurns log := by
    rw [hlink]
    exact List.mem_flatMap.2 ⟨a, hmem, by simp [Round.turns, replying, hreply]⟩
  obtain ⟨past, request, hof⟩ := ha.of_mem (List.mem_filter.1 hturn).1
  cases request with
  | write bytes timeout =>
    cases hof
    rfl
  | read | now | note => cases hof

/-- The receive loop with no limit comes to an end at every script. Its rounds read the script from
the start, event by event. To leave out any of these that are noise, each for the exchange as it was
when the event was read, changes neither the result nor the exchange nor what is left unread, and
takes from the rounds, with their replies, just those of the events left out. -/
theorem noise_leaves_no_trace (capacity : Nat) (replyTimeout : Millis) (r : Reception) :
    (∀ events : List (Except LinkError Bytes), ∃ log finish,
      (receive capacity replyTimeout .never r).Yields log finish ∧
        (Surroundings.serving events).Answer [] log) ∧
    ∀ (events : List (Except LinkError Bytes)) (log : List Turn)
      (result : Except Error Received) (r' : Reception),
      (receive capacity replyTimeout .never r).Yields log (result, r') →
      (Surroundings.serving events).Answer [] log →
      ∃ rounds : List Round,
        linkTurns log = rounds.flatMap (Round.turns capacity replyTimeout) ∧
        (∀ (i : Nat) (a : Round), rounds[i]? = some a → a.read = brought capacity (events.drop i)) ∧
        ∀ removed : Nat → Bool,
          (∀ i, removed i = true → ∃ a, rounds[i]? = some a ∧
            (r.exchange.through (rounds.take i)).IsNoise a.read) →
          ∀ (log' : List Turn) (result' : Except Error Received) (s' : Reception),
            (receive capacity replyTimeout .never r).Yields log' (result', s') →
            (Surroundings.serving (thin removed events)).Answer [] log' →
            result' = result ∧ s'.exchange = r'.exchange ∧
            linkTurns log' = (thin removed rounds).flatMap (Round.turns capacity replyTimeout) ∧
            (thin removed events).drop (thin removed rounds).length =
              events.drop rounds.length := by
  refine ⟨fun events => exists_yields_receive r [], fun events log result r' h ha => ?_⟩
  obtain ⟨rounds, hattends, hlink⟩ := attends_of_yields h ha
  refine ⟨rounds, hlink, fun i a => hattends.read_eq, fun removed hr log' result' s' h' ha' => ?_⟩
  obtain ⟨rounds', hattends', hlink'⟩ := attends_of_yields h' ha'
  obtain ⟨rfl, hfinish, hrest⟩ := hattends.of_thin hr hattends'
  obtain ⟨rfl, hexchange⟩ := Prod.mk.inj hfinish
  exact ⟨rfl, hexchange, hlink', hrest⟩

-- The checksums of the buffers are worked out here.
set_option maxRecDepth 8000

/-- A damaged buffer before a message of one frame, and the message without it: the first round is
gone, and the exchange is the same. -/
theorem noise_leaves_no_trace_of_damage :
    let frame : Bytes := (Frame.data 1 [0x61]).encode
    let refused : Round := ⟨Millis.unlimited, .ok [0x01], some (.nack, .ok 2)⟩
    let taken : Round := ⟨Millis.unlimited, .ok frame, some (.ack, .ok 2)⟩
    let answered : List Turn := [.read 256 Millis.unlimited (.ok frame), .note (.consumed frame),
      .write Control.ack.encode 100 (.ok 2), .note (.completed [0x61])]
    let log : List Turn := .read 256 Millis.unlimited (.ok [0x01]) :: .note (.consumed [0x01]) ::
      .write Control.nack.encode 100 (.ok 2) :: answered
    let x : Exchange := ⟨.undefined, 1, false, [0x61], []⟩
    (receive 256 100 .never ⟨{}, {}⟩).Yields log (.ok .message, ⟨x, ⟨2, 1, 1, 1⟩⟩) ∧
    (receive 256 100 .never ⟨{}, {}⟩).Yields answered (.ok .message, ⟨x, ⟨1, 1, 0, 1⟩⟩) ∧
    linkTurns log = [refused, taken].flatMap (Round.turns 256 100) ∧
    thin (· == 0) [refused, taken] = [taken] ∧
    linkTurns answered = (thin (· == 0) [refused, taken]).flatMap (Round.turns 256 100) := by
  intro frame refused taken answered log x
  let events : List (Except LinkError Bytes) := [.ok [0x01], .ok frame, .error .timeout]
  have h : (receive 256 100 .never ⟨{}, {}⟩).Yields log (.ok .message, ⟨x, ⟨2, 1, 1, 1⟩⟩) := by
    apply Yields.silent rfl
    apply Yields.read (.ok [0x01]) rfl
    apply Yields.note rfl
    apply Yields.write (.ok 2) rfl
    apply Yields.silent rfl
    apply Yields.read (.ok frame) rfl
    apply Yields.note rfl
    apply Yields.write (.ok 2) rfl
    apply Yields.note rfl
    exact .done rfl
  have h' : (receive 256 100 .never ⟨{}, {}⟩).Yields answered
      (.ok .message, ⟨x, ⟨1, 1, 0, 1⟩⟩) := by
    apply Yields.silent rfl
    apply Yields.read (.ok frame) rfl
    apply Yields.note rfl
    apply Yields.write (.ok 2) rfl
    apply Yields.note rfl
    exact .done rfl
  have ha : (Surroundings.serving events).Answer [] log :=
    ⟨⟨.read 256 Millis.unlimited, rfl⟩, ⟨.note (.consumed [0x01]), rfl⟩,
      ⟨.write Control.nack.encode 100, rfl⟩, ⟨.read 256 Millis.unlimited, rfl⟩,
      ⟨.note (.consumed frame), rfl⟩, ⟨.write Control.ack.encode 100, rfl⟩,
      ⟨.note (.completed [0x61]), rfl⟩, trivial⟩
  have ha' : (Surroundings.serving (thin (· == 0) events)).Answer [] answered :=
    ⟨⟨.read 256 Millis.unlimited, rfl⟩, ⟨.note (.consumed frame), rfl⟩,
      ⟨.write Control.ack.encode 100, rfl⟩, ⟨.note (.completed [0x61]), rfl⟩, trivial⟩
  obtain ⟨rounds, hlink, hread, hnoise⟩ :=
    (noise_leaves_no_trace 256 100 ⟨{}, {}⟩).2 events log _ _ h ha
  obtain rfl : [refused, taken] = rounds :=
    Round.flatMap_turns_injective 256 100 ((show _ = linkTurns log from rfl).trans hlink)
  have hfirst : ∀ i, (i == 0) = true → ∃ a, [refused, taken][i]? = some a ∧
      (({} : Exchange).through ([refused, taken].take i)).IsNoise a.read := by
    intro i hi
    obtain rfl := eq_of_beq hi
    exact ⟨refused, rfl, .damaged rfl⟩
  obtain ⟨-, -, hlink', -⟩ := hnoise (· == 0) hfirst answered _ _ h' ha'
  exact ⟨h, h', hlink, rfl, hlink'⟩

end Reception

end StopAndWait
