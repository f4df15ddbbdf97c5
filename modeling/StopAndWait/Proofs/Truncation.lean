import StopAndWait.Link.Memory
import StopAndWait.Proofs.Codec
import StopAndWait.Proofs.Rounds

/-!
Data frames cut short by a buffer too small for them. The frames carry no length, so the checksum
alone tells: a cut frame passes for intact just where the byte stored last is the checksum of those
before it, and is then heard as what it looks like. Every other one is refused, and leaves no trace
in the exchange.
-/
namespace StopAndWait

namespace Frame

def stored (frame : Frame) (room : Nat) : Bytes := frame.encode.take room

variable {sequence : UInt8} {payload : Bytes} {room : Nat}

/-- A frame cut within its payload ends in the byte of the payload stored last. -/
theorem stored_add_three {k : Nat} (h : k < payload.length) :
    (data sequence payload).stored (k + 3) =
      dataCode :: sequence :: payload.take k ++ [payload[k]] := by
  have htake : (payload ++ [checksum (dataCode :: sequence :: payload)]).take (k + 1) =
      payload.take k ++ [payload[k]] := by
    rw [List.take_append_of_le_length h, List.take_append_getElem h]
  exact congrArg (fun rest => dataCode :: sequence :: rest) htake

/-- A data frame is cut before its payload or within it. -/
theorem cut_cases (h : room < (data sequence payload).encode.length) :
    room = 0 ∨ room = 1 ∨ room = 2 ∨ ∃ k, room = k + 3 ∧ k < payload.length := by
  rw [length_encode, encodedLength, dataOverhead] at h
  by_cases hroom : room < 3
  · omega
  · exact .inr (.inr (.inr ⟨room - 3, by omega, by omega⟩))

theorem isIntact_stored_iff (h : room < (data sequence payload).encode.length) :
    isIntact ((data sequence payload).stored room) = true ↔
      room = 2 ∧ sequence = checksum [dataCode] ∨ ∃ k, room = k + 3 ∧
        payload[k]? = some (checksum (dataCode :: sequence :: payload.take k)) := by
  rcases cut_cases h with rfl | rfl | rfl | ⟨k, rfl, hk⟩
  · simp [stored]
  -- A data code alone is not intact: the checksum of nothing is another byte.
  · have hcode : isIntact ((data sequence payload).stored 1) = false := rfl
    simp [hcode]
  · have hshort : isIntact ((data sequence payload).stored 2) = (checksum [dataCode] == sequence) :=
      isIntact_concat [dataCode] sequence
    rw [hshort, beq_iff_eq]
    constructor
    · intro he
      exact .inl ⟨rfl, he.symm⟩
    · rintro (⟨-, he⟩ | ⟨k, hk, -⟩)
      · exact he.symm
      · omega
  · rw [stored_add_three hk, isIntact_concat, beq_iff_eq]
    simp [List.getElem?_eq_getElem hk, eq_comm]

/-- A cut frame that is intact is no frame, or data with less payload. -/
theorem onBuffer_stored (h : room < (data sequence payload).encode.length)
    (hi : isIntact ((data sequence payload).stored room) = true) (x : Exchange) :
    x.onBuffer ((data sequence payload).stored room) =
      if room = 2 then .error (.invalidFrame 2)
      else .ok (x.onData sequence (payload.take (room - 3))) := by
  rcases (isIntact_stored_iff h).1 hi with ⟨rfl, -⟩ | ⟨k, rfl, hlast⟩
  · have hnone : decode? ((data sequence payload).stored 2) = none :=
      decode?_eq_none_iff.2 (.inr (.inr ⟨sequence, rfl⟩))
    have hfail := decode_eq_error_iff.2 ⟨hnone, rfl⟩
    rw [if_pos rfl, Exchange.onBuffer, if_pos hi, Exchange.onBytes, hfail]
    rfl
  · obtain ⟨hk, -⟩ := List.getElem?_eq_some_iff.1 hlast
    have hdata : decode? ((data sequence payload).stored (k + 3)) =
        some (data sequence (payload.take k)) :=
      decode?_eq_data_iff.2 ⟨payload[k], stored_add_three hk⟩
    rw [if_neg (by omega), x.onBuffer_of_hears (hears?_eq_some_iff.2 ⟨hi, hdata⟩)]
    rfl

end Frame

namespace Exchange

def hearing (x : Exchange) (log : List Turn) : Exchange :=
  log.foldl (fun x turn => match turn with
    | .read _ _ answer => x.listened answer
    | .write _ _ _ | .now _ | .note _ => x) x

variable {x : Exchange} {buffer : Bytes}

theorem onBuffer_of_damaged (h : isIntact buffer = false) (x : Exchange) :
    x.onBuffer buffer = .ok (.nack, x) :=
  onBuffer_eq_ok_iff.2 (.inl ⟨h, rfl⟩)

/-- A damaged buffer might as well not have been read. -/
theorem hearing_damaged (h : isIntact buffer = false) (before after : List Turn) (room : Nat)
    (wait : Millis) : x.hearing (before ++ .read room wait (.ok buffer) :: after) =
      x.hearing (before ++ after) := by
  simp only [hearing, List.foldl_append, List.foldl_cons,
    listened_of_onBuffer (onBuffer_of_damaged h _)]

end Exchange

namespace Dialog

variable {σ α : Type} {c : Contract σ} {post : σ → α → Prop} {s : σ} {d : Dialog α}
  {log : List Turn}

/-- After some turns a dialogue stands somewhere, at the stage that they lead to. -/
theorem Begins.stands (h : d.Begins log) (hc : Honours c post s d) :
    ∃ e : Dialog α, Honours c post (log.foldl c.turn s) e ∧
      ∀ later, e.Begins later → d.Begins (log ++ later) := by
  induction h generalizing s with
  | start d => exact ⟨d, hc, fun later hl => hl⟩
  | silent view later ih =>
    obtain ⟨e, he, hlater⟩ := ih (hc.silent view).2
    exact ⟨e, he, fun later hl => .silent view (hlater later hl)⟩
  | @ask d request next log answer view later ih =>
    obtain ⟨e, he, hlater⟩ := ih (hc.answer view answer)
    refine ⟨e, ?_, fun later hl => .ask answer view (hlater later hl)⟩
    cases request with
    | read | write | now | note => exact he

/-- Where a dialogue may neither end nor go round, it asks. -/
theorem Honours.asks (h : Honours c post s d) (hend : ∀ result, ¬ post s result)
    (hloop : ¬ c.mayLoop s) : ∃ request next, d.view = .ask request next ∧
      c.permits s request ∧ ∀ answer, Honours c post (c.next s request answer) (next answer) := by
  cases hv : d.view with
  | done result => exact absurd (h.done hv) (hend result)
  | silent next => exact absurd (h.silent hv).1 hloop
  | ask request next => exact ⟨request, next, rfl, h.permits hv, h.answer hv⟩

end Dialog

namespace Receiving

variable {limited : Prop} {stage : Receiving} {y : Exchange} {result : Except Error Received}

/-- A loop ends where no more is asked, or listening. -/
theorem Ended.at_rest (h : stage.Ended limited y result) :
    (∃ messages, stage = ended y messages) ∨ stage = listening y := by
  match result with
  | .ok .message | .ok (.switched _) => exact .inl ⟨_, h⟩
  | .error _ => exact h.imp (fun he => ⟨_, he⟩) And.left

theorem not_ended_taken (x : Exchange) (buffer : Bytes) :
    ¬ (taken x buffer).Ended limited y result := by
  intro h
  rcases h.at_rest with ⟨_, hs⟩ | hs <;> cases hs

theorem not_ended_replying (step : Step) (x : Exchange) :
    ¬ (replying step x).Ended limited y result := by
  intro h
  rcases h.at_rest with ⟨_, hs⟩ | hs <;> cases hs

end Receiving

namespace Reception

open Dialog

variable {capacity : Nat} {replyTimeout : Millis} {deadline : Deadline} {r r' : Reception}
  {x y : Exchange} {before after log : List Turn} {wait : Millis} {buffer : Bytes}
  {limited : Prop} {result : Except Error Received}

theorem Heard.hearing_eq (h : Heard capacity replyTimeout deadline x log result y) :
    y = x.hearing log := by
  induction h with
  | expired | broken => rfl
  | clock _ _ ih | missed _ _ ih => exact ih
  | malformed _ step => exact (Exchange.listened_of_error step).symm
  | unanswered _ step | switched _ step | complete _ step =>
    exact (Exchange.listened_of_onBuffer step).symm
  | @proceed x y z buffer reply log result timeout step later ih =>
    have hfirst : x.hearing (answering capacity timeout buffer reply replyTimeout) = y :=
      Exchange.listened_of_onBuffer step
    rw [ih, ← hfirst, Exchange.hearing, Exchange.hearing, Exchange.hearing, List.foldl_append]

def refusal (buffer : Bytes) (given : Millis) (written : Except LinkError Nat) : List Turn :=
  [.note (.consumed buffer), .write Control.nack.encode given written]

/-- The loop listens when it reads. -/
theorem listening_of_begins
    (h : (receive capacity replyTimeout deadline r).Begins
      (before ++ .read capacity wait (.ok buffer) :: after)) :
    ∃ x, before.foldl (Receiving.contract capacity True).turn (.listening r.exchange) =
        .listening x ∧
      (Receiving.contract capacity True).Admits (.taken x buffer) after := by
  have hadmits := h.admits (honours_receive (fun _ => trivial) r rfl replyTimeout)
  obtain ⟨-, hread, hafter⟩ := Contract.admits_append.1 hadmits
  obtain ⟨x, hx, -⟩ := Receiving.allows_read hread
  rw [hx] at hafter
  exact ⟨x, hx, hafter⟩

section Damaged

variable (hd : isIntact buffer = false)

include hd

theorem noted_of_damaged (x : Exchange) :
    Receiving.noted (.taken x buffer) = .replying .nack x := by
  simp only [Receiving.noted, Exchange.onBuffer_of_damaged hd]

/-- Nothing but the refusal can come next. -/
theorem refusal_of_admits
    (h : (Receiving.contract capacity limited).Admits (.taken x buffer) after) :
    after = [] ∨ after = [.note (.consumed buffer)] ∨
      ∃ given written later, after = refusal buffer given written ++ later := by
  match after with
  | [] => exact .inl rfl
  | entry :: rest =>
    obtain ⟨hentry, hrest⟩ := h
    obtain rfl : entry = .note (.consumed buffer) := by
      cases entry with
      | note notice => exact congrArg Turn.note hentry
      | read | write | now => exact hentry.elim
    match rest with
    | [] => exact .inr (.inl rfl)
    | reply :: later =>
      have hreply : Receiving.allows capacity limited (Receiving.noted (.taken x buffer))
        reply.request := hrest.1
      rw [noted_of_damaged hd] at hreply
      cases reply with
      | write bytes given written =>
        obtain rfl : bytes = Control.nack.encode := hreply
        exact .inr (.inr ⟨given, written, later, rfl⟩)
      | read | now | note => exact hreply.elim

/-- A loop that has read a damaged buffer goes on to refuse it, however that is answered. -/
theorem begins_refusal
    (h : (receive capacity replyTimeout deadline r).Begins
      (before ++ [.read capacity wait (.ok buffer)])) :
    ∃ given, ∀ written, (receive capacity replyTimeout deadline r).Begins
      (before ++ .read capacity wait (.ok buffer) :: refusal buffer given written) := by
  obtain ⟨x, hx, -⟩ := listening_of_begins h
  obtain ⟨e, he, hlater⟩ := h.stands (honours_receive (fun _ => trivial) r rfl replyTimeout)
  rw [List.foldl_append, hx] at he
  change Honours _ _ (Receiving.taken x buffer) e at he
  obtain ⟨request, next, hentry, hp, hnext⟩ :=
    he.asks (fun _ hend => Receiving.not_ended_taken _ _ hend.1) nofun
  cases request with
  | read | write | now => exact hp.elim
  | note notice =>
    obtain rfl : notice = .consumed buffer := hp
    have hreply := hnext ()
    change Honours _ _ (Receiving.noted (.taken x buffer)) _ at hreply
    rw [noted_of_damaged hd] at hreply
    obtain ⟨request, next', hv, hp, -⟩ :=
      hreply.asks (fun _ hend => Receiving.not_ended_replying _ _ hend.1) nofun
    cases request with
    | read | now | note => exact hp.elim
    | write bytes given =>
      obtain rfl : bytes = Control.nack.encode := hp
      refine ⟨given, fun written => ?_⟩
      have hrefusal : e.Begins (refusal buffer given written) :=
        @Begins.ask _ e _ next _ () hentry (@Begins.ask _ _ _ next' _ written hv (.start _))
      have hall := hlater _ hrefusal
      rwa [List.append_assoc] at hall

/-- No loop ends before the refusal, and what comes of it comes of the other reads alone. -/
theorem refusal_of_yields
    (h : (receive capacity replyTimeout deadline r).Yields
      (before ++ .read capacity wait (.ok buffer) :: after) (result, r')) :
    ∃ given written later, after = refusal buffer given written ++ later ∧
      r'.exchange = r.exchange.hearing (before ++ later) := by
  obtain ⟨x, hx, hafter⟩ := listening_of_begins h.begins
  obtain ⟨-, hended, -⟩ := h.follows (honours_receive (fun _ => trivial) r rfl replyTimeout)
  rw [List.foldl_append, hx] at hended
  rcases refusal_of_admits hd hafter with rfl | rfl | ⟨given, written, later, rfl⟩
  · exact (Receiving.not_ended_taken _ _ hended).elim
  · change Receiving.Ended True (Receiving.noted (.taken x buffer)) _ _ at hended
    rw [noted_of_damaged hd] at hended
    exact (Receiving.not_ended_replying _ _ hended).elim
  · refine ⟨given, written, later, rfl, ?_⟩
    rw [(heard_of_yields h).hearing_eq, Exchange.hearing_damaged hd]
    simp only [Exchange.hearing, refusal, List.foldl_append, List.foldl_cons, List.foldl_nil]

end Damaged

/-- What becomes of a data frame that there is too little room for. The part stored is intact just
where its last byte is the checksum of those before it, which takes two bytes or a cut within the
payload; it is then no frame, or data with the payload that was stored. Any other part the receive
loop refuses with a NACK, wherever it reads it and before it does anything else, and what comes of
the loop comes of its other reads alone. -/
theorem cut_frame_iff {sequence : UInt8} {payload : Bytes} {room : Nat}
    (h : room < (Frame.data sequence payload).encode.length) :
    let stored := (Frame.data sequence payload).stored room
    (∀ {χ : Type} [Channel χ] {view : χ → Queue}, Channel.Laws view →
      ∀ (e : MemoryEnd) (l : Lanes χ) (items : List Bytes) (wait : Millis),
        (view (l.get e.inbound.lane)).items = (Frame.data sequence payload).encode :: items →
          ∃ c, e.read room wait l = some (.ok stored, l.set e.inbound.lane c) ∧
            view c = { view (l.get e.inbound.lane) with items }) ∧
    (isIntact stored = true ↔
      room = 2 ∧ sequence = checksum [Frame.dataCode] ∨ ∃ k, room = k + 3 ∧
        payload[k]? = some (checksum (Frame.dataCode :: sequence :: payload.take k))) ∧
    (isIntact stored = true → ∀ x : Exchange, x.onBuffer stored =
      if room = 2 then .error (.invalidFrame 2)
      else .ok (x.onData sequence (payload.take (room - 3)))) ∧
    (isIntact stored = false → ∀ (replyTimeout : Millis) (deadline : Deadline) (r : Reception)
      (before : List Turn) (wait : Millis),
      ((receive room replyTimeout deadline r).Begins
          (before ++ [.read room wait (.ok stored)]) →
        ∃ given, ∀ written, (receive room replyTimeout deadline r).Begins
          (before ++ .read room wait (.ok stored) :: refusal stored given written)) ∧
      (∀ after, (receive room replyTimeout deadline r).Begins
          (before ++ .read room wait (.ok stored) :: after) →
        after = [] ∨ after = [.note (.consumed stored)] ∨
          ∃ given written later, after = refusal stored given written ++ later) ∧
      ∀ (after : List Turn) (result : Except Error Received) (r' : Reception),
        (receive room replyTimeout deadline r).Yields
          (before ++ .read room wait (.ok stored) :: after) (result, r') →
        ∃ given written later, after = refusal stored given written ++ later ∧
          r'.exchange = r.exchange.hearing (before ++ later)) := by
  refine ⟨fun laws _ _ _ wait hitems => MemoryEnd.read_of_oldest laws hitems room wait,
    Frame.isIntact_stored_iff h, Frame.onBuffer_stored h, ?_⟩
  intro hd replyTimeout deadline r before wait
  refine ⟨begins_refusal hd, fun after hb => ?_, fun after result r' => refusal_of_yields hd⟩
  obtain ⟨x, -, hafter⟩ := listening_of_begins hb
  exact refusal_of_admits hd hafter

-- The checksums of the buffers are worked out here.
set_option maxRecDepth 8000

/-- A frame cut within its payload, and then one that fits. -/
theorem cut_frame_iff_of_refused :
    (∃ l : Lanes Queue, (MemoryEnd.of .a).read 5 100
        ((MemoryEnd.of .b).write (Frame.data 1 [0x61, 0x39, 0x62]).encode .unbounded).2 =
      some (.ok ((Frame.data 1 [0x61, 0x39, 0x62]).stored 5), l)) ∧
    ∃ after r', (receive 5 100 .never ⟨{}, {}⟩).Yields
        (.read 5 Millis.unlimited (.ok ((Frame.data 1 [0x61, 0x39, 0x62]).stored 5)) :: after)
        (.ok .message, r') ∧
      ∃ given written later,
        after = refusal ((Frame.data 1 [0x61, 0x39, 0x62]).stored 5) given written ++ later ∧
          r'.exchange = ({} : Exchange).hearing later := by
  let cut : Bytes := (Frame.data 1 [0x61, 0x39, 0x62]).stored 5
  let frame : Bytes := (Frame.data 1 [0x63]).encode
  let after : List Turn := [
    .note (.consumed cut), .write Control.nack.encode 100 (.ok 2),
    .read 5 Millis.unlimited (.ok frame), .note (.consumed frame),
    .write Control.ack.encode 100 (.ok 2), .note (.completed [0x63])]
  let r' : Reception := ⟨⟨.undefined, 1, false, [0x63], []⟩, ⟨2, 1, 1, 1⟩⟩
  have h : (receive 5 100 .never ⟨{}, {}⟩).Yields
      (.read 5 Millis.unlimited (.ok cut) :: after) (.ok .message, r') := by
    apply Yields.silent rfl
    apply Yields.read (.ok cut) rfl
    apply Yields.note rfl
    apply Yields.write (.ok 2) rfl
    apply Yields.silent rfl
    apply Yields.read (.ok frame) rfl
    apply Yields.note rfl
    apply Yields.write (.ok 2) rfl
    apply Yields.note rfl
    exact .done rfl
  have hroom : 5 < (Frame.data 1 [0x61, 0x39, 0x62]).encode.length := by decide
  obtain ⟨hstored, -, -, hrefused⟩ := cut_frame_iff hroom
  have hloop := hrefused rfl 100 .never ⟨{}, {}⟩ [] Millis.unlimited
  obtain ⟨c, hread, -⟩ := hstored Queue.laws (.of .a)
    ((MemoryEnd.of .b).write (Frame.data 1 [0x61, 0x39, 0x62]).encode .unbounded).2 [] 100 rfl
  exact ⟨⟨_, hread⟩, after, r', h, hloop.2.2 after _ r' h⟩

/-- A frame whose payload continues with a checksum is cut there unnoticed: a read returns the
shorter message, and acknowledges it. -/
theorem not_damaged_of_cut :
    (Frame.data 1 [0x61, 0x39, 0x62]).stored 4 = (Frame.data 1 [0x61]).encode ∧
    (∃ e site, Dialog.run 16
        (Engine.read ⟨⟨{ send := { mtu := 4 } }, rfl⟩, {}, none, none⟩ 8 Millis.unlimited)
        (⟨⟨((MemoryEnd.of .b).write (Frame.data 1 [0x61, 0x39, 0x62]).encode .unbounded).2⟩, 0⟩ :
          Clocked (NearEnd Queue)) = some ((.ok (.message [0x61]), e), site) ∧
      (site.link.lanes.get (MemoryEnd.of .b).inbound.lane).items = [Control.ack.encode]) ∧
    ¬ ∀ (sequence : UInt8) (payload : Bytes) (room : Nat),
      room < (Frame.data sequence payload).encode.length →
        isIntact ((Frame.data sequence payload).stored room) = false := by
  refine ⟨rfl, ⟨_, _, rfl, rfl⟩, fun hall => ?_⟩
  have hcut := hall 1 [0x61, 0x39, 0x62] 4 (by decide)
  exact absurd hcut (by decide)

end Reception

end StopAndWait
