import StopAndWait.Proofs.Roles

/-!
The waits that a call asks of its link, against the limit of the call. Reads and frames are given no
more time than the limit, however late it is and whatever role waits stand between. A reply is given
its own time, and so the law that no wait exceeds the limit holds of a call that may come to reply
just when this time does not.
-/
namespace StopAndWait

namespace Turn

def instant? : Turn → Option Instant
  | now instant => some instant
  | read _ _ _ | write _ _ _ | note _ => none

def wait? : Turn → Option Millis
  | read _ timeout _ | write _ timeout _ => some timeout
  | now _ | note _ => none

end Turn

def instants (log : List Turn) : List Instant := log.filterMap Turn.instant?

@[simp] theorem instants_append (log log' : List Turn) :
    instants (log ++ log') = instants log ++ instants log' :=
  List.filterMap_append

def Steady (readings : List Instant) : Prop := readings.Pairwise (· ≤ ·)

theorem Steady.of_prefix {readings readings' : List Instant} (h : Steady readings')
    (hp : readings <+: readings') : Steady readings :=
  h.sublist hp.sublist

namespace Call

def limit : Call → Millis
  | read _ limit | write _ limit => limit
  | waitForSend limit | waitForReceive limit => limit
  | switchToReceive limit | switchToSend limit => limit

/-- Whether the call may come to hear frames, each of which it has to answer: it lacks the role that
it needs and waits for it, or it reads and holds no message. -/
def Listens (e : Engine) : Call → Prop
  | read _ _ => e.exchange.pending = [] ∧ ¬ (e.mode = .sender ∧ e.config.switching = .manual)
  | write _ _ => e.mode = .receiver ∧ e.config.switching = .auto
  | waitForSend _ => e.mode ≠ .sender
  | waitForReceive _ => e.mode ≠ .receiver
  | switchToReceive _ | switchToSend _ => False

/-- As long as the clock is not put back, no wait of the call is longer than its limit, whether the
call comes to an end or not. -/
def KeepsLimit (e : Engine) (call : Call) : Prop :=
  ∀ log, (call.dialog e).Begins log → Steady (instants log) →
    ∀ turn ∈ log, ∀ wait, turn.wait? = some wait → wait ≤ call.limit

end Call

namespace Deadline

inductive SetBy (limit : Millis) (readings : List Instant) : Deadline → Prop
  | never (unlimited : limit = Millis.unlimited) : SetBy limit readings never
  | after {start : Instant} (read : start ∈ readings) : SetBy limit readings (after limit start)

variable {deadline : Deadline} {limit : Millis} {readings readings' : List Instant}
  {start now : Instant}

theorem SetBy.mono (h : deadline.SetBy limit readings) (hp : readings <+: readings') :
    deadline.SetBy limit readings' := by
  cases h with
  | never unlimited => exact .never unlimited
  | after read => exact .after (hp.subset read)

theorem expiry_after (h : limit ≠ Millis.unlimited) (start : Instant) :
    (after limit start).expiry = some (start + limit.toNat * Instant.perMilli) := by
  rw [after, if_neg h]

/-- No more is left than lies between now and the expiry. -/
theorem remaining_le {expiry : Instant} (he : deadline.expiry = some expiry)
    (hle : expiry ≤ now + limit.toNat * Instant.perMilli) : deadline.remaining now ≤ limit := by
  simp only [remaining, he]
  by_cases hexp : expiry ≤ now
  · rw [if_pos hexp]
    exact UInt64.zero_le
  · have hpos : 0 < limit.toNat := by
      apply Nat.pos_of_ne_zero
      intro hz
      rw [hz, Nat.zero_mul] at hle
      exact hexp hle
    have hleft : (expiry - now) / Instant.perMilli ≤ limit.toNat := by
      apply Nat.div_le_of_le_mul
      rw [Nat.mul_comm]
      exact Nat.sub_le_iff_le_add'.2 hle
    have hwhole : UInt64.ofNat ((expiry - now) / Instant.perMilli) ≤ limit := by
      rw [UInt64.le_iff_toNat_le,
        UInt64.toNat_ofNat_of_lt' (Nat.lt_of_le_of_lt hleft limit.toNat_lt)]
      exact hleft
    rw [if_neg hexp]
    change (if _ then _ else _) ≤ limit
    split
    · exact hwhole
    · exact UInt64.le_iff_toNat_le.2 hpos

theorem remaining_after_le (hs : start ≤ now) : (after limit start).remaining now ≤ limit := by
  by_cases hu : limit = Millis.unlimited
  · rw [hu]
    exact UInt64.le_refl _
  · exact remaining_le (expiry_after hu start) (Nat.add_le_add_right hs _)

theorem isExpired_after_zero (hs : start ≤ now) : (after 0 start).isExpired now = true := by
  simpa [isExpired, after, Millis.unlimited] using hs

end Deadline

def Open (limit : Millis) (readings : List Instant) : Prop := Steady readings → 0 < limit

def Within (limit : Millis) (readings : List Instant) (wait : Millis) : Prop :=
  Open limit readings ∧ (Steady readings → wait ≤ limit)

def limiting (limit replyTimeout : Millis) (listens : Prop) : Contract (List Instant) where
  permits readings
    | .read _ wait => Within limit readings wait
    | .write bytes wait =>
      IsReply bytes ∧ listens ∧ wait = replyTimeout ∧ Open limit readings ∨
        ¬ IsReply bytes ∧ Within limit readings wait
    | .now | .note _ => True
  mayLoop _ := True
  next readings
    | .now => fun instant => readings ++ [instant]
    | .read _ _ | .write _ _ | .note _ => fun _ => readings

namespace Dialog

variable {α β : Type} {limit replyTimeout : Millis} {listens : Prop} {readings : List Instant}
  {deadline : Deadline}

def KeepsWaits (limit replyTimeout : Millis) (listens : Prop) (ends : List Instant → α → Prop)
    (readings : List Instant) (d : Dialog α) : Prop :=
  Honours (limiting limit replyTimeout listens)
    (fun later result => readings <+: later ∧ ends later result) readings d

variable {ends : List Instant → α → Prop} {ends' : List Instant → β → Prop}

theorem keepsWaits_pure {result : α} (h : ends readings result) :
    KeepsWaits limit replyTimeout listens ends readings (pure result) :=
  honours_pure ⟨List.prefix_rfl, h⟩

theorem KeepsWaits.bind {d : Dialog α} {f : α → Dialog β}
    (hd : d.KeepsWaits limit replyTimeout listens ends readings)
    (hf : ∀ later result, readings <+: later → ends later result →
      (f result).KeepsWaits limit replyTimeout listens ends' later) :
    (d.bind f).KeepsWaits limit replyTimeout listens ends' readings := by
  apply Honours.bind hd
  rintro later result ⟨hlater, hresult⟩
  apply (hf later result hlater hresult).mono
  rintro last result ⟨hlast, hresult⟩
  exact ⟨hlater.trans hlast, hresult⟩

/-- A deadline is asked at a time at which no more than the limit is left, and nothing of a limit of
zero. -/
theorem keepsWaits_consult (hd : deadline.SetBy limit readings) (question : Instant → α) :
    (deadline.consult question).KeepsWaits limit replyTimeout listens
      (fun later answer => ∃ now, answer = question now ∧
        (Steady later → deadline.remaining now ≤ limit) ∧
        (deadline.isExpired now = false → Open limit later)) readings := by
  cases hd with
  | never unlimited =>
    subst unlimited
    exact keepsWaits_pure ⟨0, rfl, fun _ => UInt64.le_refl _, fun _ _ => by decide⟩
  | @after start read =>
    unfold Deadline.consult
    by_cases hu : limit = Millis.unlimited
    · subst hu
      exact keepsWaits_pure ⟨0, rfl, fun _ => UInt64.le_refl _, fun _ _ => by decide⟩
    · rw [Deadline.expiry_after hu]
      refine honours_ask trivial fun now => ?_
      -- The clock was read at the start, and so no later than now.
      have hle (hs : Steady (readings ++ [now])) : start ≤ now :=
        (List.pairwise_append.1 hs).2.2 start read now (List.mem_singleton_self now)
      refine honours_pure ⟨List.prefix_append _ _, now, rfl, fun hs => ?_, fun he hs => ?_⟩
      · exact Deadline.remaining_after_le (hle hs)
      · rw [UInt64.pos_iff_ne_zero]
        rintro rfl
        rw [Deadline.isExpired_after_zero (hle hs)] at he
        cases he

theorem keepsWaits_start :
    (Deadline.start limit).KeepsWaits limit replyTimeout listens
      (fun later deadline => deadline.SetBy limit later) readings := by
  unfold Deadline.start
  split
  · next hu => exact keepsWaits_pure (.never hu)
  · refine honours_ask trivial fun now => ?_
    have hread : now ∈ readings ++ [now] := List.mem_append_right _ (List.mem_singleton_self now)
    exact honours_pure ⟨List.prefix_append _ _, .after hread⟩

end Dialog

section Parts

open Dialog

variable {limit replyTimeout : Millis} {listens : Prop} {readings : List Instant}
  {deadline : Deadline}

namespace Transmission

variable {policy : RetryPolicy}

theorem keepsWaits_awaitVerdict {capacity : Nat} {wait : Millis}
    (hw : Within limit readings wait) :
    (awaitVerdict capacity wait).KeepsWaits limit replyTimeout listens
      (fun later _ => later = readings) readings := by
  refine honours_ask hw fun answer => ?_
  match answer with
  | .ok _ | .error .timeout | .error .closed | .error (.system _) => exact keepsWaits_pure rfl

/-- An attempt gives its write and its read the same time, and does not look at the clock. -/
theorem keepsWaits_attempt {frame : Bytes} (hf : ¬ IsReply frame) {wait : Millis}
    (hw : Within limit readings wait) :
    (attempt frame wait).KeepsWaits limit replyTimeout listens (fun _ _ => True) readings := by
  refine honours_ask (.inr ⟨hf, hw⟩) fun answer => ?_
  match answer with
  | .error e => exact keepsWaits_pure trivial
  | .ok n =>
    simp only [pure_bind, monad_bind, monad_pure]
    by_cases hn : n = frame.length
    · rw [if_pos hn]
      apply KeepsWaits.bind (keepsWaits_awaitVerdict hw)
      rintro later verdict - rfl
      match verdict with
      | .ok _ | .error _ => exact keepsWaits_pure trivial
    · rw [if_neg hn]
      exact keepsWaits_pure trivial

/-- The time of an attempt is cut down to what is left. -/
theorem keepsWaits_attempts {frame : Bytes} (hf : ¬ IsReply frame) (allowed : Nat)
    (r : Retransmission) (hd : deadline.SetBy limit readings) :
    (attempts frame policy deadline allowed r).KeepsWaits limit replyTimeout listens
      (fun _ _ => True) readings := by
  induction allowed generalizing readings r with
  | zero =>
    apply KeepsWaits.bind (keepsWaits_consult hd deadline.isExpired)
    rintro later expired hlater -
    cases expired with
    | true | false => exact keepsWaits_pure trivial
  | succ allowed ih =>
    apply KeepsWaits.bind (keepsWaits_consult hd deadline.isExpired)
    rintro later expired hlater ⟨tested, hexpired, -, hopen⟩
    cases expired with
    | true => exact keepsWaits_pure trivial
    | false =>
      have hd' := hd.mono hlater
      apply KeepsWaits.bind (keepsWaits_consult hd' (deadline.clamp (r.nextTimeout policy)))
      rintro later' wait hlater' ⟨now, rfl, hleft, -⟩
      have hw : Within limit later' (deadline.clamp (r.nextTimeout policy) now) :=
        ⟨fun hs => hopen hexpired.symm (hs.of_prefix hlater'),
          fun hs => UInt64.le_trans (Std.min_le_right) (hleft hs)⟩
      apply KeepsWaits.bind (keepsWaits_attempt hf hw)
      rintro later'' acked hlater'' -
      cases acked with
      | true => exact keepsWaits_pure trivial
      | false => exact ih r.record ((hd'.mono hlater').mono hlater'')

theorem keepsWaits_sendFrames {frames : List Frame} (hf : ∀ frame ∈ frames, frame.IsSpeech)
    (metrics : TransmitMetrics) (hd : deadline.SetBy limit readings) :
    (sendFrames policy deadline frames metrics).KeepsWaits limit replyTimeout listens
      (fun _ _ => True) readings := by
  induction frames generalizing readings metrics with
  | nil => exact keepsWaits_pure trivial
  | cons frame rest ih =>
    have hspeech : IsSpeech frame.encode := ⟨frame, hf frame List.mem_cons_self, rfl⟩
    apply KeepsWaits.bind (keepsWaits_attempts (not_isReply_of_isSpeech hspeech) _ {} hd)
    rintro later sent hlater -
    cases sent with
    | error e => exact keepsWaits_pure trivial
    | ok n => exact ih (fun frame hr => hf frame (List.mem_cons_of_mem _ hr)) _ (hd.mono hlater)

end Transmission

namespace Reception

/-- A reply is given its own time, whatever is left of the limit. -/
theorem keepsWaits_send {reply : Control} (hr : IsReply reply.encode) (hl : listens)
    (ho : Open limit readings) :
    (reply.send replyTimeout).KeepsWaits limit replyTimeout listens (fun _ _ => True) readings := by
  refine honours_ask (.inl ⟨hr, hl, rfl, ho⟩) fun answer => ?_
  match answer with
  | .error e => exact keepsWaits_pure trivial
  | .ok n =>
    simp only [Dialog.pure_bind]
    split
    · exact keepsWaits_pure trivial
    · exact keepsWaits_pure trivial

theorem keepsWaits_take (hl : listens) (ho : Open limit readings) (r : Reception)
    (buffer : Bytes) :
    (r.take replyTimeout buffer).KeepsWaits limit replyTimeout listens (fun _ _ => True)
      readings := by
  refine honours_ask trivial fun _ => ?_
  simp only [Dialog.pure_bind, monad_bind, monad_pure]
  cases hx : r.exchange.onBuffer buffer with
  | error e => exact keepsWaits_pure trivial
  | ok made =>
    obtain ⟨⟨reply, outcome⟩, x⟩ := made
    apply KeepsWaits.bind (keepsWaits_send (Exchange.isReply_encode_of_onBuffer hx) hl ho)
    rintro later sent - -
    match sent, outcome with
    | .error _, _ | .ok (), .proceed | .ok (), .switched _ => exact keepsWaits_pure trivial
    | .ok (), .complete => exact honours_ask trivial fun _ => keepsWaits_pure trivial

theorem keepsWaits_round (hl : listens) (capacity : Nat) (r : Reception)
    (hd : deadline.SetBy limit readings) :
    (round capacity replyTimeout deadline r).KeepsWaits limit replyTimeout listens
      (fun _ _ => True) readings := by
  apply KeepsWaits.bind (keepsWaits_consult hd deadline.isExpired)
  rintro later expired hlater ⟨tested, hexpired, -, hopen⟩
  cases expired with
  | true => exact keepsWaits_pure trivial
  | false =>
    apply KeepsWaits.bind (keepsWaits_consult (hd.mono hlater) deadline.remaining)
    rintro later' wait hlater' ⟨now, rfl, hleft, -⟩
    have ho : Open limit later' := fun hs => hopen hexpired.symm (hs.of_prefix hlater')
    refine honours_ask ⟨ho, hleft⟩ fun answer => ?_
    match answer with
    | .ok buffer => exact keepsWaits_take hl ho r buffer
    | .error .timeout | .error .closed | .error (.system _) => exact keepsWaits_pure trivial

theorem keepsWaits_receive (hl : listens) (capacity : Nat) (r : Reception)
    (hd : deadline.SetBy limit readings) :
    (receive capacity replyTimeout deadline r).KeepsWaits limit replyTimeout listens
      (fun _ _ => True) readings := by
  -- The clock goes on from round to round, and the deadline stays.
  refine honours_iterate (fun later _ => readings <+: later) (fun _ _ _ => trivial) ?_
    List.prefix_rfl
  intro later r hlater
  apply (keepsWaits_round hl capacity r (hd.mono hlater)).mono
  rintro later' out ⟨hlater', -⟩
  cases out with
  | inl again => exact hlater.trans hlater'
  | inr ended => exact ⟨hlater.trans hlater', trivial⟩

end Reception

namespace Engine

def Kept {α : Type} (config : Config) (_ : List Instant) (finish : End α) : Prop :=
  finish.2.config = config

variable {target : Mode} {operation : Operation}

theorem keepsWaits_receive (hl : listens) (e : Engine) (hd : deadline.SetBy limit readings) :
    (e.receive deadline).KeepsWaits limit e.config.receive.replyTimeout listens (Kept e.config)
      readings := by
  apply KeepsWaits.bind (Reception.keepsWaits_receive hl _ ⟨e.exchange, {}⟩ hd)
  rintro later ⟨result, r⟩ - -
  cases result with
  | ok | error => exact keepsWaits_pure rfl

theorem keepsWaits_awaitMode (e : Engine) (hl : e.mode ≠ target → listens)
    (hd : deadline.SetBy limit readings) :
    (e.awaitMode target operation deadline).KeepsWaits limit e.config.receive.replyTimeout listens
      (Kept e.config) readings := by
  unfold awaitMode
  by_cases hm : e.mode = target
  · rw [if_pos hm]
    exact keepsWaits_pure rfl
  · rw [if_neg hm]
    apply KeepsWaits.bind (keepsWaits_receive (hl hm) e hd)
    rintro later ⟨received, e₁⟩ - hconfig
    match received with
    | .error _ | .ok .message => exact keepsWaits_pure hconfig
    | .ok (.switched mode) =>
      dsimp only
      split
      · exact keepsWaits_pure hconfig
      · exact keepsWaits_pure hconfig

theorem keepsWaits_resolveMode (e : Engine)
    (hl : e.mode ≠ target → e.mode ≠ .undefined → e.config.switching = .auto → listens)
    (hd : deadline.SetBy limit readings) :
    (e.resolveMode target operation deadline).KeepsWaits limit e.config.receive.replyTimeout
      listens (Kept e.config) readings := by
  by_cases hm : e.mode = target ∨ e.mode = .undefined
  · rw [e.resolveMode_eq_pure hm]
    exact keepsWaits_pure rfl
  · rw [not_or] at hm
    cases hs : e.config.switching with
    | manual =>
      rw [resolveMode_eq_refused target hs hm.1 hm.2]
      exact keepsWaits_pure rfl
    | auto =>
      unfold resolveMode
      rw [if_neg hm.1, if_neg hm.2, hs]
      apply KeepsWaits.bind (keepsWaits_awaitMode e (fun _ => hl hm.1 hm.2 hs) hd)
      rintro later ⟨awaited, e₁⟩ - hconfig
      cases awaited with
      | ok | error => exact keepsWaits_pure hconfig

theorem keepsWaits_readExchange (e : Engine)
    (hl : ¬ (e.mode = .sender ∧ e.config.switching = .manual) → listens) (room : Nat)
    (hd : deadline.SetBy limit readings) :
    (e.readExchange room deadline).KeepsWaits limit e.config.receive.replyTimeout listens
      (Kept e.config) readings := by
  by_cases hrefused : e.mode = .sender ∧ e.config.switching = .manual
  · unfold readExchange
    rw [resolveMode_eq_refused .receiver hrefused.2 (by simp [hrefused.1]) (by simp [hrefused.1])]
    exact keepsWaits_pure rfl
  · have hlistens := hl hrefused
    apply KeepsWaits.bind (keepsWaits_resolveMode e (fun _ _ _ => hlistens) hd)
    rintro later ⟨resolved, e₁⟩ hlater hconfig
    cases resolved with
    | error error => exact keepsWaits_pure hconfig
    | ok =>
      have hreceive := keepsWaits_receive hlistens e₁ (hd.mono hlater)
      rw [show e₁.config = e.config from hconfig] at hreceive
      apply KeepsWaits.bind hreceive
      rintro later' ⟨received, e₂⟩ - hconfig'
      match received with
      | .error _ | .ok .message | .ok (.switched _) => exact keepsWaits_pure hconfig'

theorem keepsWaits_writeExchange (e : Engine)
    (hl : e.mode = .receiver ∧ e.config.switching = .auto → listens) (message : Bytes)
    (hd : deadline.SetBy limit readings) :
    (e.writeExchange message deadline).KeepsWaits limit e.config.receive.replyTimeout listens
      (Kept e.config) readings := by
  have hwaits : e.mode ≠ .sender → e.mode ≠ .undefined → e.config.switching = .auto → listens := by
    intro hs hu ha
    cases hm : e.mode with
    | receiver => exact hl ⟨hm, ha⟩
    | sender => exact absurd hm hs
    | undefined => exact absurd hm hu
  apply KeepsWaits.bind (keepsWaits_resolveMode e hwaits hd)
  rintro later ⟨resolved, e₁⟩ hlater hconfig
  cases resolved with
  | error error => exact keepsWaits_pure hconfig
  | ok =>
    have hspeech : ∀ frame ∈ plan message e₁.config.capacity, frame.IsSpeech :=
      fun _ => isSpeech_of_mem_plan e₁.config.capacity_pos
    apply KeepsWaits.bind (Transmission.keepsWaits_sendFrames hspeech {} (hd.mono hlater))
    rintro later' sent - -
    cases sent with
    | ok | error => exact keepsWaits_pure hconfig

theorem keepsWaits_waitForMode (e : Engine) (hl : e.mode ≠ target → listens) :
    (e.waitForMode target operation limit).KeepsWaits limit e.config.receive.replyTimeout listens
      (fun _ _ => True) readings := by
  apply KeepsWaits.bind keepsWaits_start
  rintro later deadline - hd
  apply KeepsWaits.bind (keepsWaits_awaitMode e.reset hl hd)
  rintro later' ⟨awaited, e₁⟩ - -
  exact keepsWaits_pure trivial

theorem keepsWaits_requestSwitch (e : Engine) {request : Control}
    (hs : request ≠ .ack ∧ request ≠ .nack) (role : Mode) :
    (e.requestSwitch request role limit).KeepsWaits limit replyTimeout listens (fun _ _ => True)
      readings := by
  have hspeech : IsSpeech request.encode := ⟨.control request, hs, rfl⟩
  apply KeepsWaits.bind keepsWaits_start
  rintro later deadline - hd
  apply KeepsWaits.bind
    (Transmission.keepsWaits_attempts (not_isReply_of_isSpeech hspeech) _ {} hd)
  rintro later' sent - -
  cases sent with
  | ok | error => exact keepsWaits_pure trivial

/-- Every call keeps its waits in order, and replies only where it listens. -/
theorem keepsWaits_call (e : Engine) (call : Call) :
    (call.dialog e).KeepsWaits call.limit e.config.receive.replyTimeout (call.Listens e)
      (fun _ _ => True) readings := by
  cases call with
  | read room limit =>
    cases hp : e.exchange.pending with
    | cons oldest rest =>
      change KeepsWaits limit _ _ _ _ (e.read room limit)
      rw [read_of_pending hp]
      split
      · exact keepsWaits_pure trivial
      · exact keepsWaits_pure trivial
    | nil =>
      change KeepsWaits limit _ _ _ _ (e.read room limit)
      rw [read_of_empty hp]
      apply KeepsWaits.bind keepsWaits_start
      rintro later deadline - hd
      apply KeepsWaits.bind (keepsWaits_readExchange e.reset (fun hr => ⟨hp, hr⟩) room hd)
      rintro later' ⟨exchanged, e₁⟩ - -
      exact keepsWaits_pure trivial
  | write message limit =>
    apply KeepsWaits.bind keepsWaits_start
    rintro later deadline - hd
    apply KeepsWaits.bind (keepsWaits_writeExchange e.reset id message hd)
    rintro later' ⟨exchanged, e₁⟩ - -
    exact keepsWaits_pure trivial
  | waitForSend limit | waitForReceive limit => exact keepsWaits_waitForMode e id
  | switchToReceive limit | switchToSend limit => exact keepsWaits_requestSwitch e (by decide) _

end Engine

end Parts

section Admitted

variable {limit replyTimeout : Millis} {listens : Prop} {readings : List Instant}
  {log : List Turn}

/-- The stage is what the clock has shown. -/
theorem foldl_limiting :
    log.foldl (limiting limit replyTimeout listens).turn readings = readings ++ instants log := by
  induction log generalizing readings with
  | nil => exact (List.append_nil readings).symm
  | cons turn log ih =>
    rw [List.foldl_cons, ih]
    cases turn with
    | now instant => exact List.append_assoc readings [instant] (instants log)
    | read | write | note => rfl

/-- Each request of a transcript came when the clock had not been put back, if it never was. -/
theorem permits_of_mem (h : (limiting limit replyTimeout listens).Admits [] log)
    (hs : Steady (instants log)) {turn : Turn} (ht : turn ∈ log) :
    ∃ earlier, Steady earlier ∧
      (limiting limit replyTimeout listens).permits earlier turn.request := by
  obtain ⟨before, after, rfl⟩ := List.append_of_mem ht
  have hpermits := (Contract.admits_append.1 h).2.1
  rw [foldl_limiting, List.nil_append] at hpermits
  rw [instants_append] at hs
  exact ⟨instants before, hs.of_prefix (List.prefix_append _ _), hpermits⟩

end Admitted

section Refusal

open Dialog

variable {limit : Millis}

theorem yields_start (hu : limit ≠ Millis.unlimited) (now : Instant) :
    (Deadline.start limit).Yields [.now now] (Deadline.after limit now) := by
  unfold Deadline.start
  rw [if_neg hu]
  exact .now now rfl (.done rfl)

theorem yields_consult_after {α : Type} (hu : limit ≠ Millis.unlimited) (start now : Instant)
    (question : Instant → α) :
    ((Deadline.after limit start).consult question).Yields [.now now] (question now) := by
  unfold Deadline.consult
  rw [Deadline.expiry_after hu]
  exact .now now rfl (.done rfl)

theorem isExpired_after_self (hu : limit ≠ Millis.unlimited) (hl : limit ≠ 0) (start : Instant) :
    (Deadline.after limit start).isExpired start = false := by
  have hpos : 0 < limit.toNat := UInt64.lt_iff_toNat_lt.1 (UInt64.pos_iff_ne_zero.2 hl)
  have hmilli : 0 < Instant.perMilli := by decide
  have hlate : start < start + limit.toNat * Instant.perMilli :=
    Nat.lt_add_of_pos_right (Nat.mul_pos hpos hmilli)
  rw [Deadline.after, if_neg hu]
  exact Deadline.isExpired_of_lt hlate

namespace Reception

variable {replyTimeout : Millis} {r : Reception}

def atOnce (capacity : Nat) (limit : Millis) (buffer : Bytes) (taken : List Turn) : List Turn :=
  .now 0 :: .now 0 :: .read capacity ((Deadline.after limit 0).remaining 0) (.ok buffer) :: taken

theorem yields_atOnce (hu : limit ≠ Millis.unlimited) (hl : limit ≠ 0) (capacity : Nat)
    {buffer : Bytes} {log : List Turn} {out : Reception ⊕ End}
    (h : (r.take replyTimeout buffer).Yields log out) :
    (round capacity replyTimeout (Deadline.after limit 0) r).Yields
      (atOnce capacity limit buffer log) out := by
  have hexpired := yields_consult_after hu 0 0 (Deadline.after limit 0).isExpired
  rw [isExpired_after_self hu hl] at hexpired
  apply hexpired.bind
  apply (yields_consult_after hu 0 0 (Deadline.after limit 0).remaining).bind
  exact .read (.ok buffer) rfl h

/-- A buffer of no bytes is refused. -/
theorem yields_refusing (replyTimeout : Millis) (r : Reception) :
    (r.take replyTimeout []).Yields
      [.note (.consumed []), .write Control.nack.encode replyTimeout (.ok 2)]
      (.inl (r.answered r.exchange .nack)) := by
  apply Yields.note rfl
  apply Yields.write (.ok 2) rfl
  exact .done rfl

end Reception

namespace Engine

variable {e : Engine} {call : Call} {deadline : Deadline} {target : Mode} {operation : Operation}
  {log : List Turn}

theorem begins_receive (hu : limit ≠ Millis.unlimited) (hl : limit ≠ 0) (e : Engine) :
    (e.receive (Deadline.after limit 0)).Begins
      (Reception.atOnce e.config.send.mtu limit [] [.note (.consumed []),
        .write Control.nack.encode e.config.receive.replyTimeout (.ok 2)]) := by
  have hround := Reception.yields_atOnce hu hl e.config.send.mtu
    (Reception.yields_refusing e.config.receive.replyTimeout ⟨e.exchange, {}⟩)
  exact Begins.bind (.silent rfl hround.begins.bind)

theorem begins_awaitMode (hm : e.mode ≠ target) (h : (e.receive deadline).Begins log) :
    (e.awaitMode target operation deadline).Begins log := by
  unfold awaitMode
  rw [if_neg hm]
  exact h.bind

theorem begins_resolveMode (hm : e.mode ≠ target) (hu : e.mode ≠ .undefined)
    (ha : e.config.switching = .auto) (h : (e.receive deadline).Begins log) :
    (e.resolveMode target operation deadline).Begins log := by
  unfold resolveMode
  rw [if_neg hm, if_neg hu, ha]
  exact (begins_awaitMode hm h).bind

/-- A call that listens begins with a receive loop, under its own limit. -/
theorem begins_of_listens (h : call.Listens e) (hu : call.limit ≠ Millis.unlimited)
    (hr : ∀ e₁ : Engine, e₁.config = e.config →
      (e₁.receive (Deadline.after call.limit 0)).Begins log) :
    (call.dialog e).Begins (.now 0 :: log) := by
  have hstart := yields_start hu 0
  cases call with
  | read room limit =>
    change (e.read room limit).Begins _
    rw [read_of_empty h.1]
    apply hstart.bind_begins
    apply Begins.bind
    unfold readExchange
    by_cases hm : e.mode = .receiver ∨ e.mode = .undefined
    · rw [e.reset.resolveMode_eq_pure hm]
      simp only [monad_bind, Dialog.pure_bind]
      exact (hr (e.reset.withMode .receiver) rfl).bind
    · rw [not_or] at hm
      have ha : e.config.switching = .auto := by
        cases hs : e.config.switching with
        | auto => rfl
        | manual =>
          cases hmode : e.mode with
          | sender => exact absurd ⟨hmode, hs⟩ h.2
          | receiver => exact absurd hmode hm.1
          | undefined => exact absurd hmode hm.2
      exact Begins.bind (begins_resolveMode (e := e.reset) hm.1 hm.2 ha (hr _ rfl))
  | write message limit =>
    have hs : e.mode ≠ .sender := by simp [h.1]
    have hn : e.mode ≠ .undefined := by simp [h.1]
    have hresolve : (e.reset.resolveMode .sender .write (Deadline.after limit 0)).Begins log :=
      begins_resolveMode hs hn h.2 (hr _ rfl)
    exact hstart.bind_begins (Begins.bind hresolve.bind)
  | waitForSend limit | waitForReceive limit =>
    exact hstart.bind_begins (Begins.bind (begins_awaitMode (e := e.reset) h (hr _ rfl)))
  | switchToReceive limit | switchToSend limit => exact h.elim

/-- Reads and frames get no more time than the limit of the call, as long as the clock is not put
back. A reply gets the time set for replies, whatever the limit. So the waits of a call keep its
limit just when it does not come to reply, or not before its time is over, or a reply gets no more
time than the limit. -/
theorem keepsLimit_iff (e : Engine) (call : Call) :
    (∀ log, (call.dialog e).Begins log → Steady (instants log) →
      (∀ room wait answer, .read room wait answer ∈ log → wait ≤ call.limit) ∧
      ∀ bytes wait answer, .write bytes wait answer ∈ log →
        (IsReply bytes → call.Listens e ∧ wait = e.config.receive.replyTimeout) ∧
        (¬ IsReply bytes → wait ≤ call.limit)) ∧
    (call.KeepsLimit e ↔
      (call.Listens e → call.limit = 0 ∨ e.config.receive.replyTimeout ≤ call.limit)) := by
  have hadmits (log : List Turn) (h : (call.dialog e).Begins log) :
      (limiting call.limit e.config.receive.replyTimeout (call.Listens e)).Admits [] log :=
    h.admits (keepsWaits_call e call)
  refine ⟨fun log h hs => ⟨fun room wait answer hr => ?_, fun bytes wait answer hw => ?_⟩,
    fun hkeeps hl => ?_, fun hshort log h hs turn ht wait hwait => ?_⟩
  · obtain ⟨earlier, hearlier, hpermits⟩ := permits_of_mem (hadmits log h) hs hr
    exact hpermits.2 hearlier
  · obtain ⟨earlier, hearlier, hpermits⟩ := permits_of_mem (hadmits log h) hs hw
    rcases hpermits with ⟨hreply, hl, hwait, -⟩ | ⟨hspeech, hpermits⟩
    · exact ⟨fun _ => ⟨hl, hwait⟩, fun hspeech => absurd hreply hspeech⟩
    · exact ⟨fun hreply => absurd hreply hspeech, fun _ => hpermits.2 hearlier⟩
  · -- A buffer that comes at once shows the time of a reply.
    by_cases hz : call.limit = 0
    · exact .inl hz
    · right
      by_cases hu : call.limit = Millis.unlimited
      · rw [hu, UInt64.le_iff_toNat_le]
        exact Nat.le_of_lt_succ (UInt64.toNat_lt _)
      · have hbegins : (call.dialog e).Begins (.now 0 ::
            Reception.atOnce e.config.send.mtu call.limit [] [.note (.consumed []),
              .write Control.nack.encode e.config.receive.replyTimeout (.ok 2)]) := by
          refine begins_of_listens hl hu fun e₁ hconfig => ?_
          rw [← hconfig]
          exact begins_receive hu hz e₁
        have hsteady : Steady [0, 0, 0] := by simp [Steady]
        exact hkeeps _ hbegins hsteady (.write Control.nack.encode _ (.ok 2))
          (by simp [Reception.atOnce]) _ rfl
  · obtain ⟨earlier, hearlier, hpermits⟩ := permits_of_mem (hadmits log h) hs ht
    match turn with
    | .read room timeout answer =>
      cases hwait
      exact hpermits.2 hearlier
    | .write bytes timeout answer =>
      cases hwait
      rcases hpermits with ⟨-, hl, rfl, hopen⟩ | ⟨-, hpermits⟩
      · rcases hshort hl with hz | hle
        · exact absurd hz (UInt64.pos_iff_ne_zero.1 (hopen hearlier))
        · exact hle
      · exact hpermits.2 hearlier
    | .now _ | .note _ => cases hwait

def patient : Config := ⟨Settings.withAckTimeout {} Millis.unlimited, rfl⟩

-- The checksum of the frame is worked out here.
set_option maxRecDepth 8000

/-- A read with a limit of a minute gives the acknowledgment of its message all the time there is.
-/
theorem not_keepsLimit_of_patient :
    ¬ (Call.read 8 60000).KeepsLimit ⟨patient, {}, none, none⟩ := by
  have htake : (Reception.take ⟨{ mode := .receiver }, {}⟩ Millis.unlimited
      (Frame.data 1 [0x61]).encode).Yields
      [.note (.consumed (Frame.data 1 [0x61]).encode),
        .write Control.ack.encode Millis.unlimited (.ok 2), .note (.completed [0x61])]
      (.inr (.ok .message,
        ⟨⟨.receiver, 1, false, [0x61], []⟩, { frames := 1, acks := 1, bytes := 1 }⟩)) := by
    apply Yields.note rfl
    apply Yields.write (.ok 2) rfl
    apply Yields.note rfl
    exact .done rfl
  have hread : (Call.dialog ⟨patient, {}, none, none⟩ (.read 8 60000)).Begins
      (.now 0 :: Reception.atOnce 1024 60000 (Frame.data 1 [0x61]).encode
        [.note (.consumed (Frame.data 1 [0x61]).encode),
          .write Control.ack.encode Millis.unlimited (.ok 2), .note (.completed [0x61])]) := by
    change (Engine.read ⟨patient, {}, none, none⟩ 8 60000).Begins _
    rw [read_eq _ (by decide) rfl]
    apply (yields_start (by decide) 0).bind_begins
    exact (Yields.last (Reception.yields_atOnce (by decide) (by decide) 1024 htake)).begins.bind
  intro hkeeps
  have hsteady : Steady [0, 0, 0] := by simp [Steady]
  have hlong := hkeeps _ hread hsteady (.write Control.ack.encode Millis.unlimited (.ok 2))
    (by simp [Reception.atOnce]) Millis.unlimited rfl
  exact absurd hlong (by decide)

end Engine

end Refusal

end StopAndWait
