import StopAndWait.Proofs.Growth
import StopAndWait.Proofs.Limits

namespace StopAndWait

inductive Setting
  | switching (switching : Switching)
  | mtu (mtu : Nat)
  | reserve (reserve : Nat)
  | attempts (attempts : UInt32)
  | ackTimeout (timeout : Millis)
  | backoff (multiplier : UInt64) (ceiling : Millis)
  deriving DecidableEq, Repr

namespace Setting

def apply (s : Settings) : Setting → Settings
  | .switching policy => s.withSwitching policy
  | .mtu size => s.withMtu size
  | .reserve room => s.withReserve room
  | .attempts number => s.withAttempts number
  | .ackTimeout wait => s.withAckTimeout wait
  | .backoff growth top => s.withBackoff growth top

def ackTimeout? : Setting → Option Millis
  | .ackTimeout wait => some wait
  | _ => none

def backoff? : Setting → Option (UInt64 × Millis)
  | .backoff growth top => some (growth, top)
  | _ => none

def chosen {α : Type} (get : Setting → Option α) (usual : α) (chain : List Setting) : α :=
  (chain.filterMap get).getLast?.getD usual

def chosenAckTimeout : List Setting → Millis := chosen ackTimeout? 200

def chosenBackoff : List Setting → UInt64 × Millis := chosen backoff? (1, 2000)

/-- A value that each setter gives or leaves alone is the last one given. -/
theorem foldl_apply {α : Type} {f : Settings → α} {get : Setting → Option α}
    (h : ∀ s setting, f (apply s setting) = (get setting).getD (f s)) (s : Settings)
    (chain : List Setting) : f (chain.foldl apply s) = chosen get (f s) chain := by
  induction chain generalizing s with
  | nil => rfl
  | cons setting rest ih =>
    rw [List.foldl_cons, ih, h, chosen, chosen, List.filterMap_cons]
    cases get setting with
    | none => rfl
    | some a => rw [List.getLast?_cons]; rfl

end Setting

namespace Settings

def ofChain (chain : List Setting) : Settings := chain.foldl Setting.apply {}

theorem ackTimeout_ofChain (chain : List Setting) :
    (ofChain chain).send.retry.ackTimeout = Setting.chosenAckTimeout chain :=
  Setting.foldl_apply (f := fun s => s.send.retry.ackTimeout)
    (fun _ setting => by cases setting <;> rfl) {} chain

theorem backoff_ofChain (chain : List Setting) :
    ((ofChain chain).send.retry.multiplier, (ofChain chain).send.retry.maxAckTimeout) =
      Setting.chosenBackoff chain :=
  Setting.foldl_apply (f := fun s => (s.send.retry.multiplier, s.send.retry.maxAckTimeout))
    (fun _ setting => by cases setting <;> rfl) {} chain

end Settings

namespace Config

variable {c : Config} {chain : List Setting}

/-- Without a limit no attempt that the settings allow waits for no time. -/
def AlwaysWaits (c : Config) : Prop :=
  ∀ r : Retransmission, r.attempt < c.send.retry.maxAttempts → ∀ start now,
    1 ≤ (Deadline.after Millis.unlimited start).clamp (r.nextTimeout c.send.retry) now

/-- The wait and its growth are not zero, so that only the ceiling can make them come to zero. -/
theorem nextTimeout_eq_zero_iff (c : Config) (r : Retransmission) :
    r.nextTimeout c.send.retry = 0 ↔ c.send.retry.maxAckTimeout = 0 := by
  obtain ⟨-, -, -, hwait, -, hgrowth⟩ := (Settings.fault?_eq_none_iff _).1 c.faultless
  have hpos : 0 < c.send.retry.ackTimeout.toNat *
      c.send.retry.multiplier.toNat ^ r.attempt.toNat := by
    rw [ne_eq, ← UInt64.toNat_inj] at hwait hgrowth
    exact Nat.mul_pos (Nat.pos_of_ne_zero hwait) (Nat.pow_pos (Nat.pos_of_ne_zero hgrowth))
  rw [← UInt64.toNat_inj, ← UInt64.toNat_inj, Retransmission.nextTimeout, toNat_backoff,
    UInt64.toNat_zero]
  omega

theorem alwaysWaits_iff_maxAckTimeout : c.AlwaysWaits ↔ c.send.retry.maxAckTimeout ≠ 0 := by
  have hclamp (start now : Instant) (wait : Millis) :
      (Deadline.after Millis.unlimited start).clamp wait now = wait := by
    rw [Deadline.after_unlimited, Deadline.clamp_never]
  simp only [AlwaysWaits, hclamp]
  constructor
  · intro hwaits hzero
    have hallowed : 0 < c.send.retry.maxAttempts := UInt32.lt_iff_toNat_lt.2 c.maxAttempts_pos
    have hfirst := hwaits {} hallowed 0 0
    rw [(c.nextTimeout_eq_zero_iff {}).2 hzero] at hfirst
    exact absurd hfirst (by decide)
  · intro hceiling r _ _ _
    have hwait := mt (c.nextTimeout_eq_zero_iff r).1 hceiling
    exact UInt64.pos_iff_ne_zero.2 hwait

/-- A wait that does not grow is only cut down to the ceiling. -/
theorem nextTimeout_eq_min (hgrowth : c.send.retry.multiplier = 1) (r : Retransmission) :
    r.nextTimeout c.send.retry = min c.send.retry.ackTimeout c.send.retry.maxAckTimeout := by
  have hone : (1 : UInt64).toNat = 1 := rfl
  rw [← UInt64.toNat_inj, Retransmission.nextTimeout, toNat_backoff, toNat_min, hgrowth, hone,
    Nat.one_pow, Nat.mul_one]

end Config

def Call.GivesAttempts (e : Engine) (call : Call) (wait : Millis) : Prop :=
  ∀ log, (call.dialog e).Begins log → ∀ before after frame given written,
    log = before ++ .write frame given written :: after → ¬ IsReply frame →
      given = wait ∧
        ∀ room given' answer rest, after = .read room given' answer :: rest → given' = wait

/-- Each attempt of each call without a limit is given just this wait. -/
def Config.GivesAttempts (c : Config) (wait : Millis) : Prop :=
  ∀ (e : Engine) (call : Call), e.config = c → call.limit = Millis.unlimited →
    call.GivesAttempts e wait

def pacing (policy : RetryPolicy) : Contract (Option (Bytes × Millis)) where
  permits last
    | .write bytes wait =>
      IsReply bytes ∨ ∃ r : Retransmission, wait = r.nextTimeout policy
    | .read _ wait => ∀ frame given, last = some (frame, given) → ¬ IsReply frame → wait = given
    | .now | .note _ => True
  mayLoop _ := True
  next _
    | .write bytes wait => fun _ => some (bytes, wait)
    | .read _ _ | .now | .note _ => fun _ => none

def Unspoken (last : Option (Bytes × Millis)) : Prop :=
  ∀ bytes given, last = some (bytes, given) → IsReply bytes

section Parts

open Dialog

variable {policy : RetryPolicy} {last : Option (Bytes × Millis)}

/-- A receive loop writes replies only. -/
theorem Receiving.covers_pacing {capacity : Nat} {limited : Prop} :
    (Receiving.contract capacity limited).Covers (pacing policy)
      (fun stage last => (∃ t, stage.At t) ∧ Unspoken last) where
  permits {stage last request} h hp := by
    obtain ⟨⟨t, ht⟩, hlast⟩ := h
    cases request with
    | write bytes wait =>
      obtain ⟨step, x, rfl, rfl⟩ := Receiving.allows_write hp
      cases ht with
      | replying _ _ reply => exact .inl reply
    | read room wait => exact fun bytes given hb hf => absurd (hlast bytes given hb) hf
    | now | note => trivial
  mayLoop _ _ := trivial
  next {stage last request} answer h hp := by
    obtain ⟨⟨t, ht⟩, -⟩ := h
    refine ⟨⟨_, Receiving.covers.next answer ht hp⟩, ?_⟩
    cases request with
    | write bytes wait =>
      obtain ⟨step, x, rfl, rfl⟩ := Receiving.allows_write hp
      cases ht with
      | replying _ _ reply =>
        rintro _ _ ⟨⟩
        exact reply
    | read | now | note => nofun

namespace Transmission

theorem paces_attempt {frame : Bytes} {wait : Millis}
    (hw : ∃ r : Retransmission, wait = r.nextTimeout policy) :
    Honours (pacing policy) (fun _ _ => True) last (attempt frame wait) := by
  refine honours_ask (.inr hw) fun answer => ?_
  match answer with
  | .error e => exact honours_pure trivial
  | .ok n =>
    simp only [pure_bind, monad_bind, monad_pure]
    by_cases hn : n = frame.length
    · rw [if_pos hn]
      have hverdict : Honours (pacing policy) (fun _ _ => True) (some (frame, wait))
          (awaitVerdict verdictCapacity wait) := by
        refine honours_ask ?_ fun answer => ?_
        · rintro _ _ ⟨⟩ -
          rfl
        · match answer with
          | .ok _ | .error .timeout | .error .closed | .error (.system _) =>
            exact honours_pure trivial
      apply hverdict.bind
      rintro last verdict -
      match verdict with
      | .ok _ | .error _ => exact honours_pure trivial
    · rw [if_neg hn]
      exact honours_pure trivial

/-- Without a limit the attempts are given their waits uncut. -/
theorem paces_attempts {frame : Bytes} (allowed : Nat) (r : Retransmission) :
    Honours (pacing policy) (fun _ _ => True) last (attempts frame policy .never allowed r) := by
  induction allowed generalizing r last with
  | zero => exact honours_pure trivial
  | succ allowed ih =>
    simp only [attempts, Deadline.hasExpired_never, Deadline.clampNow_never, monad_bind,
      Dialog.pure_bind]
    apply (paces_attempt ⟨r, rfl⟩).bind
    rintro last acked -
    cases acked with
    | true => exact honours_pure trivial
    | false => exact ih r.record

theorem paces_sendFrames (frames : List Frame) (metrics : TransmitMetrics) :
    Honours (pacing policy) (fun _ _ => True) last (sendFrames policy .never frames metrics) := by
  induction frames generalizing last metrics with
  | nil => exact honours_pure trivial
  | cons frame rest ih =>
    apply (paces_attempts _ {}).bind
    rintro last sent -
    cases sent with
    | error e => exact honours_pure trivial
    | ok n => exact ih _

end Transmission

namespace Engine

def Listened {α : Type} (config : Config) (last : Option (Bytes × Millis)) (finish : End α) :
    Prop :=
  Unspoken last ∧ finish.2.config = config

variable {target : Mode} {operation : Operation} {deadline : Deadline}

theorem paces_receive (e : Engine) (hl : Unspoken last) :
    Honours (pacing policy) (Listened e.config) last (e.receive deadline) := by
  have hloop : Honours (Receiving.contract e.config.send.mtu True) _ _
      (Reception.receive e.config.send.mtu e.config.receive.replyTimeout deadline
        ⟨e.exchange, {}⟩) :=
    Reception.honours_receive (fun _ => trivial) ⟨e.exchange, {}⟩ rfl _
  apply (hloop.covered Receiving.covers_pacing ⟨⟨_, .listening _⟩, hl⟩).bind
  rintro last ⟨result, r⟩ ⟨stage, ⟨-, hlast⟩, -⟩
  cases result with
  | ok | error => exact honours_pure ⟨hlast, rfl⟩

theorem paces_awaitMode (e : Engine) (hl : Unspoken last) :
    Honours (pacing policy) (Listened e.config) last (e.awaitMode target operation deadline) := by
  unfold awaitMode
  by_cases hm : e.mode = target
  · rw [if_pos hm]
    exact honours_pure ⟨hl, rfl⟩
  · rw [if_neg hm]
    apply (e.paces_receive hl).bind
    rintro last ⟨result, e'⟩ hends
    match result with
    | .error _ | .ok .message => exact honours_pure hends
    | .ok (.switched mode) =>
      dsimp only
      split
      · exact honours_pure hends
      · exact honours_pure hends

theorem paces_resolveMode (e : Engine) (hl : Unspoken last) :
    Honours (pacing policy) (Listened e.config) last
      (e.resolveMode target operation deadline) := by
  by_cases hm : e.mode = target ∨ e.mode = .undefined
  · rw [e.resolveMode_eq_pure hm]
    exact honours_pure ⟨hl, rfl⟩
  · rw [not_or] at hm
    unfold resolveMode
    rw [if_neg hm.1, if_neg hm.2]
    cases e.config.switching with
    | manual => exact honours_pure ⟨hl, rfl⟩
    | auto =>
      apply (e.paces_awaitMode hl).bind
      rintro last ⟨result, e'⟩ hends
      cases result with
      | ok | error => exact honours_pure hends

theorem paces_readExchange (e : Engine) (room : Nat) (hl : Unspoken last) :
    Honours (pacing policy) (fun _ _ => True) last (e.readExchange room deadline) := by
  apply (e.paces_resolveMode hl).bind
  rintro last ⟨result, e₁⟩ ⟨hlast, -⟩
  cases result with
  | error => exact honours_pure trivial
  | ok =>
    apply (e₁.paces_receive hlast).bind
    rintro last ⟨received, e₂⟩ -
    match received with
    | .error _ | .ok .message | .ok (.switched _) => exact honours_pure trivial

theorem paces_writeExchange (e : Engine) (message : Bytes) (hl : Unspoken last) :
    Honours (pacing e.config.send.retry) (fun _ _ => True) last
      (e.writeExchange message .never) := by
  apply (e.paces_resolveMode hl).bind
  rintro last ⟨result, e₁⟩ ⟨-, hconfig⟩
  cases result with
  | error => exact honours_pure trivial
  | ok =>
    rw [← show e₁.config = e.config from hconfig]
    apply (Transmission.paces_sendFrames _ {}).bind
    rintro last sent -
    cases sent with
    | ok | error => exact honours_pure trivial

theorem unspoken_none : Unspoken none := nofun

/-- Every call without a limit keeps its waits in order. -/
theorem paces_call (e : Engine) (call : Call) (hl : call.limit = Millis.unlimited) :
    Honours (pacing e.config.send.retry) (fun _ _ => True) none (call.dialog e) := by
  cases call with
  | read room limit =>
    obtain rfl : limit = Millis.unlimited := hl
    cases hp : e.exchange.pending with
    | cons oldest rest =>
      change Honours _ _ _ (e.read room Millis.unlimited)
      rw [read_of_pending hp]
      split
      · exact honours_pure trivial
      · exact honours_pure trivial
    | nil =>
      change Honours _ _ _ (e.read room Millis.unlimited)
      rw [read_of_empty hp]
      apply (e.reset.paces_readExchange room unspoken_none).bind
      rintro last ⟨exchanged, e₁⟩ -
      exact honours_pure trivial
  | write message limit =>
    obtain rfl : limit = Millis.unlimited := hl
    apply (e.reset.paces_writeExchange message unspoken_none).bind
    rintro last ⟨exchanged, e₁⟩ -
    exact honours_pure trivial
  | waitForSend limit | waitForReceive limit =>
    obtain rfl : limit = Millis.unlimited := hl
    apply (e.reset.paces_awaitMode unspoken_none).bind
    rintro last ⟨awaited, e₁⟩ -
    exact honours_pure trivial
  | switchToReceive limit | switchToSend limit =>
    obtain rfl : limit = Millis.unlimited := hl
    apply (Transmission.paces_attempts _ {}).bind
    rintro last sent -
    cases sent with
    | ok | error => exact honours_pure trivial

end Engine

end Parts

namespace Call

open Dialog

/-- If the waits of the attempts are all the same, each attempt of a call without a limit is given
this wait. -/
theorem givesAttempts_of_nextTimeout {e : Engine} {call : Call} {wait : Millis}
    (hl : call.limit = Millis.unlimited)
    (hw : ∀ r : Retransmission, r.nextTimeout e.config.send.retry = wait) :
    call.GivesAttempts e wait := by
  rintro log hlog before after frame given written rfl hf
  have hadmits := hlog.admits (e.paces_call call hl)
  obtain ⟨-, hwrite, hafter⟩ := Contract.admits_append.1 hadmits
  obtain ⟨r, rfl⟩ := Or.resolve_left hwrite hf
  refine ⟨hw r, ?_⟩
  rintro room given answer rest rfl
  rw [← hw r]
  exact hafter.1 frame _ rfl hf

/-- A first attempt that fails on the link. -/
theorem begins_switchToReceive (e : Engine) :
    ((switchToReceive Millis.unlimited).dialog e).Begins
      [.write Control.setSend.encode (({} : Retransmission).nextTimeout e.config.send.retry)
        (.error .closed)] := by
  obtain ⟨allowed, hallowed⟩ := e.config.exists_maxAttempts_eq
  have hbudget : Retransmission.remaining {} e.config.send.retry = allowed + 1 := by
    simpa [Retransmission.remaining] using hallowed
  change (e.requestSwitch .setSend .receiver Millis.unlimited).Begins _
  simp only [Engine.requestSwitch, Deadline.start_unlimited, Transmission.sendFrame, hbudget,
    Transmission.attempts, Deadline.hasExpired_never, Deadline.clampNow_never, monad_bind,
    Dialog.pure_bind]
  exact @Begins.ask _ _ (.write _ _) _ _ (.error .closed) rfl (.start _)

end Call

namespace Config

variable {c : Config}

/-- A first attempt shows what is given. -/
theorem nextTimeout_of_givesAttempts {wait : Millis} (h : c.GivesAttempts wait) :
    ({} : Retransmission).nextTimeout c.send.retry = wait := by
  have hspeech : IsSpeech Control.setSend.encode := ⟨.control .setSend, ⟨nofun, nofun⟩, rfl⟩
  have hbegins := Call.begins_switchToReceive ⟨c, {}, none, none⟩
  obtain ⟨hfirst, -⟩ := h _ (.switchToReceive Millis.unlimited) rfl rfl _ hbegins [] [] _ _ _ rfl
    (not_isReply_of_isSpeech hspeech)
  exact hfirst

/-- With the waits of the attempts all the same, the attempts are given no other. -/
theorem givesAttempts_iff_of_nextTimeout {wait : Millis}
    (hw : ∀ r : Retransmission, r.nextTimeout c.send.retry = wait) (given : Millis) :
    c.GivesAttempts given ↔ given = wait := by
  constructor
  · intro hgives
    rw [← nextTimeout_of_givesAttempts hgives]
    exact hw {}
  · rintro rfl e call rfl hl
    exact Call.givesAttempts_of_nextTimeout hl hw

end Config

namespace Settings

variable {chain : List Setting} {c : Config}

/-- Of all accepted settings just those with a ceiling of zero let an attempt wait for no time, and
these let all attempts do so. -/
theorem alwaysWaits_iff (hc : (ofChain chain).check = .ok c) :
    (∀ r : Retransmission,
      r.nextTimeout c.send.retry = 0 ↔ (Setting.chosenBackoff chain).2 = 0) ∧
    (c.AlwaysWaits ↔ (Setting.chosenBackoff chain).2 ≠ 0) := by
  have hceiling : c.send.retry.maxAckTimeout = (Setting.chosenBackoff chain).2 := by
    rw [← backoff_ofChain, ← toSettings_of_check hc]
  rw [← hceiling]
  exact ⟨c.nextTimeout_eq_zero_iff, Config.alwaysWaits_iff_maxAckTimeout⟩

/-- The last ceiling counts, be it after one of zero. -/
theorem alwaysWaits_of_second_ceiling :
    ∃ c, (ofChain [.ackTimeout 300, .backoff 2 0, .backoff 3 1000]).check = .ok c ∧
      c.AlwaysWaits :=
  ⟨⟨_, rfl⟩, rfl, (@alwaysWaits_iff [.ackTimeout 300, .backoff 2 0, .backoff 3 1000] _ rfl).2.2
    (by decide)⟩

/-- A ceiling of zero is accepted, and no attempt waits. -/
theorem not_alwaysWaits_of_no_ceiling :
    ¬ ∀ chain c, (ofChain chain).check = .ok c → c.AlwaysWaits := by
  intro hall
  have hwaits := hall [.backoff 1 0] ⟨_, rfl⟩ rfl
  exact absurd (hwaits {} (by decide) 0 0) (by decide)

/-- If the growth of the waits is never set, every attempt gets the wait that is set, cut down to
the usual ceiling, and no other. So the wait that is set is the one in use just up to there. -/
theorem givesAttempts_iff (hchain : ∀ setting ∈ chain, setting.backoff? = none)
    (hc : (ofChain chain).check = .ok c) :
    (∀ wait, c.GivesAttempts wait ↔ wait = min (Setting.chosenAckTimeout chain) 2000) ∧
    (c.GivesAttempts (Setting.chosenAckTimeout chain) ↔ Setting.chosenAckTimeout chain ≤ 2000) := by
  have hretry : c.send.retry = (ofChain chain).send.retry := by rw [← toSettings_of_check hc]
  have husual : Setting.chosenBackoff chain = (1, 2000) := by
    rw [Setting.chosenBackoff, Setting.chosen, List.filterMap_eq_nil_iff.2 hchain]
    rfl
  obtain ⟨hgrowth, hceiling⟩ := Prod.mk.inj ((backoff_ofChain chain).trans husual)
  have hwait (r : Retransmission) :
      r.nextTimeout c.send.retry = min (Setting.chosenAckTimeout chain) 2000 := by
    rw [Config.nextTimeout_eq_min (by rw [hretry, hgrowth]), hretry, hceiling, ackTimeout_ofChain]
  have hgives := Config.givesAttempts_iff_of_nextTimeout hwait
  refine ⟨hgives, (hgives _).trans ?_⟩
  rw [← UInt64.toNat_inj, toNat_min, UInt64.le_iff_toNat_le]
  omega

/-- Of two waits set, the later one, and below the ceiling. -/
theorem givesAttempts_of_second_wait :
    ∃ c, (ofChain [.ackTimeout 300, .mtu 100, .ackTimeout 1500]).check = .ok c ∧
      c.GivesAttempts 1500 :=
  ⟨⟨_, rfl⟩, rfl, (@givesAttempts_iff [.ackTimeout 300, .mtu 100, .ackTimeout 1500] _ (by decide)
    rfl).2.2 (by decide)⟩

/-- Of five seconds set, an attempt is given two. -/
theorem not_givesAttempts_of_five_seconds :
    ¬ ∀ chain c, (∀ setting ∈ chain, setting.backoff? = none) → (ofChain chain).check = .ok c →
      c.GivesAttempts (Setting.chosenAckTimeout chain) := by
  intro hall
  have hgives := hall [.ackTimeout 5000] ⟨_, rfl⟩ (by decide) rfl
  exact absurd (Config.nextTimeout_of_givesAttempts hgives) (by decide)

end Settings

end StopAndWait
