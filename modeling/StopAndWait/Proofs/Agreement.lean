import StopAndWait.Proofs.Balance
import StopAndWait.Proofs.Calls

namespace StopAndWait

open Dialog

/-- A verdict is due from the writing of a frame on, as long as nothing else happens on the link. -/
theorem Stance.awaiting_of_turn {capacity : Nat} {s : Stance} {turn : Turn} {role : Mode}
    {frame : Bytes} (h : (conduct capacity).permits s turn.request)
    (ht : (conduct capacity).turn s turn = .awaiting role frame) :
    s = .awaiting role frame ∧ turn.isOnLink = false ∨
      ∃ bytes timeout answer, turn = .write bytes timeout answer ∧ ¬ IsReply bytes := by
  match turn with
  | .read room timeout answer =>
    cases s with
    | free role => cases answer <;> cases ht
    | taken | owing | judged => exact h.elim
    | awaiting => cases ht
  | .write bytes timeout answer =>
    cases s with
    | free | judged => exact .inr ⟨bytes, timeout, answer, rfl, not_isReply_of_isSpeech h⟩
    | owing => cases ht
    | taken | awaiting => exact h.elim
  | .now instant => exact .inl ⟨ht, rfl⟩
  | .note notice =>
    cases s with
    | taken role buffer =>
      obtain rfl : notice = .consumed buffer := h
      change noted (.taken role buffer) (.consumed buffer) = _ at ht
      simp only [noted] at ht
      split at ht <;> cases ht
    | free role =>
      obtain ⟨message, rfl⟩ := h
      cases ht
    | owing | awaiting | judged => exact h.elim

namespace Party

variable {config : Config} {p p' : Party} {s : Stance} {peer : List Bytes} {now : Instant}
  {call : Call} {e : Engine} {log : List Turn} {d : Dialog (Engine.End call.Result)}

inductive Stands (config : Config) (p : Party) : Stance → Prop
  | resting {e : Engine} (resting : p.business = .resting e) (settings : e.config = config) :
    Stands config p (.free e.mode)
  | calling {call : Call} {e : Engine} {log : List Turn} {d : Dialog (Engine.End call.Result)}
    {s : Stance} (calling : p.business = .calling call e log d) (settings : e.config = config)
    (honours : Honours (conduct config.send.mtu) (call.Ended e) s d) (role : s.role = p.role)
    (verdict : ∀ role frame, s = .awaiting role frame → p.AwaitsVerdict) : Stands config p s

def posture (p : Party) (s : Stance) : Posture := ⟨s, p.sent, p.since, p.read, p.heard⟩

theorem Stands.role_eq (h : p.Stands config s) : p.role = s.role := by
  cases h with
  | resting resting settings => simp [role, resting, Stance.role]
  | calling calling settings honours role verdict => exact role.symm

theorem Stands.honours (h : p.Stands config s) (calling : p.business = .calling call e log d) :
    e.config = config ∧ Honours (conduct config.send.mtu) (call.Ended e) s d := by
  cases h with
  | resting resting settings => rw [calling] at resting; cases resting
  | calling calling' settings honours role verdict =>
    rw [calling] at calling'
    cases calling'
    exact ⟨settings, honours⟩

/-- The stance after a turn of a call. -/
theorem Stands.turn (turn : Turn) {next : turn.request.Answer → Dialog (Engine.End call.Result)}
    (h : p.Stands config s) (calling : p.business = .calling call e log d)
    (view : d.view = .ask turn.request next)
    (calling' : p'.business = .calling call e (log ++ [turn]) (next turn.answer)) :
    (conduct config.send.mtu).permits s turn.request ∧
      p'.Stands config ((conduct config.send.mtu).turn s turn) := by
  obtain ⟨settings, honours⟩ := h.honours calling
  have hpermits := honours.permits view
  refine ⟨hpermits, .calling calling' settings (honours.answer view turn.answer) ?_ ?_⟩
  · rw [Stance.role_turn hpermits, ← h.role_eq]
    simp only [Party.role, calling, calling', summoned, List.filterMap_append]
    cases hs : turn.summons <;> simp [hs]
  · intro role frame ht
    refine ⟨call, e, _, _, calling', ?_⟩
    rcases Stance.awaiting_of_turn hpermits ht with ⟨hs, hoff⟩ | ⟨bytes, timeout, answer, rfl, hb⟩
    -- What does not happen on the link leaves the verdict due.
    · have hp : p.AwaitsVerdict := by
        cases h with
        | resting resting settings => rw [calling] at resting; cases resting
        | calling _ _ _ _ verdict => exact verdict role frame hs
      obtain ⟨_, _, _, _, hbusiness, before, bytes, timeout, answer, hlink, hb⟩ := hp
      rw [calling] at hbusiness
      cases hbusiness
      refine ⟨before, bytes, timeout, answer, ?_, hb⟩
      rw [linkTurns_append, hlink]
      simp [linkTurns, hoff]
    · exact ⟨linkTurns log, bytes, timeout, answer, by simp [linkTurns, Turn.isOnLink], hb⟩

/-- A step of a call is a step of its posture. -/
theorem Stands.moves (h : p.Stands config s) (hm : p.Moves peer now p') :
    ∃ s', p'.Stands config s' ∧
      (p.posture s).Step config.send.mtu peer (p'.posture s') := by
  cases hm with
  | silent calling view =>
    obtain ⟨settings, honours⟩ := h.honours calling
    obtain ⟨⟨role, rfl⟩, later⟩ := honours.silent view
    refine ⟨_, .calling rfl settings later ?_ nofun, .stays⟩
    rw [← h.role_eq]
    simp only [Party.role, calling]
  | now calling view => exact ⟨_, (h.turn (.now now) calling view rfl).2, .stays⟩
  | @consumes _ _ _ _ buffer _ calling view =>
    have hpermits := (h.honours calling).2.permits view
    cases s with
    | taken role buffer' =>
      obtain rfl : buffer = buffer' := Notice.consumed.inj hpermits
      exact ⟨_, (h.turn (.note (.consumed buffer)) calling view rfl).2, .enters rfl⟩
    | free => obtain ⟨message, hm⟩ := hpermits; cases hm
    | owing | awaiting | judged => exact hpermits.elim
  | @completes _ _ _ _ message _ calling view =>
    have hpermits := (h.honours calling).2.permits view
    cases s with
    | free => exact ⟨_, (h.turn (.note (.completed message)) calling view rfl).2, .stays⟩
    | taken => cases hpermits
    | owing | awaiting | judged => exact hpermits.elim
  | @writes call e log _ bytes timeout next calling view =>
    have hpermits := (h.honours calling).2.permits view
    let turn : Turn := .write bytes timeout (.ok bytes.length)
    let p' : Party := { p with
      business := .calling call e (log ++ [turn]) (next (.ok bytes.length))
      sent := p.sent ++ [bytes] }
    have hturn : _ ∧ p'.Stands config _ := h.turn turn calling view rfl
    have hspoken : ∀ role, Stance.spoken role bytes (.ok bytes.length) = .awaiting role bytes :=
      fun _ => if_pos rfl
    cases s with
    | free role | judged role =>
      have hstands := hturn.2
      change Stands _ _ (Stance.spoken role bytes (.ok bytes.length)) at hstands
      rw [hspoken] at hstands
      exact ⟨_, hstands, .speaks trivial hpermits⟩
    | owing role => exact ⟨_, hturn.2, .replies rfl hpermits⟩
    | taken | awaiting => exact hpermits.elim
  | @reads _ _ _ _ bytes capacity timeout _ calling view arrived =>
    have hpermits := (h.honours calling).2.permits view
    cases s with
    | free role =>
      obtain rfl : capacity = config.send.mtu := hpermits
      exact ⟨_, (h.turn (.read _ timeout (.ok (bytes.take _))) calling view rfl).2,
        .hears rfl arrived⟩
    | awaiting role frame =>
      exact ⟨_, (h.turn (.read capacity timeout (.ok (bytes.take capacity))) calling view
        rfl).2, .judges rfl arrived hpermits⟩
    | taken | owing | judged => exact hpermits.elim
  | @ends call _ e' _ _ result calling view =>
    obtain ⟨settings, honours⟩ := h.honours calling
    have hend := honours.done view
    refine ⟨.free e'.mode, .resting rfl (hend.settings.trans settings), .ends hend.even ?_⟩
    intro hu
    -- A change of roles that succeeds has an acknowledgment.
    apply hend.role
    cases hs : call.switches with
    | none => exact .inl rfl
    | some switch =>
      obtain ⟨request, role⟩ := switch
      cases result with
      | error error => exact .inr ⟨error, rfl⟩
      | ok value => exact absurd ⟨_, _, (hend.acked request role value hs rfl).1⟩ hu

/-- A read that times out while no verdict is due changes nothing that matters. -/
theorem Stands.misses (h : p.Stands config s) (hm : p.Misses p') (hp : ¬ p.AwaitsVerdict) :
    p'.Stands config s ∧ p'.posture s = p.posture s := by
  cases hm with
  | @intro _ _ _ _ capacity timeout _ calling view =>
    have hpermits := (h.honours calling).2.permits view
    cases s with
    | free role =>
      exact ⟨(h.turn (.read capacity timeout (.error .timeout)) calling view rfl).2, rfl⟩
    | awaiting role frame =>
      cases h with
      | calling _ _ _ _ verdict => exact absurd (verdict role frame rfl) hp
    | taken | owing | judged => exact hpermits.elim

/-- A call that begins takes a role only for an engine that has none. -/
theorem Stands.begins {e : Engine} (h : p.Stands config s) (resting : p.business = .resting e)
    (call : Call) :
    ∃ s', (p.calls call e).Stands config s' ∧
      (p.posture s).Step config.send.mtu peer ((p.calls call e).posture s') := by
  cases h with
  | calling calling => rw [resting] at calling; cases calling
  | @resting e' resting' settings =>
    rw [resting] at resting'
    cases resting'
    subst settings
    refine ⟨.free (call.opening e), .calling rfl rfl (e.honours_call call) rfl nofun, ?_⟩
    refine .begins rfl fun hne => ?_
    cases call <;> simp [Call.opening, hne]

end Party

namespace Duplex

open Engine

variable {config : Side → Config} {hasty : Side → Bool} {w w' : Duplex}

def InBalance (config : Side → Config) (w : Duplex) : Prop :=
  ∃ stance : Side → Stance, (∀ side, (w.party side).Stands (config side) (stance side)) ∧
    ∀ side, Posture.Balanced (config side).send.mtu (config side.other).send.mtu
      ((w.party side).posture (stance side)) ((w.party side.other).posture (stance side.other))

theorem inBalance_start (config : Side → Config) : (start config).InBalance config := by
  refine ⟨fun _ => .free .undefined, fun side => ?_, fun side => ?_⟩
  · exact .resting (e := { config := config side }) rfl rfl
  · exact ⟨.inl (.quiet trivial trivial), Nat.le_refl 0, Nat.le_refl 0, Nat.le_refl 0,
      Nat.le_refl 0, nofun, nofun, nofun, nofun, fun ha => Stance.not_isAcked_free _ ha.1⟩

/-- A step of one end keeps the balance. -/
theorem InBalance.set {stance : Side → Stance} {side : Side} {p' : Party} {s' : Stance}
    (stands : ∀ side, (w.party side).Stands (config side) (stance side))
    (balanced : ∀ side, Posture.Balanced (config side).send.mtu (config side.other).send.mtu
      ((w.party side).posture (stance side)) ((w.party side.other).posture (stance side.other)))
    (hs : p'.Stands (config side) s')
    (hstep : ((w.party side).posture (stance side)).Step (config side).send.mtu
      (w.party side.other).sent (p'.posture s')) : (w.set side p').InBalance config := by
  have hmoved := (balanced side).step (Nat.le_of_lt (config side).mtu_bounds.1) hstep
  refine ⟨Function.update stance side s', fun t => ?_, fun t => ?_⟩
  · rcases side.eq_or_eq_other t with rfl | rfl
    · simpa using hs
    · simpa [side.other_ne] using stands side.other
  · rcases side.eq_or_eq_other t with rfl | rfl
    · simpa [t.other_ne] using hmoved
    · simpa [side.other_ne] using hmoved.symm

theorem InBalance.step (h : w.InBalance config) (patient : ∀ side, hasty side = false)
    (hs : Step hasty w w') : w'.InBalance config := by
  obtain ⟨stance, stands, balanced⟩ := h
  cases hs with
  | tick n => exact ⟨stance, stands, balanced⟩
  | begins side call resting =>
    obtain ⟨s', hs', hstep⟩ := (stands side).begins resting call
    exact InBalance.set stands balanced hs' hstep
  | moves side moves =>
    obtain ⟨s', hs', hstep⟩ := (stands side).moves moves
    exact InBalance.set stands balanced hs' hstep
  | misses side misses hp =>
    obtain ⟨hs', hposture⟩ := (stands side).misses misses (hp (patient side))
    refine InBalance.set stands balanced hs' ?_
    rw [hposture]
    exact .stays

theorem Reachable.inBalance (h : Reachable config hasty w) (patient : ∀ side, hasty side = false) :
    w.InBalance config := by
  induction h with
  | refl => exact inBalance_start config
  | tail _ hs ih => exact ih.step patient hs

/-- In balance, a change of roles has an acknowledgment only when its peer has made it. -/
theorem InBalance.agrees (h : w.InBalance config) : w.Agrees := by
  obtain ⟨stance, stands, balanced⟩ := h
  intro side call e log d request role value e' calling switches view
  have hend := ((stands side).honours calling).2.done view
  obtain ⟨hstance, hrole⟩ := hend.acked request role value switches rfl
  obtain ⟨hother, hheard⟩ := (balanced side).heeded e.mode request.encode hstance
  refine ⟨hrole, ?_, hheard⟩
  rw [(stands side.other).role_eq]
  -- The request summons the peer to the opposite role.
  cases call with
  | switchToReceive => cases switches; exact hother .sender (summons_encode .setSend)
  | switchToSend => cases switches; exact hother .receiver (summons_encode .setRecv)
  | read | write | waitForSend | waitForReceive => cases switches

structure Performed (side : Side) (call : Call) (e : Engine) (moves : List Move)
    (d : Dialog (Engine.End call.Result)) (w w' : Duplex) : Prop where
  clock : w'.clock = w.clock
  other : w'.party side.other = w.party side.other
  business : ∃ log, (w'.party side).business = .calling call e log d
  sent : (w'.party side).sent = (w.party side).sent ++ Move.sent moves
  read : (w'.party side).read = (w.party side).read + (Move.got moves).length

/-- One step more before what an end has performed. -/
theorem Performed.head {side : Side} {call : Call} {e : Engine} {moves moves' : List Move}
    {d : Dialog (Engine.End call.Result)} {p : Party} (hs : Step hasty w (w.set side p))
    (h : ∃ w', Run hasty (w.set side p) w' ∧ Performed side call e moves d (w.set side p) w')
    (sent : p.sent ++ Move.sent moves = (w.party side).sent ++ Move.sent moves')
    (read : p.read + (Move.got moves).length = (w.party side).read + (Move.got moves').length) :
    ∃ w', Run hasty w w' ∧ Performed side call e moves' d w w' := by
  obtain ⟨w', hrun, hp⟩ := h
  have hsent := hp.sent
  have hread := hp.read
  have hother := hp.other
  rw [party_set_self] at hsent hread
  rw [party_set_other] at hother
  exact ⟨w', .head hs hrun, hp.clock, hother, hp.business, hsent.trans sent, hread.trans read⟩

/-- What a call performs is a run of the two ends. -/
theorem exists_run_of_performs (hasty : Side → Bool) {side : Side} {call : Call} {e : Engine}
    {log : List Turn} {d d' : Dialog (Engine.End call.Result)} {moves : List Move}
    (calling : (w.party side).business = .calling call e log d) (h : d.Performs w.clock moves d')
    (hg : Move.got moves <+: (w.party side.other).sent.drop (w.party side).read)
    (hm : .misses ∈ moves → hasty side = true) :
    ∃ w', Run hasty w w' ∧ Performed side call e moves d' w w' := by
  -- The clock stands still: the induction is over moves at one instant.
  obtain ⟨now, hnow⟩ : ∃ now, w.clock = now := ⟨_, rfl⟩
  rw [hnow] at h
  induction h generalizing w log with
  | refl d => exact ⟨w, .refl, rfl, rfl, ⟨log, calling⟩, by simp [Move.sent], by simp [Move.got]⟩
  | silent view later ih =>
    have hstep : Step hasty w _ := .moves side (.silent calling view)
    exact Performed.head hstep (ih (by rw [party_set_self]) (by simpa using hg) hm hnow) rfl rfl
  | now view later ih =>
    have hstep : Step hasty w _ := .moves side (.now calling view)
    exact Performed.head hstep (ih (by rw [party_set_self, hnow]) (by simpa using hg) hm hnow) rfl
      rfl
  | sends view later ih =>
    have hstep : Step hasty w _ := .moves side (.writes calling view)
    exact Performed.head hstep (ih (by rw [party_set_self]) (by simpa [Move.got] using hg)
      (fun h => hm (List.mem_cons_of_mem _ h)) hnow) (by simp [Move.sent]) rfl
  | gets bytes view later ih =>
    obtain ⟨rest, hrest⟩ := hg
    have hnext : (w.party side.other).sent[(w.party side).read]? = some bytes := by
      rw [← List.head?_drop, ← hrest]
      rfl
    rw [Posture.drop_of_getElem? hnext] at hrest
    have hstep : Step hasty w _ := .moves side (.reads calling view hnext)
    exact Performed.head hstep (ih (by rw [party_set_self])
      ⟨rest, by simpa using (List.cons.inj hrest).2⟩ (fun h => hm (List.mem_cons_of_mem _ h)) hnow)
      rfl (by simp only [Move.got, List.length_cons]; omega)
  -- A wait in vain is the one move that takes a hasty end.
  | misses view later ih =>
    have hs : hasty side = true := hm List.mem_cons_self
    have hstep : Step hasty w _ := .misses side (.intro calling view) (by simp [hs])
    exact Performed.head hstep (ih (by rw [party_set_self]) (by simpa [Move.got] using hg)
      (fun h => hm (List.mem_cons_of_mem _ h)) hnow) rfl rfl
  | @notes _ _ notice _ _ view later ih =>
    cases notice with
    | consumed buffer =>
      have hstep : Step hasty w _ := .moves side (.consumes calling view)
      exact Performed.head hstep (ih (by rw [party_set_self]) (by simpa [Move.got] using hg)
        (fun h => hm (List.mem_cons_of_mem _ h)) hnow) rfl rfl
    | completed message =>
      have hstep : Step hasty w _ := .moves side (.completes calling view)
      exact Performed.head hstep (ih (by rw [party_set_self]) (by simpa [Move.got] using hg)
        (fun h => hm (List.mem_cons_of_mem _ h)) hnow) rfl rfl

/-- A call begins and performs some moves. -/
theorem exists_run_of_call (hasty : Side → Bool) (w : Duplex) {side : Side} {e : Engine}
    (call : Call) {d : Dialog (Engine.End call.Result)} {moves : List Move}
    (resting : (w.party side).business = .resting e)
    (h : (call.dialog e).Performs w.clock moves d)
    (hg : Move.got moves <+: (w.party side.other).sent.drop (w.party side).read)
    (hm : .misses ∈ moves → hasty side = true) :
    ∃ w', Run hasty w w' ∧ Performed side call e moves d w w' := by
  have hbegins : Step hasty w _ := .begins side call resting
  obtain ⟨w', hrun, hp⟩ := exists_run_of_performs hasty
    (congrArg Party.business (party_set_self w side ((w.party side).calls call e))) h
    (by simpa [Party.calls] using hg) hm
  refine ⟨w', .head hbegins hrun, hp.clock, ?_, hp.business, ?_, ?_⟩
  · simpa using hp.other
  · simpa [Party.calls] using hp.sent
  · simpa [Party.calls] using hp.read

/-- A call that is done comes to its end. -/
theorem Performed.ends (hasty : Side → Bool) {side : Side} {call : Call} {e e' : Engine}
    {moves : List Move}
    {result : Except Error call.Result} {w₀ : Duplex}
    (h : Performed side call e moves (.pure (result, e')) w₀ w) :
    ∃ w', Step hasty w w' ∧ w'.clock = w.clock ∧ w'.party side.other = w.party side.other ∧
      (w'.party side).business = .resting e' ∧ (w'.party side).sent = (w.party side).sent ∧
      (w'.party side).read = (w.party side).read := by
  obtain ⟨log, calling⟩ := h.business
  have hends : Step hasty w _ := .moves side (.ends calling rfl)
  exact ⟨_, hends, rfl, by simp, by simp, by simp, by simp⟩

/-- A fresh engine that reads takes the sending role when it is handed over. -/
theorem performs_takeover (config : Config) (now : Instant) :
    ∃ e', e'.mode = .sender ∧
      (Call.dialog ⟨config, {}, none, none⟩ (.read 0 Millis.unlimited)).Performs now
        [.gets Control.setSend.encode, .notes (.consumed Control.setSend.encode),
          .sends Control.ack.encode] (.pure (.ok .handover, e')) := by
  let e : Engine := ⟨config, {}, none, none⟩
  let x : Exchange := e.exchange.reset.withMode .receiver
  have hroom : Control.setSend.encode.take e.config.send.mtu = Control.setSend.encode :=
    Control.take_encode config.controlSize_le_mtu .setSend
  have hswitch : x.onBuffer (Control.setSend.encode.take e.config.send.mtu) =
      .ok (.ack (.switched .sender), x.reset.withMode .sender) := by
    rw [hroom]
    exact x.onBuffer_request .setSend rfl
  have hd : (Deadline.after Millis.unlimited now).isExpired now = false := rfl
  obtain ⟨metrics, htaken⟩ := e.performs_handover (r := ⟨x, {}⟩) 0 hd hswitch
  rw [hroom] at htaken
  exact ⟨_, rfl, (performs_read (e := e) nofun rfl 0 Millis.unlimited).trans htaken⟩

/-- A change of roles whose request nobody acknowledges in time, and that runs out of time. -/
theorem performs_asking (config : Config) :
    ∃ d : Dialog (Engine.End Unit),
      (Call.dialog ⟨config, {}, none, none⟩ (.switchToReceive 1)).Performs 0
        [.sends Control.setSend.encode, .misses] d ∧
      d.Performs Instant.perMilli [] (.pure (.error .timeout, ⟨config, {}, none, none⟩)) := by
  let e : Engine := ⟨config, {}, none, none⟩
  obtain ⟨allowed, hall⟩ := config.exists_maxAttempts_eq
  have hopen : (Deadline.after 1 0).isExpired 0 = false := by decide
  have hover : (Deadline.after 1 0).isExpired Instant.perMilli = true := by decide
  have hstart : (Call.dialog e (.switchToReceive 1)).Performs 0 [] _ :=
    e.performs_requestSwitch .setSend .receiver 1
  rw [hall] at hstart
  exact ⟨_, hstart.trans (performs_ungranted hopen), performs_requestExpired hover⟩

/-- An end gives up its request, which its peer has taken; the acknowledgment is still to come. -/
theorem exists_belated (config : Side → Config) {side : Side} (hs : hasty side = true) :
    ∃ w, Reachable config hasty w ∧
      (w.party side).business = .resting ⟨config side, {}, none, none⟩ ∧
      (w.party side.other).role = .sender ∧
      (w.party side.other).sent.drop (w.party side).read = [Control.ack.encode] := by
  obtain ⟨d, hask, hexpire⟩ := performs_asking (config side)
  obtain ⟨w₁, hrun₁, hp₁⟩ := exists_run_of_call hasty (start config) _ rfl hask List.nil_prefix
    fun _ => hs
  -- The peer takes the request and acknowledges it.
  obtain ⟨f, hf, htake⟩ := performs_takeover (config side.other) w₁.clock
  have hpeer₁ : w₁.party side.other =
      { business := .resting ⟨config side.other, {}, none, none⟩ } := hp₁.other
  obtain ⟨w₂, hrun₂, hp₂⟩ := exists_run_of_call hasty w₁ _ (by rw [hpeer₁]) htake
    (by rw [Side.other_other, hp₁.sent, hpeer₁]; exact List.prefix_refl _) (by simp)
  obtain ⟨w₃, hstep₃, hclock₃, hother₃, hrest₃, hsent₃, -⟩ := hp₂.ends hasty
  have hself₃ : w₃.party side = w₁.party side := by
    have hself₂ := hp₂.other
    rw [Side.other_other] at hother₃ hself₂
    exact hother₃.trans hself₂
  -- Time passes, and the request is given up.
  let w₄ : Duplex := { w₃ with clock := w₃.clock + Instant.perMilli }
  have hclock₄ : w₄.clock = Instant.perMilli := by
    change w₃.clock + Instant.perMilli = _
    rw [hclock₃, hp₂.clock, hp₁.clock]
    exact Nat.zero_add _
  obtain ⟨log, hcalling⟩ := hp₁.business
  rw [← hclock₄] at hexpire
  have hcalling₄ : (w₄.party side).business = _ := (congrArg Party.business hself₃).trans hcalling
  obtain ⟨w₅, hrun₅, hp₅⟩ := exists_run_of_performs hasty hcalling₄ hexpire List.nil_prefix
    (by simp)
  obtain ⟨w₆, hstep₆, -, hother₆, hrest₆, -, hread₆⟩ := hp₅.ends hasty
  have hpeer₆ : w₆.party side.other = w₃.party side.other := hother₆.trans hp₅.other
  have hread : (w₆.party side).read = 0 := by
    rw [hread₆, hp₅.read]
    change (w₃.party side).read + 0 = 0
    rw [hself₃, hp₁.read]
    rfl
  refine ⟨w₆, ?_, hrest₆, ?_, ?_⟩
  · have hrun₃ : Run hasty (start config) w₃ := (hrun₁.trans hrun₂).tail hstep₃
    exact ((hrun₃.tail (.tick Instant.perMilli)).trans hrun₅).tail hstep₆
  · simp only [Party.role, hpeer₆, hrest₃, hf]
  · rw [hpeer₆, hsent₃, hp₂.sent, hpeer₁, hread]
    simp [Move.sent]

/-- The acknowledgment that comes too late passes for the verdict on the next request, which its
peer has not seen. -/
theorem exists_disagreement (config : Side → Config) (hasty : Side → Bool) (side : Side)
    (hs : hasty side = true) :
    ∃ w, Reachable config hasty w ∧ ¬ w.Agrees := by
  obtain ⟨w, hw, resting, role, flight⟩ := exists_belated config hs
  let e : Engine := ⟨config side, {}, none, none⟩
  obtain ⟨allowed, hall⟩ := (config side).exists_maxAttempts_eq
  have hask : (Call.dialog e (.switchToSend Millis.unlimited)).Performs w.clock [] _ :=
    e.performs_requestSwitch .setRecv .sender Millis.unlimited
  have hd : (Deadline.after Millis.unlimited w.clock).isExpired w.clock = false := rfl
  rw [hall] at hask
  obtain ⟨w', hrun, hp⟩ := exists_run_of_call hasty w _ resting (hask.trans (performs_granted hd))
    (by rw [flight]; exact List.prefix_refl _) (by simp)
  refine ⟨w', hw.trans hrun, fun hagrees => ?_⟩
  obtain ⟨log, hcalling⟩ := hp.business
  obtain ⟨-, hrole, -⟩ := hagrees side _ _ _ _ _ _ () _ hcalling rfl rfl
  rw [hp.other, role] at hrole
  cases hrole

/-- A change of roles that is acknowledged has been made at both ends, whatever calls are made and
whenever they time out, exactly if neither end ever gives up the wait for a verdict. -/
theorem agrees_iff (config : Side → Config) (hasty : Side → Bool) :
    (∀ w, Reachable config hasty w → w.Agrees) ↔ ∀ side, hasty side = false := by
  constructor
  · intro h side
    apply Bool.eq_false_iff.2
    intro hs
    obtain ⟨w, hw, hn⟩ := exists_disagreement config hasty side (by simpa using hs)
    exact hn (h w hw)
  · intro patient w hw
    exact (hw.inBalance patient).agrees

theorem not_agrees_default :
    ¬ ∀ w, Reachable (fun _ => default) (fun _ => true) w → w.Agrees := by
  intro h
  obtain ⟨w, hw, hn⟩ := exists_disagreement (fun _ => default) (fun _ => true) .a rfl
  exact hn (h w hw)

end Duplex

end StopAndWait
