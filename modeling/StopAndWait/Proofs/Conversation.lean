import StopAndWait.Proofs.Agreement
import StopAndWait.Proofs.Ensemble

/-!
Half-duplex conversations. The ends take turns: one of them writes messages, which the other reads,
until the roles are exchanged at the wish of the one or of the other. On a link that keeps what is
written, and with time enough, every conversation goes through as it is meant to.
-/
namespace StopAndWait

structure Item where
  message : Bytes
  room : Nat
  writeLimit : Millis
  readLimit : Millis

inductive Handover
  -- The speaker gives its role to the listener, which is in a read.
  | given (limit : Millis) (room : Nat) (readLimit : Millis)
  -- The listener takes the role, which the speaker waits for.
  | taken (limit waitLimit : Millis)
  -- The listener takes the role from a speaker that is in its next read.
  | takenInRead (limit : Millis)

/-- Turns of speaking, and in the end maybe a read in which the listener is left waiting. -/
inductive Talk
  | finished (last : Option (Nat × Millis))
  | turn (first : Item) (more : List Item) (handover : Handover) (next : Talk)

namespace Item

def written (item : Item) : Report :=
  ⟨.write item.message item.writeLimit, .ok item.message.length, .sender, []⟩

def read (item : Item) : Report :=
  ⟨.read item.room item.readLimit, .ok (.message item.message), .receiver, []⟩

def saying (capacity : Nat) (item : Item) : List Move :=
  (plan item.message capacity).flatMap (Move.asking ·.encode)

def hearing (capacity : Nat) (item : Item) : List Move :=
  (plan item.message capacity).flatMap (Move.answering ·.encode) ++
    [.notes (.completed item.message)]

structure Fits (horizon : Instant) (item : Item) : Prop where
  nonempty : item.message ≠ []
  room : item.message.length ≤ item.room
  writeLimit : Millis.Spans item.writeLimit horizon
  readLimit : Millis.Spans item.readLimit horizon

end Item

namespace Handover

def spoken : Handover → List Report
  | given limit _ _ => [⟨.switchToReceive limit, .ok (), .receiver, []⟩]
  | taken _ waitLimit => [⟨.waitForReceive waitLimit, .ok (), .receiver, []⟩]
  | takenInRead _ => []

def heard : Handover → List Report
  | given _ room readLimit => [⟨.read room readLimit, .ok .handover, .sender, []⟩]
  | taken limit _ | takenInRead limit => [⟨.switchToSend limit, .ok (), .sender, []⟩]

def saying : Handover → List Move
  | given _ _ _ => Move.asking Control.setSend.encode
  | taken _ _ | takenInRead _ => Move.answering Control.setRecv.encode

def hearing : Handover → List Move
  | given _ _ _ => Move.answering Control.setSend.encode
  | taken _ _ | takenInRead _ => Move.asking Control.setRecv.encode

def Fits (horizon : Instant) (speaker : Config) (next : Talk) : Handover → Prop
  | given limit _ readLimit => Millis.Spans limit horizon ∧ Millis.Spans readLimit horizon
  | taken limit waitLimit => Millis.Spans limit horizon ∧ Millis.Spans waitLimit horizon
  | takenInRead limit =>
    Millis.Spans limit horizon ∧ speaker.switching = .auto ∧ next ≠ .finished none

end Handover

namespace Talk

def reports (side : Side) : Side → Talk → List Report
  | _, finished _ => []
  | speaker, turn first more handover next =>
    (if side = speaker then (first :: more).map Item.written ++ handover.spoken
      else (first :: more).map Item.read ++ handover.heard) ++ next.reports side speaker.other

def calls (side : Side) : Side → Talk → List Call
  | speaker, finished last =>
    if side = speaker then [] else last.toList.map fun (room, limit) => .read room limit
  | speaker, turn first more handover next =>
    (if side = speaker then ((first :: more).map Item.written ++ handover.spoken).map Report.call
      else ((first :: more).map Item.read ++ handover.heard).map Report.call) ++
        next.calls side speaker.other

def said (side : Side) : Side → Talk → List Bytes
  | _, finished _ => []
  | speaker, turn first more _ next =>
    (if side = speaker then (first :: more).map Item.message else []) ++
      next.said side speaker.other

def moves (capacity : Nat) (side : Side) : Side → Talk → List Move
  | _, finished _ => []
  | speaker, turn first more handover next =>
    (if side = speaker then (first :: more).flatMap (·.saying capacity) ++ handover.saying
      else (first :: more).flatMap (·.hearing capacity) ++ handover.hearing) ++
        next.moves capacity side speaker.other

def Fits (config : Side → Config) (horizon : Instant) : Side → Talk → Prop
  | _, finished last => ∀ wait ∈ last, Millis.Spans wait.2 horizon
  | speaker, turn first more handover next =>
    (∀ item ∈ first :: more, item.Fits horizon) ∧ handover.Fits horizon (config speaker) next ∧
      next.Fits config horizon speaker.other

end Talk

namespace Report

def Succeeds (report : Report) : Prop := ∃ value, report.result = .ok value

def delivered : Report → Option Bytes
  | ⟨.read _ _, .ok (.message message), _, _⟩ => some message
  | _ => none

end Report

section

open Dialog

variable {horizon : Instant} {config : Config} {capacity : Nat} {e : Engine} {first : Item}
  {more : List Item} {todo : List Call} {left : List Report} {moves : List Move}

namespace Part

theorem plays_written {item : Item} (hc : config.capacity = capacity) (hfits : item.Fits horizon)
    (hs : e.config = config) (he : e.mode ≠ .receiver) (hp : e.exchange.pending = [])
    (h : ∀ e', Engine.Rests config .sender e' → Plays horizon ⟨.resting e', todo, left, moves⟩) :
    Plays horizon ⟨.resting e, item.written.call :: todo, item.written :: left,
      item.saying capacity ++ moves⟩ := by
  subst hs hc
  apply plays_call
  apply Engine.plays_write he hp hfits.writeLimit
  exact fun e' he' => .stop ⟨he'.role, he'.empty, h e' he'⟩

theorem plays_read {item : Item} {approach : List Move} (hc : config.capacity = capacity)
    (hfits : item.Fits horizon) (hs : e.config = config) (ha : e.Approaches approach)
    (hp : e.exchange.pending = [])
    (h : ∀ e', Engine.Rests config .receiver e' → Plays horizon ⟨.resting e', todo, left, moves⟩) :
    Plays horizon ⟨.resting e, item.read.call :: todo, item.read :: left,
      approach ++ (item.hearing capacity ++ moves)⟩ := by
  subst hs
  apply plays_call
  apply Engine.plays_read ha hp hfits.readLimit
  intro e' x deadline hd hx
  rw [Item.hearing, List.append_assoc]
  apply Engine.plays_message hd hx hfits.nonempty (by rw [← hc, hx.settings]) hfits.room
  exact fun e' he' => .stop ⟨he'.role, he'.empty, h e' he'⟩

/-- The messages of a turn, for the one who speaks. -/
theorem plays_saying (hc : config.capacity = capacity)
    (hfits : ∀ item ∈ first :: more, item.Fits horizon) (hs : e.config = config)
    (he : e.mode ≠ .receiver) (hp : e.exchange.pending = [])
    (h : ∀ e', Engine.Rests config .sender e' → Plays horizon ⟨.resting e', todo, left, moves⟩) :
    Plays horizon ⟨.resting e, ((first :: more).map Item.written).map Report.call ++ todo,
      (first :: more).map Item.written ++ left,
      (first :: more).flatMap (·.saying capacity) ++ moves⟩ := by
  have hfirst := hfits first List.mem_cons_self
  induction more generalizing first e with
  | nil =>
    rw [List.flatMap_singleton]
    exact plays_written hc hfirst hs he hp h
  | cons second more ih =>
    have hmore : ∀ item ∈ second :: more, item.Fits horizon :=
      fun item hi => hfits item (List.mem_cons_of_mem _ hi)
    rw [List.flatMap_cons, List.append_assoc]
    apply plays_written hc hfirst hs he hp
    intro e' he'
    exact ih hmore he'.settings (by simp [he'.role]) he'.empty (hmore second List.mem_cons_self)

/-- The messages of a turn, for the one who listens. -/
theorem plays_hearing {approach : List Move} (hc : config.capacity = capacity)
    (hfits : ∀ item ∈ first :: more, item.Fits horizon) (hs : e.config = config)
    (ha : e.Approaches approach) (hp : e.exchange.pending = [])
    (h : ∀ e', Engine.Rests config .receiver e' → Plays horizon ⟨.resting e', todo, left, moves⟩) :
    Plays horizon ⟨.resting e, ((first :: more).map Item.read).map Report.call ++ todo,
      (first :: more).map Item.read ++ left,
      approach ++ ((first :: more).flatMap (·.hearing capacity) ++ moves)⟩ := by
  have hfirst := hfits first List.mem_cons_self
  induction more generalizing first e approach with
  | nil =>
    rw [List.flatMap_singleton]
    exact plays_read hc hfirst hs ha hp h
  | cons second more ih =>
    have hmore : ∀ item ∈ second :: more, item.Fits horizon :=
      fun item hi => hfits item (List.mem_cons_of_mem _ hi)
    rw [List.flatMap_cons, List.append_assoc]
    apply plays_read hc hfirst hs ha hp
    intro e' he'
    exact ih hmore he'.settings (.atOnce (by simp [he'.role])) he'.empty
      (hmore second List.mem_cons_self)

/-- The end of a turn, for the one who has spoken. -/
theorem plays_givingUp {handover : Handover} {next : Talk}
    (hfits : handover.Fits horizon config next) (he : e.Rests config .sender)
    (h : ∀ e' approach, e'.config = config → e'.exchange.pending = [] → e'.Approaches approach →
      (approach ≠ [] → next ≠ .finished none) →
      Plays horizon ⟨.resting e', todo, left, approach ++ moves⟩) :
    Plays horizon ⟨.resting e, handover.spoken.map Report.call ++ todo, handover.spoken ++ left,
      handover.saying ++ moves⟩ := by
  have hfree : ∀ e' : Engine, e'.Rests config .receiver →
      Plays horizon ⟨.resting e', todo, left, moves⟩ :=
    fun e' he' => h e' [] he'.settings he'.empty (.atOnce (by simp [he'.role])) nofun
  obtain ⟨rfl, hrole, hempty⟩ := he
  cases handover with
  | given limit room readLimit =>
    apply plays_call
    apply Engine.plays_requestSwitch hempty hfits.1
    exact fun e' he' => .stop ⟨he'.role, he'.empty, hfree e' he'⟩
  | taken limit waitLimit =>
    apply plays_call
    apply Engine.plays_waitForReceive hrole hempty hfits.2
    exact fun e' he' => .stop ⟨he'.role, he'.empty, hfree e' he'⟩
  -- There is no call for this: its next read comes to it.
  | takenInRead limit =>
    obtain ⟨-, hauto, hnext⟩ := hfits
    exact h e _ rfl hempty (.relieved hrole hauto) fun _ => hnext

/-- The end of a turn, for the one who has listened. -/
theorem plays_takingOver {handover : Handover} {speaker : Config} {next : Talk}
    (hfits : handover.Fits horizon speaker next) (he : e.Rests config .receiver)
    (h : ∀ e', Engine.Rests config .sender e' → Plays horizon ⟨.resting e', todo, left, moves⟩) :
    Plays horizon ⟨.resting e, handover.heard.map Report.call ++ todo, handover.heard ++ left,
      handover.hearing ++ moves⟩ := by
  obtain ⟨rfl, hrole, hempty⟩ := he
  cases handover with
  | given limit room readLimit =>
    have hready : e.Approaches [] := .atOnce (by simp [hrole])
    apply plays_call
    apply Engine.plays_read hready hempty hfits.2
    intro e' x deadline hd hx
    apply Engine.plays_handover hd hx
    exact fun e' he' => .stop ⟨he'.role, he'.empty, h e' he'⟩
  | taken limit waitLimit =>
    apply plays_call
    apply Engine.plays_requestSwitch hempty hfits.1
    exact fun e' he' => .stop ⟨he'.role, he'.empty, h e' he'⟩
  | takenInRead limit =>
    apply plays_call
    apply Engine.plays_requestSwitch hempty hfits.1
    exact fun e' he' => .stop ⟨he'.role, he'.empty, h e' he'⟩

theorem plays_waiting {approach : List Move} {room : Nat} {limit : Millis}
    (ha : e.Approaches approach) (hp : e.exchange.pending = []) (hl : Millis.Spans limit horizon) :
    Plays horizon ⟨.resting e, [.read room limit], [], approach⟩ := by
  have hread : Dialog.Plays horizon (fun d moves => d.IsListening ∧ moves = [])
      (Call.dialog e (.read room limit)) (approach ++ []) :=
    Engine.plays_read ha hp hl fun _ _ _ hd _ => Engine.plays_waits hd fun _ h => ⟨h, rfl⟩
  rw [List.append_nil] at hread
  exact plays_last hread

end Part

end

theorem Meshes.exchange (bytes : Bytes) :
    Meshes [] [] (Move.asking bytes) (Move.answering bytes) :=
  .sends (.hears (.enters (.answers (.gets .done))))

namespace Item

theorem meshes (capacity : Nat) (item : Item) :
    Meshes [] [] (item.saying capacity) (item.hearing capacity) := by
  have hframes : ∀ frames : List Frame, Meshes [] [] (frames.flatMap (Move.asking ·.encode))
      (frames.flatMap (Move.answering ·.encode)) := by
    intro frames
    induction frames with
    | nil => exact .done
    | cons frame rest ih => exact (Meshes.exchange frame.encode).append ih
  have hlast : Meshes [] [] [] [.notes (.completed item.message)] := .enters .done
  simpa [saying, hearing] using (hframes (plan item.message capacity)).append hlast

end Item

theorem Handover.succeeds_of_mem_spoken (handover : Handover) {report : Report}
    (h : report ∈ handover.spoken) : report.Succeeds := by
  cases handover with
  | given | taken =>
    obtain rfl := List.mem_singleton.1 h
    exact ⟨_, rfl⟩
  | takenInRead => cases h

theorem Handover.succeeds_of_mem_heard (handover : Handover) {report : Report}
    (h : report ∈ handover.heard) : report.Succeeds := by
  cases handover <;> obtain rfl := List.mem_singleton.1 h <;> exact ⟨_, rfl⟩

theorem Handover.meshes (handover : Handover) : Meshes [] [] handover.saying handover.hearing := by
  cases handover with
  | given limit room readLimit => exact .exchange _
  | taken limit waitLimit => exact (Meshes.exchange _).symm
  | takenInRead limit => exact (Meshes.exchange _).symm

namespace Talk

variable {config : Side → Config} {horizon : Instant} {capacity : Nat} {side speaker : Side}
  {talk : Talk}

/-- What the two ends play fits together. -/
theorem meshes (capacity : Nat) (talk : Talk) (speaker : Side) :
    Meshes [] [] (talk.moves capacity speaker speaker)
      (talk.moves capacity speaker.other speaker) := by
  induction talk generalizing speaker with
  | finished last => exact .done
  | turn first more handover next ih =>
    have hitems : ∀ items : List Item,
        Meshes [] [] (items.flatMap (·.saying capacity)) (items.flatMap (·.hearing capacity)) := by
      intro items
      induction items with
      | nil => exact .done
      | cons item rest ih => exact (item.meshes capacity).append ih
    have hnext := (ih speaker.other).symm
    rw [Side.other_other] at hnext
    simp only [moves, if_pos, if_neg speaker.other_ne]
    exact ((hitems (first :: more)).append handover.meshes).append hnext

/-- Each end plays its part of a conversation, from whatever role it can begin in. -/
theorem plays (hc : ∀ side, (config side).capacity = capacity)
    (hfits : talk.Fits config horizon speaker) {e : Engine} (hs : e.config = config side)
    (hp : e.exchange.pending = []) :
    (side = speaker → e.mode ≠ .receiver → Part.Plays horizon
      ⟨.resting e, talk.calls side speaker, talk.reports side speaker,
        talk.moves capacity side speaker⟩) ∧
    (side = speaker.other → ∀ approach, e.Approaches approach →
      (approach ≠ [] → talk ≠ .finished none) → Part.Plays horizon
        ⟨.resting e, talk.calls side speaker, talk.reports side speaker,
          approach ++ talk.moves capacity side speaker⟩) := by
  induction talk generalizing speaker e with
  | finished last =>
    constructor
    · rintro rfl he
      simp only [calls, if_pos]
      exact Part.plays_over e
    · rintro rfl approach ha hl
      simp only [calls, if_neg speaker.other_ne, moves, List.append_nil]
      cases last with
      | none =>
        have happroach : approach = [] := Classical.byContradiction fun hn => hl hn rfl
        rw [happroach]
        exact Part.plays_over e
      | some wait => exact Part.plays_waiting ha hp (hfits wait rfl)
  | turn first more handover next ih =>
    obtain ⟨hitems, hhandover, hnext⟩ := hfits
    constructor
    · rintro rfl he
      simp only [calls, reports, moves, if_pos, List.map_append, List.append_assoc]
      apply Part.plays_saying (hc side) hitems hs he hp
      intro e' he'
      apply Part.plays_givingUp hhandover he'
      intro e'' approach hs'' hp'' ha hl
      exact (ih hnext hs'' hp'').2 side.other_other.symm approach ha hl
    · rintro rfl approach ha hl
      simp only [calls, reports, moves, if_neg speaker.other_ne, List.map_append, List.append_assoc]
      apply Part.plays_hearing (hc speaker.other) hitems hs ha hp
      intro e' he'
      apply Part.plays_takingOver hhandover he'
      intro e'' he''
      exact (ih hnext he''.settings he''.empty).1 rfl (by simp [he''.role])

/-- What the reads of a conversation hand out is what the other end says. -/
theorem delivered_reports (talk : Talk) (side speaker : Side) :
    (talk.reports side speaker).filterMap Report.delivered = talk.said side.other speaker := by
  have hwritten : ∀ items : List Item,
      (items.map Item.written).filterMap Report.delivered = [] := by
    intro items
    rw [List.filterMap_map]
    exact List.filterMap_eq_nil_iff.2 fun _ _ => rfl
  have hread : ∀ items : List Item,
      (items.map Item.read).filterMap Report.delivered = items.map Item.message := by
    intro items
    rw [List.filterMap_map]
    exact congrFun List.filterMap_eq_map items
  induction talk generalizing speaker with
  | finished last => rfl
  | turn first more handover next ih =>
    simp only [reports, said, List.filterMap_append, ih]
    congr 1
    rcases speaker.eq_or_eq_other side with rfl | rfl
    · simp only [if_pos, if_neg side.other_ne, List.filterMap_append, hwritten]
      cases handover <;> rfl
    · simp only [if_neg speaker.other_ne, Side.other_other, if_pos, List.filterMap_append, hread]
      cases handover <;> exact List.append_nil _

theorem succeeds_of_mem_reports {report : Report} (h : report ∈ talk.reports side speaker) :
    report.Succeeds := by
  induction talk generalizing speaker with
  | finished last => cases h
  | turn first more handover next ih =>
    simp only [reports, List.mem_append] at h
    rcases h with h | h
    · split at h <;> rcases List.mem_append.1 h with h | h
      · obtain ⟨item, -, rfl⟩ := List.mem_map.1 h
        exact ⟨_, rfl⟩
      · exact handover.succeeds_of_mem_spoken h
      · obtain ⟨item, -, rfl⟩ := List.mem_map.1 h
        exact ⟨_, rfl⟩
      · exact handover.succeeds_of_mem_heard h
    · exact ih h

end Talk

namespace Duplex

variable {config : Side → Config} {horizon : Instant} {speaker : Side} {talk : Talk}
  {w : Duplex}

/-- All that two engines with these settings can come to in a conversation. -/
def Converses (config : Side → Config) (horizon : Instant) (talk : Talk) (speaker : Side) :
    Duplex → Prop :=
  Relation.ReflTransGen (Proceeds (talk.calls · speaker) horizon) (start config)

theorem Converses.underway (hmtu : (config .a).send.mtu = (config .b).send.mtu)
    (hfits : talk.Fits config horizon speaker) (hw : Converses config horizon talk speaker w) :
    ∃ part, Underway (talk.calls · speaker) (talk.reports · speaker) horizon w part := by
  induction hw with
  | refl =>
    have hc : ∀ side, (config side).capacity = (config .a).capacity := by
      intro side
      cases side with
      | a => rfl
      | b => rw [Config.capacity, Config.capacity, hmtu]
    let part : Side → Part := fun side => ⟨.resting ⟨config side, {}, none, none⟩,
      talk.calls side speaker, talk.reports side speaker,
      talk.moves (config .a).capacity side speaker⟩
    have hplays : ∀ side, (part side).Plays horizon := by
      intro side
      obtain ⟨hspeaks, hlistens⟩ :=
        talk.plays hc hfits (e := ⟨config side, {}, none, none⟩) rfl rfl
      rcases speaker.eq_or_eq_other side with rfl | rfl
      · exact hspeaks rfl nofun
      · exact hlistens rfl [] (.atOnce nofun) nofun
    refine ⟨part, Nat.zero_le _, fun side => ⟨rfl, rfl, rfl, hplays side⟩, fun _ => Nat.le_refl 0,
      fun side => ?_⟩
    rcases speaker.eq_or_eq_other side with rfl | rfl
    · exact talk.meshes _ side
    · have hmesh := (talk.meshes (config .a).capacity speaker).symm
      simpa [part, inFlight, start] using hmesh
  | tail hrun hs ih =>
    obtain ⟨part, h⟩ := ih
    obtain ⟨side, q, hgoes, h'⟩ := h.step hs
    exact ⟨_, h'⟩

/-- Where nothing more can happen, some run leads to. -/
theorem exists_last {script : Side → List Call}
    (h : Acc (fun w' w => Proceeds script horizon w w') w) :
    ∃ w', Relation.ReflTransGen (Proceeds script horizon) w w' ∧
      ∀ w'', ¬ Proceeds script horizon w' w'' := by
  induction h with
  | intro w later ih =>
    by_cases hn : ∀ w', ¬ Proceeds script horizon w w'
    · exact ⟨w, .refl, hn⟩
    · obtain ⟨w', hs⟩ := Classical.not_forall_not.1 hn
      obtain ⟨w'', hrun, hlast⟩ := ih w' hs
      exact ⟨w'', .head hs hrun, hlast⟩

/-- Two fresh engines go through a conversation. At every point of it the calls that have ended have
succeeded with what they should, and where a change of roles is reported it is made at both ends.
The conversation does not go on for ever, and where it stops everything in it has happened. -/
theorem conversation (hmtu : (config .a).send.mtu = (config .b).send.mtu)
    (hfits : talk.Fits config horizon speaker) (hw : Converses config horizon talk speaker w) :
    (∀ side, (w.party side).reports <+: talk.reports side speaker ∧
      (∀ report ∈ (w.party side).reports, report.Succeeds) ∧
      (w.party side).reports.filterMap Report.delivered <+: talk.said side.other speaker) ∧
    w.Agrees ∧
    Acc (fun w' w => Proceeds (talk.calls · speaker) horizon w w') w ∧
    ((∀ w', ¬ Proceeds (talk.calls · speaker) horizon w w') → ∀ side,
      (w.party side).reports = talk.reports side speaker ∧
      (w.party side).reports.filterMap Report.delivered = talk.said side.other speaker ∧
      w.inFlight side = []) := by
  obtain ⟨part, h⟩ := hw.underway hmtu hfits
  refine ⟨fun side => ?_, ?_, h.acc, fun hn side => ?_⟩
  · have hbegun : (w.party side).reports <+: talk.reports side speaker :=
      ⟨_, (h.keeps side).reports.symm⟩
    refine ⟨hbegun, fun report hr => Talk.succeeds_of_mem_reports (hbegun.subset hr), ?_⟩
    rw [← talk.delivered_reports]
    exact hbegun.filterMap _
  -- A conversation is a run in which nobody gives up the wait for a verdict.
  · have hrun : Reachable config (fun _ => false) w := by
      clear h
      induction hw with
      | refl => exact .refl
      | tail _ hs ih => exact ih.trans hs.run
    exact (hrun.inBalance fun _ => rfl).agrees
  · rw [h.reports_eq hn side, talk.delivered_reports]
    exact ⟨rfl, rfl, h.inFlight_eq_nil hn side⟩

/-- Three turns, with a message of several frames and a hand-over of each kind. -/
theorem conversation_of_three_turns :
    let item : Bytes → Item := fun message => ⟨message, 3, Millis.unlimited, Millis.unlimited⟩
    ∃ w, Converses (fun _ => ⟨{ send := { mtu := 4 } }, rfl⟩) 0
        (.turn (item [1, 2, 3]) [item [4]] (.given Millis.unlimited 0 Millis.unlimited)
          (.turn (item [5]) [] (.takenInRead Millis.unlimited)
            (.turn (item [6]) [] (.taken Millis.unlimited Millis.unlimited) (.finished none))))
        .a w ∧
      (w.party .a).reports.filterMap Report.delivered = [[5]] ∧
      (w.party .b).reports.filterMap Report.delivered = [[1, 2, 3], [4], [6]] := by
  intro item
  let config : Side → Config := fun _ => ⟨{ send := { mtu := 4 } }, rfl⟩
  let talk : Talk := .turn (item [1, 2, 3]) [item [4]] (.given Millis.unlimited 0 Millis.unlimited)
    (.turn (item [5]) [] (.takenInRead Millis.unlimited)
      (.turn (item [6]) [] (.taken Millis.unlimited Millis.unlimited) (.finished none)))
  have hspans : Millis.Spans Millis.unlimited 0 := .inl rfl
  have hitem : ∀ message : Bytes, message ≠ [] → message.length ≤ 3 → (item message).Fits 0 :=
    fun _ hm hl => ⟨hm, hl, hspans, hspans⟩
  have hfits : talk.Fits config 0 .a := by
    refine ⟨?_, ⟨hspans, hspans⟩, ?_, ⟨hspans, rfl, nofun⟩, ?_, ⟨hspans, hspans⟩, nofun⟩
    · simp [hitem]
    · simp [hitem]
    · simp [hitem]
  obtain ⟨-, -, hacc, -⟩ := conversation rfl hfits .refl
  obtain ⟨w, hw, hlast⟩ := exists_last hacc
  obtain ⟨-, -, -, hend⟩ := conversation rfl hfits hw
  exact ⟨w, hw, (hend hlast .a).2.1, (hend hlast .b).2.1⟩

end Duplex

end StopAndWait
