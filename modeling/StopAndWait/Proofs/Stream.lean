import Mathlib.Data.List.Forall2
import StopAndWait.Proofs.Completion
import StopAndWait.Proofs.Script

/-!
The reading of whole streams. The frames of one message after another come in by a script, most of
them repeated and with noise between them; reads one after the other give back the messages.
-/
namespace StopAndWait

namespace Arrival

/-- What may come between the frames of a message: silence, damage, and what means nothing to the
receiving side. -/
inductive IsNoise (capacity : Nat) : Arrival → Prop
  | timeout : IsNoise capacity .timeout
  | damaged {bytes : Bytes} (fits : bytes.length ≤ capacity) (bad : isIntact bytes = false) :
    IsNoise capacity (.buffer bytes)
  | reply {bytes : Bytes} {kind : Control} (fits : bytes.length ≤ capacity)
    (intact : isIntact bytes = true) (decoded : Frame.decode bytes = .ok (.control kind))
    (late : kind = .ack ∨ kind = .nack) : IsNoise capacity (.buffer bytes)
  | unknown {bytes : Bytes} {code : UInt8} (fits : bytes.length ≤ capacity)
    (intact : isIntact bytes = true) (decoded : Frame.decode bytes = .ok (.unknown code)) :
    IsNoise capacity (.buffer bytes)

def reply? : Arrival → Option Bytes
  | timeout => none
  | buffer bytes => some (if isIntact bytes then Control.ack.encode else Control.nack.encode)

end Arrival

/-- What comes in while the frames are sent: each of them again and again as long as others follow,
the last one once, and noise before any of them. -/
inductive Carried (capacity : Nat) : List Frame → List Arrival → Prop
  | last (frame : Frame) : Carried capacity [frame] [.buffer frame.encode]
  | next {frame : Frame} {rest : List Frame} {arrivals : List Arrival} (more : rest ≠ [])
    (later : Carried capacity rest arrivals) :
    Carried capacity (frame :: rest) (.buffer frame.encode :: arrivals)
  | again {frame : Frame} {rest : List Frame} {arrivals : List Arrival} (more : rest ≠ [])
    (later : Carried capacity (frame :: rest) arrivals) :
    Carried capacity (frame :: rest) (.buffer frame.encode :: arrivals)
  | noise {frames : List Frame} {arrival : Arrival} {arrivals : List Arrival}
    (noise : arrival.IsNoise capacity) (later : Carried capacity frames arrivals) :
    Carried capacity frames (arrival :: arrivals)

open Rendezvous (Due)

def Expects (message : Bytes) (x : Exchange) (frames : List Frame) : Prop :=
  ∃ frame rest, frames = frame :: rest ∧ Due message x frame rest

namespace Expects

variable {message : Bytes} {x : Exchange} {frame : Frame} {rest : List Frame}

theorem of_course {frames : List Frame} (h : Course message x frames) :
    Expects message x frames := by
  cases h with
  | last step whole mode => exact ⟨_, _, rfl, .fresh (.last step whole mode)⟩
  | more step again mode onward => exact ⟨_, _, rfl, .fresh (.more step again mode onward)⟩

theorem last (h : Expects message x [frame]) :
    ∃ y, x.onBuffer frame.encode = .ok (.ack .complete, y) ∧ y.buffer = message ∧
      y.mode = x.mode := by
  obtain ⟨_, _, ⟨⟩, hdue⟩ := h
  cases hdue with
  | fresh course =>
    cases course with
    | last step whole mode => exact ⟨_, step, whole, mode⟩
    | more step again mode onward => cases onward
  | again step onward => cases onward

/-- A frame that others follow may come again, or they come next. -/
theorem more (h : Expects message x (frame :: rest)) (hr : rest ≠ []) :
    ∃ y, x.onBuffer frame.encode = .ok (.ack .proceed, y) ∧ y.mode = x.mode ∧
      Expects message y (frame :: rest) ∧ Expects message y rest := by
  obtain ⟨_, _, ⟨⟩, hdue⟩ := h
  cases hdue with
  | fresh course =>
    cases course with
    | last => exact absurd rfl hr
    | more step again mode onward =>
      exact ⟨_, step, mode, ⟨_, _, rfl, .again again onward⟩, of_course onward⟩
  | again step onward => exact ⟨x, step, rfl, ⟨_, _, rfl, .again step onward⟩, of_course onward⟩

end Expects

/-- Noise is answered and changes nothing. -/
theorem Exchange.onBuffer_of_isNoise (x : Exchange) {capacity : Nat} {bytes : Bytes}
    (h : (Arrival.buffer bytes).IsNoise capacity) :
    bytes.length ≤ capacity ∧ ∃ reply : Control, x.onBuffer bytes = .ok (⟨reply, .proceed⟩, x) ∧
      (Arrival.buffer bytes).reply? = some reply.encode := by
  cases h with
  | damaged fits bad =>
    refine ⟨fits, .nack, ?_, by simp [Arrival.reply?, bad]⟩
    simp [onBuffer, bad, onCorrupt, Step.nack]
  | reply fits intact decoded late =>
    refine ⟨fits, .ack, ?_, by simp [Arrival.reply?, intact]⟩
    simp only [onBuffer, intact, onBytes, decoded, Except.map, if_true]
    rcases late with rfl | rfl <;> rfl
  | unknown fits intact decoded =>
    refine ⟨fits, .ack, ?_, by simp [Arrival.reply?, intact]⟩
    simp only [onBuffer, intact, onBytes, decoded, Except.map, if_true]
    rfl

theorem Frame.reply?_encode (frame : Frame) :
    (Arrival.buffer frame.encode).reply? = some Control.ack.encode := by
  simp [Arrival.reply?]

namespace Engine

open Dialog

variable {e : Engine} {room : Nat} {message : Bytes}

structure Hears (config : Config) (e : Engine) : Prop where
  settings : e.config = config
  role : e.mode ≠ .sender
  empty : e.exchange.pending = []

def Gathers (e : Engine) (room : Nat) (message : Bytes) (x : Exchange) (arrivals : List Arrival) :
    Prop :=
  ∀ metrics, ∃ moves e', Performs 0 (e.readingOn room .never ⟨x, metrics⟩) moves
      (.pure (.ok (.message message), e')) ∧ e'.Hears e.config ∧
    Move.arrivals moves = arrivals ∧ Move.sent moves = arrivals.filterMap Arrival.reply?

namespace Gathers

variable {x y : Exchange} {bytes : Bytes} {arrivals : List Arrival}

/-- A wait that brings nothing leads to the next round. -/
theorem wait (h : e.Gathers room message x arrivals) :
    e.Gathers room message x (.timeout :: arrivals) := by
  intro metrics
  obtain ⟨moves, e', hperforms, hears, rfl, hsent⟩ := h metrics
  have hround : Performs 0 (e.readingOn room .never ⟨x, metrics⟩) [.misses]
      (e.readingOn room .never ⟨x, metrics⟩) :=
    performs_again (.misses rfl (.refl _))
  exact ⟨_, e', hround.trans hperforms, hears, rfl, hsent⟩

theorem proceed {reply : Control} (h : e.Gathers room message y arrivals)
    (fits : bytes.length ≤ e.config.send.mtu)
    (step : x.onBuffer bytes = .ok (⟨reply, .proceed⟩, y))
    (hr : (Arrival.buffer bytes).reply? = some reply.encode) :
    e.Gathers room message x (.buffer bytes :: arrivals) := by
  intro metrics
  rw [← List.take_of_length_le fits] at step
  obtain ⟨metrics', hround⟩ :=
    performs_exchange (r := ⟨x, metrics⟩) room (Deadline.isExpired_never 0) step
  obtain ⟨moves, e', hperforms, hears, rfl, hsent⟩ := h metrics'
  refine ⟨_, e', hround.trans hperforms, hears, rfl, ?_⟩
  rw [List.filterMap_cons, hr, ← hsent]
  rfl

theorem complete {reply : Control} (fits : bytes.length ≤ e.config.send.mtu)
    (step : x.onBuffer bytes = .ok (⟨reply, .complete⟩, y))
    (hr : (Arrival.buffer bytes).reply? = some reply.encode) (hroom : y.buffer.length ≤ room)
    (hm : y.mode ≠ .sender) (hp : x.pending = []) :
    e.Gathers room y.buffer x [.buffer bytes] := by
  intro metrics
  have hpending : y.pending = [] := (Exchange.pending_of_onBuffer step).trans hp
  rw [← List.take_of_length_le fits] at step
  obtain ⟨metrics', hwhole⟩ :=
    performs_whole (r := ⟨x, metrics⟩) (Deadline.isExpired_never 0) step hroom
  refine ⟨_, _, hwhole, ⟨rfl, hm, hpending⟩, rfl, ?_⟩
  rw [List.filterMap_cons, hr]
  rfl

end Gathers

/-- A read that expects the frames of a message gathers it from whatever carries them. -/
theorem gathers_of_carried {frames : List Frame} {arrivals : List Arrival}
    (h : Carried e.config.send.mtu frames arrivals)
    (hfit : ∀ frame ∈ frames, frame.encode.length ≤ e.config.send.mtu)
    (hroom : message.length ≤ room) {x : Exchange} (hx : Expects message x frames)
    (hm : x.mode ≠ .sender) (hp : x.pending = []) : e.Gathers room message x arrivals := by
  induction h generalizing x with
  | last frame =>
    obtain ⟨y, step, rfl, mode⟩ := hx.last
    exact .complete (hfit frame (by simp)) step frame.reply?_encode hroom (by rwa [mode]) hp
  | @next frame rest arrivals more later ih =>
    obtain ⟨y, step, mode, -, hnext⟩ := hx.more more
    have hrest := ih (fun f hf => hfit f (List.mem_cons_of_mem _ hf)) hnext (by rwa [mode])
      ((Exchange.pending_of_onBuffer step).trans hp)
    exact hrest.proceed (hfit frame (by simp)) step frame.reply?_encode
  | @again frame rest arrivals more later ih =>
    obtain ⟨y, step, mode, hagain, -⟩ := hx.more more
    have hrest := ih hfit hagain (by rwa [mode]) ((Exchange.pending_of_onBuffer step).trans hp)
    exact hrest.proceed (hfit frame (by simp)) step frame.reply?_encode
  | @noise frames arrival arrivals noise later ih =>
    have hrest := ih hfit hx hm hp
    cases arrival with
    | timeout => exact hrest.wait
    | buffer bytes =>
      obtain ⟨fits, reply, step, hr⟩ := x.onBuffer_of_isNoise noise
      exact hrest.proceed fits step hr

def reads (e : Engine) : List Nat → Dialog (List (Except Error Delivery) × Engine)
  | [] => return ([], e)
  | room :: rooms => do
    let (result, e) ← e.read room Millis.unlimited
    let (results, e) ← e.reads rooms
    return (result :: results, e)

variable {config : Config} {capacity : Nat}

/-- One read takes what carries one message, answers it and returns the message. -/
theorem run_read {arrivals rest : List Arrival} {site : Clocked ScriptedLink} (he : e.Hears config)
    (hc : 0 < capacity) (hmtu : capacity + Frame.dataOverhead ≤ config.send.mtu)
    (hm : message ≠ []) (h : Carried config.send.mtu (plan message capacity) arrivals)
    (hroom : message.length ≤ room) (hw : site.link.failingWrites = 0)
    (ha : site.link.arrivals = arrivals ++ rest) :
    ∃ bound e' site', Dialog.run bound (e.read room Millis.unlimited) site =
        some ((.ok (.message message), e'), site') ∧ e'.Hears config ∧
      site'.link.arrivals = rest ∧ site'.link.failingWrites = 0 ∧ site'.link.written.toList =
        site.link.written.toList ++ arrivals.filterMap Arrival.reply? := by
  obtain ⟨rfl, hrole, hempty⟩ := he
  have hfit : ∀ frame ∈ plan message capacity, frame.encode.length ≤ e.config.send.mtu :=
    fun frame hf => Nat.le_trans (length_encode_le_of_mem_plan hc hf) hmtu
  have hcourse := Course.plan hm capacity (e.exchange.reset.withMode .receiver) ⟨rfl, rfl, rfl⟩
  obtain ⟨moves, e', hperforms, hears, rfl, hsent⟩ :=
    gathers_of_carried h hfit hroom (.of_course hcourse) nofun hempty {}
  -- A read without a limit has no use for the clock.
  have hclock : ∀ stage, ¬ (Receiving.contract e.config.send.mtu
      (Millis.unlimited ≠ Millis.unlimited)).permits stage .now := by
    intro stage hp
    cases stage with
    | listening x => exact hp rfl
    | taken | replying | completing | ended => exact hp
  have hread := (performs_read hrole hempty room Millis.unlimited).trans hperforms
  obtain ⟨bound, site', hrun, hrest, hworks, hwritten⟩ :=
    hread.run (e.honours_read hrole room Millis.unlimited) hclock hw ha
  exact ⟨bound, e', site', hrun, hears, hrest, hworks, hsent ▸ hwritten⟩

/-- As many reads as messages: each leaves the script to the next where its own message ends. -/
theorem run_reads {messages : List Bytes} {segments : List (List Arrival)} {rooms : List Nat}
    {rest : List Arrival} {site : Clocked ScriptedLink} (he : e.Hears config) (hc : 0 < capacity)
    (hmtu : capacity + Frame.dataOverhead ≤ config.send.mtu)
    (hm : ∀ message ∈ messages, message ≠ [])
    (hs : List.Forall₂ (fun message => Carried config.send.mtu (plan message capacity)) messages
      segments)
    (hr : List.Forall₂ (fun message room => message.length ≤ room) messages rooms)
    (hw : site.link.failingWrites = 0) (ha : site.link.arrivals = segments.flatten ++ rest) :
    ∃ bound e' site', Dialog.run bound (e.reads rooms) site =
        some ((messages.map fun message => .ok (.message message), e'), site') ∧
      site'.link.arrivals = rest ∧ site'.link.written.toList =
        site.link.written.toList ++ segments.flatten.filterMap Arrival.reply? := by
  induction hs generalizing rooms e site with
  | nil =>
    cases hr
    exact ⟨1, e, site, rfl, ha, by simp⟩
  | @cons message arrivals messages segments h later ih =>
    obtain ⟨hfirst, hothers⟩ := List.forall_mem_cons.1 hm
    cases hr with
    | @cons _ room _ rooms hroom hrooms =>
      rw [List.flatten_cons, List.append_assoc] at ha
      obtain ⟨first, e₁, site₁, hread, he₁, ha₁, hw₁, hwritten₁⟩ :=
        run_read he hc hmtu hfirst h hroom hw ha
      obtain ⟨bound, e', site', hrun, hrest, hwritten⟩ := ih he₁ hothers hrooms hw₁ ha₁
      -- The first read, the others, and the step that puts their results together.
      obtain ⟨steps, hsteps⟩ := run_bind hread fun finish =>
        (finish.2.reads rooms).bind fun later => .pure (finish.1 :: later.1, later.2)
      obtain ⟨more, hmore⟩ := run_bind hrun fun later =>
        .pure (.ok (.message message) :: later.1, later.2)
      refine ⟨steps + (more + 1), e', site', (hsteps _).trans (hmore 1), hrest, ?_⟩
      simp [hwritten, hwritten₁]

/-- Reading inverts segmentation. The frames of non-empty messages come in one message after the
other, the last of each once and the others any number of times, with noise anywhere. Then as many
reads return the messages, in order; each takes nothing beyond the last frame of its own, and each
buffer taken is acknowledged if it is intact and else refused. -/
theorem reads_invert_plan {e : Engine} {capacity : Nat} (hc : 0 < capacity)
    (hmtu : capacity + Frame.dataOverhead ≤ e.config.send.mtu) (he : e.mode ≠ .sender)
    (hp : e.exchange.pending = []) {messages : List Bytes} (hm : ∀ message ∈ messages, message ≠ [])
    {segments : List (List Arrival)}
    (hs : List.Forall₂ (fun message => Carried e.config.send.mtu (plan message capacity)) messages
      segments)
    {rooms : List Nat}
    (hr : List.Forall₂ (fun message room => message.length ≤ room) messages rooms)
    {rest : List Arrival} {site : Clocked ScriptedLink} (hw : site.link.failingWrites = 0)
    (ha : site.link.arrivals = segments.flatten ++ rest) (i : Nat) :
    ∃ bound e' site', Dialog.run bound (e.reads (rooms.take i)) site =
        some (((messages.take i).map fun message => .ok (.message message), e'), site') ∧
      site'.link.arrivals = (segments.drop i).flatten ++ rest ∧
      site'.link.written.toList =
        site.link.written.toList ++ (segments.take i).flatten.filterMap Arrival.reply? := by
  -- What the later reads take is left over by the first ones.
  have hsplit : site.link.arrivals =
      (segments.take i).flatten ++ ((segments.drop i).flatten ++ rest) := by
    rw [ha, ← List.append_assoc, ← List.flatten_append, List.take_append_drop]
  have hnonempty : ∀ message ∈ messages.take i, message ≠ [] :=
    fun message h => hm message (List.mem_of_mem_take h)
  exact run_reads ⟨rfl, he, hp⟩ hc hmtu hnonempty (List.forall₂_take i hs) (List.forall₂_take i hr)
    hw hsplit

-- The checksums of the buffers are worked out here.
set_option maxRecDepth 8000

/-- A message of four frames, two of them repeated, with silence, a damaged buffer and a late reply
between them; then one of a single frame after a buffer that nobody knows. -/
theorem reads_invert_plan_of_noise :
    ∃ bound e' site', Dialog.run bound (Engine.reads ⟨default, {}, none, none⟩ [2, 1])
        (⟨{ arrivals := [.timeout, .buffer (Frame.control .seqBegin).encode, .buffer [0x01],
              .buffer (Frame.control .seqBegin).encode, .buffer (Frame.data 1 [0x61]).encode,
              .buffer (Frame.control .ack).encode, .buffer (Frame.data 1 [0x61]).encode,
              .buffer (Frame.data 2 [0x62]).encode, .buffer (Frame.control .seqEnd).encode,
              .buffer (Frame.unknown 0x20).encode, .buffer (Frame.data 1 [0x63]).encode,
              .timeout] }, 0⟩ : Clocked ScriptedLink) =
        some (([.ok (.message [0x61, 0x62]), .ok (.message [0x63])], e'), site') ∧
      site'.link.arrivals = [.timeout] ∧
      site'.link.written.toList =
        Control.ack.encode :: Control.nack.encode :: List.replicate 8 Control.ack.encode := by
  let first : List Arrival := [.timeout, .buffer (Frame.control .seqBegin).encode, .buffer [0x01],
    .buffer (Frame.control .seqBegin).encode, .buffer (Frame.data 1 [0x61]).encode,
    .buffer (Frame.control .ack).encode, .buffer (Frame.data 1 [0x61]).encode,
    .buffer (Frame.data 2 [0x62]).encode, .buffer (Frame.control .seqEnd).encode]
  let second : List Arrival :=
    [.buffer (Frame.unknown 0x20).encode, .buffer (Frame.data 1 [0x63]).encode]
  have hfirst : Carried (default : Config).send.mtu (plan [0x61, 0x62] 1) first := by
    show Carried _ [.control .seqBegin, .data 1 [0x61], .data 2 [0x62], .control .seqEnd] _
    apply Carried.noise .timeout
    apply Carried.again (List.cons_ne_nil _ _)
    apply Carried.noise (.damaged (by decide) rfl)
    apply Carried.next (List.cons_ne_nil _ _)
    apply Carried.again (List.cons_ne_nil _ _)
    apply Carried.noise (.reply (by decide) rfl rfl (.inl rfl))
    apply Carried.next (List.cons_ne_nil _ _)
    apply Carried.next (List.cons_ne_nil _ _)
    exact .last _
  have hsecond : Carried (default : Config).send.mtu (plan [0x63] 1) second :=
    .noise (.unknown (by decide) rfl rfl) (.last _)
  let site : Clocked ScriptedLink := ⟨{ arrivals := [first, second].flatten ++ [.timeout] }, 0⟩
  have hworks : site.link.failingWrites = 0 := rfl
  exact reads_invert_plan (e := ⟨default, {}, none, none⟩) Nat.one_pos (by decide) nofun rfl
    (by decide) (.cons hfirst (.cons hsecond .nil))
    (.cons (Nat.le_refl 2) (.cons (Nat.le_refl 1) .nil)) hworks rfl 2

end Engine

end StopAndWait
