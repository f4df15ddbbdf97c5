import StopAndWait.Dialog.Run
import StopAndWait.Link.Channel

namespace StopAndWait

inductive Side
  | a
  | b
  deriving DecidableEq, Repr

def Side.other : Side → Side
  | a => b
  | b => a

theorem Side.other_ne (side : Side) : side.other ≠ side := by
  cases side <;> nofun

@[simp] theorem Side.other_other (side : Side) : side.other.other = side := by
  cases side <;> rfl

theorem Side.eq_or_eq_other (side t : Side) : t = side ∨ t = side.other := by
  cases side <;> cases t <;> simp [Side.other]

-- The channels of a pair of ends, by the order in which they are made.
inductive Lane
  | first
  | second
  deriving DecidableEq, Repr

structure SendingHalf where
  lane : Lane
  deriving DecidableEq, Repr

structure ReceivingHalf where
  lane : Lane
  deriving DecidableEq, Repr

def Lane.halves (lane : Lane) : SendingHalf × ReceivingHalf := (⟨lane⟩, ⟨lane⟩)

structure Lanes (χ : Type) where
  first : χ
  second : χ
  deriving DecidableEq, Repr

namespace Lanes

variable {χ : Type}

def unbounded [Channel χ] : Lanes χ := ⟨Channel.unbounded, Channel.unbounded⟩

def get (l : Lanes χ) : Lane → χ
  | .first => l.first
  | .second => l.second

def set (l : Lanes χ) (lane : Lane) (c : χ) : Lanes χ :=
  match lane with
  | .first => { l with first := c }
  | .second => { l with second := c }

@[simp] theorem get_unbounded [Channel χ] (lane : Lane) :
    (unbounded : Lanes χ).get lane = Channel.unbounded := by
  cases lane <;> rfl

@[simp] theorem get_set_self (l : Lanes χ) (lane : Lane) (c : χ) :
    (l.set lane c).get lane = c := by
  cases lane <;> rfl

theorem get_set_of_ne {lane lane' : Lane} (h : lane' ≠ lane) (l : Lanes χ) (c : χ) :
    (l.set lane c).get lane' = l.get lane' := by
  cases lane <;> cases lane' <;> first | rfl | exact absurd rfl h

end Lanes

structure MemoryEnd where
  outbound : SendingHalf
  inbound : ReceivingHalf
  deriving DecidableEq, Repr

namespace MemoryEnd

/-- Two ends wired to each other: each receives on the channel that the other sends on. -/
def pair : MemoryEnd × MemoryEnd :=
  let (aSends, bReceives) := Lane.first.halves
  let (bSends, aReceives) := Lane.second.halves
  ({ outbound := aSends, inbound := aReceives }, { outbound := bSends, inbound := bReceives })

def of : Side → MemoryEnd
  | .a => pair.1
  | .b => pair.2

section Use

variable {χ : Type} [Channel χ]

def queued (e : MemoryEnd) (l : Lanes χ) : Nat := Channel.count (l.get e.inbound.lane)

def receive (e : MemoryEnd) (timeout : Millis) (l : Lanes χ) :
    Option (Except LinkError Bytes × Lanes χ) :=
  let c := l.get e.inbound.lane
  if timeout = Millis.unlimited then do
    let (received, c) ← Channel.receive c
    let answer := match received with
      | some bytes => .ok bytes
      | none => .error .closed
    return (answer, l.set e.inbound.lane c)
  else
    let (received, c) := Channel.receiveWithin timeout c
    let answer := match received with
      | .ok bytes => .ok bytes
      | .error .timeout => .error .timeout
      | .error .disconnected => .error .closed
    some (answer, l.set e.inbound.lane c)

-- What there is no room for is gone.
def read (e : MemoryEnd) (capacity : Nat) (timeout : Millis) (l : Lanes χ) :
    Option (Except LinkError Bytes × Lanes χ) := do
  let (answer, l) ← e.receive timeout l
  return (answer.map (·.take capacity), l)

def write (e : MemoryEnd) (bytes : Bytes) (l : Lanes χ) : Except LinkError Nat × Lanes χ :=
  let (accepted, c) := Channel.send bytes (l.get e.outbound.lane)
  (if accepted then .ok bytes.length else .error .closed, l.set e.outbound.lane c)

def drop (e : MemoryEnd) (l : Lanes χ) : Lanes χ :=
  let l := l.set e.outbound.lane (Channel.dropSender (l.get e.outbound.lane))
  l.set e.inbound.lane (Channel.dropReceiver (l.get e.inbound.lane))

end Use

section Wiring

theorem outbound_of (side : Side) : (of side).outbound.lane = (of side.other).inbound.lane := by
  cases side <;> rfl

theorem outbound_of_other (side : Side) :
    (of side.other).outbound.lane = (of side).inbound.lane := by
  cases side <;> rfl

theorem inbound_of_ne (side : Side) : (of side.other).inbound.lane ≠ (of side).inbound.lane := by
  cases side <;> decide

theorem inbound_ne_outbound (side : Side) : (of side).inbound.lane ≠ (of side).outbound.lane := by
  cases side <;> decide

variable {χ : Type} [Channel χ]

theorem get_inbound_drop (side : Side) (l : Lanes χ) : ((of side).drop l).get
    (of side).inbound.lane = Channel.dropReceiver (l.get (of side).inbound.lane) := by
  cases side <;> rfl

theorem get_outbound_drop (side : Side) (l : Lanes χ) : ((of side).drop l).get
    (of side).outbound.lane = Channel.dropSender (l.get (of side).outbound.lane) := by
  cases side <;> rfl

end Wiring

section Answers

variable {χ : Type} [Channel χ] {view : χ → Queue} {e : MemoryEnd} {l : Lanes χ}

theorem exists_set_of_read {capacity : Nat} {timeout : Millis} {answer : Except LinkError Bytes}
    {l' : Lanes χ} (h : e.read capacity timeout l = some (answer, l')) :
    ∃ c, l' = l.set e.inbound.lane c := by
  obtain ⟨⟨received, l₁⟩, hreceive, hanswer⟩ := Option.bind_eq_some_iff.1 h
  cases hanswer
  unfold receive at hreceive
  split at hreceive
  · obtain ⟨⟨_, c⟩, -, hset⟩ := Option.bind_eq_some_iff.1 hreceive
    cases hset
    exact ⟨c, rfl⟩
  · cases hreceive
    exact ⟨_, rfl⟩

theorem read_of_oldest (laws : Channel.Laws view) {buffer : Bytes} {items : List Bytes}
    (h : (view (l.get e.inbound.lane)).items = buffer :: items) (capacity : Nat)
    (timeout : Millis) : ∃ c, e.read capacity timeout l =
        some (.ok (buffer.take capacity), l.set e.inbound.lane c) ∧
      view c = { view (l.get e.inbound.lane) with items } := by
  by_cases hlimit : timeout = Millis.unlimited
  · obtain ⟨c, hreceive, hview⟩ := laws.receive_oldest _ _ _ h
    exact ⟨c, by simp [read, receive, hlimit, hreceive, Except.map], hview⟩
  · obtain ⟨c, hreceive, hview⟩ := laws.receiveWithin_oldest timeout _ _ _ h
    exact ⟨c, by simp [read, receive, hlimit, hreceive, Except.map], hview⟩

/-- With nothing to receive, a wait without limit does not return while the other end is held. -/
theorem read_of_held (laws : Channel.Laws view) (h : (view (l.get e.inbound.lane)).items = [])
    (hs : (view (l.get e.inbound.lane)).hasSender = true) (capacity : Nat) (timeout : Millis) :
    (timeout = Millis.unlimited ∧ e.read capacity timeout l = none) ∨
      timeout ≠ Millis.unlimited ∧ ∃ c, e.read capacity timeout l =
          some (.error .timeout, l.set e.inbound.lane c) ∧
        view c = view (l.get e.inbound.lane) := by
  by_cases hlimit : timeout = Millis.unlimited
  · have hreceive := laws.receive_blocks _ h hs
    exact .inl ⟨hlimit, by simp [read, receive, hlimit, hreceive]⟩
  · obtain ⟨c, hreceive, hview⟩ := laws.receiveWithin_timeout timeout _ h hs
    exact .inr ⟨hlimit, c, by simp [read, receive, hlimit, hreceive, Except.map], hview⟩

theorem read_of_disconnected (laws : Channel.Laws view)
    (h : (view (l.get e.inbound.lane)).items = [])
    (hs : (view (l.get e.inbound.lane)).hasSender = false) (capacity : Nat) (timeout : Millis) :
    ∃ c, e.read capacity timeout l = some (.error .closed, l.set e.inbound.lane c) ∧
      view c = view (l.get e.inbound.lane) := by
  by_cases hlimit : timeout = Millis.unlimited
  · obtain ⟨c, hreceive, hview⟩ := laws.receive_disconnected _ h hs
    exact ⟨c, by simp [read, receive, hlimit, hreceive, Except.map], hview⟩
  · obtain ⟨c, hreceive, hview⟩ := laws.receiveWithin_disconnected timeout _ h hs
    exact ⟨c, by simp [read, receive, hlimit, hreceive, Except.map], hview⟩

theorem write_of_accepted (laws : Channel.Laws view)
    (h : (view (l.get e.outbound.lane)).hasReceiver = true) (bytes : Bytes) :
    ∃ c, e.write bytes l = (.ok bytes.length, l.set e.outbound.lane c) ∧
      view c = { view (l.get e.outbound.lane) with
        items := (view (l.get e.outbound.lane)).items ++ [bytes] } := by
  obtain ⟨c, hsend, hview⟩ := laws.send_accepted _ bytes h
  exact ⟨c, by simp [write, hsend], hview⟩

theorem write_of_rejected (laws : Channel.Laws view)
    (h : (view (l.get e.outbound.lane)).hasReceiver = false) (bytes : Bytes) :
    ∃ c, e.write bytes l = (.error .closed, l.set e.outbound.lane c) ∧
      view c = view (l.get e.outbound.lane) := by
  obtain ⟨c, hsend, hview⟩ := laws.send_rejected _ bytes h
  exact ⟨c, by simp [write, hsend], hview⟩

end Answers

end MemoryEnd

structure NearEnd (χ : Type) where
  lanes : Lanes χ
  deriving DecidableEq, Repr

instance {χ : Type} [Channel χ] : Link (NearEnd χ) where
  read s capacity timeout :=
    ((MemoryEnd.of .a).read capacity timeout s.lanes).map fun (answer, lanes) => (answer, ⟨lanes⟩)
  write s bytes _ :=
    let (answer, lanes) := (MemoryEnd.of .a).write bytes s.lanes
    some (answer, ⟨lanes⟩)

end StopAndWait
