import Mathlib.Logic.Function.Iterate
import StopAndWait.Proofs.Calls

namespace StopAndWait

open Dialog

inductive Passage (capacity : Nat)
  | lost
  -- What the reader reads of the buffer is not intact.
  | damaged (buffer : Bytes) (broken : isIntact (buffer.take capacity) = false) (answered : Bool)
  | whole (answered : Bool)

namespace Passage

variable {capacity : Nat}

def arrival (bytes : Bytes) : Passage capacity → Option Bytes
  | lost => none
  | damaged buffer _ _ => some buffer
  | whole _ => some bytes

def answered : Passage capacity → Bool
  | lost => false
  | damaged _ _ answered | whole answered => answered

end Passage

structure Rendezvous (capacity : Nat) where
  writer : Dialog (Engine.End Nat)
  reader : Dialog (Engine.End Delivery)
  -- The buffer that has reached the reader.
  outbound : Option Bytes := none
  -- The reply that has reached the writer.
  inbound : Option Bytes := none
  -- Whether a reply reaches the writer.
  answered : Bool := false
  -- The passages of the transmissions to come.
  passages : Nat → Passage capacity

namespace Rendezvous

variable {capacity : Nat}

def writerMoves (s : Rendezvous capacity) : Rendezvous capacity :=
  match s.writer.view with
  | .done _ => s
  | .silent next => { s with writer := next }
  | .ask .now next => { s with writer := next 0 }
  | .ask (.note _) next => { s with writer := next () }
  | .ask (.write bytes _) next =>
    { s with
      writer := next (.ok bytes.length)
      outbound := (s.passages 0).arrival bytes
      answered := (s.passages 0).answered
      passages := fun n => s.passages (n + 1) }
  | .ask (.read room _) next => match s.inbound with
    | some bytes => { s with writer := next (.ok (bytes.take room)), inbound := none }
    | none => { s with writer := next (.error .timeout) }

/-- One move: of the reader, or of the writer while the reader waits for a buffer or is done. -/
def next (s : Rendezvous capacity) : Rendezvous capacity :=
  match s.reader.view with
  | .done _ => s.writerMoves
  | .silent next => { s with reader := next }
  | .ask .now next => { s with reader := next 0 }
  | .ask (.note _) next => { s with reader := next () }
  | .ask (.write bytes _) next =>
    { s with
      reader := next (.ok bytes.length)
      inbound := if s.answered then some bytes else none }
  | .ask (.read room _) next => match s.outbound with
    | some bytes => { s with reader := next (.ok (bytes.take room)), outbound := none }
    | none => s.writerMoves

def WriterDone (s : Rendezvous capacity) (result : Except Error Nat) : Prop :=
  ∃ e, s.writer.view = .done (result, e)

def ReaderDone (s : Rendezvous capacity) (result : Except Error Delivery) : Prop :=
  ∃ e, s.reader.view = .done (result, e)

def Quiet (s : Rendezvous capacity) : Prop :=
  (∃ result, s.ReaderDone result) ∨
    s.outbound = none ∧ ∃ room timeout next, s.reader.view = .ask (.read room timeout) next

inductive Leads : Rendezvous capacity → Rendezvous capacity → Prop
  | refl (s : Rendezvous capacity) : Leads s s
  | head {s t : Rendezvous capacity} (busy : ∀ result, ¬ s.WriterDone result)
    (later : Leads s.next t) : Leads s t

variable {s t u : Rendezvous capacity} {moves : List Move}

theorem Leads.trans (h : Leads s t) (h' : Leads t u) : Leads s u := by
  induction h with
  | refl s => exact h'
  | head busy later ih => exact .head busy (ih h')

instance : Trans (@Leads capacity) (@Leads capacity) (@Leads capacity) := ⟨Leads.trans⟩

theorem next_of_quiet (h : s.Quiet) : s.next = s.writerMoves := by
  unfold next
  rcases h with ⟨result, e, hv⟩ | ⟨ho, room, timeout, next, hv⟩
  · rw [hv]
  · rw [hv, ho]

theorem reader_writerMoves (s : Rendezvous capacity) : s.writerMoves.reader = s.reader := by
  unfold writerMoves
  split <;> try rfl
  split <;> rfl

theorem readerDone_next {result : Except Error Delivery} (h : s.ReaderDone result) :
    s.next.ReaderDone result := by
  have hquiet : s.Quiet := .inl ⟨result, h⟩
  unfold ReaderDone
  rw [next_of_quiet hquiet, reader_writerMoves]
  exact h

theorem next_of_writerDone {result : Except Error Nat} (hq : s.Quiet) (hw : s.WriterDone result) :
    s.next = s := by
  obtain ⟨e, hv⟩ := hw
  rw [next_of_quiet hq]
  unfold writerMoves
  rw [hv]

theorem WriterDone.unique {result result' : Except Error Nat} (h : s.WriterDone result)
    (h' : s.WriterDone result') : result = result' := by
  obtain ⟨e, hv⟩ := h
  obtain ⟨e', hv'⟩ := h'
  rw [hv] at hv'
  cases hv'
  rfl

theorem ReaderDone.unique {result result' : Except Error Delivery} (h : s.ReaderDone result)
    (h' : s.ReaderDone result') : result = result' := by
  obtain ⟨e, hv⟩ := h
  obtain ⟨e', hv'⟩ := h'
  rw [hv] at hv'
  cases hv'
  rfl

theorem Leads.iterate (h : Leads s t) : ∃ n, next^[n] s = t := by
  induction h with
  | refl s => exact ⟨0, rfl⟩
  | head busy later ih =>
    obtain ⟨n, hn⟩ := ih
    exact ⟨n + 1, hn⟩

/-- Where the writer is done a run has come to its end. -/
theorem Leads.iterate_of_writerDone (h : Leads s t) (ht : t.next = t) {n : Nat}
    {result : Except Error Nat} (hw : (next^[n] s).WriterDone result) : next^[n] s = t := by
  induction h generalizing n with
  | refl s => exact Function.iterate_fixed ht n
  | head busy later ih =>
    cases n with
    | zero => exact absurd hw (busy result)
    | succ n => exact ih ht hw

theorem Leads.readerDone (h : Leads s t) (ht : t.next = t) {n : Nat}
    {result : Except Error Delivery} (hr : (next^[n] s).ReaderDone result) : t.ReaderDone result := by
  induction h generalizing n with
  | refl s =>
    rwa [Function.iterate_fixed ht n] at hr
  | head busy later ih =>
    cases n with
    -- The reader is done at the beginning, and stays so.
    | zero => exact ih (n := 0) ht (readerDone_next hr)
    | succ n => exact ih ht hr

section Performance

def Feeds (left : Option Bytes) : Option Bytes → List Move → Prop
  | slot, [] => slot = left
  | slot, .gets bytes :: moves => slot = some bytes ∧ Feeds left none moves
  | _, .misses :: _ => False
  | slot, .sends _ :: moves | slot, .notes _ :: moves => Feeds left slot moves

def reply (answered : Bool) : Option Bytes → List Move → Option Bytes
  | slot, [] => slot
  | _, .sends bytes :: moves => reply answered (if answered then some bytes else none) moves
  | slot, .gets _ :: moves | slot, .misses :: moves | slot, .notes _ :: moves =>
    reply answered slot moves

def Hears : Option Bytes → List Move → Prop
  | slot, [] => slot = none
  | slot, .gets bytes :: moves => slot = some bytes ∧ Hears none moves
  | slot, .misses :: moves => slot = none ∧ Hears none moves
  | _, .sends _ :: _ => False
  | slot, .notes _ :: moves => Hears slot moves

theorem leads_reader {outbound : Option Bytes} {d d' : Dialog (Engine.End Delivery)}
    (hr : s.reader = d) (h : d.Performs 0 moves d') (hf : Feeds outbound s.outbound moves)
    (hw : ∀ result, ¬ s.WriterDone result) :
    Leads s { s with reader := d', outbound, inbound := reply s.answered s.inbound moves } := by
  -- By induction on the moves: each is the next step of the two, as the reader moves first.
  induction h generalizing s with
  | refl d =>
    subst hr hf
    exact .refl s
  | @silent d next d' moves view later ih =>
    have hstep : s.next = { s with reader := next } := by
      unfold Rendezvous.next
      rw [hr, view]
    apply Leads.head hw
    rw [hstep]
    exact ih rfl hf hw
  | @now d d' next moves view later ih =>
    have hstep : s.next = { s with reader := next 0 } := by
      unfold Rendezvous.next
      rw [hr, view]
    apply Leads.head hw
    rw [hstep]
    exact ih rfl hf hw
  | @sends d d' bytes timeout next moves view later ih =>
    have hstep : s.next = { s with
        reader := next (.ok bytes.length)
        inbound := if s.answered then some bytes else none } := by
      unfold Rendezvous.next
      rw [hr, view]
    apply Leads.head hw
    rw [hstep]
    exact ih rfl hf hw
  | @gets d d' room timeout next moves bytes view later ih =>
    have hstep : s.next = { s with reader := next (.ok (bytes.take room)), outbound := none } := by
      unfold Rendezvous.next
      rw [hr, view, hf.1]
    apply Leads.head hw
    rw [hstep]
    exact ih rfl hf.2 hw
  | misses view later ih => exact hf.elim
  | @notes d d' notice next moves view later ih =>
    have hstep : s.next = { s with reader := next () } := by
      unfold Rendezvous.next
      rw [hr, view]
    apply Leads.head hw
    rw [hstep]
    exact ih rfl hf hw

theorem busy_of_silent {d : Dialog (Engine.End Nat)} (h : s.writer.view = .silent d) :
    ∀ result, ¬ s.WriterDone result := by
  intro result ⟨e, hv⟩
  rw [h] at hv
  cases hv

theorem busy_of_ask {request : Request} {d : request.Answer → Dialog (Engine.End Nat)}
    (h : s.writer.view = .ask request d) : ∀ result, ¬ s.WriterDone result := by
  intro result ⟨e, hv⟩
  rw [h] at hv
  cases hv

theorem leads_writer {d d' : Dialog (Engine.End Nat)} (hs : s.writer = d)
    (h : d.Performs 0 moves d') (hf : Hears s.inbound moves) (hq : s.Quiet) :
    Leads s { s with writer := d', inbound := none } := by
  induction h generalizing s with
  | refl d =>
    subst hs
    rw [← show s.inbound = none from hf]
    exact .refl s
  | @silent d next d' moves view later ih =>
    have hstep : s.next = { s with writer := next } := by
      rw [next_of_quiet hq, writerMoves, hs, view]
    apply Leads.head (busy_of_silent (by rw [hs, view]))
    rw [hstep]
    exact ih rfl hf hq
  | @now d d' next moves view later ih =>
    have hstep : s.next = { s with writer := next 0 } := by
      rw [next_of_quiet hq, writerMoves, hs, view]
    apply Leads.head (busy_of_ask (by rw [hs, view]))
    rw [hstep]
    exact ih rfl hf hq
  -- Nothing is sent among these moves.
  | sends view later ih => exact hf.elim
  | @gets d d' room timeout next moves bytes view later ih =>
    have hstep : s.next = { s with writer := next (.ok (bytes.take room)), inbound := none } := by
      rw [next_of_quiet hq, writerMoves, hs, view, hf.1]
    apply Leads.head (busy_of_ask (by rw [hs, view]))
    rw [hstep]
    exact ih rfl hf.2 hq
  | @misses d d' room timeout next moves view later ih =>
    have hstep : s.next = { s with writer := next (.error .timeout) } := by
      rw [next_of_quiet hq, writerMoves, hs, view, hf.1]
    have hleft : Hears s.inbound moves := by
      rw [hf.1]
      exact hf.2
    apply Leads.head (busy_of_ask (by rw [hs, view]))
    rw [hstep]
    exact ih rfl hleft hq
  | @notes d d' notice next moves view later ih =>
    have hstep : s.next = { s with writer := next () } := by
      rw [next_of_quiet hq, writerMoves, hs, view]
    apply Leads.head (busy_of_ask (by rw [hs, view]))
    rw [hstep]
    exact ih rfl hf hq

def hearing : Option Control → List Move
  | some verdict => [.gets verdict.encode]
  | none => [.misses]

/-- A transmission meets its fate. What the writer performs after it comes later. -/
theorem leads_transmission {d d' : Dialog (Engine.End Nat)} {bytes : Bytes} (hs : s.writer = d)
    (h : d.Performs 0 (.sends bytes :: moves) d') (hq : s.Quiet) :
    ∃ mid, mid.Performs 0 moves d' ∧ Leads s { s with
      writer := mid
      outbound := (s.passages 0).arrival bytes
      answered := (s.passages 0).answered
      passages := fun n => s.passages (n + 1) } := by
  generalize hm : Move.sends bytes :: moves = all at h
  induction h generalizing s with
  | refl d => cases hm
  | @silent d next d' moves view later ih =>
    have hstep : s.next = { s with writer := next } := by
      rw [next_of_quiet hq, writerMoves, hs, view]
    obtain ⟨mid, hmid, hrun⟩ := ih (s := { s with writer := next }) rfl hq hm
    refine ⟨mid, hmid, .head (busy_of_silent (by rw [hs, view])) ?_⟩
    rw [hstep]
    exact hrun
  | @now d d' next moves view later ih =>
    have hstep : s.next = { s with writer := next 0 } := by
      rw [next_of_quiet hq, writerMoves, hs, view]
    obtain ⟨mid, hmid, hrun⟩ := ih (s := { s with writer := next 0 }) rfl hq hm
    refine ⟨mid, hmid, .head (busy_of_ask (by rw [hs, view])) ?_⟩
    rw [hstep]
    exact hrun
  -- Here the transmission takes the next passage.
  | @sends d d' bytes' timeout next moves' view later ih =>
    cases hm
    have hstep : s.next = { s with
        writer := next (.ok bytes.length)
        outbound := (s.passages 0).arrival bytes
        answered := (s.passages 0).answered
        passages := fun n => s.passages (n + 1) } := by
      rw [next_of_quiet hq, writerMoves, hs, view]
    refine ⟨_, later, .head (busy_of_ask (by rw [hs, view])) ?_⟩
    rw [hstep]
    exact .refl _
  | gets | misses | notes => cases hm

theorem busy_of_performs {d d' : Dialog (Engine.End Nat)} {move : Move}
    (h : d.Performs 0 (move :: moves) d') (hs : s.writer = d) :
    ∀ result, ¬ s.WriterDone result := by
  intro result ⟨e, hv⟩
  rw [hs] at hv
  cases h <;> simp_all

/-- An attempt: the transmission, what the reader makes of it, and what the writer hears. -/
theorem leads_attempt {d d' : Dialog (Engine.End Nat)} {bytes : Bytes}
    {reader' : Dialog (Engine.End Delivery)} (verdict : Option Control) (outbound' : Option Bytes)
    (hs : s.writer = d) (hi : s.inbound = none) (hq : s.Quiet)
    (h : d.Performs 0 (.sends bytes :: hearing verdict) d')
    (hr : s.reader.Performs 0 moves reader')
    (hf : Feeds outbound' ((s.passages 0).arrival bytes) moves)
    (hv : reply (s.passages 0).answered none moves = verdict.map Control.encode)
    (hq' : { s with reader := reader', outbound := outbound' }.Quiet) :
    ∃ answered, Leads s { s with
      writer := d'
      reader := reader'
      outbound := outbound'
      inbound := none
      answered
      passages := fun n => s.passages (n + 1) } := by
  obtain ⟨mid, hmid, hsent⟩ := leads_transmission hs h hq
  -- While the reader moves the writer is still to hear of its attempt.
  have hbusy : ∀ t : Rendezvous capacity, t.writer = mid → ∀ result, ¬ t.WriterDone result := by
    intro t ht
    cases verdict with
    | some verdict => exact busy_of_performs hmid ht
    | none => exact busy_of_performs hmid ht
  have hears : Hears (reply (s.passages 0).answered s.inbound moves) (hearing verdict) := by
    rw [hi, hv]
    cases verdict with
    | some verdict => exact ⟨rfl, rfl⟩
    | none => exact ⟨rfl, rfl⟩
  refine ⟨(s.passages 0).answered, ?_⟩
  calc Leads s _ := hsent
    Leads _ _ := leads_reader rfl hr hf (hbusy _ rfl)
    Leads _ _ := leads_writer rfl hmid hears hq'

end Performance

end Rendezvous

end StopAndWait
