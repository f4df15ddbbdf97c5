import Mathlib.Data.List.Forall2
import StopAndWait.Link.Memory

/-!
The channels of a pair under any uses of its two ends, in any interleaving, for any channels that
keep their laws. Each way the reads get what the peer has written, one buffer each and in order;
what a read has no room for is gone.
-/
namespace StopAndWait

inductive Access
  | read (side : Side) (capacity : Nat) (timeout : Millis) (answer : Except LinkError Bytes)
  | write (side : Side) (bytes : Bytes) (answer : Except LinkError Nat)
  | drop (side : Side)

namespace Access

def side : Access → Side
  | read side _ _ _ | write side _ _ | drop side => side

def sentTo? (side : Side) : Access → Option Bytes
  | write writer bytes (.ok _) => if writer = side.other then some bytes else none
  | write _ _ (.error _) | read _ _ _ _ | drop _ => none

def gotAt? (side : Side) : Access → Option (Nat × Bytes)
  | read reader capacity _ (.ok bytes) => if reader = side then some (capacity, bytes) else none
  | read _ _ _ (.error _) | write _ _ _ | drop _ => none

end Access

def sentTo (side : Side) (log : List Access) : List Bytes := log.filterMap (Access.sentTo? side)

def gotAt (side : Side) (log : List Access) : List (Nat × Bytes) :=
  log.filterMap (Access.gotAt? side)

def Dropped (side : Side) (log : List Access) : Prop := .drop side ∈ log

section Concat

variable {side : Side} {log : List Access} {access : Access}

theorem sentTo_concat :
    sentTo side (log ++ [access]) = sentTo side log ++ (access.sentTo? side).toList := by
  cases h : access.sentTo? side <;> simp [sentTo, h]

theorem gotAt_concat :
    gotAt side (log ++ [access]) = gotAt side log ++ (access.gotAt? side).toList := by
  cases h : access.gotAt? side <;> simp [gotAt, h]

theorem dropped_concat :
    Dropped side (log ++ [access]) ↔ Dropped side log ∨ access = .drop side := by
  simp [Dropped, eq_comm]

end Concat

/-- The account of one direction, by what is in its channel: what was sent is what was got, buffer
by buffer, and behind it what is still queued. -/
structure Queue.Accounts (q : Queue) (side : Side) (log : List Access) : Prop where
  hasReceiver : q.hasReceiver = true ↔ ¬ Dropped side log
  hasSender : q.hasSender = true ↔ ¬ Dropped side.other log
  balance : ∃ taken rest, sentTo side log = taken ++ rest ∧
    List.Forall₂ (fun buffer got => got.2 = buffer.take got.1) taken (gotAt side log) ∧
    (¬ Dropped side log → q.items = rest)

namespace Queue.Accounts

variable {q : Queue} {side : Side} {log : List Access} {access : Access}

theorem start (side : Side) : Accounts {} side [] where
  hasReceiver := by simp [Dropped]
  hasSender := by simp [Dropped]
  balance := ⟨[], [], rfl, .nil, fun _ => rfl⟩

/-- What does not touch a direction leaves its account as it is. -/
theorem frame (h : q.Accounts side log) (hs : access.sentTo? side = none)
    (hg : access.gotAt? side = none) (hd : ∀ dropper, access ≠ .drop dropper) :
    q.Accounts side (log ++ [access]) := by
  constructor
  · rw [dropped_concat, or_iff_left (hd side)]
    exact h.hasReceiver
  · rw [dropped_concat, or_iff_left (hd side.other)]
    exact h.hasSender
  · rw [sentTo_concat, gotAt_concat, dropped_concat, or_iff_left (hd side), hs, hg,
      Option.toList_none, Option.toList_none, List.append_nil, List.append_nil]
    exact h.balance

/-- A read that finds a buffer. -/
theorem got {capacity : Nat} {timeout : Millis} {buffer : Bytes} {items : List Bytes}
    (h : q.Accounts side log) (held : ¬ Dropped side log) (hi : q.items = buffer :: items) :
    Accounts { q with items } side
      (log ++ [.read side capacity timeout (.ok (buffer.take capacity))]) := by
  obtain ⟨taken, rest, hsent, hgot, hrest⟩ := h.balance
  -- The oldest of the rest goes over to what is taken, whatever the room for it.
  obtain rfl : buffer :: items = rest := hi.symm.trans (hrest held)
  constructor
  · rw [dropped_concat, or_iff_left nofun]
    exact h.hasReceiver
  · rw [dropped_concat, or_iff_left nofun]
    exact h.hasSender
  · rw [sentTo_concat, gotAt_concat, hsent]
    refine ⟨taken ++ [buffer], items, ?_, ?_, fun _ => rfl⟩
    · simp [Access.sentTo?]
    · rw [Access.gotAt?, if_pos rfl]
      exact List.rel_append hgot (.cons rfl .nil)

/-- A write that is taken. -/
theorem sent {bytes : Bytes} (h : q.Accounts side log) (held : q.hasReceiver = true) :
    Accounts { q with items := q.items ++ [bytes] } side
      (log ++ [.write side.other bytes (.ok bytes.length)]) := by
  obtain ⟨taken, rest, hsent, hgot, hrest⟩ := h.balance
  constructor
  · rw [dropped_concat, or_iff_left nofun]
    exact h.hasReceiver
  · rw [dropped_concat, or_iff_left nofun]
    exact h.hasSender
  · rw [sentTo_concat, gotAt_concat, hsent, hrest (h.hasReceiver.1 held)]
    refine ⟨taken, rest ++ [bytes], ?_, ?_, fun _ => rfl⟩
    · simp [Access.sentTo?]
    · rw [Access.gotAt?, Option.toList_none, List.append_nil]
      exact hgot

theorem dropReceiver (h : q.Accounts side log) (items : List Bytes) :
    Accounts { q with items, hasReceiver := false } side (log ++ [.drop side]) := by
  -- The rest stays in the account as what is lost.
  obtain ⟨taken, rest, hsent, hgot, -⟩ := h.balance
  have hdropped : Dropped side (log ++ [.drop side]) := dropped_concat.2 (.inr rfl)
  constructor
  · exact iff_of_false nofun (not_not_intro hdropped)
  · rw [dropped_concat, or_iff_left (by simpa using side.other_ne.symm)]
    exact h.hasSender
  · rw [sentTo_concat, gotAt_concat, Access.sentTo?, Access.gotAt?, Option.toList_none,
      Option.toList_none, List.append_nil, List.append_nil]
    exact ⟨taken, rest, hsent, hgot, fun held => absurd hdropped held⟩

theorem dropSender (h : q.Accounts side log) :
    Accounts { q with hasSender := false } side (log ++ [.drop side.other]) := by
  have hdropped : Dropped side.other (log ++ [.drop side.other]) := dropped_concat.2 (.inr rfl)
  have hother : Access.drop side.other ≠ .drop side := by simpa using side.other_ne
  constructor
  · rw [dropped_concat, or_iff_left hother]
    exact h.hasReceiver
  · exact iff_of_false nofun (not_not_intro hdropped)
  · rw [sentTo_concat, gotAt_concat, dropped_concat, or_iff_left hother, Access.sentTo?,
      Access.gotAt?, Option.toList_none, Option.toList_none, List.append_nil, List.append_nil]
    exact h.balance

theorem getElem?_got (h : q.Accounts side log) {k capacity : Nat} {bytes : Bytes}
    (hk : (gotAt side log)[k]? = some (capacity, bytes)) :
    ∃ buffer : Bytes, (sentTo side log)[k]? = some buffer ∧ bytes = buffer.take capacity := by
  obtain ⟨taken, rest, hsent, hgot, -⟩ := h.balance
  obtain ⟨hlt, hget⟩ := List.getElem?_eq_some_iff.1 hk
  have htaken : k < taken.length := hgot.length_eq ▸ hlt
  have hcut := hgot.get htaken hlt
  refine ⟨taken[k], ?_, ?_⟩
  · rw [hsent, List.getElem?_append_left htaken, List.getElem?_eq_getElem htaken]
  · simpa [hget] using hcut

/-- An end that is held has all queued that it has not got. -/
theorem items_eq (h : q.Accounts side log) (held : ¬ Dropped side log) :
    q.items = (sentTo side log).drop (gotAt side log).length ∧
      (gotAt side log).length ≤ (sentTo side log).length := by
  obtain ⟨taken, rest, hsent, hgot, hrest⟩ := h.balance
  rw [hrest held, hsent, ← hgot.length_eq]
  exact ⟨List.drop_left.symm, by simp⟩

end Queue.Accounts

namespace Lanes

open MemoryEnd

variable {χ : Type} [Channel χ]

inductive Takes (l : Lanes χ) : Access → Lanes χ → Prop
  | read {side : Side} {capacity : Nat} {timeout : Millis} {answer : Except LinkError Bytes}
    {l' : Lanes χ} (answered : (of side).read capacity timeout l = some (answer, l')) :
    Takes l (.read side capacity timeout answer) l'
  | write {side : Side} {bytes : Bytes} {answer : Except LinkError Nat} {l' : Lanes χ}
    (answered : (of side).write bytes l = (answer, l')) : Takes l (.write side bytes answer) l'
  | drop (side : Side) : Takes l (.drop side) ((of side).drop l)

/-- The channels of a new pair come to this through these accesses. An end that was given up is not
used again. -/
inductive Reached : List Access → Lanes χ → Prop
  | start : Reached [] .unbounded
  | step {log : List Access} {l l' : Lanes χ} (access : Access) (before : Reached log l)
    (held : ¬ Dropped access.side log) (takes : l.Takes access l') :
    Reached (log ++ [access]) l'

variable {view : χ → Queue} {l l' : Lanes χ} {side : Side} {log : List Access} {access : Access}

theorem accounts_read {reader : Side} {capacity : Nat} {timeout : Millis}
    {answer : Except LinkError Bytes} (laws : Channel.Laws view)
    (h : (view (l.get (of side).inbound.lane)).Accounts side log) (held : ¬ Dropped reader log)
    (answered : (of reader).read capacity timeout l = some (answer, l')) :
    (view (l'.get (of side).inbound.lane)).Accounts side
      (log ++ [.read reader capacity timeout answer]) := by
  obtain rfl | rfl := side.eq_or_eq_other reader
  · cases hi : (view (l.get (of reader).inbound.lane)).items with
    | cons buffer items =>
      obtain ⟨c, hread, hview⟩ := read_of_oldest laws hi capacity timeout
      cases hread.symm.trans answered
      rw [get_set_self, hview]
      exact h.got held hi
    | nil =>
      -- Nothing is got, and nothing changes.
      cases hs : (view (l.get (of reader).inbound.lane)).hasSender with
      | true =>
        obtain ⟨-, hread⟩ | ⟨-, c, hread, hview⟩ := read_of_held laws hi hs capacity timeout
        · cases hread.symm.trans answered
        · cases hread.symm.trans answered
          rw [get_set_self, hview]
          exact h.frame rfl rfl nofun
      | false =>
        obtain ⟨c, hread, hview⟩ := read_of_disconnected laws hi hs capacity timeout
        cases hread.symm.trans answered
        rw [get_set_self, hview]
        exact h.frame rfl rfl nofun
  · obtain ⟨c, rfl⟩ := exists_set_of_read answered
    rw [get_set_of_ne (inbound_of_ne side).symm]
    refine h.frame rfl ?_ nofun
    cases answer with
    | ok bytes => exact if_neg side.other_ne
    | error _ => rfl

theorem accounts_write {writer : Side} {bytes : Bytes} {answer : Except LinkError Nat}
    (laws : Channel.Laws view) (h : (view (l.get (of side).inbound.lane)).Accounts side log)
    (answered : (of writer).write bytes l = (answer, l')) :
    (view (l'.get (of side).inbound.lane)).Accounts side (log ++ [.write writer bytes answer]) := by
  obtain rfl | rfl := side.eq_or_eq_other writer
  · cases answered
    rw [get_set_of_ne (inbound_ne_outbound writer)]
    refine h.frame ?_ rfl nofun
    split
    · exact if_neg writer.other_ne.symm
    · rfl
  · rw [← outbound_of_other] at h ⊢
    cases ho : (view (l.get (of side.other).outbound.lane)).hasReceiver with
    | true =>
      obtain ⟨c, hwrite, hview⟩ := write_of_accepted laws ho bytes
      cases hwrite.symm.trans answered
      rw [get_set_self, hview]
      exact h.sent ho
    | false =>
      obtain ⟨c, hwrite, hview⟩ := write_of_rejected laws ho bytes
      cases hwrite.symm.trans answered
      rw [get_set_self, hview]
      exact h.frame rfl rfl nofun

theorem accounts_drop (laws : Channel.Laws view) (dropper : Side)
    (h : (view (l.get (of side).inbound.lane)).Accounts side log) :
    (view (((of dropper).drop l).get (of side).inbound.lane)).Accounts side
      (log ++ [.drop dropper]) := by
  obtain rfl | rfl := side.eq_or_eq_other dropper
  · obtain ⟨items, hview⟩ := laws.dropReceiver (l.get (of dropper).inbound.lane)
    rw [get_inbound_drop, hview]
    exact h.dropReceiver items
  · rw [← outbound_of_other] at h ⊢
    rw [get_outbound_drop, laws.dropSender]
    exact h.dropSender

/-- One access: either direction keeps its account. -/
theorem Takes.accounts (takes : l.Takes access l') (laws : Channel.Laws view)
    (held : ¬ Dropped access.side log)
    (h : (view (l.get (of side).inbound.lane)).Accounts side log) :
    (view (l'.get (of side).inbound.lane)).Accounts side (log ++ [access]) := by
  cases takes with
  | read answered => exact accounts_read laws h held answered
  | write answered => exact accounts_write laws h answered
  | drop dropper => exact accounts_drop laws dropper h

/-- Any number of accesses. -/
theorem Reached.accounts (h : Reached log l) (laws : Channel.Laws view) (side : Side) :
    (view (l.get (of side).inbound.lane)).Accounts side log := by
  induction h with
  | start =>
    rw [get_unbounded, laws.unbounded]
    exact .start side
  | step _ _ held takes ih => exact takes.accounts laws held ih

/-- Whatever is done with the two ends of a pair, in any interleaving, each way: the reads get the
buffers that were written, the `k`-th read the `k`-th buffer, cut to its room; an end that is held
has the rest of them queued. A read there gets the next one, be the peer gone or not; with none left
it times out, or finds the link closed if the peer is gone. A write there reaches the peer unless it
is gone. Neither touches the other direction. -/
theorem queues (laws : Channel.Laws view) (h : Reached log l) (side : Side) :
    (∀ (k capacity : Nat) (bytes : Bytes), (gotAt side log)[k]? = some (capacity, bytes) →
      ∃ buffer : Bytes, (sentTo side log)[k]? = some buffer ∧ bytes = buffer.take capacity) ∧
    (¬ Dropped side log →
      (of side).queued l + (gotAt side log).length = (sentTo side log).length ∧
      (∀ capacity timeout,
        (∀ buffer, (sentTo side log)[(gotAt side log).length]? = some buffer →
          ∃ l', (of side).read capacity timeout l = some (.ok (buffer.take capacity), l') ∧
            l'.get (of side).outbound.lane = l.get (of side).outbound.lane) ∧
        ((gotAt side log).length = (sentTo side log).length →
          (¬ Dropped side.other log → timeout ≠ Millis.unlimited →
            ∃ l', (of side).read capacity timeout l = some (.error .timeout, l') ∧
              l'.get (of side).outbound.lane = l.get (of side).outbound.lane) ∧
          (Dropped side.other log →
            ∃ l', (of side).read capacity timeout l = some (.error .closed, l') ∧
              l'.get (of side).outbound.lane = l.get (of side).outbound.lane))) ∧
      ∀ bytes,
        (¬ Dropped side.other log → ∃ l', (of side).write bytes l = (.ok bytes.length, l') ∧
          l'.get (of side).inbound.lane = l.get (of side).inbound.lane) ∧
        (Dropped side.other log → ∃ l', (of side).write bytes l = (.error .closed, l') ∧
          l'.get (of side).inbound.lane = l.get (of side).inbound.lane)) := by
  have haccounts := h.accounts laws side
  have hpeer := (h.accounts laws side.other).hasReceiver
  rw [← outbound_of] at hpeer
  have hin (c : χ) := get_set_of_ne (inbound_ne_outbound side) l c
  have hout (c : χ) := get_set_of_ne (inbound_ne_outbound side).symm l c
  refine ⟨fun _ _ _ => haccounts.getElem?_got, fun held => ?_⟩
  obtain ⟨hitems, hle⟩ := haccounts.items_eq held
  refine ⟨?_, fun capacity timeout => ⟨fun buffer hnext => ?_, fun hall => ?_⟩, fun bytes => ?_⟩
  · rw [queued, laws.count, hitems, List.length_drop, Nat.sub_add_cancel hle]
  · have hcons : (view (l.get (of side).inbound.lane)).items =
        buffer :: (sentTo side log).drop ((gotAt side log).length + 1) := by
      obtain ⟨hlt, rfl⟩ := List.getElem?_eq_some_iff.1 hnext
      rw [hitems]
      exact List.drop_eq_getElem_cons hlt
    obtain ⟨c, hread, -⟩ := read_of_oldest laws hcons capacity timeout
    exact ⟨_, hread, hout c⟩
  · have hnil : (view (l.get (of side).inbound.lane)).items = [] := by
      rw [hitems, hall, List.drop_length]
    constructor
    · intro hheld hlimit
      obtain ⟨hno, -⟩ | ⟨-, c, hread, -⟩ :=
        read_of_held laws hnil (haccounts.hasSender.2 hheld) capacity timeout
      · exact absurd hno hlimit
      · exact ⟨_, hread, hout c⟩
    · intro hdropped
      have hsender := Bool.eq_false_iff.2 fun hs => haccounts.hasSender.1 hs hdropped
      obtain ⟨c, hread, -⟩ := read_of_disconnected laws hnil hsender capacity timeout
      exact ⟨_, hread, hout c⟩
  · constructor
    · intro hheld
      obtain ⟨c, hwrite, -⟩ := write_of_accepted laws (hpeer.2 hheld) bytes
      exact ⟨_, hwrite, hin c⟩
    · intro hdropped
      have hreceiver := Bool.eq_false_iff.2 fun ho => hpeer.1 ho hdropped
      obtain ⟨c, hwrite, -⟩ := write_of_rejected laws hreceiver bytes
      exact ⟨_, hwrite, hin c⟩

/-- The peer writes two buffers and is given up; the first was read with too little room. The second
is still read as a whole, nothing can be written any more, and what had been is gone. -/
theorem queues_of_dropped_peer :
    ∃ log, ∃ l : Lanes Queue, Reached log l ∧ sentTo .b log = [[1, 2, 3], [4]] ∧
      gotAt .b log = [(2, [1, 2])] ∧ sentTo .a log = [[9]] ∧ (of .b).queued l = 1 ∧
      (∃ l', (of .b).read 8 100 l = some (.ok [4], l')) ∧
      ∃ l', (of .b).write [5] l = (.error .closed, l') := by
  have h₁ : Reached _ (_ : Lanes Queue) :=
    Reached.start.step (.write .a [1, 2, 3] (.ok 3)) (by simp [Dropped]) (.write rfl)
  have h₂ := h₁.step (.write .b [9] (.ok 1)) (by simp [Dropped]) (.write rfl)
  have h₃ := h₂.step (.write .a [4] (.ok 1)) (by simp [Dropped]) (.write rfl)
  have h₄ := h₃.step (.read .b 2 100 (.ok [1, 2])) (by simp [Dropped]) (.read rfl)
  have h₅ := h₄.step (.drop .a) (by simp [Dropped]) (.drop .a)
  obtain ⟨-, hheld⟩ := queues Queue.laws h₅ .b
  obtain ⟨hqueued, hread, hwrite⟩ := hheld (by simp [Dropped])
  obtain ⟨l', hnext, -⟩ := (hread 8 100).1 [4] rfl
  obtain ⟨l'', hclosed, -⟩ := (hwrite [5]).2 (by simp [Dropped, Side.other])
  exact ⟨_, _, h₅, rfl, rfl, rfl, Nat.add_right_cancel hqueued, ⟨l', hnext⟩, l'', hclosed⟩

end Lanes

end StopAndWait
