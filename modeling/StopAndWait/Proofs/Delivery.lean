import Mathlib.Tactic.ByContra
import StopAndWait.Proofs.Lapses
import StopAndWait.Proofs.OneFrame
import StopAndWait.Proofs.Simulation

namespace StopAndWait

instance : Inhabited Pair := ⟨default, default, Nat.le_refl _⟩

namespace World

variable {p : Pair} {r : Regime} {w : World}

def Within (longest : Nat) (w : World) : Prop :=
  ∀ message ∈ w.written, message.length ≤ longest

/-- The sender waits for every verdict, and the receiver either waits for every frame or never has
to wait for more than one. -/
def InLockstep (p : Pair) (r : Regime) (longest : Nat) : Prop :=
  r.hastySender = false ∧ (r.hastyReceiver = false ∨ longest ≤ p.sender.capacity)

theorem Within.mono {longest longest' : Nat} (h : w.Within longest) (hl : longest ≤ longest') :
    w.Within longest' :=
  fun message hm => Nat.le_trans (h message hm) hl

theorem Reachable.inStep (h : Reachable p r w) {longest : Nat} (hl : InLockstep p r longest)
    (hw : w.Within longest) :
    ∃ sending receiving, StandsAt p r w sending receiving ∧
      (w.sketch sending receiving).InStep p ∧ (w.sketch sending receiving).Truthful := by
  obtain ⟨hpatient, hbrief⟩ := hl
  -- The invariant of a step, with the promise that later messages are short too.
  have hkeeps : ∀ a a' : Sketch, a.Planned p → (a.Brief p r → a.InStep p ∧ a.Truthful) →
      Sketch.Step p r a a' → a'.Brief p r → a'.InStep p ∧ a'.Truthful := by
    intro a a' hplan hinv hstep hb'
    have hb : a.Brief p r := fun hasty message hm => hb' hasty message (hstep.written_prefix.subset hm)
    obtain ⟨hin, htrue⟩ := hinv hb
    exact ⟨hin.step hplan hb hpatient hstep, htrue.step hin hstep⟩
  have hstart : ({} : Sketch).InStep p ∧ ({} : Sketch).Truthful :=
    ⟨.idle rfl rfl rfl .resting rfl, nofun⟩
  obtain ⟨sending, receiving, hstand, -, hinv⟩ := h.invariant (fun _ => hstart) hkeeps
  refine ⟨sending, receiving, hstand, hinv ?_⟩
  intro hasty message hm
  have hshort := hbrief.resolve_left (by simp [hasty])
  exact Nat.le_trans (hw message hm) hshort

theorem Reachable.whole (h : Reachable p r w) (hw : w.Within p.sender.capacity) :
    ∃ sending receiving hand flight, StandsAt p r w sending receiving ∧
      (w.sketch sending receiving).Whole p hand flight := by
  have hkeeps : ∀ a a' : Sketch, a.Planned p → (a.Short p → ∃ hand flight, a.Whole p hand flight) →
      Sketch.Step p r a a' → a'.Short p → ∃ hand flight, a'.Whole p hand flight := by
    intro a a' hplan hinv hstep hb'
    have hb : a.Short p := fun message hm => hb' message (hstep.written_prefix.subset hm)
    obtain ⟨hand, flight, hwhole⟩ := hinv hb
    exact hwhole.step hplan hb hstep
  have hstart : ({} : Sketch).Short p → ∃ hand flight, ({} : Sketch).Whole p hand flight :=
    fun _ => ⟨[], [], rfl, .resting, nofun, nofun, fun _ => .refl _⟩
  obtain ⟨sending, receiving, hstand, -, hinv⟩ := h.invariant hstart hkeeps
  obtain ⟨hand, flight, hwhole⟩ := hinv hw
  exact ⟨sending, receiving, hand, flight, hstand, hwhole⟩

end World

namespace Sketch

variable {p : Pair} {a : Sketch}

theorem InStep.total_prefix_written (h : InStep p a) :
    a.total <+: a.written.filter (· ≠ []) := by
  cases h with
  | idle sending outbound inbound rest total =>
    exact ⟨[], by rw [List.append_nil, total]⟩
  | @busy message s earlier left sending written phase total =>
    rw [total, written, List.filter_append]
    apply (List.prefix_append_right_inj _).2
    unfold due
    split
    · exact List.prefix_refl _
    · exact List.nil_prefix

end Sketch

namespace World

variable {p : Pair} {r : Regime} {w : World} {longest : Nat}

/-- In lockstep the reader gets the beginning of what was written. -/
theorem Reachable.returned_prefix (h : Reachable p r w) (hl : InLockstep p r longest)
    (hw : w.Within longest) : w.returned <+: w.written.filter (· ≠ []) := by
  obtain ⟨sending, receiving, hstand, hin, -⟩ := h.inStep hl hw
  have hcompleted : w.completed <+: (w.sketch sending receiving).total := List.prefix_append _ _
  exact hstand.returned_prefix.trans (hcompleted.trans hin.total_prefix_written)

theorem Reachable.mem_written (h : Reachable p r w) (hw : w.Within p.sender.capacity)
    {message : Bytes} (hm : message ∈ w.returned) : message ∈ w.written := by
  obtain ⟨sending, receiving, hand, flight, hstand, hwhole⟩ := h.whole hw
  have hc : message ∈ w.completed := hstand.returned_prefix.subset hm
  have hin : message ∈ (w.sketch sending receiving).completed ++ hand ++ flight := by
    simp [sketch, hc]
  exact (hwhole.sound message hin).1

theorem Reachable.returned_sublist (h : Reachable p r w) (hw : w.Within p.sender.capacity)
    (hone : p.sender.send.retry.maxAttempts.toNat = 1) : w.returned.Sublist w.written := by
  obtain ⟨sending, receiving, hand, flight, hstand, hwhole⟩ := h.whole hw
  have hin : (w.sketch sending receiving).completed.Sublist w.written := by
    refine List.Sublist.trans ?_ (hwhole.once hone)
    simp only [List.append_assoc]
    exact List.sublist_append_left _ _
  exact hstand.returned_prefix.sublist.trans hin

/-- A call with a limit is enough to have something handed out that nobody wrote: a fragment where
the reader gives up, a splice where the writer does. -/
theorem exists_torn (h : r.hastySender = true ∨ r.hastyReceiver = true) :
    ∃ w, Reachable p r w ∧ w.Within (p.sender.capacity + 1) ∧ [] ∉ w.written ∧ w.written.Nodup ∧
      ∃ message ∈ w.returned, message ≠ [] ∧ message ∉ w.written := by
  have hpos := p.sender.capacity_pos
  have hzero : (List.replicate p.sender.capacity (0 : UInt8)).length = p.sender.capacity := by simp
  have hone : (List.replicate p.sender.capacity (1 : UInt8)).length = p.sender.capacity := by simp
  have hne : List.replicate p.sender.capacity (0 : UInt8) ≠ List.replicate p.sender.capacity 1 := by
    intro heq
    obtain ⟨-, h0 | h01⟩ := List.replicate_inj.1 heq
    · omega
    · exact absurd h01 (by decide)
  -- A hasty writer makes a splice, a hasty reader a fragment.
  rcases h with hr | hr
  · obtain ⟨w, hw, hwritten, hreturned⟩ := splice_returned hr hzero hone 0 1
    refine ⟨w, hw, ?_, ?_, ?_, _, by rw [hreturned]; exact List.mem_singleton_self _, ?_, ?_⟩
    · intro message hm
      rw [hwritten] at hm
      simp only [List.mem_cons, List.not_mem_nil, or_false] at hm
      rcases hm with rfl | rfl <;> simp
    · simp [hwritten]
    · simp [hwritten]
    · simp
    · simp [hwritten, hne]
  · obtain ⟨w, hw, hwritten, hreturned⟩ := fragment_returned hr hzero 0
    refine ⟨w, hw, ?_, ?_, ?_, _, by rw [hreturned]; exact List.mem_singleton_self _, ?_, ?_⟩
    · intro message hm
      rw [hwritten] at hm
      rw [List.mem_singleton.1 hm]
      simp
    · simp [hwritten]
    · simp [hwritten]
    · intro hnil
      simp only [List.replicate_eq_nil_iff] at hnil
      omega
    · rw [hwritten, List.mem_singleton]
      intro heq
      have hlength := congrArg List.length heq
      simp at hlength

/-- Messages come at most once and in the order of the writes. -/
def AtMostOnce (w : World) : Prop :=
  (w.returned.filter (· ≠ [])).Nodup ∧ (w.returned.filter (· ≠ [])).Sublist w.written

/-- Different messages come at most once and in order in all runs, exactly if there is nothing to
write, or the ends are in lockstep, or every message is one frame that is sent once. -/
theorem atMostOnce_iff (p : Pair) (r : Regime) (longest : Nat) :
    (∀ w, Reachable p r w → w.Within longest → [] ∉ w.written → w.written.Nodup → w.AtMostOnce) ↔
      longest = 0 ∨ InLockstep p r longest ∨
        p.sender.send.retry.maxAttempts.toNat = 1 ∧ longest ≤ p.sender.capacity := by
  constructor
  · intro h
    by_contra hc
    simp only [InLockstep, not_or, not_and, Bool.not_eq_false, Nat.not_le] at hc
    obtain ⟨hlongest, hlock, honce⟩ := hc
    -- Long messages can be torn; of short ones the writer makes two.
    by_cases htorn : p.sender.capacity < longest ∧ (r.hastySender = true ∨ r.hastyReceiver = true)
    · obtain ⟨hlong, hhasty⟩ := htorn
      obtain ⟨w, hw, hwithin, hne, hnodup, message, hm, hm0, hm'⟩ := exists_torn (p := p) hhasty
      have hwithin' : w.Within longest := hwithin.mono hlong
      have hsub := (h w hw hwithin' hne hnodup).2.subset
      exact hm' (hsub (List.mem_filter.2 ⟨hm, by simpa using hm0⟩))
    · have hhasty : r.hastySender = true := by
        by_contra hpatient
        have hh := hlock (by simpa using hpatient)
        exact htorn ⟨hh.2, .inr hh.1⟩
      have hshort : longest ≤ p.sender.capacity := by
        by_contra hlong
        exact htorn ⟨by omega, .inl hhasty⟩
      have hpos := p.sender.maxAttempts_pos
      have htwice : 2 ≤ p.sender.send.retry.maxAttempts.toNat := by
        by_contra hfew
        have hle := honce (by omega)
        omega
      obtain ⟨w, hw, hwritten, hreturned⟩ := duplicate_returned hhasty htwice 0
      have hwithin : w.Within longest := by
        intro message hm
        rw [hwritten, List.mem_singleton] at hm
        rw [hm]
        exact Nat.one_le_iff_ne_zero.2 hlongest
      have hnodup := (h w hw hwithin (by simp [hwritten]) (by simp [hwritten])).1
      simp [hreturned] at hnodup
  · intro h w hr hw hne hnodup
    -- Different messages that come in order come once.
    suffices hsub : (w.returned.filter (· ≠ [])).Sublist w.written from
      ⟨hnodup.sublist hsub, hsub⟩
    rcases h with rfl | hl | ⟨hone, hle⟩
    -- No message has no byte, so none was written.
    · have hnone : w.written = [] := by
        refine List.eq_nil_iff_forall_not_mem.2 fun message hm => hne ?_
        have hlength := hw message hm
        rwa [List.eq_nil_of_length_eq_zero (Nat.le_zero.1 hlength)] at hm
      have hshort : w.Within p.sender.capacity := by simp [Within, hnone]
      have hreturned : w.returned = [] := by
        apply List.eq_nil_iff_forall_not_mem.2
        intro message hm
        simpa [hnone] using hr.mem_written hshort hm
      simp [hreturned]
    · calc List.Sublist (w.returned.filter (· ≠ [])) w.returned := List.filter_sublist
        List.Sublist _ (w.written.filter (· ≠ [])) := (hr.returned_prefix hl hw).sublist
        List.Sublist _ w.written := List.filter_sublist
    · have hshort : w.Within p.sender.capacity := hw.mono hle
      exact List.filter_sublist.trans (hr.returned_sublist hshort hone)

/-- With the default settings a message of one byte can come twice, also to reads with room for it:
its acknowledgment is late, and it is sent again to the next read. -/
theorem not_atMostOnce_default :
    ¬ ∀ w, Reachable default { Regime.unreliable with room := 1 } w → w.Within 1 →
      [] ∉ w.written → w.written.Nodup → w.AtMostOnce := by
  intro h
  have htwice : 2 ≤ (default : Pair).sender.send.retry.maxAttempts.toNat := by decide
  obtain ⟨w, hw, hwritten, hreturned⟩ :=
    duplicate_returned (r := { Regime.unreliable with room := 1 }) rfl htwice 0
  have hwithin : w.Within 1 := by
    intro message hm
    rw [hwritten, List.mem_singleton] at hm
    rw [hm]
    exact Nat.le_refl 1
  have hnodup := (h w hw hwithin (by simp [hwritten]) (by simp [hwritten])).1
  simp [hreturned] at hnodup

/-- A write of a message unlike all others ends well only if the message was put together. -/
def NoFalseSuccess (w : World) : Prop :=
  ∀ message n, (message, .ok n) ∈ w.outcomes → message ≠ [] → w.written.count message = 1 →
    w.HasCompleted message

/-- A reader between two calls has entered all that it has put together. -/
theorem not_hasCompleted {message : Bytes} {e : Engine} (hc : message ∉ w.completed)
    (hr : w.receiver = .resting e) : ¬ w.HasCompleted message := by
  intro h
  rcases h with hmem | ⟨room, d, next, hcalling, -⟩
  · exact hc hmem
  · rw [hr] at hcalling
    cases hcalling

/-- No run tells of a success that is none, exactly if there is nothing to write or the ends are in
lockstep. -/
theorem noFalseSuccess_iff (p : Pair) (r : Regime) (longest : Nat) :
    (∀ w, Reachable p r w → w.Within longest → w.NoFalseSuccess) ↔
      longest = 0 ∨ InLockstep p r longest := by
  constructor
  · intro h
    by_contra hc
    simp only [InLockstep, not_or, not_and, Bool.not_eq_false, Nat.not_le] at hc
    obtain ⟨hlongest, hlock⟩ := hc
    have hpos := p.sender.capacity_pos
    -- A hasty writer takes a stale reply, a hasty reader forgets what it has taken.
    by_cases hr : r.hastySender = true
    · obtain ⟨w, e, hw, hwritten, houtcome, hcompleted, hreceiver⟩ := stale_acknowledged hr 0 1
      have hwithin : w.Within longest := by
        intro message hm
        rw [hwritten] at hm
        simp only [List.mem_cons, List.not_mem_nil, or_false] at hm
        rcases hm with rfl | rfl <;> exact Nat.one_le_iff_ne_zero.2 hlongest
      have hcount : w.written.count [1] = 1 := by
        rw [hwritten]
        decide
      have hnot : [1] ∉ w.completed := by
        rw [hcompleted]
        decide
      exact not_hasCompleted hnot hreceiver (h w hw hwithin _ _ houtcome (by simp) hcount)
    · obtain ⟨hhasty, hlong⟩ := hlock (by simpa using hr)
      have hzero : (List.replicate p.sender.capacity (0 : UInt8)).length = p.sender.capacity := by
        simp
      obtain ⟨w, e, hw, hwritten, houtcome, hcompleted, hreceiver⟩ :=
        emptied_acknowledged hhasty hzero 0
      have hwithin : w.Within longest := by
        intro message hm
        rw [hwritten, List.mem_singleton] at hm
        rw [hm]
        simp only [List.length_append, List.length_replicate, List.length_singleton]
        exact hlong
      have hnot : List.replicate p.sender.capacity 0 ++ [0] ∉ w.completed := by
        simp [hcompleted]
      have hcount : w.written.count (List.replicate p.sender.capacity 0 ++ [0]) = 1 := by
        simp [hwritten]
      exact not_hasCompleted hnot hreceiver (h w hw hwithin _ _ houtcome (by simp) hcount)
  · intro h w hr hw message n houtcome hm hcount
    rcases h with rfl | hl
    · -- A message that is in the journal of writes has no byte.
      have hmem : message ∈ w.written := List.count_pos_iff.1 (by omega)
      exact absurd (List.eq_nil_of_length_eq_zero (Nat.le_zero.1 (hw message hmem))) hm
    · obtain ⟨sending, receiving, hstand, -, htrue⟩ := hr.inStep hl hw
      have htotal := htrue message n houtcome hm
      -- Put together: entered in the journal already, or the next thing to be.
      rcases List.mem_append.1 htotal with hmem | hmem
      · exact .inl hmem
      · obtain ⟨x, rfl, rfl⟩ := Sketch.mem_unentered hmem
        exact hstand.hasCompleted

/-- With the default settings and a link that loses nothing a write can end well with the
acknowledgment of the one before it. -/
theorem not_noFalseSuccess_default :
    ¬ ∀ w, Reachable default .hurried w → w.NoFalseSuccess := by
  intro h
  obtain ⟨w, e, hw, hwritten, houtcome, hcompleted, hreceiver⟩ :=
    stale_acknowledged (r := .hurried) rfl 0 1
  have hcount : w.written.count [1] = 1 := by
    rw [hwritten]
    decide
  have hnot : [1] ∉ w.completed := by
    rw [hcompleted]
    decide
  exact not_hasCompleted hnot hreceiver (h w hw _ _ houtcome (by simp) hcount)

/-- What is handed out was written as a whole. -/
def OnlyWhole (w : World) : Prop :=
  ∀ message ∈ w.returned, message ≠ [] → message ∈ w.written

/-- Only whole messages are handed out in all runs, exactly if each fits one frame or no end runs
out of time. -/
theorem onlyWhole_iff (p : Pair) (r : Regime) (longest : Nat) :
    (∀ w, Reachable p r w → w.Within longest → w.OnlyWhole) ↔
      longest ≤ p.sender.capacity ∨ r.hastySender = false ∧ r.hastyReceiver = false := by
  constructor
  · intro h
    by_contra hc
    simp only [not_or, not_and, Bool.not_eq_false, Nat.not_le] at hc
    obtain ⟨hlong, hpatient⟩ := hc
    -- One of the ends is hasty.
    have hhasty : r.hastySender = true ∨ r.hastyReceiver = true := by
      cases hs : r.hastySender with
      | true => exact .inl rfl
      | false => exact .inr (hpatient hs)
    obtain ⟨w, hw, hwithin, -, -, message, hm, hm0, hm'⟩ := exists_torn (p := p) hhasty
    have hwithin' : w.Within longest := hwithin.mono hlong
    exact hm' (h w hw hwithin' message hm hm0)
  · intro h w hr hw message hm hm0
    rcases h with hle | ⟨hs, hb⟩
    · have hshort : w.Within p.sender.capacity := hw.mono hle
      exact hr.mem_written hshort hm
    · have hbefore := hr.returned_prefix ⟨hs, .inl hb⟩ hw
      exact (List.mem_filter.1 (hbefore.subset hm)).1

/-- With the default settings the pieces of two messages can be handed out as one, also to reads
with room for either. -/
theorem not_onlyWhole_default :
    ¬ ∀ w, Reachable default { Regime.unreliable with room := 1022 } w → w.Within 1022 →
      w.OnlyWhole := by
  intro h
  obtain ⟨w, hw, hwithin, -, -, message, hm, hm0, hm'⟩ :=
    exists_torn (p := default) (r := { Regime.unreliable with room := 1022 }) (.inl rfl)
  exact hm' (h w hw hwithin message hm hm0)

end World

end StopAndWait
