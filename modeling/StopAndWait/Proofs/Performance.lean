import StopAndWait.Proofs.Contract
import StopAndWait.Proofs.World

namespace StopAndWait

inductive Move
  | sends (bytes : Bytes)
  | gets (bytes : Bytes)
  -- A wait that times out.
  | misses
  | notes (notice : Notice)

namespace Move

def sent : List Move → List Bytes
  | [] => []
  | sends bytes :: moves => bytes :: sent moves
  | _ :: moves => sent moves

def got : List Move → List Bytes
  | [] => []
  | gets bytes :: moves => bytes :: got moves
  | _ :: moves => got moves

def entered : List Move → List Bytes
  | [] => []
  | notes notice :: moves => Notice.whole (some notice) ++ entered moves
  | _ :: moves => entered moves

end Move

namespace Dialog

variable {α β : Type} {now : Instant} {d d' d'' : Dialog α} {moves moves' : List Move}

inductive Performs {α : Type} (now : Instant) : Dialog α → List Move → Dialog α → Prop
  | refl (d : Dialog α) : Performs now d [] d
  | silent {d next d' : Dialog α} {moves : List Move} (view : d.view = .silent next)
    (later : Performs now next moves d') : Performs now d moves d'
  | now {d d' : Dialog α} {next : Instant → Dialog α} {moves : List Move}
    (view : d.view = .ask .now next) (later : Performs now (next now) moves d') :
    Performs now d moves d'
  | sends {d d' : Dialog α} {bytes : Bytes} {timeout : Millis}
    {next : Except LinkError Nat → Dialog α} {moves : List Move}
    (view : d.view = .ask (.write bytes timeout) next)
    (later : Performs now (next (.ok bytes.length)) moves d') :
    Performs now d (.sends bytes :: moves) d'
  | gets {d d' : Dialog α} {capacity : Nat} {timeout : Millis}
    {next : Except LinkError Bytes → Dialog α} {moves : List Move} (bytes : Bytes)
    (view : d.view = .ask (.read capacity timeout) next)
    (later : Performs now (next (.ok (bytes.take capacity))) moves d') :
    Performs now d (.gets bytes :: moves) d'
  | misses {d d' : Dialog α} {capacity : Nat} {timeout : Millis}
    {next : Except LinkError Bytes → Dialog α} {moves : List Move}
    (view : d.view = .ask (.read capacity timeout) next)
    (later : Performs now (next (.error .timeout)) moves d') :
    Performs now d (.misses :: moves) d'
  | notes {d d' : Dialog α} {notice : Notice} {next : Unit → Dialog α} {moves : List Move}
    (view : d.view = .ask (.note notice) next) (later : Performs now (next ()) moves d') :
    Performs now d (.notes notice :: moves) d'

theorem Performs.trans (h : Performs now d moves d') (h' : Performs now d' moves' d'') :
    Performs now d (moves ++ moves') d'' := by
  induction h with
  | refl d => exact h'
  | silent view later ih => exact .silent view (ih h')
  | now view later ih => exact .now view (ih h')
  | sends view later ih => exact .sends view (ih h')
  | gets bytes view later ih => exact .gets bytes view (ih h')
  | misses view later ih => exact .misses view (ih h')
  | notes view later ih => exact .notes view (ih h')

theorem Performs.bind (h : Performs now d moves d') (f : α → Dialog β) :
    Performs now (d.bind f) moves (d'.bind f) := by
  induction h with
  | refl d => exact .refl _
  | silent view later ih => exact .silent (by rw [view_bind, view]) ih
  | now view later ih => exact .now (by rw [view_bind, view]) ih
  | sends view later ih => exact .sends (by rw [view_bind, view]) ih
  | gets bytes view later ih => exact .gets bytes (by rw [view_bind, view]) ih
  | misses view later ih => exact .misses (by rw [view_bind, view]) ih
  | notes view later ih => exact .notes (by rw [view_bind, view]) ih

theorem Performs.andThen {result : α} {f : α → Dialog β} {e : Dialog β}
    (h : Performs now d moves (pure result)) (h' : Performs now (f result) moves' e) :
    Performs now (d.bind f) (moves ++ moves') e :=
  (h.bind f).trans h'

theorem Performs.silently {result : α} {f : α → Dialog β} {e : Dialog β}
    (h : Performs now d [] (pure result)) (h' : Performs now (f result) moves e) :
    Performs now (d.bind f) moves e :=
  h.andThen h'

theorem performs_again {σ : Type} {round : σ → Dialog (σ ⊕ α)} {start again : σ}
    {next : α → Dialog β} (h : Performs now (round start) moves (pure (.inl again))) :
    Performs now (loop round start next) moves (loop round again next) :=
  .silent rfl (h.bind _)

theorem performs_last {σ : Type} {round : σ → Dialog (σ ⊕ α)} {start : σ} {result : α}
    {next : α → Dialog β} (h : Performs now (round start) moves (pure (.inr result))) :
    Performs now (loop round start next) moves (next result) :=
  .silent rfl (h.bind _)

/-- A performance can be taken apart after its first move. -/
theorem Performs.split {first : Move} (h : Performs now d (first :: moves) d') :
    ∃ mid, Performs now d [first] mid ∧ Performs now mid moves d' := by
  -- Moves that do not show come before the first one that does.
  generalize hm : first :: moves = all at h
  induction h with
  | refl d => cases hm
  | silent view later ih =>
    obtain ⟨mid, h, h'⟩ := ih hm
    exact ⟨mid, .silent view h, h'⟩
  | now view later ih =>
    obtain ⟨mid, h, h'⟩ := ih hm
    exact ⟨mid, .now view h, h'⟩
  | sends view later ih =>
    cases hm
    exact ⟨_, .sends view (.refl _), later⟩
  | gets bytes view later ih =>
    cases hm
    exact ⟨_, .gets bytes view (.refl _), later⟩
  | misses view later ih =>
    cases hm
    exact ⟨_, .misses view (.refl _), later⟩
  | notes view later ih =>
    cases hm
    exact ⟨_, .notes view (.refl _), later⟩

def IsListening (d : Dialog α) : Prop :=
  ∃ capacity timeout next, d.view = .ask (.read capacity timeout) next

/-- Before its first request a dialogue has no choice. -/
theorem Performs.resume {move : Move} (h : Performs now d [] d'') (he : d''.IsListening)
    (h' : Performs now d (move :: moves) d') : Performs now d'' (move :: moves) d' := by
  generalize hm : ([] : List Move) = none at h
  -- What is silent, or asks for the time, has one way to go on.
  induction h with
  | refl d => exact h'
  | silent view later ih =>
    apply ih he ?_ hm
    cases h' <;> simp_all
  | now view later ih =>
    apply ih he ?_ hm
    cases h' <;> simp_all
  | sends | gets | misses | notes => cases hm

/-- A deadline answers at the present time; one that never comes gives the same answer always. -/
theorem performs_consult (deadline : Deadline) (now : Instant) (question : Instant → α) :
    ∃ time, Performs now (deadline.consult question) [] (pure (question time)) := by
  unfold Deadline.consult
  cases deadline.expiry with
  | none => exact ⟨0, .refl _⟩
  | some expiry => exact ⟨now, .now rfl (.refl _)⟩

theorem performs_hasExpired (deadline : Deadline) (now : Instant) :
    Performs now deadline.hasExpired [] (pure (deadline.isExpired now)) := by
  unfold Deadline.hasExpired Deadline.consult
  cases he : deadline.expiry with
  -- The answer at any time is the answer at this one.
  | none =>
    have hn : deadline.isExpired now = false := by simp [Deadline.isExpired, he]
    have h0 : deadline.isExpired 0 = false := by simp [Deadline.isExpired, he]
    rw [hn, ← h0]
    exact .refl _
  | some expiry => exact .now rfl (.refl _)

theorem performs_start (limit : Millis) (now : Instant) :
    Performs now (Deadline.start limit) [] (pure (.after limit now)) := by
  unfold Deadline.start
  by_cases h : limit = Millis.unlimited
  · rw [if_pos h, h]
    exact .refl _
  · rw [if_neg h]
    exact .now rfl (.refl _)

end Dialog

namespace World

open Dialog

abbrev Run (r : Regime) : World → World → Prop := Relation.ReflTransGen (Step r)

variable {r : Regime} {w : World} {moves : List Move} {outbound inbound completed : List Bytes}

/-- What the writing end performs is a run of the world. -/
theorem run_sender {message : Bytes} {d d' : Dialog (Engine.End Nat)}
    (hc : w.sender = .calling message d) (h : d.Performs w.clock moves d')
    (ho : w.outbound ++ Move.sent moves = outbound) (hi : w.inbound = Move.got moves ++ inbound)
    (hm : .misses ∈ moves → r.hastySender = true) :
    Run r w { w with sender := .calling message d', outbound, inbound } := by
  -- The clock stands still: the induction is over moves at one instant.
  obtain ⟨now, hnow⟩ : ∃ now, w.clock = now := ⟨_, rfl⟩
  rw [hnow] at h
  induction h generalizing w with
  | refl d =>
    obtain rfl : w.inbound = inbound := hi
    obtain rfl : w.outbound = outbound := by simpa [Move.sent] using ho
    rw [← hc]
  | silent view later ih =>
    exact .head (.senderPasses hc (.silent view)) (ih rfl ho hi hm hnow)
  | now view later ih =>
    exact .head (.senderPasses hc (.now view)) (ih (by rw [hnow]) ho hi hm hnow)
  | @sends d d' bytes timeout next moves view later ih =>
    have hrun := ih (w := { w with sender := .calling message (next (.ok bytes.length))
                                   outbound := w.outbound ++ [bytes] })
      rfl (by simpa [Move.sent] using ho) hi (fun h => hm (List.mem_cons_of_mem _ h)) hnow
    exact .head (.transmit hc view) hrun
  | @gets d d' capacity timeout next moves bytes view later ih =>
    have hrun := ih (w := { w with sender := .calling message (next (.ok (bytes.take capacity)))
                                   inbound := Move.got moves ++ inbound })
      rfl ho rfl (fun h => hm (List.mem_cons_of_mem _ h)) hnow
    exact .head (.getVerdict hc view hi) hrun
  -- A wait in vain is the one move that the regime has to allow.
  | @misses d d' capacity timeout next moves view later ih =>
    have hrun := ih (w := { w with sender := .calling message (next (.error .timeout)) })
      rfl ho hi (fun h => hm (List.mem_cons_of_mem _ h)) hnow
    exact .head (.waitInVain .timeout hc view (hm List.mem_cons_self)) hrun
  | @notes d d' notice next moves view later ih =>
    have hrun := ih (w := { w with sender := .calling message (next ()) })
      rfl ho hi (fun h => hm (List.mem_cons_of_mem _ h)) hnow
    exact .head (.senderPasses hc (.note view)) hrun

theorem run_receiver {room : Nat} {d d' : Dialog (Engine.End Delivery)}
    (hc : w.receiver = .calling room d) (h : d.Performs w.clock moves d')
    (ho : w.outbound = Move.got moves ++ outbound) (hi : w.inbound ++ Move.sent moves = inbound)
    (hw : w.completed ++ Move.entered moves = completed) :
    Run r w { w with receiver := .calling room d', outbound, inbound, completed } := by
  obtain ⟨now, hnow⟩ : ∃ now, w.clock = now := ⟨_, rfl⟩
  rw [hnow] at h
  induction h generalizing w with
  | refl d =>
    obtain rfl : w.outbound = outbound := ho
    obtain rfl : w.inbound = inbound := by simpa [Move.sent] using hi
    obtain rfl : w.completed = completed := by simpa [Move.entered] using hw
    rw [← hc]
  | @silent d next d' moves view later ih =>
    have hstep : Step r w { w with receiver := .calling room next } := by
      simpa [Notice.whole] using Step.receiverPasses (r := r) hc (.silent view)
    exact .head hstep (ih rfl ho hi hw hnow)
  | @now d d' next moves view later ih =>
    have hstep : Step r w { w with receiver := .calling room (next w.clock) } := by
      simpa [Notice.whole] using Step.receiverPasses (r := r) hc (.now view)
    exact .head hstep (ih (by rw [hnow]) ho hi hw hnow)
  | @sends d d' bytes timeout next moves view later ih =>
    have hrun := ih (w := { w with receiver := .calling room (next (.ok bytes.length))
                                   inbound := w.inbound ++ [bytes] })
      rfl ho (by simpa [Move.sent] using hi) hw hnow
    exact .head (.reply hc view) hrun
  | @gets d d' capacity timeout next moves bytes view later ih =>
    have hrun := ih (w := { w with receiver := .calling room (next (.ok (bytes.take capacity)))
                                   outbound := Move.got moves ++ outbound }) rfl rfl hi hw hnow
    exact .head (.receive hc view ho) hrun
  -- A timeout is always allowed to the reading end.
  | @misses d d' capacity timeout next moves view later ih =>
    have hrun := ih (w := { w with receiver := .calling room (next (.error .timeout)) })
      rfl ho hi hw hnow
    exact .head (.receiveInVain .timeout hc view (.inl rfl)) hrun
  | @notes d d' notice next moves view later ih =>
    have hrun := ih (w := { w with receiver := .calling room (next ())
                                   completed := w.completed ++ Notice.whole (some notice) })
      rfl ho hi (by simpa [Move.entered] using hw) hnow
    exact .head (.receiverPasses hc (.note view)) hrun

end World

end StopAndWait
