import StopAndWait.Link.Scripted
import StopAndWait.Proofs.Performance

namespace StopAndWait

def Arrival.answer (capacity : Nat) : Arrival → Except LinkError Bytes
  | timeout => .error .timeout
  | buffer bytes => .ok (bytes.take capacity)

namespace Clocked

def wrote (site : Clocked ScriptedLink) (bytes : Bytes) : Clocked ScriptedLink :=
  { site with link := { site.link with written := site.link.written.push bytes } }

def heard (site : Clocked ScriptedLink) (arrivals : List Arrival) (timeout : Millis) :
    Clocked ScriptedLink :=
  { site with link :=
    { site.link with arrivals, readTimeouts := site.link.readTimeouts.push timeout } }

end Clocked

def Move.arrivals : List Move → List Arrival
  | [] => []
  | gets bytes :: moves => .buffer bytes :: arrivals moves
  | misses :: moves => .timeout :: arrivals moves
  | _ :: moves => arrivals moves

namespace Dialog

variable {α β σ τ : Type}

/-- What runs to its end also does so before another dialogue. -/
theorem run_bind [Site σ] {bound : Nat} {d : Dialog α} {site site' : σ} {result : α}
    (h : run bound d site = some (result, site')) (f : α → Dialog β) :
    ∃ steps, ∀ more, run (steps + more) (d.bind f) site = run more (f result) site' := by
  induction bound generalizing d site with
  | zero => cases h
  | succ bound ih =>
    rw [run] at h
    cases hv : d.view with
    | done a =>
      rw [hv] at h
      cases h
      refine ⟨0, fun more => ?_⟩
      cases more with
      | zero => rfl
      | succ more => rw [Nat.zero_add, run, run, view_bind, hv]
    | silent next =>
      rw [hv] at h
      obtain ⟨steps, hsteps⟩ := ih h
      refine ⟨steps + 1, fun more => ?_⟩
      rw [Nat.add_right_comm, run, view_bind, hv]
      exact hsteps more
    | ask request next =>
      rw [hv] at h
      cases hr : respond site request with
      | none => simp [hr] at h
      | some answered =>
        obtain ⟨answer, site₁⟩ := answered
        simp only [hr] at h
        obtain ⟨steps, hsteps⟩ := ih h
        refine ⟨steps + 1, fun more => ?_⟩
        rw [Nat.add_right_comm, run, view_bind, hv]
        simp only [hr]
        exact hsteps more

theorem respond_write {site : Clocked ScriptedLink} (hw : site.link.failingWrites = 0)
    (bytes : Bytes) (timeout : Millis) :
    respond site (.write bytes timeout) = some (.ok bytes.length, site.wrote bytes) := by
  simp [respond, Link.write, Clocked.wrote, hw]

theorem respond_read {site : Clocked ScriptedLink} {arrival : Arrival} {rest : List Arrival}
    (ha : site.link.arrivals = arrival :: rest) (capacity : Nat) (timeout : Millis) :
    respond site (.read capacity timeout) =
      some (arrival.answer capacity, site.heard rest timeout) := by
  simp only [respond, Link.read, ScriptedLink.arrive, ha]
  cases arrival <;> rfl

/-- Where nobody asks for the time, what a dialogue can perform is what it does at a script. -/
theorem Performs.run {c : Contract τ} {post : τ → α → Prop} {s : τ} {now : Instant}
    {d : Dialog α} {moves : List Move} {result : α} {site : Clocked ScriptedLink}
    {rest : List Arrival} (h : Performs now d moves (pure result)) (hc : Honours c post s d)
    (hn : ∀ s, ¬ c.permits s .now) (hw : site.link.failingWrites = 0)
    (ha : site.link.arrivals = Move.arrivals moves ++ rest) :
    ∃ bound site', Dialog.run bound d site = some (result, site') ∧ site'.link.arrivals = rest ∧
      site'.link.failingWrites = 0 ∧
      site'.link.written.toList = site.link.written.toList ++ Move.sent moves := by
  generalize he : (pure result : Dialog α) = e at h
  induction h generalizing s site with
  | refl d =>
    subst he
    exact ⟨1, site, rfl, ha, hw, (List.append_nil _).symm⟩
  | silent view later ih =>
    obtain ⟨bound, site', hrun, hend⟩ := ih (hc.silent view).2 hw ha he
    exact ⟨bound + 1, site', by rw [Dialog.run, view]; exact hrun, hend⟩
  | now view later ih => exact absurd (hc.permits view) (hn s)
  | @sends d d' bytes timeout next moves view later ih =>
    have hw' : (site.wrote bytes).link.failingWrites = 0 := hw
    obtain ⟨bound, site', hrun, hrest, hworks, hwritten⟩ :=
      ih (hc.answer view (.ok bytes.length)) hw' ha he
    refine ⟨bound + 1, site', ?_, hrest, hworks, ?_⟩
    · rw [Dialog.run, view]
      simpa only [respond_write hw] using hrun
    · simp [hwritten, Clocked.wrote, Move.sent]
  | @gets d d' capacity timeout next moves bytes view later ih =>
    have hw' : (site.heard (Move.arrivals moves ++ rest) timeout).link.failingWrites = 0 := hw
    obtain ⟨bound, site', hrun, hend⟩ :=
      ih (hc.answer view (.ok (bytes.take capacity))) hw' rfl he
    refine ⟨bound + 1, site', ?_, hend⟩
    rw [Dialog.run, view]
    simp only [respond_read ha]
    exact hrun
  | @misses d d' capacity timeout next moves view later ih =>
    have hw' : (site.heard (Move.arrivals moves ++ rest) timeout).link.failingWrites = 0 := hw
    obtain ⟨bound, site', hrun, hend⟩ := ih (hc.answer view (.error .timeout)) hw' rfl he
    refine ⟨bound + 1, site', ?_, hend⟩
    rw [Dialog.run, view]
    simp only [respond_read ha]
    exact hrun
  | notes view later ih =>
    obtain ⟨bound, site', hrun, hend⟩ := ih (hc.answer view ()) hw ha he
    exact ⟨bound + 1, site', by rw [Dialog.run, view]; exact hrun, hend⟩

end Dialog

end StopAndWait
