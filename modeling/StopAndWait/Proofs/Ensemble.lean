import Mathlib.Order.GameAdd
import StopAndWait.Proofs.Balance
import StopAndWait.Proofs.Parts

namespace StopAndWait

/-- What two ends have still to play fits together, with what is in flight from the first to the
second and back: there is an order in which all of it can be played. -/
inductive Meshes : List Bytes → List Bytes → List Move → List Move → Prop
  | done : Meshes [] [] [] []
  | sends {there back : List Bytes} {bytes : Bytes} {ours theirs : List Move}
    (later : Meshes (there ++ [bytes]) back ours theirs) :
    Meshes there back (.sends bytes :: ours) theirs
  | gets {there back : List Bytes} {bytes : Bytes} {ours theirs : List Move}
    (later : Meshes there back ours theirs) :
    Meshes there (bytes :: back) (.gets bytes :: ours) theirs
  | notes {there back : List Bytes} {notice : Notice} {ours theirs : List Move}
    (later : Meshes there back ours theirs) : Meshes there back (.notes notice :: ours) theirs
  -- The same for the second.
  | answers {there back : List Bytes} {bytes : Bytes} {ours theirs : List Move}
    (later : Meshes there (back ++ [bytes]) ours theirs) :
    Meshes there back ours (.sends bytes :: theirs)
  | hears {there back : List Bytes} {bytes : Bytes} {ours theirs : List Move}
    (later : Meshes there back ours theirs) :
    Meshes (bytes :: there) back ours (.gets bytes :: theirs)
  | enters {there back : List Bytes} {notice : Notice} {ours theirs : List Move}
    (later : Meshes there back ours theirs) : Meshes there back ours (.notes notice :: theirs)

inductive Ready : List Bytes → List Move → Prop
  | sends {inbound : List Bytes} {bytes : Bytes} {moves : List Move} :
    Ready inbound (.sends bytes :: moves)
  | gets {inbound : List Bytes} {bytes : Bytes} {moves : List Move} :
    Ready (bytes :: inbound) (.gets bytes :: moves)
  | notes {inbound : List Bytes} {notice : Notice} {moves : List Move} :
    Ready inbound (.notes notice :: moves)

theorem Ready.ne_nil {inbound : List Bytes} {moves : List Move} (h : Ready inbound moves) :
    moves ≠ [] := by
  cases h <;> nofun

namespace Meshes

variable {there back : List Bytes} {bytes : Bytes} {ours theirs ours' theirs' : List Move}

theorem symm (h : Meshes there back ours theirs) : Meshes back there theirs ours := by
  induction h with
  | done => exact .done
  | sends _ ih => exact .answers ih
  | gets _ ih => exact .hears ih
  | notes _ ih => exact .enters ih
  | answers _ ih => exact .sends ih
  | hears _ ih => exact .gets ih
  | enters _ ih => exact .notes ih

theorem append (h : Meshes there back ours theirs) (h' : Meshes [] [] ours' theirs') :
    Meshes there back (ours ++ ours') (theirs ++ theirs') := by
  induction h with
  | done => exact h'
  | sends _ ih => exact .sends ih
  | gets _ ih => exact .gets ih
  | notes _ ih => exact .notes ih
  | answers _ ih => exact .answers ih
  | hears _ ih => exact .hears ih
  | enters _ ih => exact .enters ih

/-- What is in flight and what is still to be sent is what is still to be got. -/
theorem balance (h : Meshes there back ours theirs) : back ++ Move.sent theirs = Move.got ours := by
  induction h with
  | done => rfl
  | sends _ ih => exact ih
  | gets _ ih => exact congrArg (List.cons _) ih
  | notes _ ih => exact ih
  | answers _ ih => simpa [Move.sent] using ih
  | hears _ ih => exact ih
  | enters _ ih => exact ih

theorem eq_of_gets {bytes' : Bytes}
    (h : Meshes there (bytes :: back) (.gets bytes' :: ours) theirs) : bytes' = bytes :=
  (List.cons.inj h.balance).1.symm

/-- Whatever the order was, the first end may make its next move now. -/
theorem sent (h : Meshes there back (.sends bytes :: ours) theirs) :
    Meshes (there ++ [bytes]) back ours theirs := by
  generalize hm : Move.sends bytes :: ours = moves at h
  induction h with
  | done | gets | notes => cases hm
  | sends later => cases hm; exact later
  | answers _ ih => exact .answers (ih hm)
  | hears _ ih => exact .hears (ih hm)
  | enters _ ih => exact .enters (ih hm)

theorem got (h : Meshes there (bytes :: back) (.gets bytes :: ours) theirs) :
    Meshes there back ours theirs := by
  generalize hm : Move.gets bytes :: ours = moves at h
  generalize hb : bytes :: back = inbound at h
  induction h generalizing back with
  | done | sends | notes => cases hm
  | gets later => cases hm; cases hb; exact later
  | answers _ ih => subst hb; exact .answers (ih hm rfl)
  | hears _ ih => exact .hears (ih hm hb)
  | enters _ ih => exact .enters (ih hm hb)

theorem noted {notice : Notice} (h : Meshes there back (.notes notice :: ours) theirs) :
    Meshes there back ours theirs := by
  generalize hm : Move.notes notice :: ours = moves at h
  induction h with
  | done | sends | gets => cases hm
  | notes later => cases hm; exact later
  | answers _ ih => exact .answers (ih hm)
  | hears _ ih => exact .hears (ih hm)
  | enters _ ih => exact .enters (ih hm)

/-- Two ends never wait for each other. -/
theorem ready (h : Meshes there back ours theirs) :
    ours = [] ∧ theirs = [] ∨ Ready back ours ∨ Ready there theirs := by
  cases h with
  | done => exact .inl ⟨rfl, rfl⟩
  | sends => exact .inr (.inl .sends)
  | gets => exact .inr (.inl .gets)
  | notes => exact .inr (.inl .notes)
  | answers => exact .inr (.inr .sends)
  | hears => exact .inr (.inr .gets)
  | enters => exact .inr (.inr .notes)

end Meshes

structure Part where
  business : Business
  todo : List Call
  left : List Report
  moves : List Move

namespace Part

def Goes (horizon : Instant) (q q' : Part) : Prop :=
  match q.business with
  | .resting e => ∃ call todo, q.todo = call :: todo ∧
    q' = { q with business := .calling call e [] (call.dialog e), todo }
  | .calling call e log d =>
    match d.view with
    | .done (result, e') => ∃ left, q.left = ⟨call, result, e'.mode, e'.exchange.pending⟩ :: left ∧
      q' = { q with business := .resting e', left }
    | .silent next => q' = { q with business := .calling call e log next }
    | .ask .now next => ∃ time ≤ horizon,
      q' = { q with business := .calling call e (log ++ [.now time]) (next time) }
    | .ask (.note notice) next => ∃ moves, q.moves = .notes notice :: moves ∧
      q' = { q with business := .calling call e (log ++ [.note notice]) (next ()), moves }
    | .ask (.write bytes timeout) next => ∃ moves, q.moves = .sends bytes :: moves ∧
      q' = { q with
        business := .calling call e (log ++ [.write bytes timeout (.ok bytes.length)])
          (next (.ok bytes.length))
        moves }
    | .ask (.read capacity timeout) next => ∃ bytes moves, q.moves = .gets bytes :: moves ∧
      q' = { q with
        business := .calling call e (log ++ [.read capacity timeout (.ok (bytes.take capacity))])
          (next (.ok (bytes.take capacity)))
        moves }

structure IsOver (q : Part) : Prop where
  todo : q.todo = []
  left : q.left = []
  moves : q.moves = []
  idle : ∀ call e log d, q.business = .calling call e log d → d.IsListening

inductive Plays (horizon : Instant) : Part → Prop
  | intro {q : Part} (onward : q.IsOver ∨ ∃ q', q.Goes horizon q')
    (later : ∀ q', q.Goes horizon q' → Plays horizon q') : Plays horizon q

variable {horizon : Instant} {q q' : Part} {call : Call} {e : Engine} {log : List Turn}
  {d : Dialog (Engine.End call.Result)} {todo : List Call} {left : List Report} {moves : List Move}

theorem Plays.onward (h : q.Plays horizon) : q.IsOver ∨ ∃ q', q.Goes horizon q' := by
  cases h with
  | intro onward later => exact onward

theorem Plays.goes (h : q.Plays horizon) (hg : q.Goes horizon q') : q'.Plays horizon := by
  cases h with
  | intro onward later => exact later q' hg

/-- Only a read may be where a part ends. -/
theorem Plays.exists_goes (h : q.Plays horizon) (hb : q.business = .calling call e log d)
    (hn : ¬ d.IsListening) : ∃ q', q.Goes horizon q' :=
  h.onward.resolve_left fun hover => hn (hover.idle _ _ _ _ hb)

theorem Plays.acc (h : q.Plays horizon) : Acc (fun q' q => Goes horizon q q') q := by
  induction h with
  | intro onward later ih => exact ⟨_, ih⟩

theorem plays_over (e : Engine) : Plays horizon ⟨.resting e, [], [], []⟩ := by
  have hidle : ∀ call e' log d, Business.resting e = .calling call e' log d → d.IsListening :=
    fun _ _ _ _ h => Business.noConfusion h
  refine .intro (.inl ⟨rfl, rfl, rfl, hidle⟩) ?_
  rintro q' ⟨call, todo, hc, -⟩
  cases hc

theorem plays_listening (h : d.IsListening) :
    Plays horizon ⟨.calling call e log d, [], [], []⟩ := by
  refine .intro (.inl ⟨rfl, rfl, rfl, ?_⟩) ?_
  · intro call e log d hb
    cases hb
    exact h
  · intro q' hg
    obtain ⟨capacity, timeout, next, view⟩ := h
    simp only [Goes, view] at hg
    obtain ⟨bytes, moves, hm, -⟩ := hg
    cases hm

theorem plays_of_goes_iff (q' : Part) (hg : ∀ p, q.Goes horizon p ↔ p = q')
    (h : q'.Plays horizon) : q.Plays horizon := by
  refine .intro (.inr ⟨q', (hg q').2 rfl⟩) fun p hp => ?_
  rw [(hg p).1 hp]
  exact h

/-- An end plays what its call plays, up to where that ends. -/
theorem plays_of_dialog {ends : Dialog (Engine.End call.Result) → List Move → Prop}
    (h : d.Plays horizon ends moves) (log : List Turn)
    (hends : ∀ d moves log, ends d moves →
      Plays horizon ⟨.calling call e log d, todo, left, moves⟩) :
    Plays horizon ⟨.calling call e log d, todo, left, moves⟩ := by
  induction h generalizing log with
  | stop h => exact hends _ _ _ h
  | silent view later ih =>
    exact plays_of_goes_iff ⟨.calling call e log _, todo, left, _⟩ (by simp [Goes, view]) (ih log)
  -- The one step with a choice: the time.
  | @now d next moves view later ih =>
    have hgoes : ∀ p, Goes horizon ⟨.calling call e log d, todo, left, moves⟩ p ↔ ∃ time ≤ horizon,
        p = ⟨.calling call e (log ++ [.now time]) (next time), todo, left, moves⟩ := by
      simp [Goes, view]
    refine .intro (.inr ⟨_, (hgoes _).2 ⟨0, Nat.zero_le _, rfl⟩⟩) fun p hp => ?_
    obtain ⟨time, ht, rfl⟩ := (hgoes p).1 hp
    exact ih time ht _
  | @sends d bytes timeout next moves view later ih =>
    exact plays_of_goes_iff
      ⟨.calling call e (log ++ [.write bytes timeout (.ok bytes.length)]) _, todo, left, moves⟩
      (by simp [Goes, view]) (ih _)
  | @gets d bytes capacity timeout next moves view later ih =>
    exact plays_of_goes_iff
      ⟨.calling call e (log ++ [.read capacity timeout (.ok (bytes.take capacity))]) _, todo, left,
        moves⟩ (by simp [Goes, view]) (ih _)
  | @notes d notice next moves view later ih =>
    exact plays_of_goes_iff ⟨.calling call e (log ++ [.note notice]) _, todo, left, moves⟩
      (by simp [Goes, view]) (ih _)

inductive Reports (horizon : Instant) (todo : List Call) (left : List Report) (report : Report) :
    Dialog (Engine.End report.call.Result) → List Move → Prop
  | intro {e : Engine} {moves : List Move} (role : e.mode = report.role)
    (held : e.exchange.pending = report.held)
    (later : Plays horizon ⟨.resting e, todo, left, moves⟩) :
    Reports horizon todo left report (.pure (report.result, e)) moves

theorem plays_begins (call : Call)
    (h : Plays horizon ⟨.calling call e [] (call.dialog e), todo, left, moves⟩) :
    Plays horizon ⟨.resting e, call :: todo, left, moves⟩ :=
  plays_of_goes_iff _ (by simp [Goes]) h

/-- One call, and what is left after it. -/
theorem plays_call {report : Report}
    (h : (report.call.dialog e).Plays horizon (Reports horizon todo left report) moves) :
    Plays horizon ⟨.resting e, report.call :: todo, report :: left, moves⟩ := by
  apply plays_begins
  apply plays_of_dialog h
  rintro d moves log ⟨role, held, later⟩
  refine plays_of_goes_iff _ ?_ later
  simp [Goes, Dialog.view, role, held]

/-- A read that is left waiting. -/
theorem plays_last {call : Call}
    (h : (call.dialog e).Plays horizon (fun d moves => d.IsListening ∧ moves = []) moves) :
    Plays horizon ⟨.resting e, [call], [], moves⟩ := by
  apply plays_begins
  apply plays_of_dialog h
  rintro d moves log ⟨hd, rfl⟩
  exact plays_listening hd

end Part

def Business.begun : Business → Nat
  | .resting _ => 0
  | .calling _ _ _ _ => 1

structure Party.Keeps (script : List Call) (expected : List Report) (horizon : Instant) (p : Party)
    (q : Part) : Prop where
  business : q.business = p.business
  todo : q.todo = script.drop (p.reports.length + p.business.begun)
  reports : expected = p.reports ++ q.left
  plays : q.Plays horizon

namespace Party.Keeps

variable {script : List Call} {expected : List Report} {horizon time : Instant} {p p' : Party}
  {q : Part} {peer : List Bytes} {theirs : List Move} {k : Nat}

theorem begins {call : Call} {e : Engine} (h : p.Keeps script expected horizon q)
    (resting : p.business = .resting e) (next : script[p.reports.length]? = some call) :
    ∃ q', q.Goes horizon q' ∧ q'.moves = q.moves ∧
      (p.calls call e).Keeps script expected horizon q' := by
  have htodo := h.todo
  rw [resting] at htodo
  change q.todo = script.drop p.reports.length at htodo
  rw [Posture.drop_of_getElem? next] at htodo
  have hgoes : q.Goes horizon { q with
      business := .calling call e [] (call.dialog e)
      todo := script.drop (p.reports.length + 1) } := by
    simp only [Part.Goes, h.business, resting]
    exact ⟨_, _, htodo, rfl⟩
  exact ⟨_, hgoes, rfl, rfl, rfl, h.reports, h.plays.goes hgoes⟩

/-- In the middle of a call only what it is at changes. -/
theorem goesOn {q' : Part} (h : p.Keeps script expected horizon q) (hg : q.Goes horizon q')
    (business : q'.business = p'.business) (begun : p'.business.begun = p.business.begun)
    (reports : p'.reports = p.reports) (todo : q'.todo = q.todo) (left : q'.left = q.left) :
    p'.Keeps script expected horizon q' := by
  refine ⟨business, ?_, ?_, h.plays.goes hg⟩
  · rw [todo, h.todo, begun, reports]
  · rw [h.reports, reports, left]

/-- A step of an end is a step of its part; what is in flight goes on to fit. -/
theorem moves (h : p.Keeps script expected horizon q) (hm : p.Moves peer time p')
    (early : time ≤ horizon) (hr : p.read ≤ peer.length) (hk : k ≤ p.sent.length)
    (hmesh : Meshes (p.sent.drop k) (peer.drop p.read) q.moves theirs) :
    ∃ q', q.Goes horizon q' ∧ p'.Keeps script expected horizon q' ∧ p'.read ≤ peer.length ∧
      k ≤ p'.sent.length ∧ Meshes (p'.sent.drop k) (peer.drop p'.read) q'.moves theirs := by
  cases hm with
  | @silent call e log d next calling view =>
    have hgoes : q.Goes horizon { q with business := .calling call e log next } := by
      simp only [Part.Goes, h.business, calling, view]
    exact ⟨_, hgoes, h.goesOn hgoes rfl (by rw [calling]; rfl) rfl rfl rfl, hr, hk, hmesh⟩
  | @now call e log d next calling view =>
    have hgoes : q.Goes horizon
        { q with business := .calling call e (log ++ [.now time]) (next time) } := by
      simp only [Part.Goes, h.business, calling, view]
      exact ⟨time, early, rfl⟩
    exact ⟨_, hgoes, h.goesOn hgoes rfl (by rw [calling]; rfl) rfl rfl rfl, hr, hk, hmesh⟩
  | consumes calling view | completes calling view =>
    obtain ⟨q', hgoes⟩ := h.plays.exists_goes (h.business.trans calling)
      (by simp [Dialog.IsListening, view])
    have hq := hgoes
    simp only [Part.Goes, h.business, calling, view] at hq
    obtain ⟨moves, hmoves, rfl⟩ := hq
    rw [hmoves] at hmesh
    exact ⟨_, hgoes, h.goesOn hgoes rfl (by rw [calling]; rfl) rfl rfl rfl, hr, hk, hmesh.noted⟩
  | writes calling view =>
    obtain ⟨q', hgoes⟩ := h.plays.exists_goes (h.business.trans calling)
      (by simp [Dialog.IsListening, view])
    have hq := hgoes
    simp only [Part.Goes, h.business, calling, view] at hq
    obtain ⟨moves, hmoves, rfl⟩ := hq
    rw [hmoves] at hmesh
    refine ⟨_, hgoes, h.goesOn hgoes rfl (by rw [calling]; rfl) rfl rfl rfl, hr, ?_, ?_⟩
    · exact Nat.le_trans hk (by simp)
    · rw [List.drop_append_of_le_length hk]
      exact hmesh.sent
  | reads calling view arrived =>
    rw [Posture.drop_of_getElem? arrived] at hmesh
    -- Something has come, so something is still to be got.
    have hne : q.moves ≠ [] := by
      intro hn
      rw [hn] at hmesh
      cases hmesh.balance
    obtain ⟨q', hgoes⟩ := h.plays.onward.resolve_left fun hover => hne hover.moves
    have hq := hgoes
    simp only [Part.Goes, h.business, calling, view] at hq
    obtain ⟨bytes', moves, hmoves, rfl⟩ := hq
    rw [hmoves] at hmesh
    obtain rfl := hmesh.eq_of_gets
    have hread := (List.getElem?_eq_some_iff.1 arrived).1
    exact ⟨_, hgoes, h.goesOn hgoes rfl (by rw [calling]; rfl) rfl rfl rfl, hread, hk, hmesh.got⟩
  | ends calling view =>
    obtain ⟨q', hgoes⟩ := h.plays.exists_goes (h.business.trans calling)
      (by simp [Dialog.IsListening, view])
    have hq := hgoes
    simp only [Part.Goes, h.business, calling, view] at hq
    obtain ⟨left, hleft, rfl⟩ := hq
    refine ⟨_, hgoes, ⟨rfl, ?_, ?_, h.plays.goes hgoes⟩, hr, hk, hmesh⟩
    · rw [h.todo, calling]
      simp [Business.begun]
    · rw [h.reports, hleft]
      simp

end Party.Keeps

namespace Duplex

/-- One step of an end, some time after the last one. The ends make the calls of their scripts, and
no read times out. -/
inductive Proceeds (script : Side → List Call) (horizon : Instant) : Duplex → Duplex → Prop
  | begins {w : Duplex} {time : Instant} {call : Call} {e : Engine} (side : Side)
    (late : w.clock ≤ time) (early : time ≤ horizon)
    (resting : (w.party side).business = .resting e)
    (next : (script side)[(w.party side).reports.length]? = some call) :
    Proceeds script horizon w (set { w with clock := time } side ((w.party side).calls call e))
  | moves {w : Duplex} {time : Instant} {p : Party} (side : Side) (late : w.clock ≤ time)
    (early : time ≤ horizon) (moves : (w.party side).Moves (w.party side.other).sent time p) :
    Proceeds script horizon w (set { w with clock := time } side p)

variable {script : Side → List Call} {expected : Side → List Report} {horizon : Instant}
  {w w' : Duplex} {part : Side → Part}

theorem Proceeds.run (h : Proceeds script horizon w w') : Run (fun _ => false) w w' := by
  -- Time passes, and then the end makes its step.
  have htick : ∀ {time}, w.clock ≤ time → Step (fun _ => false) w { w with clock := time } := by
    intro time late
    obtain ⟨n, rfl⟩ := Nat.exists_eq_add_of_le late
    exact .tick n
  cases h with
  | begins side late early resting next =>
    exact .head (htick late) (.single (.begins side _ resting))
  | moves side late early moves => exact .head (htick late) (.single (.moves side moves))

structure Underway (script : Side → List Call) (expected : Side → List Report) (horizon : Instant)
    (w : Duplex) (part : Side → Part) : Prop where
  clock : w.clock ≤ horizon
  keeps : ∀ side, (w.party side).Keeps (script side) (expected side) horizon (part side)
  read : ∀ side, (w.party side).read ≤ (w.party side.other).sent.length
  meshes : ∀ side,
    Meshes (w.inFlight side) (w.inFlight side.other) (part side).moves (part side.other).moves

namespace Underway

/-- One end goes on, and the other stays as it is. -/
theorem set {side : Side} {time : Instant} {p : Party} {q : Part}
    (h : Underway script expected horizon w part) (early : time ≤ horizon)
    (keeps : p.Keeps (script side) (expected side) horizon q)
    (read : p.read ≤ (w.party side.other).sent.length)
    (sent : (w.party side.other).read ≤ p.sent.length)
    (meshes : Meshes (p.sent.drop (w.party side.other).read)
      ((w.party side.other).sent.drop p.read) q.moves (part side.other).moves) :
    Underway script expected horizon (Duplex.set { w with clock := time } side p)
      (Function.update part side q) := by
  refine ⟨early, fun t => ?_, fun t => ?_, fun t => ?_⟩
  · rcases side.eq_or_eq_other t with rfl | rfl
    · simpa using keeps
    · simpa [side.other_ne] using h.keeps side.other
  · rcases side.eq_or_eq_other t with rfl | rfl
    · simpa using read
    · simpa using sent
  · rcases side.eq_or_eq_other t with rfl | rfl
    · simpa [inFlight, t.other_ne] using meshes
    · simpa [inFlight, side.other_ne] using meshes.symm

theorem step (h : Underway script expected horizon w part) (hs : Proceeds script horizon w w') :
    ∃ side q, (part side).Goes horizon q ∧
      Underway script expected horizon w' (Function.update part side q) := by
  cases hs with
  | begins side late early resting next =>
    obtain ⟨q, hgoes, hmoves, hkeeps⟩ := (h.keeps side).begins resting next
    refine ⟨side, q, hgoes, h.set early hkeeps (h.read side) ?_ ?_⟩
    · simpa [Party.calls] using h.read side.other
    · rw [hmoves]
      simpa [inFlight, Party.calls] using h.meshes side
  | moves side late early moves =>
    have hsent := h.read side.other
    have hmesh := h.meshes side
    simp only [inFlight, Side.other_other] at hsent hmesh
    obtain ⟨q, hgoes, hkeeps, hread, hsent, hmesh⟩ :=
      (h.keeps side).moves moves early (h.read side) hsent hmesh
    exact ⟨side, q, hgoes, h.set early hkeeps hread hsent hmesh⟩

/-- No run goes on for ever. -/
theorem acc (h : Underway script expected horizon w part) :
    Acc (fun w' w => Proceeds script horizon w w') w := by
  have hparts := ((h.keeps .a).plays.acc).prod_gameAdd ((h.keeps .b).plays.acc)
  -- The induction is on what the two parts have left, each as it goes on by itself.
  generalize hq : (part .a, part .b) = parts at hparts
  induction hparts generalizing w part with
  | intro parts later ih =>
    subst hq
    refine ⟨_, fun w' hs => ?_⟩
    obtain ⟨side, q, hgoes, h'⟩ := h.step hs
    refine ih _ ?_ h' rfl
    cases side with
    | a => exact .fst hgoes
    | b => exact .snd hgoes

/-- An end that is not over with its part, and whose next move can be made, goes on. -/
theorem exists_proceeds (h : Underway script expected horizon w part) {side : Side}
    (hover : ¬ (part side).IsOver)
    (hr : (part side).moves = [] ∨ Ready (w.inFlight side.other) (part side).moves) :
    ∃ w', Proceeds script horizon w w' := by
  obtain ⟨q, hgoes⟩ := (h.keeps side).plays.onward.resolve_left hover
  cases hb : (w.party side).business with
  | resting e =>
    have htodo := (h.keeps side).todo
    simp only [Part.Goes, (h.keeps side).business, hb] at hgoes
    obtain ⟨call, todo, hcall, -⟩ := hgoes
    rw [hcall, hb] at htodo
    have hnext : (script side)[(w.party side).reports.length]? = some call := by
      rw [← List.head?_drop]
      exact congrArg List.head? htodo.symm
    exact ⟨_, .begins side (Nat.le_refl _) h.clock hb hnext⟩
  | calling call e log d =>
    have hmoves : ∀ p, (w.party side).Moves (w.party side.other).sent w.clock p →
        ∃ w', Proceeds script horizon w w' :=
      fun p hm => ⟨_, .moves side (Nat.le_refl _) h.clock hm⟩
    simp only [Part.Goes, (h.keeps side).business, hb] at hgoes
    match hv : d.view with
    | .done (result, e') => exact hmoves _ (.ends hb hv)
    | .silent next => exact hmoves _ (.silent hb hv)
    | .ask .now next => exact hmoves _ (.now hb hv)
    | .ask (.note (.consumed buffer)) next => exact hmoves _ (.consumes hb hv)
    | .ask (.note (.completed message)) next => exact hmoves _ (.completes hb hv)
    | .ask (.write bytes timeout) next => exact hmoves _ (.writes hb hv)
    -- A read goes on with what has come.
    | .ask (.read capacity timeout) next =>
      simp only [hv] at hgoes
      obtain ⟨bytes, moves, hq, -⟩ := hgoes
      rw [hq] at hr
      have hready := hr.resolve_left nofun
      generalize hf : w.inFlight side.other = inbound at hready
      cases hready with
      | gets =>
        have hcome : (w.party side.other).sent[(w.party side).read]? = some bytes := by
          simp only [inFlight, Side.other_other] at hf
          rw [← List.head?_drop, hf]
          rfl
        exact hmoves _ (.reads hb hv hcome)

/-- Where no end can go on, both are over with their parts. -/
theorem isOver (h : Underway script expected horizon w part)
    (hn : ∀ w', ¬ Proceeds script horizon w w') (side : Side) : (part side).IsOver := by
  apply Classical.byContradiction
  intro hover
  have hstuck : ¬ ∃ w', Proceeds script horizon w w' := fun ⟨w', hs⟩ => hn w' hs
  rcases (h.meshes side).ready with ⟨hmoves, -⟩ | hready | hready
  · exact hstuck (h.exists_proceeds hover (.inl hmoves))
  · exact hstuck (h.exists_proceeds hover (.inr hready))
  -- The other end can go on, so it is not over either.
  · have hother : ¬ (part side.other).IsOver := by
      intro ho
      exact hready.ne_nil ho.moves
    exact hstuck (h.exists_proceeds hother (.inr (by simpa using hready)))

/-- The ends have played their parts to the end. -/
theorem reports_eq (h : Underway script expected horizon w part)
    (hn : ∀ w', ¬ Proceeds script horizon w w') (side : Side) :
    (w.party side).reports = expected side := by
  rw [(h.keeps side).reports, (h.isOver hn side).left, List.append_nil]

theorem inFlight_eq_nil (h : Underway script expected horizon w part)
    (hn : ∀ w', ¬ Proceeds script horizon w w') (side : Side) : w.inFlight side = [] := by
  have hbalance := (h.meshes side).symm.balance
  rw [(h.isOver hn side.other).moves] at hbalance
  exact (List.append_eq_nil_iff.1 hbalance).1

end Underway

end Duplex

end StopAndWait
