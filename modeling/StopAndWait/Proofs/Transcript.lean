import StopAndWait.Proofs.Contract

namespace StopAndWait

inductive Turn
  | read (capacity : Nat) (timeout : Millis) (answer : Except LinkError Bytes)
  | write (bytes : Bytes) (timeout : Millis) (answer : Except LinkError Nat)
  | now (instant : Instant)
  | note (notice : Notice)

namespace Turn

def of : (request : Request) → request.Answer → Turn
  | .read capacity timeout, answer => read capacity timeout answer
  | .write bytes timeout, answer => write bytes timeout answer
  | .now, instant => now instant
  | .note notice, _ => note notice

def isOnLink : Turn → Bool
  | read _ _ _ | write _ _ _ => true
  | now _ | note _ => false

def request : Turn → Request
  | read capacity timeout _ => .read capacity timeout
  | write bytes timeout _ => .write bytes timeout
  | now _ => .now
  | note notice => .note notice

def answer : (turn : Turn) → turn.request.Answer
  | read _ _ answer => answer
  | write _ _ answer => answer
  | now instant => instant
  | note _ => ()

end Turn

namespace Contract

variable {σ : Type}

def turn (c : Contract σ) (s : σ) (turn : Turn) : σ := c.next s turn.request turn.answer

def Admits (c : Contract σ) : σ → List Turn → Prop
  | _, [] => True
  | s, turn :: log => c.permits s turn.request ∧ c.Admits (c.turn s turn) log

theorem admits_append {c : Contract σ} {s : σ} {log log' : List Turn} :
    c.Admits s (log ++ log') ↔ c.Admits s log ∧ c.Admits (log.foldl c.turn s) log' := by
  induction log generalizing s with
  | nil => simp [Admits]
  | cons turn log ih => simp [Admits, ih, and_assoc]

def loopless : Contract Unit where
  permits _ _ := True
  mayLoop _ := False
  next _ _ _ := ()

end Contract

abbrev Surroundings := List Turn → (request : Request) → request.Answer

def Surroundings.Answer (s : Surroundings) : (past log : List Turn) → Prop
  | _, [] => True
  | past, turn :: log =>
    (∃ request, turn = .of request (s past request)) ∧ s.Answer (past ++ [turn]) log

theorem Surroundings.answer_append {s : Surroundings} {past log log' : List Turn} :
    s.Answer past (log ++ log') ↔ s.Answer past log ∧ s.Answer (past ++ log) log' := by
  induction log generalizing past with
  | nil => simp [Answer]
  | cons turn log ih => simp [Answer, ih, and_assoc]

theorem Surroundings.Answer.of_mem {s : Surroundings} {past log : List Turn} (h : s.Answer past log)
    {turn : Turn} (ht : turn ∈ log) : ∃ past request, turn = .of request (s past request) := by
  induction log generalizing past with
  | nil => cases ht
  | cons first log ih =>
    obtain ⟨hfirst, hlater⟩ := h
    rcases List.mem_cons.1 ht with rfl | ht
    · exact ⟨past, hfirst⟩
    · exact ih hlater ht

def linkTurns (log : List Turn) : List Turn := log.filter Turn.isOnLink

@[simp] theorem linkTurns_nil : linkTurns [] = [] := rfl

@[simp] theorem linkTurns_append (log log' : List Turn) :
    linkTurns (log ++ log') = linkTurns log ++ linkTurns log' :=
  List.filter_append log log'

def Deadline.Outlasts (d : Deadline) (log : List Turn) : Prop :=
  ∀ instant, .now instant ∈ log → d.isExpired instant = false

@[simp] theorem Deadline.outlasts_never (log : List Turn) : never.Outlasts log := fun _ _ => rfl

theorem Deadline.outlasts_append {d : Deadline} {log log' : List Turn} :
    d.Outlasts (log ++ log') ↔ d.Outlasts log ∧ d.Outlasts log' := by
  simp only [Outlasts, List.mem_append, or_imp, forall_and]

namespace Dialog

variable {α β σ τ : Type}

/-- The dialogue can end with the result after these turns. -/
inductive Yields {α : Type} : Dialog α → List Turn → α → Prop
  | done {d : Dialog α} {result : α} (view : d.view = .done result) : Yields d [] result
  | silent {d next : Dialog α} {log : List Turn} {result : α} (view : d.view = .silent next)
    (later : Yields next log result) : Yields d log result
  | ask {d : Dialog α} {request : Request} {next : request.Answer → Dialog α} {log : List Turn}
    {result : α} (answer : request.Answer) (view : d.view = .ask request next)
    (later : Yields (next answer) log result) : Yields d (.of request answer :: log) result

variable {d : Dialog α} {log : List Turn} {result : α}

theorem Yields.read {capacity : Nat} {timeout : Millis}
    {next : Except LinkError Bytes → Dialog α} (answer : Except LinkError Bytes)
    (view : d.view = .ask (.read capacity timeout) next)
    (later : (next answer).Yields log result) :
    d.Yields (.read capacity timeout answer :: log) result :=
  @Yields.ask _ d (.read capacity timeout) next log result answer view later

theorem Yields.write {bytes : Bytes} {timeout : Millis} {next : Except LinkError Nat → Dialog α}
    (answer : Except LinkError Nat) (view : d.view = .ask (.write bytes timeout) next)
    (later : (next answer).Yields log result) :
    d.Yields (.write bytes timeout answer :: log) result :=
  @Yields.ask _ d (.write bytes timeout) next log result answer view later

theorem Yields.now {next : Instant → Dialog α} (instant : Instant)
    (view : d.view = .ask .now next) (later : (next instant).Yields log result) :
    d.Yields (.now instant :: log) result :=
  @Yields.ask _ d .now next log result instant view later

theorem Yields.note {notice : Notice} {next : Unit → Dialog α}
    (view : d.view = .ask (.note notice) next) (later : (next ()).Yields log result) :
    d.Yields (.note notice :: log) result :=
  @Yields.ask _ d (.note notice) next log result () view later

theorem Yields.of_view {e : Dialog α} (h : d.Yields log result) (hv : d.view = e.view) :
    e.Yields log result := by
  cases h with
  | done view => exact .done (hv ▸ view)
  | silent view later => exact .silent (hv ▸ view) later
  | ask answer view later => exact .ask answer (hv ▸ view) later

@[simp] theorem yields_pure {a : α} : (pure a).Yields log result ↔ log = [] ∧ result = a := by
  constructor
  · intro h
    cases h with
    | done view => cases view; exact ⟨rfl, rfl⟩
    | silent view => cases view
    | ask answer view => cases view
  · rintro ⟨rfl, rfl⟩
    exact .done rfl

/-- The end of a call is its result and what it leaves. -/
theorem Yields.returned {r result : α} {s s' : σ}
    (h : (pure (r, s)).Yields log (result, s')) : log = [] ∧ result = r ∧ s' = s := by
  obtain ⟨hlog, hend⟩ := yields_pure.1 h
  exact ⟨hlog, congrArg Prod.fst hend, congrArg Prod.snd hend⟩

theorem yields_ask {request : Request} {next : request.Answer → Dialog α} :
    (ask request next).Yields log result ↔
      ∃ answer rest, log = .of request answer :: rest ∧ (next answer).Yields rest result := by
  constructor
  · intro h
    cases h with
    | done view => cases view
    | silent view => cases view
    | ask answer view later => cases view; exact ⟨answer, _, rfl, later⟩
  · rintro ⟨answer, rest, rfl, h⟩
    exact .ask answer rfl h

section Bind

variable {f : α → Dialog β}

theorem of_view_bind_done {result : β} (h : (d.bind f).view = .done result) :
    ∃ a, d.view = .done a ∧ (f a).view = .done result := by
  rw [view_bind] at h
  cases hv : d.view with
  | done a => rw [hv] at h; exact ⟨a, rfl, h⟩
  | silent next => rw [hv] at h; cases h
  | ask request next => rw [hv] at h; cases h

theorem of_view_bind_silent {e : Dialog β} (h : (d.bind f).view = .silent e) :
    (∃ a, d.view = .done a ∧ (f a).view = .silent e) ∨
      ∃ next, d.view = .silent next ∧ e = next.bind f := by
  rw [view_bind] at h
  cases hv : d.view with
  | done a => rw [hv] at h; exact .inl ⟨a, rfl, h⟩
  | silent next => rw [hv] at h; cases h; exact .inr ⟨next, rfl, rfl⟩
  | ask request next => rw [hv] at h; cases h

theorem of_view_bind_ask {request : Request} {k : request.Answer → Dialog β}
    (h : (d.bind f).view = .ask request k) :
    (∃ a, d.view = .done a ∧ (f a).view = .ask request k) ∨
      ∃ next, d.view = .ask request next ∧ k = fun answer => (next answer).bind f := by
  rw [view_bind] at h
  cases hv : d.view with
  | done a => rw [hv] at h; exact .inl ⟨a, rfl, h⟩
  | silent next => rw [hv] at h; cases h
  | ask request next => rw [hv] at h; cases h; exact .inr ⟨next, rfl, rfl⟩

theorem Yields.bind {log' : List Turn} {result' : β} (h : d.Yields log result)
    (h' : (f result).Yields log' result') : (d.bind f).Yields (log ++ log') result' := by
  induction h with
  | done view => exact h'.of_view (by rw [view_bind, view])
  | silent view later ih => exact .silent (by rw [view_bind, view]) (ih h')
  | ask answer view later ih => exact .ask answer (by rw [view_bind, view]) (ih h')

/-- A transcript of one dialogue after another is one of each. -/
theorem yields_bind {result : β} :
    (d.bind f).Yields log result ↔
      ∃ mid first second, log = first ++ second ∧ d.Yields first mid ∧
        (f mid).Yields second result := by
  constructor
  · intro h
    generalize he : d.bind f = e at h
    induction h generalizing d with
    | done view =>
      obtain ⟨mid, hv, hf⟩ := of_view_bind_done (he ▸ view)
      exact ⟨mid, [], [], rfl, .done hv, .done hf⟩
    | silent view later ih =>
      rcases of_view_bind_silent (he ▸ view) with ⟨mid, hv, hf⟩ | ⟨next, hv, hnext⟩
      · exact ⟨mid, [], _, rfl, .done hv, .silent hf later⟩
      · obtain ⟨mid, first, second, rfl, h, h'⟩ := ih hnext.symm
        exact ⟨mid, first, second, rfl, .silent hv h, h'⟩
    | ask answer view later ih =>
      rcases of_view_bind_ask (he ▸ view) with ⟨mid, hv, hf⟩ | ⟨next, hv, hnext⟩
      · exact ⟨mid, [], _, rfl, .done hv, .ask answer hf later⟩
      · obtain ⟨mid, first, second, rfl, h, h'⟩ := ih (congrFun hnext answer).symm
        exact ⟨mid, _ :: first, second, rfl, .ask answer hv h, h'⟩
  · rintro ⟨mid, first, second, rfl, h, h'⟩
    exact h.bind h'

end Bind

section Loop

variable {round : τ → Dialog (τ ⊕ α)} {P : τ → List Turn → α → Prop}
  (again : ∀ {t t' log log' result}, (round t).Yields log (.inl t') → P t' log' result →
    P t (log ++ log') result)
  (last : ∀ {t log result}, (round t).Yields log (.inr result) → P t log result)

include again last

/-- In the middle of a round: what is left of it, and then the loop. -/
theorem Yields.of_onward {e : Dialog α} (h : e.Yields log result) {d : Dialog (τ ⊕ α)}
    (he : e = d.bind (onward round)) : ∃ r first second, log = first ++ second ∧
      d.Yields first r ∧ r.elim (P · second result) (fun a => second = [] ∧ result = a) := by
  induction h generalizing d with
  | done view =>
    obtain ⟨r, hv, hf⟩ := of_view_bind_done (he ▸ view)
    cases r with
    | inl t => cases hf
    | inr a => cases hf; exact ⟨_, [], [], rfl, .done hv, rfl, rfl⟩
  | @silent e next log result view later ih =>
    rcases of_view_bind_silent (he ▸ view) with ⟨r, hv, hf⟩ | ⟨next, hv, rfl⟩
    · cases r with
      -- The next round begins.
      | inl t =>
        cases hf
        obtain ⟨r, first, second, rfl, hr, hend⟩ := ih rfl
        refine ⟨.inl t, [], _, rfl, .done hv, ?_⟩
        cases r with
        | inl t' => exact again hr hend
        | inr a =>
          obtain ⟨rfl, rfl⟩ := hend
          show P t (first ++ []) result
          rw [List.append_nil]
          exact last hr
      | inr a => cases hf
    · obtain ⟨r, first, second, rfl, hr, hend⟩ := ih rfl
      exact ⟨r, first, second, rfl, .silent hv hr, hend⟩
  | ask answer view later ih =>
    rcases of_view_bind_ask (he ▸ view) with ⟨r, hv, hf⟩ | ⟨next, hv, rfl⟩
    · cases r <;> cases hf
    · obtain ⟨r, first, second, rfl, hr, hend⟩ := ih rfl
      exact ⟨r, _ :: first, second, rfl, .ask answer hv hr, hend⟩

/-- What holds of a last round, and of a round before others if it holds of those, holds of a loop.
-/
theorem yields_iterate {start : τ} (h : (iterate round start).Yields log result) :
    P start log result := by
  have hloop : iterate round start = (pure (.inl start)).bind (onward round) := rfl
  obtain ⟨r, first, second, rfl, hr, hend⟩ := h.of_onward again last hloop
  obtain ⟨rfl, rfl⟩ := yields_pure.1 hr
  exact hend

end Loop

section Round

variable {round : τ → Dialog (τ ⊕ α)} {start : τ}

/-- A loop may end with its first round. -/
theorem Yields.last (h : (round start).Yields log (.inr result)) :
    (iterate round start).Yields log result := by
  have hend : (onward round (.inr result)).Yields [] result := .done rfl
  have hloop := h.bind hend
  rw [List.append_nil] at hloop
  exact .silent rfl hloop

/-- A round may lead to the next. -/
theorem Yields.again {next : τ} {log' : List Turn} (h : (round start).Yields log (.inl next))
    (later : (iterate round next).Yields log' result) :
    (iterate round start).Yields (log ++ log') result := by
  have hnext : (onward round (.inl next)).Yields log' result := later
  exact .silent rfl (h.bind hnext)

end Round

section Clock

variable {deadline : Deadline}

/-- A deadline is asked at one instant, or never comes and is not asked at all. -/
theorem yields_consult {question : Instant → α} {answer : α}
    (h : (deadline.consult question).Yields log answer) :
    (deadline.expiry = none ∧ log = [] ∧ answer = question 0) ∨
      ∃ instant, deadline.expiry ≠ none ∧ log = [.now instant] ∧ answer = question instant := by
  unfold Deadline.consult at h
  cases he : deadline.expiry with
  | none =>
    rw [he] at h
    exact .inl ⟨rfl, yields_pure.1 h⟩
  | some expiry =>
    rw [he] at h
    obtain ⟨instant, rest, rfl, hrest⟩ := yields_ask.1 h
    obtain ⟨rfl, rfl⟩ := yields_pure.1 hrest
    exact .inr ⟨instant, nofun, rfl, rfl⟩

theorem linkTurns_consult {question : Instant → α} {answer : α}
    (h : (deadline.consult question).Yields log answer) : linkTurns log = [] := by
  rcases yields_consult h with ⟨-, rfl, -⟩ | ⟨instant, -, rfl, -⟩ <;> rfl

theorem hasExpired_of_outlasts {expired : Bool} (h : deadline.hasExpired.Yields log expired)
    (hd : deadline.Outlasts log) : expired = false := by
  rcases yields_consult h with ⟨he, rfl, rfl⟩ | ⟨instant, -, rfl, rfl⟩
  · simp [Deadline.isExpired, he]
  · exact hd instant (by simp)

end Clock

/-- A transcript keeps to the contract turn by turn, and its result is what the last stage allows. -/
theorem Yields.follows {c : Contract σ} {post : σ → α → Prop} {s : σ} (h : d.Yields log result)
    (hc : Honours c post s d) : c.Admits s log ∧ post (log.foldl c.turn s) result := by
  induction h generalizing s with
  | done view => exact ⟨trivial, hc.done view⟩
  | silent view later ih => exact ih (hc.silent view).2
  | @ask d request next log result answer view later ih =>
    have hrest := ih (hc.answer view answer)
    have hp := hc.permits view
    cases request with
    | read | write | now | note => exact ⟨⟨hp, hrest.1⟩, hrest.2⟩

/-- The journal stays empty under a contract that has no place for it. -/
theorem Yields.note_not_mem {c : Contract σ} {post : σ → α → Prop} {s : σ}
    (h : d.Yields log result) (hc : Honours c post s d)
    (hn : ∀ s notice, ¬ c.permits s (.note notice)) (notice : Notice) : .note notice ∉ log := by
  induction h generalizing s with
  | done view => exact List.not_mem_nil
  | silent view later ih => exact ih (hc.silent view).2
  | @ask d request next log result answer view later ih =>
    have hrest := ih (hc.answer view answer)
    have hp := hc.permits view
    cases request with
    | note first => exact absurd hp (hn s first)
    | read | write | now => simpa [Turn.of] using hrest

/-- The dialogue can have gone through these turns, wherever it stands then. -/
inductive Begins {α : Type} : Dialog α → List Turn → Prop
  | start (d : Dialog α) : Begins d []
  | silent {d next : Dialog α} {log : List Turn} (view : d.view = .silent next)
    (later : Begins next log) : Begins d log
  | ask {d : Dialog α} {request : Request} {next : request.Answer → Dialog α} {log : List Turn}
    (answer : request.Answer) (view : d.view = .ask request next)
    (later : Begins (next answer) log) : Begins d (.of request answer :: log)

section Begins

variable {f : α → Dialog β}

theorem Yields.begins (h : d.Yields log result) : d.Begins log := by
  induction h with
  | done view => exact .start _
  | silent view later ih => exact .silent view ih
  | ask answer view later ih => exact .ask answer view ih

theorem Begins.of_view {e : Dialog α} (h : d.Begins log) (hv : d.view = e.view) : e.Begins log := by
  cases h with
  | start => exact .start e
  | silent view later => exact .silent (hv ▸ view) later
  | ask answer view later => exact .ask answer (hv ▸ view) later

/-- What a dialogue can have gone through is no less so where another follows. -/
theorem Begins.bind (h : d.Begins log) : (d.bind f).Begins log := by
  induction h with
  | start d => exact .start _
  | silent view later ih => exact .silent (by rw [view_bind, view]) ih
  | ask answer view later ih => exact .ask answer (by rw [view_bind, view]) ih

theorem Yields.bind_begins {log' : List Turn} (h : d.Yields log result)
    (h' : (f result).Begins log') : (d.bind f).Begins (log ++ log') := by
  induction h with
  | done view => exact h'.of_view (by rw [view_bind, view])
  | silent view later ih => exact .silent (by rw [view_bind, view]) (ih h')
  | ask answer view later ih => exact .ask answer (by rw [view_bind, view]) (ih h')

/-- A dialogue that has not ended keeps to its contract as well. -/
theorem Begins.admits {c : Contract σ} {post : σ → α → Prop} {s : σ} (h : d.Begins log)
    (hc : Honours c post s d) : c.Admits s log := by
  induction h generalizing s with
  | start d => trivial
  | silent view later ih => exact ih (hc.silent view).2
  | @ask d request next log answer view later ih =>
    have hrest := ih (hc.answer view answer)
    have hp := hc.permits view
    cases request with
    | read | write | now | note => exact ⟨hp, hrest⟩

end Begins

/-- A dialogue under a contract without loops comes to its end, however it is answered. -/
theorem Honours.exists_yields {c : Contract σ} {post : σ → α → Prop} {s : σ}
    (h : Honours c post s d) (hl : ∀ s, ¬ c.mayLoop s) (answers : Surroundings)
    (past : List Turn) : ∃ log result, d.Yields log result ∧ answers.Answer past log := by
  induction d generalizing s past with
  | pure result => exact ⟨[], result, .done rfl, trivial⟩
  | ask request next ih =>
    have hnext := h.answer rfl (answers past request)
    obtain ⟨log, result, hy, ha⟩ := ih _ hnext (past ++ [.of request (answers past request)])
    exact ⟨_ :: log, result, .ask _ rfl hy, ⟨request, rfl⟩, ha⟩
  | loop round start next _ _ => exact absurd (h.silent rfl).1 (hl s)

theorem Honours.exists_yields_of_loopless (h : Honours .loopless (fun _ _ => True) () d)
    (answers : Surroundings) (past : List Turn) :
    ∃ log result, d.Yields log result ∧ answers.Answer past log :=
  h.exists_yields (fun _ h => h) answers past

theorem loopless_consult (deadline : Deadline) (question : Instant → α) :
    Honours .loopless (fun _ _ => True) () (deadline.consult question) :=
  honours_consult (c := .loopless) (fun _ : True => trivial) (fun _ => rfl) (fun _ => trivial)
    fun _ => trivial

end Dialog

end StopAndWait
