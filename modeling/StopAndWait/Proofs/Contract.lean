import StopAndWait.Dialog.Clock

/-!
Contracts of dialogues. A contract keeps a record of a dialogue: which requests are in order at each
stage of it, and where every answer leads. A dialogue honours a contract if it asks nothing out of
order whatever it is answered, and ends only where the contract lets it end. The rules for `bind`
and `iterate` put the contract of a call together from those of its parts.
-/
namespace StopAndWait

structure Contract (σ : Type) where
  -- The requests in order at a stage.
  permits : σ → Request → Prop
  -- The stages at which a new round of a loop may begin.
  mayLoop : σ → Prop
  -- The stage after an answer.
  next : σ → (request : Request) → request.Answer → σ

structure Contract.Covers {σ τ : Type} (c : Contract σ) (c' : Contract τ) (R : σ → τ → Prop) :
    Prop where
  permits : ∀ {s t request}, R s t → c.permits s request → c'.permits t request
  mayLoop : ∀ {s t}, R s t → c.mayLoop s → c'.mayLoop t
  next : ∀ {s t request} (answer : request.Answer), R s t → c.permits s request →
    R (c.next s request answer) (c'.next t request answer)

namespace Dialog

variable {σ τ α β : Type} {c : Contract σ}

def View.Meets (c : Contract σ) (post : σ → α → Prop) (good : σ → Dialog α → Prop) (s : σ) :
    View α → Prop
  | .done result => post s result
  | .silent next => c.mayLoop s ∧ good s next
  | .ask request next =>
    c.permits s request ∧ ∀ answer, good (c.next s request answer) (next answer)

/-- From stage `s` on a dialogue keeps to the contract for good, and every result it may end with
satisfies `post`: the greatest relation that is closed under steps. -/
def Honours (c : Contract σ) (post : σ → α → Prop) (s : σ) (d : Dialog α) : Prop :=
  ∃ good : σ → Dialog α → Prop, good s d ∧ ∀ s d, good s d → d.view.Meets c post good s

theorem View.Meets.mono {post : σ → α → Prop} {good good' : σ → Dialog α → Prop} {s : σ}
    {v : View α} (h : v.Meets c post good s) (hg : ∀ s d, good s d → good' s d) :
    v.Meets c post good' s := by
  cases v with
  | done result => exact h
  | silent next => exact ⟨h.1, hg _ _ h.2⟩
  | ask request next => exact ⟨h.1, fun answer => hg _ _ (h.2 answer)⟩

theorem Honours.meets {post : σ → α → Prop} {s : σ} {d : Dialog α} (h : Honours c post s d) :
    d.view.Meets c post (Honours c post) s := by
  obtain ⟨good, hd, hg⟩ := h
  exact (hg s d hd).mono fun s d h => ⟨good, h, hg⟩

theorem Honours.done {post : σ → α → Prop} {s : σ} {d : Dialog α} {result : α}
    (h : Honours c post s d) (hv : d.view = .done result) : post s result := by
  have hm := h.meets
  rwa [hv] at hm

theorem Honours.silent {post : σ → α → Prop} {s : σ} {d next : Dialog α}
    (h : Honours c post s d) (hv : d.view = .silent next) :
    c.mayLoop s ∧ Honours c post s next := by
  have hm := h.meets
  rwa [hv] at hm

theorem Honours.permits {post : σ → α → Prop} {s : σ} {d : Dialog α} {request : Request}
    {next : request.Answer → Dialog α} (h : Honours c post s d)
    (hv : d.view = .ask request next) : c.permits s request := by
  have hm := h.meets
  rw [hv] at hm
  exact hm.1

theorem Honours.answer {post : σ → α → Prop} {s : σ} {d : Dialog α} {request : Request}
    {next : request.Answer → Dialog α} (h : Honours c post s d)
    (hv : d.view = .ask request next) (answer : request.Answer) :
    Honours c post (c.next s request answer) (next answer) := by
  have hm := h.meets
  rw [hv] at hm
  exact hm.2 answer

theorem Honours.of_meets {post : σ → α → Prop} {s : σ} {d : Dialog α}
    (h : d.view.Meets c post (Honours c post) s) : Honours c post s d := by
  -- The relation: one step in order now, and the contract honoured after it.
  refine ⟨fun s d => d.view.Meets c post (Honours c post) s, h, ?_⟩
  intro s d hd
  exact hd.mono fun s d h => h.meets

theorem honours_pure {post : σ → α → Prop} {s : σ} {result : α} (h : post s result) :
    Honours c post s (pure result) :=
  .of_meets h

theorem honours_ask {post : σ → α → Prop} {s : σ} {request : Request}
    {next : request.Answer → Dialog α} (hp : c.permits s request)
    (hn : ∀ answer, Honours c post (c.next s request answer) (next answer)) :
    Honours c post s (ask request next) :=
  .of_meets ⟨hp, hn⟩

theorem Honours.mono {post post' : σ → α → Prop} {s : σ} {d : Dialog α}
    (h : Honours c post s d) (hp : ∀ s result, post s result → post' s result) :
    Honours c post' s d := by
  obtain ⟨good, hd, hg⟩ := h
  refine ⟨good, hd, fun s d hd => ?_⟩
  -- Only at the end does the condition on results matter.
  have hm := hg s d hd
  cases hv : d.view with
  | done result => exact hp _ _ (by rwa [hv] at hm)
  | silent next => rwa [hv] at hm
  | ask request next => rwa [hv] at hm

/-- What honours one contract honours every contract that covers it. -/
theorem Honours.covered {c' : Contract τ} {R : σ → τ → Prop} {post : σ → α → Prop} {s : σ} {t : τ}
    {d : Dialog α} (h : Honours c post s d) (hc : c.Covers c' R) (hr : R s t) :
    Honours c' (fun t result => ∃ s, R s t ∧ post s result) t d := by
  refine ⟨fun t d => ∃ s, R s t ∧ Honours c post s d, ⟨s, hr, h⟩, ?_⟩
  rintro t d ⟨s, hr, h⟩
  have hm := h.meets
  cases hv : d.view with
  | done result =>
    rw [hv] at hm
    exact ⟨s, hr, hm⟩
  | silent next =>
    rw [hv] at hm
    exact ⟨hc.mayLoop hr hm.1, s, hr, hm.2⟩
  | ask request next =>
    rw [hv] at hm
    exact ⟨hc.permits hr hm.1, fun answer => ⟨_, hc.next answer hr hm.1, hm.2 answer⟩⟩

theorem view_bind (d : Dialog α) (f : α → Dialog β) :
    (d.bind f).view = match d.view with
      | .done result => (f result).view
      | .silent next => .silent (next.bind f)
      | .ask request next => .ask request fun answer => (next answer).bind f := by
  cases d with
  | pure result => rfl
  | ask request next => rfl
  | loop round start next =>
    -- A loop begins its round; what comes after the loop comes after the last round.
    simp only [loop_bind, view, bind_assoc]
    congr 2
    funext r
    cases r <;> rfl

/-- One dialogue after another honours what the first leaves to the second. -/
theorem Honours.bind {mid : σ → α → Prop} {post : σ → β → Prop} {s : σ} {d : Dialog α}
    {f : α → Dialog β} (hd : Honours c mid s d)
    (hf : ∀ s result, mid s result → Honours c post s (f result)) :
    Honours c post s (d.bind f) := by
  -- The dialogues still in their first part, and those that honour the contract already.
  refine ⟨fun s e => (∃ d, e = d.bind f ∧ Honours c mid s d) ∨ Honours c post s e,
    .inl ⟨d, rfl, hd⟩, ?_⟩
  rintro s e (⟨d, rfl, hd⟩ | he)
  · rw [view_bind]
    have hm := hd.meets
    cases hv : d.view with
    | done result =>
      rw [hv] at hm
      exact (hf s result hm).meets.mono fun _ _ h => .inr h
    | silent next =>
      rw [hv] at hm
      exact ⟨hm.1, .inl ⟨next, rfl, hm.2⟩⟩
    | ask request next =>
      rw [hv] at hm
      exact ⟨hm.1, fun answer => .inl ⟨next answer, rfl, hm.2 answer⟩⟩
  · exact he.meets.mono fun _ _ h => .inr h

def onward (round : τ → Dialog (τ ⊕ α)) : τ ⊕ α → Dialog α
  | .inl again => loop round again pure
  | .inr result => pure result

/-- A loop honours what its rounds keep invariant. -/
theorem honours_iterate (inv : σ → τ → Prop) {post : σ → α → Prop}
    {round : τ → Dialog (τ ⊕ α)} (hl : ∀ s t, inv s t → c.mayLoop s)
    (hr : ∀ s t, inv s t → Honours c (fun s r => r.elim (inv s) (post s)) s (round t))
    {s : σ} {t : τ} (h : inv s t) : Honours c post s (iterate round t) := by
  -- The loop before a round, and the dialogues in the middle of one.
  refine ⟨fun s e => (∃ t, e = iterate round t ∧ inv s t) ∨
      ∃ d, e = d.bind (onward round) ∧ Honours c (fun s r => r.elim (inv s) (post s)) s d,
    .inl ⟨t, rfl, h⟩, ?_⟩
  rintro s e (⟨t, rfl, ht⟩ | ⟨d, rfl, hd⟩)
  · exact ⟨hl s t ht, .inr ⟨round t, rfl, hr s t ht⟩⟩
  · rw [view_bind]
    have hm := hd.meets
    cases hv : d.view with
    | done r =>
      rw [hv] at hm
      cases r with
      | inl again => exact ⟨hl s again hm, .inr ⟨round again, rfl, hr s again hm⟩⟩
      | inr result => exact hm
    | silent next =>
      rw [hv] at hm
      exact ⟨hm.1, .inr ⟨next, rfl, hm.2⟩⟩
    | ask request next =>
      rw [hv] at hm
      exact ⟨hm.1, fun answer => .inr ⟨next answer, rfl, hm.2 answer⟩⟩

section Clock

variable {limited : Prop} {s : σ} {deadline : Deadline}
  (hc : limited → c.permits s .now) (hn : ∀ now, c.next s .now now = s)

include hc hn

/-- Asking a deadline changes nothing where the clock may be read, and a deadline that never comes
needs no clock. -/
theorem honours_consult {post : σ → α → Prop} {question : Instant → α}
    (hd : deadline.expiry ≠ none → limited) (hp : ∀ now, post s (question now)) :
    Honours c post s (deadline.consult question) := by
  unfold Deadline.consult
  cases he : deadline.expiry with
  -- A deadline that never comes is asked at a time of no consequence.
  | none => exact honours_pure (hp 0)
  | some expiry =>
    apply honours_ask (hc (hd (by simp [he])))
    intro now
    rw [hn]
    exact honours_pure (hp now)

theorem honours_hasExpired (hd : deadline.expiry ≠ none → limited) :
    Honours c (fun s' expired => s' = s ∧ (expired = true → limited)) s deadline.hasExpired := by
  refine honours_consult hc hn hd fun now => ⟨rfl, fun he => hd fun h => ?_⟩
  simp [Deadline.isExpired, h] at he

theorem honours_start {limit : Millis} (hl : limit ≠ Millis.unlimited → limited) :
    Honours c (fun s' deadline => s' = s ∧ (deadline.expiry ≠ none → limited)) s
      (Deadline.start limit) := by
  unfold Deadline.start
  by_cases h : limit = Millis.unlimited
  · rw [if_pos h]
    exact honours_pure ⟨rfl, fun hd => (hd rfl).elim⟩
  -- There is a limit, so the clock may be read.
  · rw [if_neg h]
    apply honours_ask (hc (hl h))
    intro now
    rw [hn]
    exact honours_pure ⟨rfl, fun _ => hl h⟩

end Clock

end Dialog

end StopAndWait
