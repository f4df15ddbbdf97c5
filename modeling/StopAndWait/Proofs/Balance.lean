import StopAndWait.Proofs.Duplex

namespace StopAndWait

/-- Only the acknowledgment passes for one, however little of a frame is read. -/
theorem acked_take_eq_false {bytes : Bytes} {room : Nat} (hroom : Frame.controlSize ≤ room)
    (h : IsSpeech bytes ∨ bytes = Control.nack.encode) :
    Sending.acked (.ok (bytes.take room)) = false := by
  rcases h with h | rfl
  · rcases isSpeech_cases h with ⟨kind, ha, hn, rfl⟩ | ⟨sequence, rest, last, rfl⟩
    · rw [Sending.acked_encode hroom]
      simpa using ha
    -- A data frame does not begin like an acknowledgment.
    · obtain ⟨n, rfl⟩ := Nat.exists_eq_add_of_le' hroom
      simp [Sending.acked, Verdict.ofBytes, Control.isWrittenAs, Frame.controlSize, Frame.dataCode,
        Control.code]
  · rw [Sending.acked_encode hroom]
    rfl

variable {capacity : Nat}

/-- A frame that asks for a reply is recognised however much of it is cut off. -/
theorem noted_take {bytes : Bytes} (hc : Frame.dataOverhead ≤ capacity) (h : IsSpeech bytes)
    (role : Mode) :
    ∃ role', Stance.noted (.taken role (bytes.take capacity)) (.consumed (bytes.take capacity)) =
      .owing role' ∧ ∀ mode, summons bytes = some mode → role' = mode := by
  have hknown : Frame.decode? (bytes.take capacity) ≠ none ∧
      ∀ mode, summons bytes = some mode → (summons (bytes.take capacity)).getD role = mode := by
    rcases isSpeech_cases h with ⟨kind, -, -, rfl⟩ | ⟨sequence, rest, last, rfl⟩
    · rw [Control.take_encode (Nat.le_trans (by decide) hc)]
      refine ⟨?_, fun mode hm => by rw [hm]; rfl⟩
      rw [Frame.decode?_eq_control_iff.2 rfl]
      nofun
    -- Three bytes make a data frame, and none of those changes the role.
    · obtain ⟨n, rfl⟩ := Nat.exists_eq_add_of_le' hc
      refine ⟨?_, fun mode hm => ?_⟩
      · cases hrest : (rest ++ [last]).take (n + 1) with
        | nil => simp at hrest
        | cons first others => simp [Frame.dataOverhead, Frame.decode?, hrest]
      · simp [summons, Frame.dataCode, Control.code] at hm
  refine ⟨(summons (bytes.take capacity)).getD role, ?_, hknown.2⟩
  simp only [Stance.noted]
  exact if_neg fun hi => hknown.1 hi.2

def Stance.IsAcked (s : Stance) : Prop := ∃ role frame, s = .judged role frame true

theorem Stance.isEven_free (role : Mode) : (free role).IsEven := trivial

theorem Stance.not_isAcked_free (role : Mode) : ¬ (free role).IsAcked := nofun

structure Posture where
  stance : Stance
  sent : List Bytes
  since : Nat
  read : Nat
  heard : List Nat

namespace Posture

inductive Step (capacity : Nat) (peer : List Bytes) (a : Posture) : Posture → Prop
  | stays : Step capacity peer a a
  -- A call begins. Only an engine without a role takes one for it.
  | begins {role role' : Mode} (free : a.stance = .free role)
    (fixed : role ≠ .undefined → role' = role) :
    Step capacity peer a { a with stance := .free role', since := a.sent.length }
  -- A call ends. Only with an acknowledgment does it change the role by itself.
  | ends {role' : Mode} (even : a.stance.IsEven)
    (kept : ¬ a.stance.IsAcked → role' = a.stance.role) :
    Step capacity peer a { a with stance := .free role' }
  | hears {role : Mode} {bytes : Bytes} (free : a.stance = .free role)
    (arrived : peer[a.read]? = some bytes) :
    Step capacity peer a { a with
      stance := .taken role (bytes.take capacity)
      read := a.read + 1 }
  | enters {role : Mode} {buffer : Bytes} (taken : a.stance = .taken role buffer) :
    Step capacity peer a { a with
      stance := (Stance.taken role buffer).noted (.consumed buffer)
      heard := a.heard ++ [a.read - 1] }
  | replies {role : Mode} {bytes : Bytes} (owing : a.stance = .owing role)
    (reply : IsReply bytes) :
    Step capacity peer a { a with stance := .free role, sent := a.sent ++ [bytes] }
  | speaks {bytes : Bytes} (even : a.stance.IsEven) (speech : IsSpeech bytes) :
    Step capacity peer a { a with
      stance := .awaiting a.stance.role bytes
      sent := a.sent ++ [bytes] }
  | judges {role : Mode} {frame bytes : Bytes} {room : Nat}
    (awaiting : a.stance = .awaiting role frame) (arrived : peer[a.read]? = some bytes)
    (roomy : Frame.controlSize ≤ room) :
    Step capacity peer a { a with
      stance := .judged role frame (Sending.acked (.ok (bytes.take room)))
      read := a.read + 1 }

structure Heeds (x y : Posture) (frame : Bytes) : Prop where
  role : ∀ mode, summons frame = some mode → x.stance.role = mode
  heard : ∃ k ∈ x.heard, y.since ≤ k ∧ y.sent[k]? = some frame

def Spoken (x : Posture) : Prop :=
  ∀ role frame, x.stance = .awaiting role frame →
    IsSpeech frame ∧ x.since < x.sent.length ∧ x.sent.getLast? = some frame

end Posture

/-- Where the one thing under way is: an end that asks and one that is asked, what is on its way to
the second, and what is on its way back. -/
inductive Handshake (capacity : Nat) (heeds : Bytes → Prop) :
    Stance → Stance → List Bytes → List Bytes → Prop
  | quiet {s t : Stance} (even : s.IsEven) (even' : t.IsEven) : Handshake capacity heeds s t [] []
  -- A frame on its way.
  | pending {role : Mode} {frame : Bytes} {t : Stance} (even : t.IsEven) :
    Handshake capacity heeds (.awaiting role frame) t [frame] []
  | taken {role role' : Mode} {frame : Bytes} :
    Handshake capacity heeds (.awaiting role frame) (.taken role' (frame.take capacity)) [] []
  | owing {role role' : Mode} {frame : Bytes} (heeded : heeds frame) :
    Handshake capacity heeds (.awaiting role frame) (.owing role') [] []
  -- A reply on its way back, or what will be read in its place.
  | replied {role : Mode} {frame reply : Bytes} {t : Stance} (even : t.IsEven)
    (unacked : ¬ t.IsAcked)
    (fair : ∀ room, Frame.controlSize ≤ room → Sending.acked (.ok (reply.take room)) = true →
      heeds frame) :
    Handshake capacity heeds (.awaiting role frame) t [] [reply]
  -- Two frames that cross: either end will read the other's as its verdict.
  | crossing {role role' : Mode} {frame frame' : Bytes} :
    Handshake capacity heeds (.awaiting role frame) (.awaiting role' frame') [frame] [frame']
  -- A reply on its way back, and a frame of the replying end behind it.
  | asked {role role' : Mode} {frame frame' reply : Bytes}
    (fair : ∀ room, Frame.controlSize ≤ room → Sending.acked (.ok (reply.take room)) = true →
      heeds frame) :
    Handshake capacity heeds (.awaiting role frame) (.awaiting role' frame') [] [reply, frame']

namespace Handshake

variable {heeds heeds' : Bytes → Prop} {s t : Stance} {forth back : List Bytes}

/-- With nothing under way an end may do between its frames what it likes. -/
theorem settle_asker {s' : Stance} (h : Handshake capacity heeds s t forth back) (hs : s.IsEven)
    (hs' : s'.IsEven) : Handshake capacity heeds' s' t forth back := by
  cases h with
  | quiet even even' => exact .quiet hs' even'
  | pending | taken | owing | replied | crossing | asked => exact hs.elim

theorem settle_asked {t' : Stance} (h : Handshake capacity heeds s t forth back) (ht : t.IsEven)
    (ht' : t'.IsEven) (hu : ¬ t'.IsAcked)
    (hh : ¬ t.IsAcked → ∀ frame, heeds frame → heeds' frame) :
    Handshake capacity heeds' s t' forth back := by
  cases h with
  | quiet even even' => exact .quiet even ht'
  | pending even => exact .pending ht'
  | replied even unacked fair =>
    exact .replied ht' hu fun room hr ha => hh unacked _ (fair room hr ha)
  | taken | owing | crossing | asked => exact ht.elim

theorem hear {role : Mode} {bytes : Bytes}
    (h : Handshake capacity heeds s (.free role) (bytes :: forth) back) :
    Handshake capacity heeds' s (.taken role (bytes.take capacity)) forth back := by
  cases h with
  | pending even => exact .taken

/-- An end that awaits no verdict has nothing to read but frames that ask for a reply. -/
theorem not_asker_of_even {bytes : Bytes}
    (h : Handshake capacity heeds s t forth (bytes :: back)) : ¬ s.IsEven := by
  cases h with
  | replied | crossing | asked => exact id

theorem not_asker_of_taken {role : Mode} {buffer : Bytes} :
    ¬ Handshake capacity heeds (.taken role buffer) t forth back := by
  intro h
  cases h with
  | quiet even => exact even

theorem not_asker_of_owing {role : Mode} :
    ¬ Handshake capacity heeds (.owing role) t forth back := by
  intro h
  cases h with
  | quiet even => exact even

theorem of_taken {role : Mode} {buffer : Bytes}
    (h : Handshake capacity heeds s (.taken role buffer) forth back) :
    ∃ role' frame, s = .awaiting role' frame ∧ buffer = frame.take capacity ∧ forth = [] ∧
      back = [] := by
  cases h with
  | taken => exact ⟨_, _, rfl, rfl, rfl, rfl⟩
  | quiet _ even | pending even | replied even => exact even.elim

theorem reply {role : Mode} (h : Handshake capacity heeds s (.owing role) forth back)
    (bytes : Bytes) (hh : ∀ frame, heeds frame → heeds' frame) :
    Handshake capacity heeds' s (.free role) forth (back ++ [bytes]) := by
  cases h with
  | owing heeded =>
    exact .replied (Stance.isEven_free role) (Stance.not_isAcked_free role) fun _ _ _ => hh _ heeded
  | quiet _ even | pending even | replied even => exact even.elim

theorem speak_asker {role : Mode} {frame : Bytes} (h : Handshake capacity heeds s t forth back)
    (hs : s.IsEven) :
    Handshake capacity heeds' (.awaiting role frame) t (forth ++ [frame]) back := by
  cases h with
  | quiet even even' => exact .pending even'
  | pending | taken | owing | replied | crossing | asked => exact hs.elim

theorem speak_asked {capacity' : Nat} {heeds'' : Bytes → Prop} {role : Mode} {frame : Bytes}
    (h : Handshake capacity heeds s t forth back) (ht : t.IsEven)
    (hh : ∀ frame, heeds frame → heeds' frame) :
    Handshake capacity' heeds'' (.awaiting role frame) s (back ++ [frame]) forth ∨
      Handshake capacity heeds' s (.awaiting role frame) forth (back ++ [frame]) := by
  cases h with
  | quiet even even' => exact .inl (.pending even)
  | pending even => exact .inr .crossing
  | replied even unacked fair => exact .inr (.asked fun room hr ha => hh _ (fair room hr ha))
  | taken | owing | crossing | asked => exact ht.elim

/-- The asking end reads its verdict, or a frame in its place. -/
theorem judge_asker {capacity' : Nat} {heeds'' : Bytes → Prop} {role : Mode}
    {frame bytes : Bytes} {room : Nat}
    (h : Handshake capacity heeds (.awaiting role frame) t forth (bytes :: back))
    (hroom : Frame.controlSize ≤ room) (hf : IsSpeech frame)
    (ht : ∀ role frame, t = .awaiting role frame → IsSpeech frame) :
    (Sending.acked (.ok (bytes.take room)) = true → heeds frame ∧ ¬ t.IsAcked) ∧
      (Handshake capacity heeds'
          (.judged role frame (Sending.acked (.ok (bytes.take room)))) t forth back ∨
        Handshake capacity' heeds'' t
          (.judged role frame (Sending.acked (.ok (bytes.take room)))) back forth) := by
  cases h with
  | replied even unacked fair =>
    exact ⟨fun ha => ⟨fair room hroom ha, unacked⟩, .inl (.quiet trivial even)⟩
  | crossing =>
    have hno := acked_take_eq_false hroom (.inl (ht _ _ rfl))
    rw [hno]
    -- The frame of the asking end is what the other one will read for its own verdict.
    refine ⟨nofun, .inr (.replied trivial nofun fun room hr ha => ?_)⟩
    rw [acked_take_eq_false hr (.inl hf)] at ha
    cases ha
  | asked fair => exact ⟨fun ha => ⟨fair room hroom ha, nofun⟩, .inr (.pending trivial)⟩

theorem judge_asked {role : Mode} {frame bytes : Bytes} {room : Nat}
    (h : Handshake capacity heeds s (.awaiting role frame) (bytes :: forth) back)
    (hroom : Frame.controlSize ≤ room) (hf : IsSpeech frame)
    (hs : ∀ role frame, s = .awaiting role frame → IsSpeech frame) :
    Sending.acked (.ok (bytes.take room)) = false ∧
      Handshake capacity heeds' s (.judged role frame false) forth back := by
  cases h with
  | pending even => exact even.elim
  | crossing =>
    refine ⟨acked_take_eq_false hroom (.inl (hs _ _ rfl)), ?_⟩
    refine .replied trivial nofun fun room hr ha => ?_
    rw [acked_take_eq_false hr (.inl hf)] at ha
    cases ha

end Handshake

namespace Posture

variable {capacity capacity' : Nat} {x y x' : Posture}

def IsHeeded (x y : Posture) : Prop :=
  ∀ role frame, x.stance = .judged role frame true → y.Heeds x frame

structure Balanced (capacity capacity' : Nat) (x y : Posture) : Prop where
  handshake :
    Handshake capacity' (y.Heeds x) x.stance y.stance (x.sent.drop y.read) (y.sent.drop x.read) ∨
      Handshake capacity (x.Heeds y) y.stance x.stance (y.sent.drop x.read) (x.sent.drop y.read)
  read : x.read ≤ y.sent.length
  read' : y.read ≤ x.sent.length
  since : x.since ≤ x.sent.length
  since' : y.since ≤ y.sent.length
  spoken : x.Spoken
  spoken' : y.Spoken
  heeded : x.IsHeeded y
  heeded' : y.IsHeeded x
  one : ¬ (x.stance.IsAcked ∧ y.stance.IsAcked)

theorem Balanced.symm (h : Balanced capacity capacity' x y) : Balanced capacity' capacity y x :=
  ⟨h.handshake.symm, h.read', h.read, h.since', h.since, h.spoken', h.spoken, h.heeded', h.heeded,
    fun ha => h.one ha.symm⟩

/-- What an end has heeded stays heeded as long as it keeps its role. -/
theorem Heeds.keep {frame : Bytes} (h : x.Heeds y frame)
    (hr : x.stance.role ≠ .undefined → x'.stance.role = x.stance.role)
    (hh : ∀ k ∈ x.heard, k ∈ x'.heard) : x'.Heeds y frame := by
  obtain ⟨k, hk, hs⟩ := h.heard
  refine ⟨fun mode hm => ?_, k, hh k hk, hs⟩
  have hmode := h.role mode hm
  rw [hr, hmode]
  rw [hmode]
  -- No frame summons to no role.
  rintro rfl
  unfold summons at hm
  grind

theorem Balanced.begins {role role' : Mode} (h : Balanced capacity capacity' x y)
    (free : x.stance = .free role) (fixed : role ≠ .undefined → role' = role) :
    Balanced capacity capacity' { x with stance := .free role', since := x.sent.length } y := by
  have hkeep : ∀ frame, x.Heeds y frame →
      Heeds { x with stance := .free role', since := x.sent.length } y frame := by
    intro frame hf
    refine hf.keep ?_ fun k hk => hk
    rw [free]
    exact fixed
  have heven : x.stance.IsEven := by rw [free]; exact Stance.isEven_free role
  have hfree := Stance.isEven_free role'
  have hunacked := Stance.not_isAcked_free role'
  refine ⟨?_, h.read, h.read', Nat.le_refl _, h.since', nofun, h.spoken', nofun, ?_,
    fun ha => hunacked ha.1⟩
  · rcases h.handshake with hs | hs
    · exact .inl (hs.settle_asker heven hfree)
    · exact .inr (hs.settle_asked heven hfree hunacked fun _ => hkeep)
  · exact fun role frame hs => hkeep frame (h.heeded' role frame hs)

theorem Balanced.ends {role' : Mode} (h : Balanced capacity capacity' x y) (even : x.stance.IsEven)
    (kept : ¬ x.stance.IsAcked → role' = x.stance.role) :
    Balanced capacity capacity' { x with stance := .free role' } y := by
  -- Only an end with an acknowledgment may change its role, and then its peer has none.
  have hkeep : ¬ x.stance.IsAcked → ∀ frame, x.Heeds y frame →
      Heeds { x with stance := .free role' } y frame :=
    fun hu frame hf => hf.keep (fun _ => kept hu) fun k hk => hk
  have hfree := Stance.isEven_free role'
  have hunacked := Stance.not_isAcked_free role'
  refine ⟨?_, h.read, h.read', h.since, h.since', nofun, h.spoken', nofun, ?_,
    fun ha => hunacked ha.1⟩
  · rcases h.handshake with hs | hs
    · exact .inl (hs.settle_asker even hfree)
    · exact .inr (hs.settle_asked even hfree hunacked hkeep)
  · intro role frame hs
    exact hkeep (fun ha => h.one ⟨ha, role, frame, hs⟩) frame (h.heeded' role frame hs)

/-- What is left to read after the next buffer has been read. -/
theorem drop_of_getElem? {α : Type} {l : List α} {n : Nat} {a : α} (h : l[n]? = some a) :
    l.drop n = a :: l.drop (n + 1) := by
  obtain ⟨hn, rfl⟩ := List.getElem?_eq_some_iff.1 h
  exact List.drop_eq_getElem_cons hn

theorem Balanced.hears {role : Mode} {bytes : Bytes} (h : Balanced capacity capacity' x y)
    (free : x.stance = .free role) (arrived : y.sent[x.read]? = some bytes) :
    Balanced capacity capacity' { x with
      stance := .taken role (bytes.take capacity)
      read := x.read + 1 } y := by
  have hdrop := drop_of_getElem? arrived
  have hlt : x.read < y.sent.length := (List.getElem?_eq_some_iff.1 arrived).1
  have hs := h.handshake
  rw [hdrop, free] at hs
  -- What it hears is the frame of the other end.
  have hasked := hs.resolve_left fun ha => ha.not_asker_of_even (Stance.isEven_free role)
  refine ⟨.inr hasked.hear, hlt, h.read', h.since, h.since', nofun, h.spoken', nofun, ?_, nofun⟩
  intro role' frame hj
  rw [hj] at hasked
  cases hasked

theorem Balanced.enters {role : Mode} {buffer : Bytes} (hc : Frame.dataOverhead ≤ capacity)
    (h : Balanced capacity capacity' x y) (taken : x.stance = .taken role buffer) :
    Balanced capacity capacity' { x with
      stance := (Stance.taken role buffer).noted (.consumed buffer)
      heard := x.heard ++ [x.read - 1] } y := by
  have hs := h.handshake
  rw [taken] at hs
  have hasked := hs.resolve_left Handshake.not_asker_of_taken
  obtain ⟨role', frame, hy, rfl, hforth, hback⟩ := hasked.of_taken
  obtain ⟨hspeech, hsince, hlast⟩ := h.spoken' role' frame hy
  obtain ⟨role'', hnoted, hsummons⟩ := noted_take hc hspeech role
  -- The frame is the last one its peer has sent, and the last one read.
  have hread : x.read = y.sent.length := Nat.le_antisymm h.read (List.drop_eq_nil_iff.1 hforth)
  have hplace : y.sent[x.read - 1]? = some frame := by
    rw [hread, ← List.getLast?_eq_getElem?]
    exact hlast
  rw [hnoted]
  refine ⟨.inr ?_, h.read, h.read', h.since, h.since', nofun, h.spoken', nofun, ?_, nofun⟩
  · rw [hy, hforth, hback]
    exact .owing ⟨hsummons, x.read - 1, by simp, by omega, hplace⟩
  · rw [IsHeeded, hy]
    nofun

theorem Balanced.replies {role : Mode} {bytes : Bytes} (h : Balanced capacity capacity' x y)
    (owing : x.stance = .owing role) :
    Balanced capacity capacity' { x with stance := .free role, sent := x.sent ++ [bytes] } y := by
  have hkeep : ∀ frame, x.Heeds y frame →
      Heeds { x with stance := .free role, sent := x.sent ++ [bytes] } y frame := by
    intro frame hf
    refine hf.keep (fun _ => ?_) fun k hk => hk
    rw [owing]
    rfl
  have hs := h.handshake
  rw [owing] at hs
  have hasked := hs.resolve_left Handshake.not_asker_of_owing
  have hmore : x.sent.length ≤ (x.sent ++ [bytes]).length := by simp
  refine ⟨.inr ?_, h.read, Nat.le_trans h.read' hmore, Nat.le_trans h.since hmore, h.since', nofun,
    h.spoken', nofun, ?_, nofun⟩
  · rw [List.drop_append_of_le_length h.read']
    exact hasked.reply bytes hkeep
  · exact fun role frame hj => hkeep frame (h.heeded' role frame hj)

theorem Balanced.speaks {bytes : Bytes} (h : Balanced capacity capacity' x y)
    (even : x.stance.IsEven) (speech : IsSpeech bytes) :
    Balanced capacity capacity' { x with
      stance := .awaiting x.stance.role bytes
      sent := x.sent ++ [bytes] } y := by
  have hkeep : ∀ frame, x.Heeds y frame →
      Heeds { x with stance := .awaiting x.stance.role bytes, sent := x.sent ++ [bytes] } y frame :=
    fun frame hf => hf.keep (fun _ => rfl) fun k hk => hk
  have hmore : x.sent.length ≤ (x.sent ++ [bytes]).length := by simp
  refine ⟨?_, h.read, Nat.le_trans h.read' hmore, Nat.le_trans h.since hmore, h.since', ?_,
    h.spoken', nofun, ?_, nofun⟩
  · rw [List.drop_append_of_le_length h.read']
    rcases h.handshake with hs | hs
    · exact .inl (hs.speak_asker even)
    · exact hs.speak_asked even hkeep
  · rintro role frame hs
    cases hs
    have hlast : x.sent.length < (x.sent ++ [bytes]).length := by simp
    exact ⟨speech, Nat.lt_of_le_of_lt h.since hlast, List.getLast?_concat⟩
  · exact fun role frame hj => hkeep frame (h.heeded' role frame hj)

theorem Balanced.judges {role : Mode} {frame bytes : Bytes} {room : Nat}
    (h : Balanced capacity capacity' x y) (awaiting : x.stance = .awaiting role frame)
    (arrived : y.sent[x.read]? = some bytes) (roomy : Frame.controlSize ≤ room) :
    Balanced capacity capacity' { x with
      stance := .judged role frame (Sending.acked (.ok (bytes.take room)))
      read := x.read + 1 } y := by
  have hdrop := drop_of_getElem? arrived
  have hlt : x.read < y.sent.length := (List.getElem?_eq_some_iff.1 arrived).1
  have hspeech := (h.spoken role frame awaiting).1
  have hspeech' : ∀ role frame, y.stance = .awaiting role frame → IsSpeech frame :=
    fun role frame hy => (h.spoken' role frame hy).1
  have hs := h.handshake
  rw [hdrop, awaiting] at hs
  generalize ha : Sending.acked (.ok (bytes.take room)) = acked
  let x' : Posture := { x with stance := .judged role frame acked, read := x.read + 1 }
  have hkeep : ∀ frame', x.Heeds y frame' → x'.Heeds y frame' := by
    intro frame' hf
    refine hf.keep (fun _ => ?_) fun k hk => hk
    rw [awaiting]
    rfl
  -- With an acknowledgment the frame is heeded, and its peer has none for a frame of its own.
  have hjudged : (acked = true → y.Heeds x frame ∧ ¬ y.stance.IsAcked) ∧
      (Handshake capacity' (y.Heeds x') x'.stance y.stance (x.sent.drop y.read)
          (y.sent.drop (x.read + 1)) ∨
        Handshake capacity (x'.Heeds y) y.stance x'.stance (y.sent.drop (x.read + 1))
          (x.sent.drop y.read)) := by
    subst ha
    rcases hs with hs | hs
    · exact hs.judge_asker roomy hspeech hspeech'
    · obtain ⟨hno, hnext⟩ := hs.judge_asked roomy hspeech hspeech'
      refine ⟨fun ha => ?_, .inr ?_⟩
      · rw [hno] at ha
        cases ha
      · simp only [x', hno]
        exact hnext
  obtain ⟨hacked, hnext⟩ := hjudged
  refine ⟨hnext, hlt, h.read', h.since, h.since', nofun, h.spoken', ?_, ?_, ?_⟩
  · intro role' frame' hj
    injection hj with _ hframe ha
    obtain ⟨hrole, hheard⟩ := (hacked ha).1
    rw [← hframe]
    exact ⟨hrole, hheard⟩
  · exact fun role frame hj => hkeep frame (h.heeded' role frame hj)
  · rintro ⟨⟨role', frame', hj⟩, hy⟩
    injection hj with _ _ ha
    exact (hacked ha).2 hy

/-- Every step of an end that waits for its verdicts keeps the balance. -/
theorem Balanced.step (hc : Frame.dataOverhead ≤ capacity) (h : Balanced capacity capacity' x y)
    (hs : Step capacity y.sent x x') : Balanced capacity capacity' x' y := by
  cases hs with
  | stays => exact h
  | begins free fixed => exact h.begins free fixed
  | ends even kept => exact h.ends even kept
  | hears free arrived => exact h.hears free arrived
  | enters taken => exact h.enters hc taken
  | replies owing reply => exact h.replies owing
  | speaks even speech => exact h.speaks even speech
  | judges awaiting arrived roomy => exact h.judges awaiting arrived roomy

end Posture

end StopAndWait
