import Mathlib.Data.List.Forall2
import StopAndWait.Link.Lossy
import StopAndWait.Link.Scripted
import StopAndWait.Proofs.Detection
import StopAndWait.Proofs.Transcript
import StopAndWait.Random.Draw

/-!
What a lossy link makes of what is written to it, for any source of randomness that keeps its
promises. The link behind it gets each buffer as it was written, with one bit flipped, or not at
all; what becomes of the buffers is settled by the seed, the rates and the lengths before the first
of them is written.
-/
namespace StopAndWait

def OneBitApart (a b : Bytes) : Prop :=
  a.length = b.length ∧ ∃! p, bitAt a p ≠ bitAt b p

theorem oneBitApart_flipBit {bytes : Bytes} {index : Nat} {bit : UInt8} (hi : index < bytes.length)
    (hb : bit < 8) : OneBitApart bytes (flipBit bytes index bit) := by
  have hl : (singleBit bytes.length index bit).length = bytes.length := by
    simp [singleBit]
  have hbits (p : Nat) : bitAt (flipBit bytes index bit) p =
      (bitAt bytes p ^^ decide (p = 8 * index + bit.toNat)) := by
    rw [flipBit_eq_damage, bitAt_damage hl, bitAt_singleBit hi hb]
  refine ⟨(length_flipBit bytes index bit).symm, 8 * index + bit.toNat, ?_, ?_⟩
  · simp [hbits]
  · intro p hp
    by_contra hne
    rw [hbits, decide_eq_false hne, Bool.xor_false] at hp
    exact hp rfl

/-- A single bit always shows. -/
theorem OneBitApart.isIntact_eq_false {a b : Bytes} (h : OneBitApart a b)
    (ha : isIntact a = true) : isIntact b = false := by
  obtain ⟨hl, p, hp, honly⟩ := h
  have hbits (q : Nat) : bitAt (damage a b) q = true ↔ bitAt a q ≠ bitAt b q := by
    rw [bitAt_damage hl.symm, bne_iff_ne]
  have hwithin : LiesWithin (damage a b) p 7 := by
    intro q hq
    obtain rfl := honly q ((hbits q).1 hq)
    omega
  rw [← damage_damage hl.symm, isIntact_damage ha (length_damage hl.symm)]
  exact isIntact_eq_false_of_liesWithin ((hbits p).2 hp) hwithin

namespace Link

variable {σ : Type} [Link σ]

inductive Serves : σ → List Turn → σ → Prop
  | done (s : σ) : Serves s [] s
  | read {s s' s'' : σ} {capacity : Nat} {timeout : Millis} {answer : Except LinkError Bytes}
    {log : List Turn} (served : Link.read s capacity timeout = some (answer, s'))
    (later : Serves s' log s'') : Serves s (.read capacity timeout answer :: log) s''
  | write {s s' s'' : σ} {bytes : Bytes} {timeout : Millis} {answer : Except LinkError Nat}
    {log : List Turn} (served : Link.write s bytes timeout = some (answer, s'))
    (later : Serves s' log s'') : Serves s (.write bytes timeout answer :: log) s''

theorem Serves.trans {s s' s'' : σ} {log log' : List Turn} (h : Serves s log s')
    (h' : Serves s' log' s'') : Serves s (log ++ log') s'' := by
  induction h with
  | done => exact h'
  | read served _ ih => exact .read served (ih h')
  | write served _ ih => exact .write served (ih h')

/-- Whatever has been asked of the link, it takes every buffer whole. -/
def TakesAll (s : σ) : Prop :=
  ∀ log s', Serves s log s' → ∀ bytes timeout,
    ∃ s'', Link.write s' bytes timeout = some (.ok bytes.length, s'')

theorem TakesAll.serves {s s' : σ} {log : List Turn} (h : TakesAll s) (hs : Serves s log s') :
    TakesAll s' :=
  fun log' s'' hs' => h (log ++ log') s'' (hs.trans hs')

theorem TakesAll.exists_serves {s : σ} (h : TakesAll s) (buffers : List Bytes) (timeout : Millis) :
    ∃ s', Serves s (buffers.map fun bytes => .write bytes timeout (.ok bytes.length)) s' := by
  induction buffers generalizing s with
  | nil => exact ⟨s, .done s⟩
  | cons bytes buffers ih =>
    obtain ⟨s₁, hwrite⟩ := h [] s (.done s) bytes timeout
    obtain ⟨s', hrest⟩ := ih (h.serves (.write hwrite (.done s₁)))
    exact ⟨s', .write hwrite hrest⟩

end Link

open Link

/-- A script without failures takes all that is written. -/
theorem ScriptedLink.takesAll {s : ScriptedLink} (h : s.failingWrites = 0) : TakesAll s := by
  -- No read and no write makes a failure.
  have hkeeps : ∀ log s', Serves s log s' → s'.failingWrites = 0 := by
    intro log s' hs
    induction hs with
    | done => exact h
    | read served later ih =>
      cases served
      exact ih h
    | @write s _ _ bytes timeout _ _ served later ih =>
      obtain ⟨_, _, _ | _, _, _⟩ := s
      · cases served
        exact ih rfl
      · cases h
  intro log s' hs bytes timeout
  obtain ⟨_, _, _ | _, _, _⟩ := s'
  · exact ⟨_, rfl⟩
  · cases hkeeps _ _ hs

namespace Fate

variable {γ : Type} [RandomSource γ] {dropRate corruptRate : Float}

theorem draw_of_dropped {length : Nat} {g g₁ : γ}
    (hdrop : RandomSource.event dropRate g = some (true, g₁)) :
    draw dropRate corruptRate length g = some (dropped, g₁) := by
  simp [draw, hdrop]

theorem draw_of_not_dropped {length : Nat} {g g₁ g₂ : γ} {isCorrupted : Bool}
    (hdrop : RandomSource.event dropRate g = some (false, g₁))
    (hcorrupt : RandomSource.event corruptRate g₁ = some (isCorrupted, g₂)) :
    draw dropRate corruptRate length g =
      some (if isCorrupted then
        let (index, g) := RandomSource.below length g₂
        let (bit, g) := RandomSource.bit g
        (corrupted index bit, g)
      else (passed, g₂)) := by
  cases isCorrupted <;> simp [draw, hdrop, hcorrupt]

theorem exists_draw (laws : RandomSource.Laws γ) (hd : IsProbability dropRate)
    (hc : IsProbability corruptRate) (length : Nat) (g : γ) :
    ∃ fate g', draw dropRate corruptRate length g = some (fate, g') := by
  obtain ⟨isDropped, g₁, hdrop⟩ := laws.exists_event _ g hd
  cases isDropped with
  | true => exact ⟨_, _, draw_of_dropped hdrop⟩
  | false =>
    obtain ⟨isCorrupted, g₂, hcorrupt⟩ := laws.exists_event _ g₁ hc
    exact ⟨_, _, draw_of_not_dropped hdrop hcorrupt⟩

/-- Damage is drawn to lie in the buffer. -/
theorem lt_of_draw (laws : RandomSource.Laws γ) (hd : IsProbability dropRate)
    (hc : IsProbability corruptRate) {length index : Nat} {bit : UInt8} {g g' : γ}
    (hl : 0 < length) (h : draw dropRate corruptRate length g = some (corrupted index bit, g')) :
    index < length ∧ bit < 8 := by
  obtain ⟨isDropped, g₁, hdrop⟩ := laws.exists_event _ g hd
  cases isDropped with
  | true =>
    rw [draw_of_dropped hdrop] at h
    cases h
  | false =>
    obtain ⟨isCorrupted, g₂, hcorrupt⟩ := laws.exists_event _ g₁ hc
    rw [draw_of_not_dropped hdrop hcorrupt] at h
    cases isCorrupted with
    | true =>
      simp only [if_true, Option.some.injEq, Prod.mk.injEq, corrupted.injEq] at h
      obtain ⟨⟨rfl, rfl⟩, -⟩ := h
      exact ⟨laws.below_lt length g₂ hl, laws.bit_lt _⟩
    | false => simp at h

def drawAll (dropRate corruptRate : Float) : List Nat → γ → Option (List Fate × γ)
  | [], g => some ([], g)
  | length :: lengths, g => do
    let (fate, g) ← draw dropRate corruptRate length g
    let (fates, g) ← drawAll dropRate corruptRate lengths g
    return (fate :: fates, g)

theorem drawAll_cons {length : Nat} {lengths : List Nat} {fate : Fate} {fates : List Fate}
    {g g₁ g' : γ} (hdraw : draw dropRate corruptRate length g = some (fate, g₁))
    (hall : drawAll dropRate corruptRate lengths g₁ = some (fates, g')) :
    drawAll dropRate corruptRate (length :: lengths) g = some (fate :: fates, g') := by
  simp [drawAll, hdraw, hall]

theorem exists_drawAll (laws : RandomSource.Laws γ) (hd : IsProbability dropRate)
    (hc : IsProbability corruptRate) (lengths : List Nat) (g : γ) :
    ∃ fates g', drawAll dropRate corruptRate lengths g = some (fates, g') ∧
      fates.length = lengths.length := by
  induction lengths generalizing g with
  | nil => exact ⟨[], g, rfl, rfl⟩
  | cons length lengths ih =>
    obtain ⟨fate, g₁, hdraw⟩ := exists_draw laws hd hc length g
    obtain ⟨fates, g', hall, hcount⟩ := ih g₁
    exact ⟨fate :: fates, g', drawAll_cons hdraw hall, congrArg (· + 1) hcount⟩

end Fate

def Turn.written? : Turn → Option Bytes
  | write bytes _ _ => some bytes
  | read _ _ _ | now _ | note _ => none

def written (log : List Turn) : List Bytes := log.filterMap Turn.written?

def lengths (log : List Turn) : List Nat := ((written log).filter (· ≠ [])).map List.length

/-- What comes of a turn with a lossy link at the link behind it, if a fate is drawn for it. -/
inductive Turn.Becomes : Option Fate → Turn → Option Turn → Prop
  | read (capacity : Nat) (timeout : Millis) (answer : Except LinkError Bytes) :
    Becomes none (read capacity timeout answer) (some (read capacity timeout answer))
  | empty (timeout : Millis) :
    Becomes none (write [] timeout (.ok 0)) (some (write [] timeout (.ok 0)))
  | passed {bytes : Bytes} {timeout : Millis} (notEmpty : bytes ≠ []) :
    Becomes (some .passed) (write bytes timeout (.ok bytes.length))
      (some (write bytes timeout (.ok bytes.length)))
  | dropped {bytes : Bytes} {timeout : Millis} (notEmpty : bytes ≠ []) :
    Becomes (some .dropped) (write bytes timeout (.ok bytes.length)) none
  | corrupted {bytes : Bytes} {timeout : Millis} {index : Nat} {bit : UInt8}
    (notEmpty : bytes ≠ []) (apart : OneBitApart bytes (flipBit bytes index bit)) :
    Becomes (some (.corrupted index bit)) (write bytes timeout (.ok bytes.length))
      (some (write (flipBit bytes index bit) timeout (.ok bytes.length)))

inductive Forwards : List Fate → List Turn → List Turn → Prop
  | nil : Forwards [] [] []
  | cons {fate : Option Fate} {turn : Turn} {forwarded : Option Turn} {fates : List Fate}
    {log innerLog : List Turn} (becomes : turn.Becomes fate forwarded)
    (later : Forwards fates log innerLog) :
    Forwards (fate.toList ++ fates) (turn :: log) (forwarded.toList ++ innerLog)

theorem lengths_write {bytes : Bytes} {timeout : Millis} {answer : Except LinkError Nat}
    {log : List Turn} (hb : bytes ≠ []) :
    lengths (.write bytes timeout answer :: log) = bytes.length :: lengths log := by
  simp [lengths, written, Turn.written?, hb]

/-- What arrives for a buffer that is intact is the buffer itself or seen to be damaged. -/
theorem Forwards.exists_kept {fates : List Fate} {log innerLog : List Turn}
    (h : Forwards fates log innerLog) :
    ∃ kept, kept.Sublist (written log) ∧ List.Forall₂ (fun bytes arriving =>
      isIntact bytes = true → arriving = bytes ∨ isIntact arriving = false)
      kept (written innerLog) := by
  induction h with
  | nil => exact ⟨[], List.Sublist.slnil, .nil⟩
  | cons becomes later ih =>
    obtain ⟨kept, hkept, harrive⟩ := ih
    cases becomes with
    | read => exact ⟨kept, hkept, harrive⟩
    | empty => exact ⟨[] :: kept, hkept.cons_cons [], .cons (fun _ => .inl rfl) harrive⟩
    | @passed bytes =>
      exact ⟨bytes :: kept, hkept.cons_cons bytes, .cons (fun _ => .inl rfl) harrive⟩
    | @dropped bytes => exact ⟨kept, hkept.cons bytes, harrive⟩
    | @corrupted bytes _ _ _ _ apart =>
      exact ⟨bytes :: kept, hkept.cons_cons bytes,
        .cons (fun intact => .inr (apart.isIntact_eq_false intact)) harrive⟩

namespace LossStats

def total (s : LossStats) : Nat := s.passed + s.dropped + s.corrupted

theorem total_foldl_count (fates : List Fate) (s : LossStats) :
    (fates.foldl count s).total = s.total + fates.length := by
  induction fates generalizing s with
  | nil => rfl
  | cons fate fates ih =>
    have hone : (s.count fate).total = s.total + 1 := by
      cases fate <;> simp only [count, total] <;> omega
    rw [List.foldl_cons, ih, hone, List.length_cons]
    omega

end LossStats

namespace LossyLink

variable {σ γ : Type} [Link σ] [RandomSource γ]

def fresh (inner : σ) (seed : UInt64) (dropRate corruptRate : Float) : LossyLink σ γ :=
  ((ofSeed inner seed).withDropRate dropRate).withCorruptRate corruptRate

/-- One write: the inner link gets what the fate leaves of the buffer, and the writer is told that
it was taken. -/
theorem exists_write (laws : RandomSource.Laws γ) {s : LossyLink σ γ} {bytes : Bytes}
    (hd : IsProbability s.dropRate) (hc : IsProbability s.corruptRate) (ht : TakesAll s.inner)
    (hb : bytes ≠ []) {fate : Fate} {g : γ}
    (hf : Fate.draw s.dropRate s.corruptRate bytes.length s.source = some (fate, g))
    (timeout : Millis) :
    ∃ inner forwarded, Link.write s bytes timeout = some (.ok bytes.length,
        { s with inner, source := g, stats := s.stats.count fate }) ∧
      Turn.Becomes (some fate) (.write bytes timeout (.ok bytes.length)) forwarded ∧
      Serves s.inner forwarded.toList inner := by
  have hwrite : Link.write s bytes timeout = s.write bytes timeout := rfl
  cases fate with
  | passed =>
    obtain ⟨inner, hinner⟩ := ht [] s.inner (.done _) bytes timeout
    refine ⟨inner, _, ?_, .passed hb, .write hinner (.done inner)⟩
    simp [hwrite, write, writeInner, hb, hf, Fate.apply, hinner]
  | dropped =>
    refine ⟨s.inner, _, ?_, .dropped hb, .done _⟩
    simp [hwrite, write, hb, hf, Fate.apply]
  | corrupted index bit =>
    obtain ⟨hi, hbit⟩ := Fate.lt_of_draw laws hd hc (List.length_pos_of_ne_nil hb) hf
    obtain ⟨inner, hinner⟩ := ht [] s.inner (.done _) (flipBit bytes index bit) timeout
    rw [length_flipBit] at hinner
    refine ⟨inner, _, ?_, .corrupted hb (oneBitApart_flipBit hi hbit), .write hinner (.done inner)⟩
    simp [hwrite, write, writeInner, hb, hf, Fate.apply, hinner]

/-- An empty buffer goes on as it is, and nothing is drawn for it. -/
theorem write_nil {s : LossyLink σ γ} {inner : σ} {timeout : Millis}
    (hinner : Link.write s.inner [] timeout = some (.ok 0, inner)) :
    Link.write s [] timeout = some (.ok 0, { s with inner }) := by
  change (Link.write s.inner [] timeout).map _ = _
  rw [hinner]
  rfl

theorem exists_taken (laws : RandomSource.Laws γ) {s : LossyLink σ γ}
    (hd : IsProbability s.dropRate) (hc : IsProbability s.corruptRate) (ht : TakesAll s.inner)
    (bytes : Bytes) (timeout : Millis) :
    ∃ s', Link.write s bytes timeout = some (.ok bytes.length, s') := by
  by_cases hb : bytes = []
  · subst hb
    obtain ⟨inner, hinner⟩ := ht [] s.inner (.done _) [] timeout
    exact ⟨_, write_nil hinner⟩
  · obtain ⟨fate, g, hdraw⟩ := Fate.exists_draw laws hd hc bytes.length s.source
    obtain ⟨inner, -, hwrite, -⟩ := exists_write laws hd hc ht hb hdraw timeout
    exact ⟨_, hwrite⟩

/-- A run: the fates are those that the lengths draw, and what they leave of the buffers goes on to
the inner link. -/
theorem forwards_of_serves (laws : RandomSource.Laws γ) {s s' : LossyLink σ γ} {log : List Turn}
    (hs : Serves s log s') (hd : IsProbability s.dropRate) (hc : IsProbability s.corruptRate)
    (ht : TakesAll s.inner) {fates : List Fate} {g : γ}
    (hf : Fate.drawAll s.dropRate s.corruptRate (lengths log) s.source = some (fates, g)) :
    s' = { s with
      inner := s'.inner, source := g, stats := fates.foldl LossStats.count s.stats } ∧
    ∃ innerLog, Forwards fates log innerLog ∧ Serves s.inner innerLog s'.inner := by
  induction hs generalizing fates with
  | done s =>
    cases hf
    exact ⟨rfl, [], .nil, .done s.inner⟩
  | @read s s₁ s' capacity timeout answer log served later ih =>
    -- Nothing is drawn: the same fates are still to come, from the same source.
    obtain ⟨⟨_, inner⟩, hinner, hstep⟩ := Option.map_eq_some_iff.1 served
    cases hstep
    have hserved : Serves s.inner [.read capacity timeout answer] inner :=
      .read hinner (.done inner)
    obtain ⟨hend, innerLog, hforwards, hinnerLog⟩ := ih hd hc (ht.serves hserved) hf
    exact ⟨hend, _, .cons (.read capacity timeout answer) hforwards, hserved.trans hinnerLog⟩
  | @write s s₁ s' bytes timeout answer log served later ih =>
    by_cases hb : bytes = []
    · subst hb
      obtain ⟨inner, hinner⟩ := ht [] s.inner (.done _) [] timeout
      rw [write_nil hinner] at served
      cases served
      have hserved : Serves s.inner [.write [] timeout (.ok 0)] inner := .write hinner (.done inner)
      obtain ⟨hend, innerLog, hforwards, hinnerLog⟩ := ih hd hc (ht.serves hserved) hf
      exact ⟨hend, _, .cons (.empty timeout) hforwards, hserved.trans hinnerLog⟩
    · -- The first fate is drawn for this buffer, and the rest from where that leaves the source.
      obtain ⟨fate, g₁, hdraw⟩ := Fate.exists_draw laws hd hc bytes.length s.source
      obtain ⟨fates', g', hall, -⟩ := Fate.exists_drawAll laws hd hc (lengths log) g₁
      rw [lengths_write hb, Fate.drawAll_cons hdraw hall] at hf
      cases hf
      obtain ⟨inner, forwarded, hwrite, hbecomes, hserved⟩ :=
        exists_write laws hd hc ht hb hdraw timeout
      rw [hwrite] at served
      cases served
      obtain ⟨hend, innerLog, hforwards, hinnerLog⟩ := ih hd hc (ht.serves hserved) hall
      exact ⟨hend, _, .cons hbecomes hforwards, hserved.trans hinnerLog⟩

theorem takesAll (laws : RandomSource.Laws γ) {s : LossyLink σ γ} (hd : IsProbability s.dropRate)
    (hc : IsProbability s.corruptRate) (ht : TakesAll s.inner) : TakesAll s := by
  intro log s' hs bytes timeout
  obtain ⟨fates, g, hall, -⟩ := Fate.exists_drawAll laws hd hc (lengths log) s.source
  obtain ⟨hend, innerLog, -, hserved⟩ := forwards_of_serves laws hs hd hc ht hall
  have hdrop : s'.dropRate = s.dropRate := by rw [hend]
  have hcorrupt : s'.corruptRate = s.corruptRate := by rw [hend]
  exact exists_taken laws (hdrop ▸ hd) (hcorrupt ▸ hc) (ht.serves hserved) bytes timeout

/-- Whatever the source of randomness, if only it draws numbers in their range: the seed, the rates,
if only they are numbers, and the lengths of the buffers settle what becomes of them, whatever they
are, whatever is read in between and whatever link is behind. That link is to take all that is
written to it; then so does the lossy one. It gets the reads as they are made, and of the buffers
what their fates leave of them: the same, nothing, or one that a single bit tells apart, so that no
damage to an intact buffer goes unseen. -/
theorem forwarding (laws : RandomSource.Laws γ) {dropRate corruptRate : Float}
    (hd : dropRate.isNaN = false) (hc : corruptRate.isNaN = false) (seed : UInt64)
    (sizes : List Nat) :
    ∃ fates, ∃ g : γ, Fate.drawAll (nearestRate dropRate) (nearestRate corruptRate) sizes
        (RandomSource.ofSeed seed) = some (fates, g) ∧
      ∀ {σ : Type} [Link σ] (inner : σ), TakesAll inner →
        TakesAll (fresh inner seed dropRate corruptRate : LossyLink σ γ) ∧
        ∀ log, ∀ s : LossyLink σ γ, Serves (fresh inner seed dropRate corruptRate) log s →
          lengths log = sizes →
          (∀ capacity timeout, Link.read s capacity timeout =
            (Link.read s.inner capacity timeout).map fun (answer, inner) =>
              (answer, { s with inner })) ∧
          s.source = g ∧ s.stats = fates.foldl LossStats.count {} ∧
          s.stats.passed + s.stats.dropped + s.stats.corrupted = sizes.length ∧
          ∃ innerLog, Serves inner innerLog s.inner ∧ Forwards fates log innerLog ∧
            ∃ kept, kept.Sublist (written log) ∧ List.Forall₂ (fun bytes arriving =>
              isIntact bytes = true → arriving = bytes ∨ isIntact arriving = false)
              kept (written innerLog) := by
  have hdrop := isProbability_nearestRate hd
  have hcorrupt := isProbability_nearestRate hc
  obtain ⟨fates, g, hall, hcount⟩ :=
    Fate.exists_drawAll laws hdrop hcorrupt sizes (RandomSource.ofSeed seed)
  refine ⟨fates, g, hall, fun inner ht => ⟨takesAll laws hdrop hcorrupt ht, ?_⟩⟩
  rintro log s hs rfl
  obtain ⟨hend, innerLog, hforwards, hserved⟩ := forwards_of_serves laws hs hdrop hcorrupt ht hall
  have hstats : s.stats = fates.foldl LossStats.count {} := by
    rw [hend]
    rfl
  have htotal : s.stats.total = (lengths log).length := by
    rw [hstats, LossStats.total_foldl_count, hcount]
    exact Nat.zero_add _
  have hsource : s.source = g := by rw [hend]
  exact ⟨fun _ _ => rfl, hsource, hstats, htotal, innerLog, hserved, hforwards,
    hforwards.exists_kept⟩

/-- Of three frames one passes, one is lost and one is damaged; the read before them and the empty
buffer between them take no part in it. -/
theorem forwarding_of_three_frames :
    ∃ log, ∃ s : LossyLink ScriptedLink Generator, ∃ innerLog,
      Serves (fresh {} 0 0.25 0.5) log s ∧
      written log = [[0x10, 0x01, 0x61, 0x39], [], [0x0a, 0x5f], [0x10, 0x01, 0x62, 0x48]] ∧
      Serves ({} : ScriptedLink) innerLog s.inner ∧
      Forwards [.passed, .dropped, .corrupted 3 0] log innerLog ∧ s.stats = ⟨1, 1, 1⟩ := by
  obtain ⟨fates, g, hdrawn, hrun⟩ :=
    forwarding Generator.laws (by decide : (0.25 : Float).isNaN = false)
      (by decide : (0.5 : Float).isNaN = false) 0 [4, 2, 4]
  have hfates : some fates = some [.passed, .dropped, .corrupted 3 0] := by
    rw [← show (Fate.drawAll _ _ [4, 2, 4] _).map Prod.fst = some fates by rw [hdrawn]; rfl]
    decide +kernel
  obtain rfl := Option.some.inj hfates
  obtain ⟨htakes, hlog⟩ := hrun ({} : ScriptedLink) (ScriptedLink.takesAll rfl)
  have hread : Link.read (fresh {} 0 0.25 0.5 : LossyLink ScriptedLink Generator) 256 200 =
      some (.error .closed, _) := rfl
  obtain ⟨s, hwrites⟩ := (htakes.serves (.read hread (.done _))).exists_serves
    [[0x10, 0x01, 0x61, 0x39], [], [0x0a, 0x5f], [0x10, 0x01, 0x62, 0x48]] 200
  have hserves := Serves.read hread hwrites
  obtain ⟨-, -, hstats, -, innerLog, hinner, hforwards, -⟩ := hlog _ s hserves rfl
  exact ⟨_, s, innerLog, hserves, rfl, hinner, hforwards, hstats⟩

end LossyLink

end StopAndWait
