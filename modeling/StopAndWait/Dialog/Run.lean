import StopAndWait.Dialog.Basic

namespace StopAndWait

/-- The state of a link answers reads and writes, each within a wait. `none` stands for a call that
does not return. -/
class Link (σ : Type) where
  read : σ → Nat → Millis → Option (Except LinkError Bytes × σ)
  write : σ → Bytes → Millis → Option (Except LinkError Nat × σ)

class Site (σ : Type) extends Link σ where
  now : σ → Instant × σ

-- The clock moves on by one with each reading, and not while the link waits.
structure Clocked (σ : Type) where
  link : σ
  clock : Instant := 0

instance {σ : Type} [Link σ] : Site (Clocked σ) where
  read s capacity timeout :=
    (Link.read s.link capacity timeout).map fun (answer, link) => (answer, { s with link })
  write s bytes timeout :=
    (Link.write s.link bytes timeout).map fun (answer, link) => (answer, { s with link })
  now s := (s.clock, { s with clock := s.clock + 1 })

namespace Dialog

variable {α σ : Type}

def respond [Site σ] (site : σ) : (request : Request) → Option (request.Answer × σ)
  | .read capacity timeout => Link.read site capacity timeout
  | .write bytes timeout => Link.write site bytes timeout
  | .now => some (Site.now site)
  | .note _ => some ((), site)

/-- Take at most `bound` steps. `none` if the dialogue has not ended by then, or its link does not
return. -/
def run [Site σ] : Nat → Dialog α → σ → Option (α × σ)
  | 0, _, _ => none
  | bound + 1, d, site =>
    match d.view with
    | .done result => some (result, site)
    | .silent next => run bound next site
    | .ask request next =>
      match respond site request with
      | none => none
      | some (answer, site) => run bound (next answer) site

/-- A bound that suffices suffices with one step more. -/
theorem run_succ [Site σ] {bound : Nat} {d : Dialog α} {site : σ} {out : α × σ}
    (h : run bound d site = some out) : run (bound + 1) d site = some out := by
  induction bound generalizing d site with
  | zero => simp [run] at h
  | succ bound ih =>
    rw [run] at h ⊢
    split at h
    · simpa using h
    · exact ih h
    · split at h
      · simp at h
      · exact ih h

end Dialog

end StopAndWait
