import StopAndWait.Wire.Frame

namespace StopAndWait

def chunks (size : Nat) (bytes : Bytes) : List Bytes :=
  -- A piece has at least one byte, so the length bounds their number.
  go bytes.length bytes
where
  go : Nat → Bytes → List Bytes
    | _, [] => []
    | 0, _ => []
    | bound + 1, first :: rest =>
      (first :: rest.take (size - 1)) :: go bound (rest.drop (size - 1))

def numbered (sequence : UInt8) : List Bytes → List Frame
  | [] => []
  | payload :: rest => .data (sequence + 1) payload :: numbered (sequence + 1) rest

def plan (message : Bytes) (capacity : Nat) : List Frame :=
  if message = [] then []
  else if message.length ≤ capacity then [.data 1 message]
  else .control .seqBegin :: (numbered 0 (chunks capacity message) ++ [.control .seqEnd])

def plan? (message : Bytes) (capacity : Nat) : Option (List Frame) :=
  if capacity = 0 ∧ message ≠ [] then none else some (plan message capacity)

@[simp] theorem plan_nil (capacity : Nat) : plan [] capacity = [] := rfl

@[simp] theorem chunks_nil (size : Nat) : chunks size [] = [] := rfl

/-- Any bound that covers the bytes gives the same pieces. -/
theorem chunks_go_congr (size : Nat) (bound : Nat) (bytes : Bytes) (hb : bytes.length ≤ bound) :
    chunks.go size bound bytes = chunks size bytes := by
  suffices h : ∀ b₁ b₂ (bs : Bytes), bs.length ≤ b₁ → bs.length ≤ b₂ →
      chunks.go size b₁ bs = chunks.go size b₂ bs from h _ _ _ hb (Nat.le_refl _)
  intro b₁
  induction b₁ with
  | zero =>
    intro b₂ bs h₁ _
    rw [List.eq_nil_of_length_eq_zero (Nat.le_zero.1 h₁)]
    simp [chunks.go]
  | succ b₁ ih =>
    intro b₂ bs h₁ h₂
    match b₂, bs with
    | b₂, [] => simp [chunks.go]
    | b₂ + 1, first :: rest =>
      simp only [List.length_cons, Nat.add_le_add_iff_right] at h₁ h₂
      have hd : (rest.drop (size - 1)).length ≤ rest.length := by simp
      simp only [chunks.go]
      rw [ih b₂ _ (Nat.le_trans hd h₁) (Nat.le_trans hd h₂)]

theorem chunks_cons (size : Nat) (first : UInt8) (rest : Bytes) :
    chunks size (first :: rest) =
      (first :: rest.take (size - 1)) :: chunks size (rest.drop (size - 1)) := by
  rw [← chunks_go_congr size rest.length (rest.drop (size - 1)) (by simp)]
  rfl

theorem flatten_chunks (size : Nat) (bytes : Bytes) : (chunks size bytes).flatten = bytes := by
  match bytes with
  | [] => rfl
  | first :: rest =>
    have ih := flatten_chunks size (rest.drop (size - 1))
    simp [chunks_cons, ih]
termination_by bytes.length
decreasing_by simp only [List.length_drop, List.length_cons]; omega

end StopAndWait
