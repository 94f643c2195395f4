import Mathlib.Data.List.Basic
import Mathlib.Tactic.Cases

/-!
A reader that takes a stream one element at a time, until it has a result or the stream ends. What it
leaves of the stream is what stands behind the element that gave the result, however the stream was cut
into chunks.
-/
namespace Feed

variable {σ β ρ : Type*}

/-- Where a reader stands: waiting for more, or with a result and what it left. -/
inductive Fed (σ ρ τ : Type*)
  | waiting (s : σ)
  | stopped (result : ρ) (rest : τ)

def feed (step : σ → β → σ ⊕ ρ) (s : σ) : List β → Fed σ ρ (List β)
  | [] => .waiting s
  | b :: rest =>
    match step s b with
    | .inl s' => feed step s' rest
    | .inr result => .stopped result rest

def feedChunks (step : σ → β → σ ⊕ ρ) (s : σ) : List (List β) → Fed σ ρ (List (List β))
  | [] => .waiting s
  | chunk :: chunks =>
    match feed step s chunk with
    | .waiting s' => feedChunks step s' chunks
    | .stopped result rest => .stopped result (rest :: chunks)

/-- The stream without the cuts. -/
def Fed.joined : Fed σ ρ (List (List β)) → Fed σ ρ (List β)
  | .waiting s => .waiting s
  | .stopped result rest => .stopped result rest.flatten

variable (step : σ → β → σ ⊕ ρ)

theorem feed_append_of_waiting {s s' : σ} {front : List β} (h : feed step s front = .waiting s')
    (back : List β) : feed step s (front ++ back) = feed step s' back := by
  induction front generalizing s with
  | nil =>
    cases h
    rfl
  | cons b rest ih =>
    rw [List.cons_append, feed]
    rw [feed] at h
    split at h
    · exact ih h
    · cases h

theorem feed_append_of_stopped {s : σ} {result : ρ} {front left : List β}
    (h : feed step s front = .stopped result left) (back : List β) :
    feed step s (front ++ back) = .stopped result (left ++ back) := by
  induction front generalizing s with
  | nil => cases h
  | cons b rest ih =>
    rw [List.cons_append, feed]
    rw [feed] at h
    split at h
    · exact ih h
    · cases h
      rfl

/-- The cuts make no difference. -/
theorem joined_feedChunks (s : σ) (chunks : List (List β)) :
    (feedChunks step s chunks).joined = feed step s chunks.flatten := by
  induction chunks generalizing s with
  | nil => rfl
  | cons chunk chunks ih =>
    rw [feedChunks, List.flatten_cons]
    split
    · rename_i s' hwait
      rw [ih, feed_append_of_waiting step hwait]
    · rename_i result rest hstop
      rw [feed_append_of_stopped step hstop]
      rfl

/-- A result comes from one element, after others the reader waited behind. -/
theorem exists_of_stopped {s : σ} {result : ρ} {stream left : List β}
    (h : feed step s stream = .stopped result left) :
    ∃ front b s', stream = front ++ b :: left ∧ feed step s front = .waiting s' ∧
      step s' b = .inr result := by
  induction stream generalizing s with
  | nil => cases h
  | cons b rest ih =>
    rw [feed] at h
    split at h
    · rename_i next hnext
      obtain ⟨front, c, s', hstream, hwait, hlast⟩ := ih h
      exact ⟨b :: front, c, s', by rw [hstream, List.cons_append], by simp only [feed, hnext, hwait], hlast⟩
    · rename_i last hlast
      cases h
      exact ⟨[], b, s, rfl, rfl, hlast⟩

end Feed
