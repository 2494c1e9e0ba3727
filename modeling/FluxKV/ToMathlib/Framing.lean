import Mathlib.Data.List.Basic
import Mathlib.Order.Basic

/-! # Cutting a stream into frames

A framer looks at the front of a stream and says that a whole frame stands there, that more input is
needed, or that no frame can start there. Once it sees a whole frame, input that arrives later does
not change its mind. `frames` cuts a stream frame by frame. Whatever way the stream came in, frames
cut off its front earlier are the first frames of the stream.
-/

namespace FluxKV

/-- What stands at the front of a stream. -/
inductive Cut where
  | more
  | bad
  | whole (length : ℕ)
deriving DecidableEq, Repr

structure Framer (α : Type*) where
  cut : List α → Cut
  pos_of_whole : ∀ {stream n}, cut stream = .whole n → 0 < n
  le_of_whole : ∀ {stream n}, cut stream = .whole n → n ≤ stream.length
  whole_take_append : ∀ {stream n} (later : List α), cut stream = .whole n → cut (stream.take n ++ later) = .whole n

namespace Framer

variable {α : Type*} (F : Framer α)

def IsFrame (frame : List α) : Prop := F.cut frame = .whole frame.length

instance (frame : List α) : Decidable (F.IsFrame frame) := inferInstanceAs (Decidable (_ = _))

/-- The frames of a stream, up to the first place where none can start, and whether there is one. -/
def split : ℕ → List α → List (List α) × Bool
  | 0, _ => ([], false)
  | fuel + 1, stream =>
    match F.cut stream with
    | .more => ([], false)
    | .bad => ([], true)
    | .whole n => (stream.take n :: (split fuel (stream.drop n)).1, (split fuel (stream.drop n)).2)

def frames (stream : List α) : List (List α) × Bool := F.split (stream.length + 1) stream

variable {F} {frame stream : List α} {n : ℕ}

theorem isFrame_take (whole : F.cut stream = .whole n) : F.IsFrame (stream.take n) := by
  have same := F.whole_take_append [] whole
  rw [List.append_nil] at same
  rw [IsFrame, same, List.length_take_of_le (F.le_of_whole whole)]

theorem IsFrame.cut_append (isFrame : F.IsFrame frame) (later : List α) :
    F.cut (frame ++ later) = .whole frame.length := by
  have same := F.whole_take_append later isFrame
  rwa [List.take_length] at same

/-- Two frames at the front of one stream are one frame. -/
theorem IsFrame.eq_of_append_eq {other later later' : List α} (isFrame : F.IsFrame frame)
    (isFrame' : F.IsFrame other) (same : frame ++ later = other ++ later') : frame = other := by
  have lengths := isFrame.cut_append later
  rw [same, isFrame'.cut_append later'] at lengths
  exact List.append_inj_left same (Cut.whole.inj lengths).symm

/-- Any fuel beyond the length of the stream will do. -/
private theorem split_eq {fuel other : ℕ} (enough : stream.length < fuel) (enough' : stream.length < other) :
    F.split fuel stream = F.split other stream := by
  induction fuel generalizing stream other with
  | zero => exact absurd enough (Nat.not_lt_zero _)
  | succ fuel ih =>
    obtain ⟨other, rfl⟩ := Nat.exists_eq_add_one_of_ne_zero (Nat.ne_zero_of_lt enough')
    simp only [split]
    cases front : F.cut stream with
    | more | bad => rfl
    | whole n =>
      have shorter : (stream.drop n).length < stream.length := by
        have := F.pos_of_whole front
        have := F.le_of_whole front
        rw [List.length_drop]
        omega
      have same : F.split fuel (stream.drop n) = F.split other (stream.drop n) := by
        apply ih <;> omega
      simp only [same]

theorem frames_of_more (more : F.cut stream = .more) : F.frames stream = ([], false) := by
  simp only [frames, split, more]

theorem frames_cons (isFrame : F.IsFrame frame) (later : List α) :
    F.frames (frame ++ later) = (frame :: (F.frames later).1, (F.frames later).2) := by
  have positive := F.pos_of_whole isFrame
  have rest : F.split (frame ++ later).length later = F.frames later := by
    apply split_eq
    · rw [List.length_append]
      omega
    · exact Nat.lt_succ_self _
  simp only [frames, split, isFrame.cut_append later, List.take_left, List.drop_left, rest]

/-- Frames already cut off come first, whatever follows them. -/
theorem frames_flatten_append {taken : List (List α)} (areFrames : ∀ frame ∈ taken, F.IsFrame frame) (later : List α) :
    F.frames (taken.flatten ++ later) = (taken ++ (F.frames later).1, (F.frames later).2) := by
  induction taken with
  | nil => rfl
  | cons frame taken ih =>
    rw [List.flatten_cons, List.append_assoc, frames_cons (areFrames frame List.mem_cons_self),
      ih fun other member => areFrames other (List.mem_cons_of_mem _ member)]
    rfl

end Framer

end FluxKV
