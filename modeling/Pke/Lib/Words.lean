/-
The words of a line: its maximal runs of elements that are no separators.

`words sep l` cuts `l` at the separators and drops the empty pieces. A
scanner meets a line from the front, so its interface is two equations: a
separator in front is skipped (`words_skip`), and a word in front, up to a
separator or the end, is the first one (`words_word`).
-/
import Mathlib.Data.List.Basic

namespace Words

variable {α : Type _} {sep : α → Bool} {l w rest : List α} {a : α}

/-- The pieces between separators that are not empty. -/
def words (sep : α → Bool) (l : List α) : List (List α) :=
  (l.splitOnP sep).filter fun w => !w.isEmpty

theorem words_nil : words sep [] = [] := rfl

theorem words_skip (ha : sep a = true) : words sep (a :: l) = words sep l := by
  unfold words
  rw [List.splitOnP_cons_eq_if_modifyHead, if_pos ha]
  rfl

theorem words_dropWhile (sep : α → Bool) (l : List α) :
    words sep (l.dropWhile sep) = words sep l := by
  induction l with
  | nil => rfl
  | cons a l ih =>
      rw [List.dropWhile_cons]
      by_cases ha : sep a = true
      · rw [if_pos ha, ih, words_skip ha]
      · rw [if_neg ha]

/-- A word, up to the first separator or to the end. -/
theorem words_word (hne : w ≠ []) (hw : ∀ a ∈ w, sep a = false)
    (hrest : ∀ a ∈ rest.head?, sep a = true) :
    words sep (w ++ rest) = w :: words sep rest := by
  have hkeep : ∀ ws : List (List α), (w :: ws).filter (fun w => !w.isEmpty)
      = w :: ws.filter fun w => !w.isEmpty := by
    intro ws
    apply List.filter_cons_of_pos
    rw [Bool.not_eq_true', List.isEmpty_eq_false_iff]
    exact hne
  cases rest with
  | nil =>
      unfold words
      rw [List.append_nil, List.splitOnP_eq_singleton hw, hkeep]
      rfl
  | cons a rest =>
      have ha := hrest a rfl
      rw [words_skip ha]
      unfold words
      rw [List.splitOnP_append_cons_of_forall_mem hw _ ha, hkeep]

/-- A list is the run in front and what is left of it. -/
theorem drop_takeWhile (p : α → Bool) (l : List α) :
    l.drop (l.takeWhile p).length = l.dropWhile p := by
  have hsplit : l.takeWhile p ++ l.dropWhile p = l := List.takeWhile_append_dropWhile
  calc l.drop (l.takeWhile p).length
      = (l.takeWhile p ++ l.dropWhile p).drop (l.takeWhile p).length := by
        rw [hsplit]
    _ = l.dropWhile p := List.drop_left ..

/-- Where a run ends there is nothing left, or an element outside. -/
theorem head_dropWhile {p : α → Bool} (h : a ∈ (l.dropWhile p).head?) :
    p a = false := by
  cases hl : l.dropWhile p with
  | nil =>
      rw [hl] at h
      cases h
  | cons b t =>
      rw [hl] at h
      obtain rfl : b = a := Option.some.inj h
      have hhead := List.head_dropWhile_not p (l := l) (by rw [hl]; simp)
      simp only [hl, List.head_cons] at hhead
      exact hhead

end Words
