/-
The last item of a list that has a property.

A loop that overwrites a variable whenever an item has the property ends
with the value of the last such item, or with the value it began with
(`lastThat_cons`, read from left to right).
-/
import Mathlib.Data.List.Basic

namespace LastThat

variable {α β : Type} {p : α → Bool} {f : α → β}

/-- `f` of the last item with property `p`, `given` if there is none. -/
def lastThat (p : α → Bool) (f : α → β) (given : β) (l : List α) : β :=
  match (l.filter p).getLast? with
  | some a => f a
  | none => given

theorem lastThat_append (given : β) (l l' : List α) :
    lastThat p f given (l ++ l') = lastThat p f (lastThat p f given l) l' := by
  unfold lastThat
  rw [List.filter_append, List.getLast?_append]
  cases (l'.filter p).getLast? with
  | none => rfl
  | some a => rfl

theorem lastThat_one (given : β) (a : α) :
    lastThat p f given [a] = if p a then f a else given := by
  unfold lastThat
  cases hp : p a with
  | true => simp [hp]
  | false => simp [hp]

theorem lastThat_cons (given : β) (a : α) (l : List α) :
    lastThat p f given (a :: l) = lastThat p f (if p a then f a else given) l := by
  rw [← List.singleton_append, lastThat_append, lastThat_one]

end LastThat
