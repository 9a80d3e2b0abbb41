/-
What `strlen` computes, told by the strings in memory.
-/
import Pke.Model.Util
import Pke.Lib.CString

namespace Pke.Util

open ByteMem Traced

variable {m : Mem} {a fuel : Nat} {l : List UInt8}

theorem strend_run (h : StringAt m a l) (hfuel : l.length < fuel) :
    strend m fuel a = some (a + l.length) := by
  induction l generalizing a fuel with
  | nil =>
      obtain ⟨fuel, rfl⟩ := Nat.exists_eq_succ_of_ne_zero (Nat.ne_of_gt hfuel)
      have hz : m a = 0 := h
      rw [Nat.succ_eq_add_one, strend, if_neg (not_not.mpr hz)]
      rfl
  | cons b l ih =>
      obtain ⟨fuel, rfl⟩ := Nat.exists_eq_succ_of_ne_zero
        (Nat.ne_of_gt (Nat.zero_lt_of_lt hfuel))
      obtain ⟨hb, hm, hl⟩ := h
      rw [Nat.succ_eq_add_one, strend, if_pos (hm ▸ hb),
        ih hl (Nat.lt_of_succ_lt_succ hfuel), List.length_cons]
      congr 1
      omega

theorem strlen_run (h : StringAt m a l) (hfuel : l.length < fuel) :
    strlen m fuel a = some l.length := by
  unfold strlen
  rw [strend_run h hfuel, Option.map_some, Nat.add_sub_cancel_left]

/-- Only a string makes `strlen` return. -/
theorem strend_stringAt {e : Nat} (h : strend m fuel a = some e) :
    ∃ l, StringAt m a l ∧ e = a + l.length ∧ l.length < fuel := by
  induction fuel generalizing a with
  | zero => cases h
  | succ fuel ih =>
      rw [strend] at h
      by_cases hz : m a = 0
      · rw [if_neg (not_not.mpr hz)] at h
        cases h
        exact ⟨[], hz, rfl, Nat.succ_pos _⟩
      · rw [if_pos hz] at h
        obtain ⟨l, hl, he, hlen⟩ := ih h
        refine ⟨m a :: l, ⟨hz, rfl, hl⟩, ?_, Nat.succ_lt_succ hlen⟩
        rw [he, List.length_cons]
        omega

theorem strlen_stringAt {n : Nat} (h : strlen m fuel a = some n) :
    ∃ l, StringAt m a l ∧ n = l.length ∧ l.length < fuel := by
  unfold strlen at h
  obtain ⟨e, he, hn⟩ := Option.map_eq_some_iff.mp h
  obtain ⟨l, hl, rfl, hlen⟩ := strend_stringAt he
  exact ⟨l, hl, by rw [← hn, Nat.add_sub_cancel_left], hlen⟩

end Pke.Util
