/-
NUL-terminated strings in byte memory.

`StringAt m a l` says that the bytes `l` are at `a` and a 0 follows; no
byte of `l` is 0, so an address has at most one string. A suffix of a
string is the string at a later address, and a string depends on its own
bytes only.
-/
import Pke.Lib.ByteMem
import Mathlib.Data.List.GetD

namespace ByteMem

/-- The bytes `l`, none of them 0, are at `a`, and a 0 follows. -/
def StringAt (m : Mem) : Nat → List UInt8 → Prop
  | a, [] => m a = 0
  | a, b :: l => b ≠ 0 ∧ m a = b ∧ StringAt m (a + 1) l

instance decidableStringAt (m : Mem) :
    (a : Nat) → (l : List UInt8) → Decidable (StringAt m a l)
  | a, [] => inferInstanceAs (Decidable (m a = 0))
  | a, b :: l =>
      have := decidableStringAt m (a + 1) l
      inferInstanceAs (Decidable (b ≠ 0 ∧ m a = b ∧ StringAt m (a + 1) l))

variable {m m' : Mem} {a : Nat} {l l' : List UInt8}

/-- A string is its bytes and the 0 behind them. -/
theorem stringAt_iff : ∀ {a : Nat} {l : List UInt8},
    StringAt m a l ↔
      (∀ b ∈ l, b ≠ 0) ∧ ∀ k ≤ l.length, m (a + k) = l.getD k 0 := by
  intro a l
  induction l generalizing a with
  | nil =>
      refine ⟨fun h => ⟨nofun, fun k hk => ?_⟩, fun h => h.2 0 (Nat.le_refl _)⟩
      obtain rfl : k = 0 := Nat.le_zero.mp hk
      exact h
  | cons b l ih =>
      constructor
      · rintro ⟨hb, hm, hl⟩
        obtain ⟨hne, hbytes⟩ := ih.mp hl
        refine ⟨fun b' hmem => ?_, fun k hk => ?_⟩
        · rcases List.mem_cons.mp hmem with rfl | hmem
          · exact hb
          · exact hne b' hmem
        · cases k with
          | zero => exact hm
          | succ k =>
              rw [List.getD_cons_succ, ← hbytes k (Nat.le_of_succ_le_succ hk),
                Nat.add_assoc, Nat.add_comm 1]
      · rintro ⟨hne, hbytes⟩
        refine ⟨hne b List.mem_cons_self, hbytes 0 (Nat.zero_le _), ih.mpr ⟨?_, ?_⟩⟩
        · exact fun b' hmem => hne b' (List.mem_cons_of_mem b hmem)
        · intro k hk
          have h := hbytes (k + 1) (Nat.succ_le_succ hk)
          rw [List.getD_cons_succ] at h
          rw [Nat.add_assoc, Nat.add_comm 1]
          exact h

/-- The bytes a pointer leads to spell `l`. -/
def Spells (s : Nat → UInt8) (l : List UInt8) : Prop :=
  (∀ b ∈ l, b ≠ 0) ∧ ∀ k ≤ l.length, s k = l.getD k 0

theorem StringAt.spells (h : StringAt m a l) : Spells (fun k => m (a + k)) l :=
  stringAt_iff.mp h

theorem spells_list (h : ∀ b ∈ l, b ≠ 0) : Spells (l.getD · 0) l :=
  ⟨h, fun _ _ => rfl⟩

/-- Inside the string there is no 0. -/
theorem Spells.lt {s : Nat → UInt8} (h : Spells s l) {k : Nat}
    (hk : k ≤ l.length) (hne : s k ≠ 0) : k < l.length := by
  apply Nat.lt_of_le_of_ne hk
  rintro rfl
  apply hne
  rw [h.2 _ (Nat.le_refl _), List.getD_eq_default _ _ (Nat.le_refl _)]

theorem Spells.eq_length {s : Nat → UInt8} (h : Spells s l) {k : Nat}
    (hk : k ≤ l.length) (hz : s k = 0) : k = l.length := by
  by_contra hne
  have hlt : k < l.length := Nat.lt_of_le_of_ne hk hne
  rw [h.2 k hk, List.getD_eq_getElem _ _ hlt] at hz
  exact h.1 _ (List.getElem_mem hlt) hz

/-- A pointer leads to one string. -/
theorem Spells.unique {s : Nat → UInt8} (h : Spells s l) (h' : Spells s l') :
    l = l' := by
  have hlen : l.length = l'.length := by
    rcases Nat.le_total l.length l'.length with hle | hle
    · apply h'.eq_length hle
      rw [h.2 _ (Nat.le_refl _), List.getD_eq_default _ _ (Nat.le_refl _)]
    · symm
      apply h.eq_length hle
      rw [h'.2 _ (Nat.le_refl _), List.getD_eq_default _ _ (Nat.le_refl _)]
  apply List.ext_getElem hlen
  intro k hk hk'
  have heq := (h.2 k (Nat.le_of_lt hk)).symm.trans (h'.2 k (Nat.le_of_lt hk'))
  rw [List.getD_eq_getElem _ _ hk, List.getD_eq_getElem _ _ hk'] at heq
  exact heq

theorem StringAt.agree (h : StringAt m a l)
    (hag : Agree m m' a (a + l.length + 1)) : StringAt m' a l := by
  obtain ⟨hne, hbytes⟩ := stringAt_iff.mp h
  refine stringAt_iff.mpr ⟨hne, fun k hk => ?_⟩
  rw [hag (a + k) (Nat.le_add_right ..) (by omega)]
  exact hbytes k hk

/-- An address has at most one string. -/
theorem StringAt.unique (h : StringAt m a l) (h' : StringAt m a l') : l = l' := by
  induction l generalizing a l' with
  | nil =>
      cases l' with
      | nil => rfl
      | cons b' l' => exact absurd (h'.2.1.symm.trans h) h'.1
  | cons b l ih =>
      cases l' with
      | nil => exact absurd (h.2.1.symm.trans h') h.1
      | cons b' l' =>
          rw [h.2.1.symm.trans h'.2.1, ih h.2.2 h'.2.2]

/-- The string at an address within a string. -/
theorem StringAt.drop (h : StringAt m a l) {k : Nat} (hk : k ≤ l.length) :
    StringAt m (a + k) (l.drop k) := by
  induction k generalizing a l with
  | zero => exact h
  | succ k ih =>
      cases l with
      | nil => exact absurd hk (Nat.not_succ_le_zero k)
      | cons b l =>
          rw [List.drop_succ_cons, Nat.add_comm k, ← Nat.add_assoc]
          exact ih h.2.2 (Nat.le_of_succ_le_succ hk)

/-- A terminator. -/
theorem store_zero (m : Mem) (a b : Nat) :
    store m 1 a 0 b = if b = a then 0 else m b := by
  unfold store
  by_cases hb : b = a
  · subst hb
    rw [if_pos ⟨Nat.le_refl b, Nat.lt_succ_self b⟩, if_pos rfl, Nat.zero_div]
    rfl
  · rw [if_neg (by omega), if_neg hb]

/-- A word of zeros is an empty string. -/
theorem stringAt_nil_of_load {n : Nat} (h : load m (n + 1) a = 0) :
    StringAt m a [] := by
  have hsum : (m a).toNat + 256 * load m n (a + 1) = 0 := h
  exact UInt8.toNat_inj.mp (Nat.eq_zero_of_add_eq_zero_right hsum)

/-- A copied string. -/
theorem StringAt.copy {dst : Nat} (h : StringAt m a l) :
    StringAt (copy m dst a (l.length + 1)) dst l := by
  obtain ⟨hne, hbytes⟩ := stringAt_iff.mp h
  refine stringAt_iff.mpr ⟨hne, fun k hk => ?_⟩
  rw [← hbytes k hk]
  show (if dst ≤ dst + k ∧ dst + k < dst + (l.length + 1) then
    m (a + (dst + k - dst)) else m (dst + k)) = _
  rw [if_pos ⟨Nat.le_add_right .., by omega⟩, Nat.add_sub_cancel_left]

end ByteMem
