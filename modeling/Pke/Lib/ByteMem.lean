/-
Byte-addressed memory: the raw store every structure of a C kernel is
laid out in. A memory is a total function from addresses to bytes;
multi-byte words are little-endian, read with `load` and written with
`store`, and block operations (`fill`, `copy`) are pointwise.

The library's one interface to the layers above is agreement on an
interval (`Agree`): a word read depends only on the bytes it spans
(`load_agree`), and every write agrees with the old memory off the
interval it names (`store_agree`, `fill_agree`, `copy_agree`). Frame
arguments are chains of these; nothing above this file unfolds a byte.
-/
import Mathlib.Data.Nat.Basic
import Mathlib.Algebra.Order.Ring.Nat

namespace ByteMem

/-- A byte-addressed memory. -/
abbrev Mem := Nat → UInt8

/-- Read `n` bytes at `a` as a little-endian number. -/
def load (m : Mem) : Nat → Nat → Nat
  | 0, _ => 0
  | n + 1, a => (m a).toNat + 256 * load m n (a + 1)

/-- Write the low `n` bytes of `v` at `a`, little-endian. -/
def store (m : Mem) (n a v : Nat) : Mem := fun x =>
  if a ≤ x ∧ x < a + n then UInt8.ofNat (v / 256 ^ (x - a)) else m x

/-- Set every byte of `[a, a + n)` to `b`. -/
def fill (m : Mem) (a : Nat) (b : UInt8) (n : Nat) : Mem := fun x =>
  if a ≤ x ∧ x < a + n then b else m x

/-- Copy `[src, src + n)` over `[dst, dst + n)`, all reads before all
writes. -/
def copy (m : Mem) (dst src n : Nat) : Mem := fun x =>
  if dst ≤ x ∧ x < dst + n then m (src + (x - dst)) else m x

/-- The two memories hold the same bytes on `[lo, hi)`. -/
def Agree (m m' : Mem) (lo hi : Nat) : Prop :=
  ∀ x, lo ≤ x → x < hi → m' x = m x

-- ==== agreement

theorem Agree.refl (m : Mem) (lo hi : Nat) : Agree m m lo hi :=
  fun _ _ _ => rfl

theorem Agree.trans {m₁ m₂ m₃ : Mem} {lo hi : Nat}
    (h₁ : Agree m₁ m₂ lo hi) (h₂ : Agree m₂ m₃ lo hi) :
    Agree m₁ m₃ lo hi := by
  intro x hlo hhi
  rw [h₂ x hlo hhi, h₁ x hlo hhi]

theorem Agree.mono {m m' : Mem} {lo hi lo' hi' : Nat}
    (h : Agree m m' lo hi) (hl : lo ≤ lo') (hh : hi' ≤ hi) :
    Agree m m' lo' hi' :=
  fun x hlo hhi => h x (by omega) (by omega)

-- ==== words

/-- A word read depends on nothing but the bytes it spans. -/
theorem load_agree {m m' : Mem} {n a : Nat} (h : Agree m m' a (a + n)) :
    load m' n a = load m n a := by
  induction n generalizing a with
  | zero => rfl
  | succ n ih =>
      have hhead : m' a = m a := h a (Nat.le_refl _) (by omega)
      have htail : load m' n (a + 1) = load m n (a + 1) :=
        ih (h.mono (by omega) (by omega))
      simp only [load, hhead, htail]

/-- A word read elsewhere, from the same bytes. -/
theorem load_shift {m m' : Mem} {n a b : Nat}
    (h : ∀ k < n, m' (b + k) = m (a + k)) : load m' n b = load m n a := by
  induction n generalizing a b with
  | zero => rfl
  | succ n ih =>
      have hhead : m' b = m a := h 0 (Nat.succ_pos n)
      have htail : load m' n (b + 1) = load m n (a + 1) := by
        apply ih
        intro k hk
        have hk' := h (k + 1) (Nat.succ_lt_succ hk)
        rwa [Nat.add_comm k, ← Nat.add_assoc, ← Nat.add_assoc] at hk'
      simp only [load, hhead, htail]

/-- An `n`-byte word is below `256 ^ n`. -/
theorem load_lt (m : Mem) (n a : Nat) : load m n a < 256 ^ n := by
  induction n generalizing a with
  | zero => simp [load]
  | succ n ih =>
      have hb : (m a).toNat < 256 := (m a).toNat_lt
      have ht := ih (a + 1)
      simp only [load, pow_succ]
      omega

/-- The digits of a word are its bytes. -/
theorem load_digit {m : Mem} {n a k : Nat} (hk : k < n) :
    load m n a / 256 ^ k % 256 = (m (a + k)).toNat := by
  induction n generalizing a k with
  | zero => exact absurd hk (Nat.not_lt_zero k)
  | succ n ih =>
      have hb : (m a).toNat < 256 := (m a).toNat_lt
      cases k with
      | zero =>
          simp only [load, Nat.pow_zero, Nat.div_one, Nat.add_zero]
          omega
      | succ k =>
          have hrest := ih (a := a + 1) (Nat.lt_of_succ_lt_succ hk)
          rw [Nat.add_right_comm, Nat.add_assoc] at hrest
          rw [← hrest, pow_succ, Nat.mul_comm, ← Nat.div_div_eq_div_mul]
          simp only [load]
          rw [Nat.add_mul_div_left _ _ (by decide : 0 < 256),
            Nat.div_eq_of_lt hb, Nat.zero_add]

/-- A word of zero bytes is zero. -/
theorem load_eq_zero {m : Mem} {n a : Nat}
    (h : ∀ x, a ≤ x → x < a + n → m x = 0) : load m n a = 0 := by
  induction n generalizing a with
  | zero => rfl
  | succ n ih =>
      have hhead : m a = 0 := h a (Nat.le_refl _) (by omega)
      have htail : load m n (a + 1) = 0 :=
        ih fun x hlo hhi => h x (by omega) (by omega)
      simp [load, hhead, htail]

/-- The suffix of a stored word reads back as the matching digits of
the value: the induction behind `load_store`. -/
private theorem load_store_suffix (m : Mem) (n a v : Nat) :
    ∀ k j, j + k = n →
      load (store m n a v) k (a + j) = v / 256 ^ j % 256 ^ k := by
  intro k
  induction k with
  | zero => intro j _; simp [load, Nat.mod_one]
  | succ k ih =>
      intro j hj
      have hin : a ≤ a + j ∧ a + j < a + n := by omega
      have hbyte : (store m n a v (a + j)).toNat = v / 256 ^ j % 256 := by
        simp only [store, if_pos hin, Nat.add_sub_cancel_left]
        simp
      have htail := ih (j + 1) (by omega)
      simp only [load, hbyte]
      rw [Nat.add_assoc, htail, pow_succ, pow_succ, ← Nat.div_div_eq_div_mul,
        Nat.mul_comm (256 ^ k) 256, Nat.mod_mul]

/-- A word reads back what was stored, truncated to its width. -/
theorem load_store (m : Mem) (n a v : Nat) :
    load (store m n a v) n a = v % 256 ^ n := by
  have h := load_store_suffix m n a v n 0 (by omega)
  simpa using h

-- ==== writes

/-- A store leaves every byte off its word. -/
theorem store_agree (m : Mem) {n a v lo hi : Nat}
    (h : a + n ≤ lo ∨ hi ≤ a) : Agree m (store m n a v) lo hi := by
  intro x hlo hhi
  have hout : ¬ (a ≤ x ∧ x < a + n) := by omega
  simp only [store, if_neg hout]

theorem store_off (m : Mem) {n a v x : Nat} (h : x < a ∨ a + n ≤ x) :
    store m n a v x = m x := by
  have hout : ¬ (a ≤ x ∧ x < a + n) := by omega
  simp only [store, if_neg hout]

/-- A narrow store is a wide one where the bytes behind it are zero. -/
theorem store_widen {m : Mem} {n k a v : Nat} (hv : v < 256 ^ n)
    (hz : ∀ x, a + n ≤ x → x < a + (n + k) → m x = 0) :
    store m n a v = store m (n + k) a v := by
  funext x
  unfold store
  by_cases hin : a ≤ x ∧ x < a + n
  · rw [if_pos hin, if_pos (by omega)]
  · rw [if_neg hin]
    by_cases hbehind : a ≤ x ∧ x < a + (n + k)
    · have hpow : 256 ^ n ≤ 256 ^ (x - a) :=
        Nat.pow_le_pow_right (by decide) (by omega)
      rw [if_pos hbehind, hz x (by omega) hbehind.2,
        Nat.div_eq_of_lt (Nat.lt_of_lt_of_le hv hpow)]
      rfl
    · rw [if_neg hbehind]

/-- The bytes of a word that is zero. -/
theorem eq_zero_of_load {m : Mem} {n a x : Nat} (h : load m n a = 0)
    (hlo : a ≤ x) (hhi : x < a + n) : m x = 0 := by
  obtain ⟨k, rfl⟩ := Nat.exists_eq_add_of_le hlo
  have hdigit := load_digit (m := m) (a := a) (show k < n by omega)
  rw [h, Nat.zero_div] at hdigit
  exact UInt8.toNat_inj.mp hdigit.symm

/-- A fill leaves every byte off its block. -/
theorem fill_agree (m : Mem) {a n lo hi : Nat} {b : UInt8}
    (h : a + n ≤ lo ∨ hi ≤ a) : Agree m (fill m a b n) lo hi := by
  intro x hlo hhi
  have hout : ¬ (a ≤ x ∧ x < a + n) := by omega
  simp only [fill, if_neg hout]

/-- A copy leaves every byte off its destination. -/
theorem copy_agree (m : Mem) {dst src n lo hi : Nat}
    (h : dst + n ≤ lo ∨ hi ≤ dst) : Agree m (copy m dst src n) lo hi := by
  intro x hlo hhi
  have hout : ¬ (dst ≤ x ∧ x < dst + n) := by omega
  simp only [copy, if_neg hout]

/-- A word of a zero-filled block is zero. -/
theorem load_fill_zero (m : Mem) {a n k b : Nat}
    (hlo : a ≤ b) (hhi : b + k ≤ a + n) : load (fill m a 0 n) k b = 0 := by
  refine load_eq_zero fun x hx hx' => ?_
  have hin : a ≤ x ∧ x < a + n := by omega
  simp only [fill, if_pos hin]

-- ==== blocks

@[simp] theorem copy_zero (m : Mem) (dst src : Nat) : copy m dst src 0 = m := by
  funext x
  unfold copy
  rw [if_neg (by omega)]

@[simp] theorem fill_zero (m : Mem) (a : Nat) (b : UInt8) : fill m a b 0 = m := by
  funext x
  unfold fill
  rw [if_neg (by omega)]

/-- Moving a word is copying its bytes. -/
theorem store_load (m : Mem) (n dst src : Nat) :
    store m n dst (load m n src) = copy m dst src n := by
  funext x
  unfold store copy
  by_cases hx : dst ≤ x ∧ x < dst + n
  · rw [if_pos hx, if_pos hx]
    apply UInt8.toNat_inj.mp
    rw [UInt8.toNat_ofNat', load_digit (by omega)]
  · rw [if_neg hx, if_neg hx]

/-- A word of equal bytes fills its block. -/
theorem store_fill (m : Mem) {n a v : Nat} {b : UInt8}
    (hv : ∀ k < n, v / 256 ^ k % 256 = b.toNat) : store m n a v = fill m a b n := by
  funext x
  unfold store fill
  by_cases hx : a ≤ x ∧ x < a + n
  · rw [if_pos hx, if_pos hx]
    apply UInt8.toNat_inj.mp
    rw [UInt8.toNat_ofNat', hv _ (by omega)]
  · rw [if_neg hx, if_neg hx]

/-- A block copied in two parts, if the first is not written over what is
still to be read. -/
theorem copy_add (m : Mem) {dst src n k : Nat}
    (h : dst ≤ src ∨ src + n + k ≤ dst) :
    copy (copy m dst src n) (dst + n) (src + n) k = copy m dst src (n + k) := by
  funext x
  unfold copy
  by_cases hx : dst + n ≤ x ∧ x < dst + n + k
  · rw [if_pos hx, show src + n + (x - (dst + n)) = src + (x - dst) by omega,
      if_neg (by omega), if_pos (by omega)]
  · rw [if_neg hx]
    by_cases hx' : dst ≤ x ∧ x < dst + n
    · rw [if_pos hx', if_pos (by omega)]
    · rw [if_neg hx', if_neg (by omega)]

/-- Copying begins with one byte. -/
theorem copy_one (m : Mem) (dst src : Nat) :
    copy m dst src 1 = store m 1 dst (m src).toNat := by
  rw [← store_load]
  simp only [load, Nat.mul_zero, Nat.add_zero]

/-- Copying goes on with the next byte, if the first one is not written to
a byte still to be read. -/
theorem copy_succ (m : Mem) {dst src n : Nat}
    (h : dst < src + 1 ∨ src + 1 + n ≤ dst) :
    copy (store m 1 dst (m src).toNat) (dst + 1) (src + 1) n
      = copy m dst src (n + 1) := by
  rw [← copy_one, copy_add m (h.imp_left Nat.le_of_lt_succ), Nat.add_comm 1]

/-- A block filled in two parts. -/
theorem fill_add (m : Mem) (a : Nat) (b : UInt8) (n k : Nat) :
    fill (fill m a b n) (a + n) b k = fill m a b (n + k) := by
  funext x
  unfold fill
  by_cases hx : a + n ≤ x ∧ x < a + n + k
  · rw [if_pos hx, if_pos (by omega)]
  · rw [if_neg hx]
    by_cases hx' : a ≤ x ∧ x < a + n
    · rw [if_pos hx', if_pos (by omega)]
    · rw [if_neg hx', if_neg (by omega)]

/-- The bytes a copy delivers. -/
theorem copy_apply (m : Mem) {dst src n k : Nat} (hk : k < n) :
    copy m dst src n (dst + k) = m (src + k) := by
  have hin : dst ≤ dst + k ∧ dst + k < dst + n := by omega
  simp only [copy, if_pos hin, Nat.add_sub_cancel_left]

end ByteMem
