/-
The word loops of `memcpy` and `memset` do what their byte loops do.

Every round of a loop moves or fills the block at the front of what is
left, so a loop lemma is about a destination, what is left of the length,
and a memory: the block in front, then the rest (`copy_add`, `fill_add`).
The word loop of `memcpy` stops with less than a word left, which the byte
loop takes; that of `memset` is entered for whole words only.

The models of the kernel call `copy` and `fill`. `memcpy_run` and
`memset_run` say that the source computes them.
-/
import Pke.Model.Util

namespace Pke.Util

open ByteMem Traced

variable {m : Mem} {dest src len d s n stop fuel : Nat} {byte : BitVec 32}

theorem u64_of_lt {a : Nat} (h : a < 2 ^ 64) : u64 a = a := Nat.mod_eq_of_lt h

-- ==== memcpy

/-- The two blocks have no byte in common. -/
def Apart (dest src len : Nat) : Prop := dest + len ≤ src ∨ src + len ≤ dest

/-- What is left of two blocks. -/
theorem Apart.rest {k : Nat} (h : Apart d s (k + n)) :
    Apart (d + k) (s + k) n := by
  unfold Apart at h ⊢
  omega

/-- The source pointer may wrap after the last byte. -/
theorem copyBytes_run (hlt : stop < 2 ^ 64) :
    ∀ {fuel n d s m}, n < fuel → d + n = stop → s + n ≤ 2 ^ 64 → Apart d s n →
      copyBytes stop fuel d (u64 s) m = ([], .ok () (copy m d s n)) := by
  intro fuel
  induction fuel with
  | zero => intro n d s m hfuel; exact absurd hfuel (Nat.not_lt_zero n)
  | succ fuel ih =>
      intro n d s m hfuel hstop hs hapart
      unfold copyBytes
      cases n with
      | zero =>
          rw [if_neg (by omega), copy_zero]
          rfl
      | succ n =>
          have hsrc : u64 s = s := u64_of_lt (by omega)
          have hdst : u64 (d + 1) = d + 1 := u64_of_lt (by omega)
          rw [if_pos (by omega), bind_modify, hdst, hsrc]
          rw [Nat.add_comm n 1] at hapart
          rw [ih (by omega) (by omega) (by omega) hapart.rest]
          unfold Apart at hapart
          rw [copy_succ m (by omega)]

/-- The word loop copies whole words while there are any. -/
theorem copyWords_run (hlt : stop + 7 < 2 ^ 64) :
    ∀ {fuel n d s m}, n < fuel → d + n = stop + 7 → s + n ≤ 2 ^ 64 →
      Apart d s n → ∃ k ≤ n,
        copyWords stop fuel d (u64 s) m
          = ([], .ok (d + k, u64 (s + k)) (copy m d s k)) := by
  intro fuel
  induction fuel with
  | zero => intro n d s m hfuel; exact absurd hfuel (Nat.not_lt_zero n)
  | succ fuel ih =>
      intro n d s m hfuel hstop hs hapart
      unfold copyWords
      by_cases hmore : d < stop
      · obtain ⟨n, rfl⟩ : ∃ n', n = 8 + n' := ⟨n - 8, by omega⟩
        have hsrc : u64 s = s := u64_of_lt (by omega)
        have hdst : u64 (d + 8) = d + 8 := u64_of_lt (by omega)
        obtain ⟨k, hk, hrun⟩ := ih (m := copy m d s 8) (by omega)
          (show d + 8 + n = stop + 7 by omega)
          (show s + 8 + n ≤ 2 ^ 64 by omega) hapart.rest
        refine ⟨8 + k, by omega, ?_⟩
        unfold Apart at hapart
        rw [if_pos hmore, bind_modify, hsrc, wordSize, hdst, store_load, hrun,
          copy_add m (by omega), Nat.add_assoc, Nat.add_assoc]
      · refine ⟨0, Nat.zero_le n, ?_⟩
        rw [if_neg hmore, copy_zero]
        rfl

/-- The byte loop takes what the word loop leaves. -/
theorem copyBytes_rest {k : Nat} (hd : dest + len < 2 ^ 64)
    (hs : src + len ≤ 2 ^ 64) (hapart : Apart dest src len)
    (hfuel : len < fuel) (hk : k ≤ len) :
    copyBytes (dest + len) fuel (dest + k) (u64 (src + k)) (copy m dest src k)
      = ([], .ok () (copy m dest src len)) := by
  obtain ⟨n, rfl⟩ : ∃ n, len = k + n := ⟨len - k, by omega⟩
  rw [copyBytes_run hd (by omega) (by omega) (by omega) hapart.rest]
  unfold Apart at hapart
  rw [copy_add m (by omega)]

/-- `memcpy` copies. -/
theorem memcpy_run (hdest : 8 ≤ dest) (hd : dest + len < 2 ^ 64)
    (hsrc : src < 2 ^ 64) (hs : src + len ≤ 2 ^ 64)
    (hapart : Apart dest src len) (hfuel : len < fuel) (m : Mem) :
    memcpy fuel dest src len m = ([], .ok dest (copy m dest src len)) := by
  have hend : u64 (dest + len) = dest + len := u64_of_lt hd
  have hlast : u64 (dest + len + (2 ^ 64 - (wordSize - 1))) = dest + len - 7 := by
    unfold u64
    simp only [wordSize]
    omega
  unfold memcpy
  rw [hend, hlast]
  by_cases hword : (dest ||| src) &&& (wordSize - 1) = 0
  · rw [if_pos hword]
    have hlt : dest + len - 7 + 7 < 2 ^ 64 := by omega
    obtain ⟨k, hk, hrun⟩ := copyWords_run hlt (m := m) hfuel
      (show dest + len = dest + len - 7 + 7 by omega) hs hapart
    rw [u64_of_lt hsrc] at hrun
    refine bind_run hrun (bind_run (copyBytes_rest hd hs hapart hfuel hk) ?_)
    rfl
  · rw [if_neg hword]
    have hrun := copyBytes_rest (m := m) hd hs hapart hfuel (Nat.zero_le len)
    rw [copy_zero, Nat.add_zero, Nat.add_zero, u64_of_lt hsrc] at hrun
    have hstart : (pure (dest, src) : M (Nat × Nat)) m
        = ([], .ok (dest, src) m) := rfl
    refine bind_run hstart (bind_run hrun ?_)
    rfl

-- ==== memset

/-- The byte that is filled with. -/
def lowByte (byte : BitVec 32) : UInt8 := UInt8.ofNat byte.toNat

theorem lowByte_toNat (byte : BitVec 32) :
    (lowByte byte).toNat = byte.toNat % 256 := UInt8.toNat_ofNat'

/-- A number and its copy next to it. -/
theorem or_shifted {a k : Nat} (ha : a < 2 ^ k) (hk : a * 2 ^ k < 2 ^ 64) :
    a ||| u64 (a <<< k) = a * (2 ^ k + 1) := by
  rw [Nat.shiftLeft_eq, u64_of_lt hk, Nat.or_comm, ← Nat.shiftLeft_eq,
    ← Nat.shiftLeft_add_eq_or_of_lt ha, Nat.shiftLeft_eq, Nat.mul_add,
    Nat.mul_one]

/-- The shifts put the byte into all eight places. -/
theorem fillWord_eq (byte : BitVec 32) :
    fillWord byte = (lowByte byte).toNat * 0x0101010101010101 := by
  have hlow : (byte &&& 0xFF).toNat = (lowByte byte).toNat := by
    rw [lowByte_toNat, BitVec.toNat_and]
    exact Nat.and_two_pow_sub_one_eq_mod byte.toNat 8
  have hb := (lowByte byte).toNat_lt
  have htwice : ∀ w : Nat, w < 2 ^ 32 → u64 (u64 (w <<< 16) <<< 16) = u64 (w <<< 32) := by
    intro w hw
    have h16 : w <<< 16 < 2 ^ 64 := by
      rw [Nat.shiftLeft_eq]
      omega
    rw [u64_of_lt h16, ← Nat.shiftLeft_add]
  unfold fillWord
  rw [hlow]
  generalize (lowByte byte).toNat = b at hb
  simp only
  rw [or_shifted (k := 8) (by omega) (by omega),
    or_shifted (k := 16) (by omega) (by omega), htwice _ (by omega),
    or_shifted (k := 32) (by omega) (by omega)]
  omega

theorem fillWord_digit (byte : BitVec 32) :
    ∀ k < wordSize, fillWord byte / 256 ^ k % 256 = (lowByte byte).toNat := by
  -- it is what a load of eight such bytes returns
  have hload : load (fun _ => lowByte byte) wordSize 0 = fillWord byte := by
    rw [fillWord_eq]
    simp only [load]
    omega
  intro k hk
  rw [← hload, load_digit hk]

theorem fillWords_run (hlt : stop < 2 ^ 64) :
    ∀ {fuel n d m}, n < fuel → d + 8 * n = stop →
      fillWords stop (fillWord byte) fuel d m
        = ([], .ok () (fill m d (lowByte byte) (8 * n))) := by
  intro fuel
  induction fuel with
  | zero => intro n d m hfuel; exact absurd hfuel (Nat.not_lt_zero n)
  | succ fuel ih =>
      intro n d m hfuel hstop
      unfold fillWords
      cases n with
      | zero =>
          rw [if_neg (by omega), Nat.mul_zero, fill_zero]
          rfl
      | succ n =>
          have hdst : u64 (d + wordSize) = d + 8 :=
            u64_of_lt (by simp only [wordSize]; omega)
          rw [if_pos (by omega), bind_modify, hdst,
            store_fill m (fillWord_digit byte),
            ih (n := n) (by omega) (by omega), fill_add, Nat.mul_succ,
            Nat.add_comm (8 * n)]

theorem fillBytes_run (hlt : stop < 2 ^ 64) :
    ∀ {fuel n d m}, n < fuel → d + n = stop →
      fillBytes stop byte fuel d m
        = ([], .ok () (fill m d (lowByte byte) n)) := by
  intro fuel
  induction fuel with
  | zero => intro n d m hfuel; exact absurd hfuel (Nat.not_lt_zero n)
  | succ fuel ih =>
      intro n d m hfuel hstop
      unfold fillBytes
      cases n with
      | zero =>
          rw [if_neg (by omega), fill_zero]
          rfl
      | succ n =>
          have hdst : u64 (d + 1) = d + 1 := u64_of_lt (by omega)
          have hone : store m 1 d byte.toNat = fill m d (lowByte byte) 1 := by
            apply store_fill
            intro k hk
            obtain rfl : k = 0 := by omega
            rw [lowByte_toNat, Nat.pow_zero, Nat.div_one]
          rw [if_pos (by omega), bind_modify, hdst, hone,
            ih (n := n) (by omega) (by omega), fill_add, Nat.add_comm n]

/-- `memset` fills. -/
theorem memset_run (hd : dest + len < 2 ^ 64) (hfuel : len < fuel) (m : Mem) :
    memset fuel dest byte len m
      = ([], .ok dest (fill m dest (lowByte byte) len)) := by
  have hend : u64 (dest + len) = dest + len := u64_of_lt hd
  unfold memset
  rw [hend]
  by_cases hword : (dest ||| len) &&& (wordSize - 1) = 0
  · rw [if_pos hword]
    have hlen : len % 8 = 0 := by
      rw [Nat.and_or_distrib_right] at hword
      have hmod := Nat.and_two_pow_sub_one_eq_mod len 3
      rw [← hmod]
      exact (Nat.or_eq_zero_iff.mp hword).2
    obtain ⟨n, rfl⟩ : ∃ n, len = 8 * n := ⟨len / 8, by omega⟩
    exact bind_run (fillWords_run hd (by omega) rfl) rfl
  · rw [if_neg hword]
    exact bind_run (fillBytes_run hd hfuel rfl) rfl

-- ==== the kernel's primitives

/-- The `memcpy` of the kernel's model is the one of the source. -/
theorem kernel_memcpy (hdest : 8 ≤ dest) (hd : dest + len < 2 ^ 64)
    (hsrc : src < 2 ^ 64) (hs : src + len ≤ 2 ^ 64)
    (hapart : Apart dest src len) (hfuel : len < fuel) (k : Kernel) :
    ∃ m', memcpy fuel dest src len k.mem = ([], .ok dest m') ∧
      Pke.memcpy dest src len k = ([], .ok () { k with mem := m' }) :=
  ⟨_, memcpy_run hdest hd hsrc hs hapart hfuel k.mem, rfl⟩

/-- So is its `memset`, which takes the fill value as a byte. -/
theorem kernel_memset (hd : dest + len < 2 ^ 64) (hfuel : len < fuel)
    (k : Kernel) :
    ∃ m', memset fuel dest byte len k.mem = ([], .ok dest m') ∧
      Pke.memset dest (lowByte byte) len k = ([], .ok () { k with mem := m' }) :=
  ⟨_, memset_run hd hfuel k.mem, rfl⟩

-- ==== agreement

/-- The bytes of `[dest, dest + len)` are given by `byteAt`, and all others
are as they were. -/
def Delivered (m m' : Mem) (dest len : Nat) (byteAt : Nat → UInt8) : Prop :=
  (∀ k < len, m' (dest + k) = byteAt k) ∧
    ∀ x, x < dest ∨ dest + len ≤ x → m' x = m x

theorem delivered_copy (m : Mem) (dest src len : Nat) :
    Delivered m (copy m dest src len) dest len fun k => m (src + k) := by
  refine ⟨fun k hk => copy_apply m hk, fun x hx => ?_⟩
  unfold copy
  rw [if_neg (by omega)]

theorem delivered_fill (m : Mem) (dest len : Nat) (b : UInt8) :
    Delivered m (fill m dest b len) dest len fun _ => b := by
  refine ⟨fun k hk => ?_, fun x hx => ?_⟩
  · unfold fill
    rw [if_pos (by omega)]
  · unfold fill
    rw [if_neg (by omega)]

/-- Both functions return and deliver, byte for byte and nowhere else,
whatever the alignment of addresses and length: the bytes of the source,
and the low byte of the fill value. -/
theorem mem_functions_bytewise (m : Mem) (dest src len : Nat)
    (byte : BitVec 32) (fuel : Nat) (hdest : 8 ≤ dest)
    (hd : dest + len < 2 ^ 64) (hsrc : src < 2 ^ 64)
    (hs : src + len ≤ 2 ^ 64) (hapart : dest + len ≤ src ∨ src + len ≤ dest)
    (hfuel : len < fuel) :
    (∃ m', memcpy fuel dest src len m = ([], .ok dest m') ∧
      Delivered m m' dest len fun k => m (src + k)) ∧
    (∃ m', memset fuel dest byte len m = ([], .ok dest m') ∧
      Delivered m m' dest len fun _ => UInt8.ofNat byte.toNat) := by
  constructor
  · exact ⟨_, memcpy_run hdest hd hsrc hs hapart hfuel m,
      delivered_copy m dest src len⟩
  · exact ⟨_, memset_run hd hfuel m, delivered_fill m dest len _⟩

/-- A copy and a fill of two words, and of eleven bytes from an odd
address on. -/
theorem mem_functions_bytewise_words_bytes :
    ((∃ m', memcpy 17 0x1000 0x2000 16 (fun x => UInt8.ofNat x)
        = ([], .ok 0x1000 m') ∧
      Delivered (fun x => UInt8.ofNat x) m' 0x1000 16
        fun k => UInt8.ofNat (0x2000 + k)) ∧
    (∃ m', memset 17 0x1000 0xFFFFFFE1#32 16 (fun x => UInt8.ofNat x)
        = ([], .ok 0x1000 m') ∧
      Delivered (fun x => UInt8.ofNat x) m' 0x1000 16
        fun _ => UInt8.ofNat (0xFFFFFFE1#32).toNat)) ∧
    (∃ m', memcpy 12 0x1003 0x2000 11 (fun x => UInt8.ofNat x)
        = ([], .ok 0x1003 m') ∧
      Delivered (fun x => UInt8.ofNat x) m' 0x1003 11
        fun k => UInt8.ofNat (0x2000 + k)) ∧
    (∃ m', memset 12 0x1003 0xFFFFFFE1#32 11 (fun x => UInt8.ofNat x)
        = ([], .ok 0x1003 m') ∧
      Delivered (fun x => UInt8.ofNat x) m' 0x1003 11
        fun _ => UInt8.ofNat (0xFFFFFFE1#32).toNat) := by
  constructor
  · exact mem_functions_bytewise (fun x => UInt8.ofNat x) 0x1000 0x2000 16 _ 17
      (by decide) (by decide) (by decide) (by decide) (Or.inl (by decide))
      (by decide)
  · exact mem_functions_bytewise (fun x => UInt8.ofNat x) 0x1003 0x2000 11 _ 12
      (by decide) (by decide) (by decide) (by decide) (Or.inl (by decide))
      (by decide)

end Pke.Util
