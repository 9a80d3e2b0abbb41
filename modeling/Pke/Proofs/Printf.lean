/-
What is printed for a process.

The process's string is the format of a call without arguments. `Wrote`
follows `vsnprintf` through it: the position is the length of what has been
emitted, and the buffer holds as much of it as fits. A string without a
percent sign is emitted as it is (`Between.plain`). Behind a percent sign
nothing is emitted until a conversion comes (`Behind.idles`), and then what
is emitted depends on a word nobody passed: every conversion has two
arguments whose texts cannot begin one and the same string
(`clashing_pieces`). One conversion may take no argument at all: a `%c`
whose character does not fit is counted only (`Behind.crowded`), and the
word it would have taken is left for the next one. It does not matter for
the console, where the text is then longer than the buffer whatever comes.

So the output is the string for every content of registers and stack
exactly when there is no conversion in it (`print_faithful_iff`). The
string is looked for at the translation of its first byte; where the
process's pages are not neighbours in memory, that is another string.

With arguments for its conversions a format has a text (`Renders`), which
depends on the size of the buffer through such a `%c`, and a call stores as
much of the text as fits.
-/
import Pke.Model.Console
import Pke.Proofs.ExecArgs
import Mathlib.Data.List.TakeWhile

namespace Pke

open ByteMem Traced

namespace Fmt

variable {m : Mem} {fuel n : Nat} {vl : Nat → Nat} {f : Fmt}
variable {em l u : List UInt8} {b : UInt8}

-- ==== what is emitted

/-- `em` has been emitted: the buffer holds what fits of it. -/
structure Wrote (n : Nat) (em : List UInt8) (f : Fmt) : Prop where
  pos : f.pos = em.length
  out : ∀ i < em.length, i + 1 < n → f.out i = em.getD i 0

theorem Wrote.congr {f' : Fmt} (h : Wrote n em f) (hpos : f'.pos = f.pos)
    (hout : f'.out = f.out) : Wrote n em f' :=
  ⟨hpos.trans h.pos, hout ▸ h.out⟩

theorem Wrote.putc (h : Wrote n em f) (b : UInt8) :
    Wrote n (em ++ [b]) (f.putc n b) := by
  refine ⟨by simp [Fmt.putc, h.pos], fun i hi hin => ?_⟩
  rw [List.length_append, List.length_singleton] at hi
  show (if f.pos + 1 < n then Function.update f.out f.pos b else f.out) i = _
  rw [h.pos]
  rcases Nat.lt_succ_iff_lt_or_eq.mp hi with hlt | rfl
  · rw [List.getD_append _ _ _ _ hlt, ← h.out i hlt hin]
    split_ifs
    · exact Function.update_of_ne (Nat.ne_of_lt hlt) ..
    · rfl
  · rw [if_pos hin, Function.update_self, List.getD_append_right _ _ _ _ (le_refl _),
      Nat.sub_self, List.getD_cons_zero]

/-- The hexadecimal digits of a number. -/
def hexDigits (num : Int) : Nat → List UInt8
  | 0 => []
  | i + 1 =>
      let d := (num / 16 ^ i % 16).toNat
      UInt8.ofNat (if d < 10 then 48 + d else 97 + d - 10) :: hexDigits num i

theorem hexDigits_length (num : Int) (k : Nat) : (hexDigits num k).length = k := by
  induction k with
  | zero => rfl
  | succ k ih => rw [hexDigits, List.length_cons, ih]

theorem Wrote.putHex (num : Int) (k : Nat) (h : Wrote n em f) :
    Wrote n (em ++ hexDigits num k) (putHex n num k f) := by
  induction k generalizing em f with
  | zero => rw [hexDigits, List.append_nil]; exact h
  | succ k ih =>
      have hnext := ih (h.putc (UInt8.ofNat
        (if (num / 16 ^ k % 16).toNat < 10 then 48 + (num / 16 ^ k % 16).toNat
          else 97 + (num / 16 ^ k % 16).toNat - 10)))
      rw [List.append_assoc] at hnext
      exact hnext

/-- The last `k` decimal digits of a number. -/
def decDigits : Nat → Int → List UInt8
  | 0, _ => []
  | k + 1, num =>
      decDigits k (num.tdiv 10) ++ [UInt8.ofNat (48 + num.tmod 10).toNat]

theorem decDigits_length (k : Nat) (num : Int) : (decDigits k num).length = k := by
  induction k generalizing num with
  | zero => rfl
  | succ k ih => rw [decDigits, List.length_append, ih, List.length_singleton]

/-- Off their places the digits change nothing. -/
theorem storeDigits_off {pos k i : Nat} {num : Int} {out : Nat → UInt8}
    (h : i < pos ∨ pos + k ≤ i) : storeDigits n pos k num out i = out i := by
  induction k generalizing num out with
  | zero => rfl
  | succ k ih =>
      rw [storeDigits, ih (by omega)]
      split_ifs
      · exact Function.update_of_ne (by omega) ..
      · rfl

theorem storeDigits_at {pos k j : Nat} {num : Int} {out : Nat → UInt8}
    (hj : j < k) (hfit : pos + j + 1 < n) :
    storeDigits n pos k num out (pos + j) = (decDigits k num).getD j 0 := by
  induction k generalizing num out with
  | zero => cases hj
  | succ k ih =>
      rw [storeDigits, decDigits]
      rcases Nat.lt_succ_iff_lt_or_eq.mp hj with hlt | rfl
      · rw [ih hlt, List.getD_append _ _ _ _ (by rwa [decDigits_length])]
      · rw [storeDigits_off (Or.inr (Nat.le_refl _)), if_pos hfit,
          Function.update_self, List.getD_append_right _ _ _ _ (by rw [decDigits_length]),
          decDigits_length, Nat.sub_self, List.getD_cons_zero]

/-- A number in decimal, as `%d` writes it. -/
def decimal (num : Int) : List UInt8 :=
  if num < 0 then
    45 :: decDigits (digitCount 20 ((-num).bmod (2 ^ 64))) ((-num).bmod (2 ^ 64))
  else
    decDigits (digitCount 20 num) num

theorem Wrote.storeDigits (h : Wrote n em f) (k : Nat) (num : Int) :
    Wrote n (em ++ decDigits k num)
      { f with pos := f.pos + k, out := storeDigits n f.pos k num f.out } := by
  refine ⟨by simp [h.pos, decDigits_length], fun i hi hin => ?_⟩
  rw [List.length_append, decDigits_length] at hi
  show Fmt.storeDigits n f.pos k num f.out i = _
  rw [h.pos]
  by_cases hlt : i < em.length
  · rw [storeDigits_off (Or.inl hlt), List.getD_append _ _ _ _ hlt, h.out i hlt hin]
  · obtain ⟨j, rfl⟩ : ∃ j, i = em.length + j := ⟨i - em.length, by omega⟩
    rw [storeDigits_at (by omega) hin,
      List.getD_append_right _ _ _ _ (Nat.le_add_right ..), Nat.add_sub_cancel_left]

theorem Wrote.putDecimal (h : Wrote n em f) (num : Int) :
    Wrote n (em ++ decimal num) (f.putDecimal n num) := by
  unfold Fmt.putDecimal decimal
  by_cases hneg : num < 0
  · simp only [if_pos hneg]
    have hnext := (h.putc 45).storeDigits
      (digitCount 20 ((-num).bmod (2 ^ 64))) ((-num).bmod (2 ^ 64))
    rw [List.append_assoc] at hnext
    exact hnext
  · simp only [if_neg hneg]
    exact h.storeDigits _ num

/-- A string argument is emitted up to its 0. -/
theorem Wrote.putString {s2 : Nat} (h : Wrote n em f) (hs : StringAt m s2 l)
    (hfuel : l.length < fuel) :
    ∃ f', putString m n fuel s2 f = some f' ∧ Wrote n (em ++ l) f' ∧
      f'.taken = f.taken := by
  induction l generalizing em f fuel s2 with
  | nil =>
      obtain ⟨fuel, rfl⟩ := Nat.exists_eq_succ_of_ne_zero (Nat.ne_of_gt hfuel)
      refine ⟨f, ?_, by rwa [List.append_nil], rfl⟩
      rw [Fmt.putString, if_pos (show m s2 = 0 from hs)]
  | cons b l ih =>
      obtain ⟨fuel, rfl⟩ := Nat.exists_eq_succ_of_ne_zero
        (Nat.ne_of_gt (Nat.zero_lt_of_lt hfuel))
      obtain ⟨hb, rfl, hl⟩ := hs
      obtain ⟨f', hrun, hw, htaken⟩ :=
        ih (h.putc (m s2)) hl (Nat.lt_of_succ_lt_succ hfuel)
      refine ⟨f', ?_, ?_, htaken⟩
      · rw [Fmt.putString, if_neg hb]
        exact hrun
      · rw [List.append_assoc] at hw
        exact hw

-- ==== conversions

/-- The argument as a number, as `num` reads it. -/
def argNum (longarg : Bool) (v : Nat) : Int :=
  if longarg then (v : Int).bmod (2 ^ 64) else (v : Int).bmod (2 ^ 32)

theorem num_eq (f : Fmt) (v : Nat) : f.num v = argNum f.longarg v := rfl

/-- The conversion writes `l` for the argument `v`. -/
def Piece (m : Mem) (longarg : Bool) (v : Nat) : Conversion → List UInt8 → Prop
  | .l, _ => False
  | .p, l => l = [48, 120] ++ hexDigits (argNum true v) 16
  | .x, l => l = hexDigits (argNum longarg v) (if longarg then 16 else 8)
  | .d, l => l = decimal (argNum longarg v)
  | .s, l => StringAt m v l
  | .c, l => l = [UInt8.ofNat v]

/-- Between conversions. -/
structure Between (n : Nat) (em : List UInt8) (taken : Nat) (f : Fmt) : Prop
    extends Wrote n em f where
  format : f.format = false
  longarg : f.longarg = false
  taken : f.taken = taken

/-- Behind a percent sign, before the conversion. -/
structure Behind (n : Nat) (em : List UInt8) (taken : Nat) (f : Fmt) : Prop
    extends Wrote n em f where
  format : f.format = true
  taken : f.taken = taken

theorem Wrote.converted (h : Wrote n em f) :
    Between n em (f.taken + 1) f.converted :=
  ⟨h.congr rfl rfl, rfl, rfl, rfl⟩

@[simp] theorem putHex_taken (num : Int) (k : Nat) :
    (putHex n num k f).taken = f.taken := by
  induction k generalizing f with
  | zero => rfl
  | succ k ih => exact ih

@[simp] theorem putDecimal_taken (num : Int) :
    (f.putDecimal n num).taken = f.taken := by
  show (if num < 0 then f.putc n 45 else f).taken = f.taken
  by_cases hneg : num < 0
  · rw [if_pos hneg]
    rfl
  · rw [if_neg hneg]

/-- The conversion is a character's and there is no room for it. -/
def Crowded (n pos : Nat) (k : Conversion) : Prop := k = .c ∧ n ≤ pos + 1

instance (n pos : Nat) (k : Conversion) : Decidable (Crowded n pos k) :=
  inferInstanceAs (Decidable (_ ∧ _))

/-- A conversion emits its piece. -/
theorem Behind.convert {k : Conversion} {taken : Nat} (h : Behind n em taken f)
    (hk : conversion b = some k) (hroom : ¬ Crowded n em.length k)
    (hp : Piece m f.longarg (vl taken) k l) (hfuel : l.length < fuel) :
    ∃ f', f.step m fuel n vl b = some f' ∧ Between n (em ++ l) (taken + 1) f' := by
  obtain rfl := h.taken
  unfold step Fmt.convert
  rw [if_pos h.format]
  simp only [hk]
  cases k with
  | l => exact hp.elim
  | p =>
      obtain rfl := hp
      have hw : Wrote n em { f with longarg := true } := h.toWrote.congr rfl rfl
      have hhex := (((hw.putc 48).putc 120).putHex
        (argNum true (vl f.taken)) 16).converted
      rw [putHex_taken] at hhex
      refine ⟨_, rfl, ?_⟩
      rw [num_eq]
      simp only [List.append_assoc, List.cons_append, List.nil_append] at hhex ⊢
      exact hhex
  | x =>
      obtain rfl := hp
      have hhex := (h.toWrote.putHex (argNum f.longarg (vl f.taken))
        (if f.longarg then 16 else 8)).converted
      rw [putHex_taken] at hhex
      refine ⟨_, rfl, ?_⟩
      rw [num_eq]
      exact hhex
  | d =>
      obtain rfl := hp
      have hdec := (h.toWrote.putDecimal (argNum f.longarg (vl f.taken))).converted
      rw [putDecimal_taken] at hdec
      refine ⟨_, rfl, ?_⟩
      rw [num_eq]
      exact hdec
  | s =>
      obtain ⟨f', hrun, hw, htaken⟩ := h.toWrote.putString hp hfuel
      refine ⟨f'.converted, by rw [hrun]; rfl, ?_⟩
      rw [← htaken]
      exact hw.converted
  | c =>
      obtain rfl := hp
      have hfits : f.pos + 1 < n := by
        rw [h.pos]
        exact Nat.lt_of_not_le fun hfull => hroom ⟨rfl, hfull⟩
      rw [if_pos hfits]
      exact ⟨_, rfl, (h.toWrote.putc _).converted⟩

/-- A character without room is counted and takes no argument. Any byte may
stand for it in the text. -/
theorem Behind.crowded {k : Conversion} {taken : Nat} (h : Behind n em taken f)
    (hk : conversion b = some k) (hfull : Crowded n em.length k) (x : UInt8) :
    ∃ f', f.step m fuel n vl b = some f' ∧ Between n (em ++ [x]) taken f' := by
  obtain ⟨rfl, hfull⟩ := hfull
  have hfits : ¬ f.pos + 1 < n := by
    rw [h.pos]
    exact Nat.not_lt_of_le hfull
  unfold step Fmt.convert
  rw [if_pos h.format]
  simp only [hk, if_neg hfits]
  refine ⟨_, rfl, ⟨(h.toWrote.putc x).congr rfl ?_, rfl, rfl, h.taken⟩⟩
  exact (if_neg hfits).symm

/-- The character converts nothing. -/
def Idle (b : UInt8) : Prop := conversion b = none ∨ conversion b = some .l

instance : DecidablePred Idle := fun b =>
  inferInstanceAs (Decidable (conversion b = none ∨ conversion b = some .l))

-- Where no conversion is made the arguments play no part.

/-- Characters that convert nothing emit nothing. -/
theorem Behind.idle (m : Mem) {taken : Nat} (h : Behind n em taken f)
    (hb : Idle b) :
    ∃ f', (∀ fuel vl, f.step m fuel n vl b = some f') ∧
      Behind n em taken f' := by
  unfold step Fmt.convert
  simp only [if_pos h.format]
  rcases hb with hb | hb
  · simp only [hb]
    exact ⟨f, fun _ _ => rfl, h⟩
  · simp only [hb]
    exact ⟨_, fun _ _ => rfl, h.toWrote.congr rfl rfl, h.format, h.taken⟩

-- ==== the format

/-- Characters other than the percent sign are emitted. -/
theorem Between.plain (m : Mem) {taken : Nat} (h : Between n em taken f)
    (hu : ∀ b ∈ u, b ≠ percent) :
    ∃ f', (∀ fuel vl, u.foldlM (step m fuel n vl) f = some f') ∧
      Between n (em ++ u) taken f' := by
  induction u generalizing em f with
  | nil => exact ⟨f, fun _ _ => rfl, by rwa [List.append_nil]⟩
  | cons b u ih =>
      obtain ⟨hb, hu⟩ := List.forall_mem_cons.mp hu
      have hstep : ∀ fuel vl, f.step m fuel n vl b = some (f.putc n b) := by
        intro fuel vl
        rw [step, h.format, if_neg Bool.false_ne_true, if_neg hb]
      have hnext : Between n (em ++ [b]) taken (f.putc n b) :=
        ⟨h.toWrote.putc b, h.format, h.longarg, h.taken⟩
      obtain ⟨f', hrun, hw⟩ := ih hnext hu
      refine ⟨f', fun fuel vl => ?_, ?_⟩
      · rw [List.foldlM_cons, hstep]
        exact hrun fuel vl
      · rw [List.append_assoc] at hw
        exact hw

theorem Behind.idles (m : Mem) {taken : Nat} (h : Behind n em taken f)
    (hu : ∀ b ∈ u, Idle b) :
    ∃ f', (∀ fuel vl, u.foldlM (step m fuel n vl) f = some f') ∧
      Behind n em taken f' := by
  induction u generalizing f with
  | nil => exact ⟨f, fun _ _ => rfl, h⟩
  | cons b u ih =>
      obtain ⟨hb, hu⟩ := List.forall_mem_cons.mp hu
      obtain ⟨f₁, hstep, h₁⟩ := h.idle m hb
      obtain ⟨f', hrun, h'⟩ := ih h₁ hu
      refine ⟨f', fun fuel vl => ?_, h'⟩
      rw [List.foldlM_cons, hstep]
      exact hrun fuel vl

/-- Plain text, a percent sign, and characters that convert nothing. -/
theorem Between.plain_idles (m : Mem) {taken : Nat} {q : List UInt8}
    (h : Between n em taken f) (hu : ∀ b ∈ u, b ≠ percent)
    (hq : ∀ b ∈ q, Idle b) :
    ∃ f', (∀ fuel vl, (u ++ percent :: q).foldlM (step m fuel n vl) f = some f') ∧
      Behind n (em ++ u) taken f' := by
  obtain ⟨f₁, hplain, h₁⟩ := h.plain m hu
  have hsign : Behind n (em ++ u) taken { f₁ with format := true } :=
    ⟨h₁.toWrote.congr rfl rfl, rfl, h₁.taken⟩
  obtain ⟨f', hidle, h'⟩ := hsign.idles m hq
  refine ⟨f', fun fuel vl => ?_, h'⟩
  have hstep : f₁.step m fuel n vl percent = some { f₁ with format := true } := by
    rw [step, h₁.format, if_neg Bool.false_ne_true, if_pos rfl]
  rw [List.foldlM_append, hplain, Option.bind_eq_bind, Option.bind_some,
    List.foldlM_cons, hstep]
  exact hidle fuel vl

-- ==== two arguments

/-- The two cannot begin the same text. -/
def Clash (l₁ l₂ : List UInt8) : Prop := ∀ r₁ r₂, l₁ ++ r₁ ≠ l₂ ++ r₂

theorem clash_of_length {l₁ l₂ : List UInt8} (hlen : l₁.length = l₂.length)
    (hne : l₁ ≠ l₂) : Clash l₁ l₂ :=
  fun _ _ h => hne (List.append_inj_left h hlen)

theorem clash_of_head {b₁ b₂ : UInt8} {l₁ l₂ : List UInt8} (hne : b₁ ≠ b₂) :
    Clash (b₁ :: l₁) (b₂ :: l₂) :=
  fun _ _ h => hne (List.cons.inj h).1

/-- Every conversion has two arguments whose texts clash, given two
strings that do. -/
theorem clashing_pieces {k : Conversion} (hk : k ≠ .l) (longarg : Bool)
    {a₁ a₂ B : Nat} {b₁ b₂ : UInt8} {l₁ l₂ : List UInt8}
    (h₁ : StringAt m a₁ (b₁ :: l₁)) (h₂ : StringAt m a₂ (b₂ :: l₂))
    (hb : b₁ ≠ b₂) (hB : 18 ≤ B) (hB₁ : l₁.length < B) (hB₂ : l₂.length < B) :
    ∃ v₁ v₂ p₁ p₂, Piece m longarg v₁ k p₁ ∧ Piece m longarg v₂ k p₂ ∧
      Clash p₁ p₂ ∧ p₁.length ≤ B ∧ p₂.length ≤ B := by
  cases k with
  | l => exact absurd rfl hk
  | p =>
      refine ⟨0, 1, _, _, rfl, rfl, clash_of_length ?_ (by decide), ?_, ?_⟩
      · simp only [List.length_append, hexDigits_length]
      · rw [List.length_append, hexDigits_length]
        exact hB
      · rw [List.length_append, hexDigits_length]
        exact hB
  | x =>
      have hle : (if longarg then 16 else 8) ≤ B := by split <;> omega
      refine ⟨0, 1, _, _, rfl, rfl, clash_of_length ?_ ?_, ?_, ?_⟩
      · simp only [hexDigits_length]
      · cases longarg <;> decide
      · rwa [hexDigits_length]
      · rwa [hexDigits_length]
  | d =>
      have hlen : ∀ v < 2, (decimal (argNum longarg v)).length ≤ B := by
        intro v hv
        have : (decimal (argNum longarg v)).length = 1 := by
          revert hv v
          cases longarg <;> decide
        omega
      refine ⟨0, 1, _, _, rfl, rfl, ?_, hlen 0 (by decide), hlen 1 (by decide)⟩
      cases longarg <;> exact clash_of_length (by decide) (by decide)
  | s => exact ⟨a₁, a₂, b₁ :: l₁, b₂ :: l₂, h₁, h₂, clash_of_head hb, hB₁, hB₂⟩
  | c =>
      refine ⟨1, 2, _, _, rfl, rfl, clash_of_length rfl (by decide), ?_, ?_⟩
      · exact Nat.le_trans (by decide) hB
      · exact Nat.le_trans (by decide) hB

-- ==== bounds

theorem digitCount_le {k : Nat} (rounds : Nat) {num : Int}
    (h : num.natAbs < 10 ^ (k + 1)) : digitCount rounds num ≤ k + 1 := by
  induction rounds generalizing k num with
  | zero => exact Nat.le_add_left ..
  | succ rounds ih =>
      rw [digitCount]
      split_ifs with hz
      · exact Nat.le_add_left ..
      · have habs : (num.tdiv 10).natAbs = num.natAbs / 10 := Int.natAbs_tdiv ..
        cases k with
        | zero => omega
        | succ k =>
            apply Nat.succ_le_succ
            apply ih
            rw [habs]
            rw [pow_succ] at h
            omega

theorem decimal_length_le {num : Int} (h : num.natAbs < 10 ^ 10) :
    (decimal num).length ≤ 11 := by
  unfold decimal
  split_ifs with hneg
  · have hsame : (-num).bmod (2 ^ 64) = -num :=
      Int.bmod_eq_of_le (by omega) (by omega)
    rw [hsame, List.length_cons, decDigits_length]
    have hcount : digitCount 20 (-num) ≤ 9 + 1 :=
      digitCount_le 20 (by rwa [Int.natAbs_neg])
    omega
  · rw [decDigits_length]
    have hcount : digitCount 20 num ≤ 9 + 1 := digitCount_le 20 h
    omega

/-- A small argument that points to an empty string has short pieces. -/
theorem short_piece {k : Conversion} (hk : k ≠ .l) (longarg : Bool) {z : Nat}
    (hz : z < 2 ^ 32) (hs : StringAt m z []) :
    ∃ l, Piece m longarg z k l ∧ l.length ≤ 18 := by
  cases k with
  | l => exact absurd rfl hk
  | p =>
      refine ⟨_, rfl, ?_⟩
      simp only [List.length_append, hexDigits_length]
      exact Nat.le_refl _
  | x =>
      refine ⟨_, rfl, ?_⟩
      rw [hexDigits_length]
      split <;> decide
  | d =>
      refine ⟨_, rfl, Nat.le_trans (decimal_length_le ?_) (by decide)⟩
      cases longarg with
      | true =>
          have hsame : (z : Int).bmod (2 ^ 64) = z :=
            Int.bmod_eq_of_le (by omega) (by omega)
          rw [argNum, if_pos rfl, hsame, Int.natAbs_natCast]
          exact Nat.lt_trans hz (by decide)
      | false =>
          have hlo : -2 ^ 31 ≤ (z : Int).bmod (2 ^ 32) := Int.le_bmod (by decide)
          have hhi : (z : Int).bmod (2 ^ 32) < 2 ^ 31 := Int.bmod_lt (by decide)
          rw [argNum, if_neg Bool.false_ne_true]
          generalize (z : Int).bmod (2 ^ 32) = num at hlo hhi ⊢
          omega
  | s => exact ⟨[], hs, Nat.zero_le _⟩
  | c => exact ⟨_, rfl, Nat.le_of_ble_eq_true rfl⟩

/-- With such arguments a character emits at most 18 bytes. -/
theorem Wrote.step {z taken : Nat} (h : Wrote n em f) (hz : z < 2 ^ 32)
    (hs : StringAt m z []) (hvl : ∀ i ≥ taken, vl i = z) (ht : taken ≤ f.taken)
    (hfuel : 18 < fuel) (b : UInt8) :
    ∃ f' l, f.step m fuel n vl b = some f' ∧ Wrote n (em ++ l) f' ∧
      l.length ≤ 18 ∧ taken ≤ f'.taken := by
  by_cases hfmt : f.format = true
  · have hbehind : Behind n em f.taken f := ⟨h, hfmt, rfl⟩
    by_cases hidle : Idle b
    · obtain ⟨f', hstep, h'⟩ := hbehind.idle m hidle
      refine ⟨f', [], hstep fuel vl, ?_, Nat.zero_le _, h'.taken ▸ ht⟩
      rw [List.append_nil]
      exact h'.toWrote
    · obtain ⟨k, hk⟩ : ∃ k, conversion b = some k :=
        Option.ne_none_iff_exists'.mp fun hnone => hidle (Or.inl hnone)
      have hl : k ≠ .l := fun hl => hidle (Or.inr (hl ▸ hk))
      by_cases hfull : Crowded n em.length k
      · obtain ⟨f', hstep, h'⟩ := hbehind.crowded hk hfull 0
        exact ⟨f', [0], hstep, h'.toWrote, Nat.le_of_ble_eq_true rfl,
          h'.taken ▸ ht⟩
      · obtain ⟨l, hp, hlen⟩ := short_piece hl f.longarg hz hs
        rw [← hvl _ ht] at hp
        obtain ⟨f', hstep, h'⟩ :=
          hbehind.convert hk hfull hp (Nat.lt_of_le_of_lt hlen hfuel)
        exact ⟨f', l, hstep, h'.toWrote, hlen, h'.taken ▸ Nat.le_succ_of_le ht⟩
  · unfold Fmt.step
    rw [if_neg hfmt]
    split_ifs
    · refine ⟨_, [], rfl, ?_, Nat.zero_le _, ht⟩
      rw [List.append_nil]
      exact h.congr rfl rfl
    · exact ⟨_, [b], rfl, h.putc b, Nat.le_of_ble_eq_true rfl, ht⟩

theorem Wrote.fold {z taken : Nat} (h : Wrote n em f) (hz : z < 2 ^ 32)
    (hs : StringAt m z []) (hvl : ∀ i ≥ taken, vl i = z) (ht : taken ≤ f.taken)
    (hfuel : 18 < fuel) (u : List UInt8) :
    ∃ f' l, u.foldlM (Fmt.step m fuel n vl) f = some f' ∧ Wrote n (em ++ l) f' ∧
      l.length ≤ 18 * u.length := by
  induction u generalizing em f with
  | nil => exact ⟨f, [], rfl, by rwa [List.append_nil], Nat.zero_le _⟩
  | cons b u ih =>
      obtain ⟨f₁, l₁, hstep, h₁, hlen₁, ht₁⟩ := h.step hz hs hvl ht hfuel b
      obtain ⟨f', l, hrun, h', hlen⟩ := ih h₁ ht₁
      refine ⟨f', l₁ ++ l, ?_, ?_, ?_⟩
      · rw [List.foldlM_cons, hstep]
        exact hrun
      · rw [List.append_assoc] at h'
        exact h'
      · rw [List.length_append, List.length_cons]
        omega

-- ==== the loop

theorem loop_string {s k : Nat} (h : StringAt m s u) (hk : u.length < k) :
    loop m fuel n vl k s f = u.foldlM (Fmt.step m fuel n vl) f := by
  induction u generalizing s k f with
  | nil =>
      obtain ⟨k, rfl⟩ := Nat.exists_eq_succ_of_ne_zero (Nat.ne_of_gt hk)
      rw [loop, if_pos (show m s = 0 from h)]
      rfl
  | cons b u ih =>
      obtain ⟨k, rfl⟩ := Nat.exists_eq_succ_of_ne_zero
        (Nat.ne_of_gt (Nat.zero_lt_of_lt hk))
      obtain ⟨hb, rfl, hu⟩ := h
      rw [loop, if_neg hb, List.foldlM_cons]
      congr 1
      funext f'
      exact ih hu (Nat.lt_of_succ_lt_succ hk)

/-- A loop that ends has found the end of a string. -/
theorem string_of_loop {s k : Nat} {f' : Fmt}
    (h : loop m fuel n vl k s f = some f') :
    ∃ u, StringAt m s u ∧ u.length < k := by
  induction k generalizing s f with
  | zero => cases h
  | succ k ih =>
      rw [loop] at h
      by_cases hz : m s = 0
      · exact ⟨[], hz, Nat.succ_pos k⟩
      · rw [if_neg hz] at h
        obtain ⟨f₁, -, hrest⟩ := Option.bind_eq_some_iff.mp h
        obtain ⟨u, hu, hlen⟩ := ih hrest
        exact ⟨m s :: u, ⟨hz, rfl, hu⟩, Nat.succ_lt_succ hlen⟩

end Fmt

-- ==== the output

/-- The state `vsnprintf` starts in. -/
def Garbage.start (g : Garbage) : Fmt :=
  { format := false, longarg := false, taken := 0, pos := 0, out := g.out }

theorem Garbage.between (g : Garbage) : Fmt.Between outSize [] 0 g.start :=
  ⟨⟨rfl, fun _ hi => absurd hi (Nat.not_lt_zero _)⟩, rfl, rfl, rfl⟩

/-- What the host is given of a text: all of it if it fits the buffer,
the buffer if it does not. -/
def printed (em : List UInt8) : List UInt8 :=
  if em.length < outSize then em else em.take (outSize - 1) ++ [0]

/-- The length `vprintk` passes on. -/
theorem printed_length {k : Nat} (hk : k < 2 ^ 32) :
    (if u64OfInt (toInt32 k) < outSize then u64OfInt (toInt32 k) else outSize)
      = min k outSize := by
  by_cases hsmall : k < 2 ^ 31
  · have hsame : toInt32 k = k := Int.bmod_eq_of_le (by omega) (by omega)
    rw [hsame, u64OfInt_nat (by omega)]
    split_ifs <;> omega
  · have hneg : toInt32 k = (k : Int) - 2 ^ 32 := by
      show (k : Int).bmod (2 ^ 32) = _
      rw [← Int.sub_bmod_right]
      exact Int.bmod_eq_of_le (by omega) (by omega)
    have hbig : ¬ u64OfInt ((k : Int) - 2 ^ 32) < outSize := by
      unfold u64OfInt
      simp only [outSize]
      omega
    rw [hneg, if_neg hbig]
    simp only [outSize]
    omega

variable {m : Mem} {fuel pa : Nat} {g : Garbage} {u em t : List UInt8}

/-- The buffer, ended, up to the length passed on. -/
theorem buffer_printed {f : Fmt} (hw : f.Wrote outSize em) :
    (List.range (min f.pos outSize)).map
        (if f.pos < outSize then Function.update f.out f.pos 0
          else Function.update f.out (outSize - 1) 0) = printed em := by
  rw [hw.pos]
  unfold printed
  by_cases hfit : em.length < outSize
  · rw [if_pos hfit, if_pos hfit, Nat.min_eq_left (Nat.le_of_lt hfit)]
    apply List.ext_getElem (by simp)
    intro i _ hi
    rw [List.getElem_map, List.getElem_range,
      Function.update_of_ne (Nat.ne_of_lt hi), hw.out i hi (by omega),
      List.getD_eq_getElem _ _ hi]
  · rw [if_neg hfit, if_neg hfit, Nat.min_eq_right (Nat.le_of_not_lt hfit)]
    have hlen : (em.take (outSize - 1)).length = outSize - 1 := by
      rw [List.length_take]
      omega
    apply List.ext_getElem (by simp only [List.length_map, List.length_range,
      List.length_append, hlen, List.length_singleton, outSize])
    intro i hi _
    rw [List.length_map, List.length_range] at hi
    rw [List.getElem_map, List.getElem_range]
    by_cases hlast : i = outSize - 1
    · subst hlast
      rw [Function.update_self, List.getElem_append_right (Nat.le_of_eq hlen),
        List.getElem_singleton]
    · rw [Function.update_of_ne hlast, hw.out i (by omega) (by omega),
        List.getElem_append_left (by omega), List.getElem_take,
        List.getD_eq_getElem]

theorem vprintk_eq {f : Fmt} (hs : StringAt m pa u) (hfuel : u.length < fuel)
    (hrun : u.foldlM (Fmt.step m fuel outSize g.vl) g.start = some f)
    (hw : f.Wrote outSize em) (hem : em.length < 2 ^ 32) :
    vprintk m fuel pa g = some (printed em) := by
  have hloop : Fmt.loop m fuel outSize g.vl fuel pa g.start = some f := by
    rw [Fmt.loop_string hs hfuel]
    exact hrun
  have hbuf : vsnprintf m fuel outSize pa g.vl g.out = some (toInt32 f.pos,
      if f.pos < outSize then Function.update f.out f.pos 0
      else Function.update f.out (outSize - 1) 0) := by
    unfold vsnprintf
    change (Fmt.loop m fuel outSize g.vl fuel pa g.start >>= _) = _
    rw [hloop]
    rfl
  unfold vprintk
  rw [hbuf]
  have hlen := printed_length (hw.pos ▸ hem : f.pos < 2 ^ 32)
  change some ((List.range (if u64OfInt (toInt32 f.pos) < outSize
    then u64OfInt (toInt32 f.pos) else outSize)).map _) = _
  rw [hlen, buffer_printed hw]

-- ==== the theorem

/-- The string `u` is printed as `t`: up to its first percent sign it is
`t`, and behind that there is no conversion. -/
structure Verbatim (u t : List UInt8) : Prop where
  before : u.takeWhile (· ≠ percent) = t
  behind : ∀ b ∈ (u.dropWhile (· ≠ percent)).tail, Fmt.Idle b

instance (u t : List UInt8) : Decidable (Verbatim u t) :=
  have := List.decidableBAll Fmt.Idle (u.dropWhile (· ≠ percent)).tail
  decidable_of_iff (u.takeWhile (· ≠ percent) = t ∧
      ∀ b ∈ (u.dropWhile (· ≠ percent)).tail, Fmt.Idle b)
    ⟨fun h => ⟨h.1, h.2⟩, fun h => ⟨h.before, h.behind⟩⟩

/-- The first item that fails a test. -/
theorem split_first {P : UInt8 → Prop} {l : List UInt8} (h : ¬ ∀ b ∈ l, P b) :
    ∃ q b r, l = q ++ b :: r ∧ (∀ x ∈ q, P x) ∧ ¬ P b := by
  induction l with
  | nil => exact absurd nofun h
  | cons a l ih =>
      by_cases ha : P a
      · have hl : ¬ ∀ b ∈ l, P b := fun hl => h (List.forall_mem_cons.mpr ⟨ha, hl⟩)
        obtain ⟨q, b, r, rfl, hq, hb⟩ := ih hl
        exact ⟨a :: q, b, r, rfl, List.forall_mem_cons.mpr ⟨ha, hq⟩, hb⟩
      · exact ⟨[], a, l, rfl, nofun, ha⟩

/-- Plain text is its own text before a percent sign. -/
theorem takeWhile_plain {q : List UInt8} (hu : ∀ b ∈ u, b ≠ percent) :
    (u ++ percent :: q).takeWhile (· ≠ percent) = u ∧
      ((u ++ percent :: q).dropWhile (· ≠ percent)).tail = q := by
  have hall : ∀ b ∈ u, decide (b ≠ percent) = true := by simpa using hu
  rw [List.takeWhile_append_of_pos hall, List.dropWhile_append_of_pos hall]
  simp

/-- A string is plain, or plain up to a percent sign. -/
theorem plain_or_percent (u : List UInt8) : (∀ b ∈ u, b ≠ percent) ∨
    ∃ p q, u = p ++ percent :: q ∧ ∀ b ∈ p, b ≠ percent := by
  by_cases hu : ∀ b ∈ u, b ≠ percent
  · exact Or.inl hu
  · obtain ⟨p, b, q, rfl, hp, hb⟩ := split_first hu
    rw [not_not.mp hb]
    exact Or.inr ⟨p, q, rfl, hp⟩

/-- A string without conversions emits what is before its percent sign. -/
theorem fold_verbatim (h : Verbatim u t) :
    ∃ f, u.foldlM (Fmt.step m fuel outSize g.vl) g.start = some f ∧
      f.Wrote outSize t := by
  obtain ⟨rfl, hbehind⟩ := h
  rcases plain_or_percent u with hu | ⟨p, q, rfl, hp⟩
  · obtain ⟨f, hrun, hf⟩ := g.between.plain m hu
    refine ⟨f, hrun fuel g.vl, ?_⟩
    rw [List.takeWhile_eq_self_iff.mpr (by simpa using hu)]
    exact hf.toWrote
  · rw [(takeWhile_plain hp).2] at hbehind
    obtain ⟨f, hrun, hf⟩ := g.between.plain_idles m hp hbehind
    refine ⟨f, hrun fuel g.vl, ?_⟩
    rw [(takeWhile_plain hp).1]
    exact hf.toWrote

/-- A text is printed that goes on with what the first conversion makes of
its argument. -/
theorem vprintk_conversion {p q r p' : List UInt8} {b : UInt8} {k : Conversion}
    {v z : Nat} {f₁ : Fmt} {out : Nat → UInt8}
    (hbefore : ∀ fuel vl, (p ++ percent :: q).foldlM
      (Fmt.step m fuel outSize vl) (Garbage.start ⟨vl, out⟩) = some f₁)
    (h₁ : f₁.Behind outSize p 0) (hk : conversion b = some k)
    (hpiece : Fmt.Piece m f₁.longarg v k p') (hz : z < 2 ^ 32)
    (hnil : StringAt m z []) (hs : StringAt m pa (p ++ percent :: (q ++ b :: r)))
    (hsize : p.length + p'.length + 18 * r.length < 2 ^ 32) :
    ∃ vl fuel l, vprintk m fuel pa ⟨vl, out⟩ = some (printed (p ++ p' ++ l)) := by
  let fuel := 19 + p'.length + (p ++ percent :: (q ++ b :: r)).length
  -- The conversion has `v`, and all that come behind it have `z`. A character
  -- without room takes neither, and any byte stands for it.
  obtain ⟨vl, taken, hvl, f₂, hstep, h₂⟩ : ∃ vl taken, (∀ i ≥ taken, vl i = z) ∧
      ∃ f₂, f₁.step m fuel outSize vl b = some f₂ ∧
        Fmt.Between outSize (p ++ p') taken f₂ := by
    by_cases hfull : Fmt.Crowded outSize p.length k
    · obtain rfl : p' = [UInt8.ofNat v] := by
        obtain ⟨rfl, -⟩ := hfull
        exact hpiece
      exact ⟨fun _ => z, 0, fun _ _ => rfl, h₁.crowded hk hfull _⟩
    · exact ⟨fun i => if i = 0 then v else z, 1, fun i hi => if_neg (by omega),
        h₁.convert hk hfull hpiece (by omega)⟩
  obtain ⟨f₃, l, hfold, h₃, hlen⟩ :=
    h₂.toWrote.fold hz hnil hvl h₂.taken.ge (by omega : 18 < fuel) r
  refine ⟨vl, fuel, l, vprintk_eq hs (by omega) ?_ h₃ ?_⟩
  · have hsplit : p ++ percent :: (q ++ b :: r) = p ++ percent :: q ++ b :: r := by
      simp
    rw [hsplit, List.foldlM_append, hbefore, Option.bind_eq_bind, Option.bind_some,
      List.foldlM_cons, hstep]
    exact hfold
  · rw [List.length_append, List.length_append]
    omega

/-- The first conversion, and two texts that are printed for it. -/
theorem fold_conversion {p q r : List UInt8} {b : UInt8} (hp : ∀ b ∈ p, b ≠ percent)
    (hq : ∀ b ∈ q, Fmt.Idle b) (hb : ¬ Fmt.Idle b)
    (hs : StringAt m pa (p ++ percent :: (q ++ b :: r)))
    (hlen : (p ++ percent :: (q ++ b :: r)).length < 2 ^ 27)
    (hend : pa + (p ++ percent :: (q ++ b :: r)).length < 2 ^ 32)
    (out : Nat → UInt8) :
    ∃ p₁ p₂, Fmt.Clash p₁ p₂ ∧ ∀ p', p' = p₁ ∨ p' = p₂ → ∃ vl fuel l,
      vprintk m fuel pa ⟨vl, out⟩ = some (printed (p ++ p' ++ l)) := by
  obtain ⟨k, hk⟩ : ∃ k, conversion b = some k :=
    Option.ne_none_iff_exists'.mp fun hnone => hb (Or.inl hnone)
  have hl : k ≠ .l := fun hl => hb (Or.inr (hl ▸ hk))
  -- Up to the conversion the arguments play no part.
  obtain ⟨f₁, hbefore, h₁⟩ :=
    (Garbage.between ⟨fun _ => 0, out⟩).plain_idles m hp hq
  rw [List.nil_append] at h₁
  -- The string from the percent sign on, the string from the conversion on
  -- and the empty one at the end serve as arguments.
  have hsign := hs.drop (k := p.length) (by simp)
  have hconv := hs.drop (k := p.length + 1 + q.length) (by simp; omega)
  have hnil := hs.drop (Nat.le_refl _)
  rw [List.drop_left] at hsign
  rw [List.drop_length] at hnil
  have hconv' : StringAt m (pa + (p.length + 1 + q.length)) (b :: r) := by
    have heq : (p ++ percent :: (q ++ b :: r)).drop (p.length + 1 + q.length)
        = b :: r := by
      rw [Nat.add_assoc, List.drop_length_add_append, Nat.add_comm 1,
        List.drop_succ_cons, List.drop_left]
    rwa [heq] at hconv
  have hne : percent ≠ b := by
    rintro rfl
    cases hk
  have hend' := hend
  simp only [List.length_append, List.length_cons] at hlen hend
  obtain ⟨v₁, v₂, p₁, p₂, hp₁, hp₂, hclash, hlen₁, hlen₂⟩ :=
    Fmt.clashing_pieces (B := 18 + (p.length + (q.length + r.length + 2))) hl
      f₁.longarg hsign hconv' hne (by omega)
      (by simp only [List.length_append, List.length_cons]; omega) (by omega)
  refine ⟨p₁, p₂, hclash, ?_⟩
  rintro p' (rfl | rfl)
  · exact vprintk_conversion hbefore h₁ hk hp₁ hend' hnil hs (by omega)
  · exact vprintk_conversion hbefore h₁ hk hp₂ hend' hnil hs (by omega)

/-- A text that fits is printed as it is and no other text is. -/
theorem printed_inj (ht : t.length < outSize) (h : printed em = t) : em = t := by
  unfold printed at h
  split_ifs at h with hfit
  · exact h
  · have hlen := congrArg List.length h
    rw [List.length_append, List.length_take, List.length_singleton] at hlen
    simp only [outSize] at *
    omega

/-- The string lies in the memory of the machine. -/
def InMemory (pa : Nat) (u : List UInt8) : Prop :=
  u.length < pkeMaxAllowableRam ∧ pa + u.length < physTop

/-- A string with a conversion, or with another text before it, is printed
as something else for some content of registers and stack. -/
theorem not_printed (hs : StringAt m pa u) (hmem : InMemory pa u)
    (ht : t.length < outSize) (hu : ¬ Verbatim u t) (out : Nat → UInt8) :
    ∃ vl fuel o, vprintk m fuel pa ⟨vl, out⟩ = some o ∧ o ≠ t := by
  obtain ⟨hlen, hend⟩ := hmem
  simp only [pkeMaxAllowableRam, physTop, dramBase] at hlen hend
  by_cases hidle : ∀ b ∈ (u.dropWhile (· ≠ percent)).tail, Fmt.Idle b
  · obtain ⟨f, hrun, hf⟩ : ∃ f, u.foldlM (Fmt.step m (u.length + 1) outSize
        fun _ => 0) (Garbage.start ⟨fun _ => 0, out⟩) = some f ∧
        f.Wrote outSize (u.takeWhile (· ≠ percent)) :=
      fold_verbatim (g := ⟨fun _ => 0, out⟩) ⟨rfl, hidle⟩
    have hshort := (List.takeWhile_sublist (p := (· ≠ percent)) (l := u)).length_le
    refine ⟨_, _, _, vprintk_eq hs (Nat.lt_succ_self _) hrun hf (by omega), ?_⟩
    exact fun h => hu ⟨printed_inj ht h, hidle⟩
  · rcases plain_or_percent u with hplain | ⟨p, tail, rfl, hp⟩
    · rw [List.dropWhile_eq_nil_iff.mpr (by simpa using hplain)] at hidle
      exact absurd nofun hidle
    · rw [(takeWhile_plain hp).2] at hidle
      obtain ⟨q, b, r, rfl, hq, hb⟩ := split_first hidle
      obtain ⟨p₁, p₂, hclash, hall⟩ :=
        fold_conversion hp hq hb hs (by omega) (by omega) out
      by_contra hnone
      -- Both texts would be `t`, and they cannot begin alike.
      have hsame : ∀ p', p' = p₁ ∨ p' = p₂ → ∃ l, p ++ (p' ++ l) = t := by
        intro p' hp'
        obtain ⟨vl, fuel, l, hrun⟩ := hall p' hp'
        refine ⟨l, ?_⟩
        rw [← List.append_assoc]
        apply printed_inj ht
        by_contra hne
        exact hnone ⟨vl, fuel, _, hrun, hne⟩
      obtain ⟨l₁, h₁⟩ := hsame p₁ (Or.inl rfl)
      obtain ⟨l₂, h₂⟩ := hsame p₂ (Or.inr rfl)
      exact hclash l₁ l₂ (List.append_cancel_left (h₁.trans h₂.symm))

variable {s : Kernel} {c : Slot} {buf : Nat}

theorem sprint_run : sprint fuel pa g s = match vprintk s.mem fuel pa g with
    | none => ([], .halt .diverge s)
    | some l => (l, .ok () s) := by
  unfold sprint
  rw [bind_get]
  cases vprintk s.mem fuel pa g with
  | none => rfl
  | some l => exact forM_emit l s

/-- `sys_user_print` prints what is at the translation of its argument. -/
theorem sysUserPrint_run (hcur : s.current = some c) :
    sysUserPrint fuel buf g s
      = match vprintk s.mem fuel (userPa s.mem (s.procs c).pagetable buf) g with
        | none => ([], .halt .diverge s)
        | some l => (l, .ok 0 s) := by
  have hprint : sprint fuel (userPa s.mem (s.procs c).pagetable buf) g s = _ :=
    sprint_run
  unfold sysUserPrint
  rw [bind_get, hcur]
  show (Traced.silent _ >>= _) s = _
  rw [bind_silent userVaToPa_run]
  cases hout : vprintk s.mem fuel (userPa s.mem (s.procs c).pagetable buf) g with
  | none =>
      rw [hout] at hprint
      exact bind_halt hprint
  | some l =>
      rw [hout] at hprint
      have hrun := bind_run hprint (f := fun _ => (pure 0 : C Int)) rfl
      rw [List.append_nil] at hrun
      exact hrun

theorem sysUserPrint_prints (hcur : s.current = some c) {l : List UInt8}
    (h : vprintk s.mem fuel (userPa s.mem (s.procs c).pagetable buf) g = some l) :
    sysUserPrint fuel buf g s = (l, .ok 0 s) := by
  rw [sysUserPrint_run hcur, h]

theorem vprintk_of_run (hcur : s.current = some c) {es : List UInt8} {r : Int}
    {s' : Kernel} (h : sysUserPrint fuel buf g s = (es, .ok r s')) :
    vprintk s.mem fuel (userPa s.mem (s.procs c).pagetable buf) g = some es := by
  rw [sysUserPrint_run hcur] at h
  cases hout : vprintk s.mem fuel (userPa s.mem (s.procs c).pagetable buf) g with
  | none =>
      rw [hout] at h
      cases h
  | some l =>
      rw [hout] at h
      cases h
      rfl

/-- Printing that ends has found the end of the string. -/
theorem string_of_vprintk {o : List UInt8} (h : vprintk m fuel pa g = some o) :
    ∃ u, StringAt m pa u ∧ u.length < fuel := by
  obtain ⟨_, hbuf, -⟩ := Option.bind_eq_some_iff.mp h
  obtain ⟨_, hloop, -⟩ := Option.bind_eq_some_iff.mp hbuf
  exact Fmt.string_of_loop hloop

/-- The call prints `t`, whatever registers and stack hold. -/
def PrintsExactly (s : Kernel) (buf : Nat) (t : List UInt8) : Prop :=
  ∀ g, (∃ fuel s', sysUserPrint fuel buf g s = (t, .ok 0 s')) ∧
    ∀ fuel es r s', sysUserPrint fuel buf g s = (es, .ok r s') → es = t

/-- The process passes `t`: its bytes and a 0 are at `buf`, as the process
sees its memory. -/
def PassesString (s : Kernel) (c : Slot) (buf : Nat) (t : List UInt8) : Prop :=
  (∀ b ∈ t, b ≠ 0) ∧ ∀ k ≤ t.length,
    lookupFrame s.mem (s.procs c).pagetable (buf + k) ≠ 0 ∧
    s.mem (userPa s.mem (s.procs c).pagetable (buf + k)) = t.getD k 0

/-- `len` bytes from `buf` on are neighbours in memory. -/
def Adjacent (s : Kernel) (c : Slot) (buf len : Nat) : Prop :=
  ∀ k < len, userPa s.mem (s.procs c).pagetable (buf + k)
    = userPa s.mem (s.procs c).pagetable buf + k

theorem verbatim_self : Verbatim t t ↔ percent ∉ t := by
  constructor
  · intro h hmem
    have hall := List.takeWhile_eq_self_iff.mp h.before percent hmem
    simp at hall
  · intro hmem
    have hplain : ∀ b ∈ t, b ≠ percent := fun b hb hp => hmem (hp ▸ hb)
    refine ⟨List.takeWhile_eq_self_iff.mpr (by simpa using hplain), ?_⟩
    rw [List.dropWhile_eq_nil_iff.mpr (by simpa using hplain)]
    exact nofun

/-- A string is printed as `t` exactly when the string at the translation
of its address is `t` up to a percent sign behind which there is no
conversion; for a string whose bytes are neighbours in memory, when it has
no percent sign. -/
theorem print_faithful_iff (s : Kernel) (c : Slot) (buf : Nat) (t : List UInt8)
    (hcur : s.current = some c) (hlen : t.length < outSize)
    (hmem : ∀ u, StringAt s.mem (userPa s.mem (s.procs c).pagetable buf) u →
      InMemory (userPa s.mem (s.procs c).pagetable buf) u) :
    (PrintsExactly s buf t ↔ ∃ u,
      StringAt s.mem (userPa s.mem (s.procs c).pagetable buf) u ∧ Verbatim u t) ∧
    (PassesString s c buf t → Adjacent s c buf (t.length + 1) →
      (PrintsExactly s buf t ↔ percent ∉ t)) := by
  have hiff : PrintsExactly s buf t ↔ ∃ u,
      StringAt s.mem (userPa s.mem (s.procs c).pagetable buf) u ∧
        Verbatim u t := by
    constructor
    · intro hprints
      obtain ⟨⟨fuel, s', hrun⟩, -⟩ := hprints ⟨fun _ => 0, fun _ => 0⟩
      obtain ⟨u, hu, -⟩ := string_of_vprintk (vprintk_of_run hcur hrun)
      refine ⟨u, hu, by_contra fun hv => ?_⟩
      obtain ⟨vl, fuel, o, hout, hne⟩ :=
        not_printed hu (hmem u hu) hlen hv fun _ => 0
      exact hne ((hprints ⟨vl, fun _ => 0⟩).2 _ _ _ _
        (sysUserPrint_prints hcur hout))
    · rintro ⟨u, hu, hv⟩ g
      have hprints : ∀ fuel, u.length < fuel → vprintk s.mem fuel
          (userPa s.mem (s.procs c).pagetable buf) g = some t := by
        intro fuel hfuel
        obtain ⟨f, hrun, hf⟩ := fold_verbatim hv
        rw [vprintk_eq hu hfuel hrun hf (by simp only [outSize] at hlen; omega),
          printed, if_pos hlen]
      refine ⟨⟨u.length + 1, s, sysUserPrint_prints hcur
        (hprints _ (Nat.lt_succ_self _))⟩, fun fuel es r s' hrun => ?_⟩
      have hout := vprintk_of_run hcur hrun
      obtain ⟨u', hu', hfuel⟩ := string_of_vprintk hout
      rw [hu'.unique hu] at hfuel
      rw [hprints fuel hfuel] at hout
      exact (Option.some.inj hout).symm
  refine ⟨hiff, fun hpass hadj => ?_⟩
  have hs : StringAt s.mem (userPa s.mem (s.procs c).pagetable buf) t := by
    refine stringAt_iff.mpr ⟨hpass.1, fun k hk => ?_⟩
    rw [← hadj k (Nat.lt_succ_of_le hk)]
    exact (hpass.2 k hk).2
  rw [hiff, ← verbatim_self]
  refine ⟨fun ⟨u, hu, hv⟩ => hu.unique hs ▸ hv, fun hv => ⟨t, hs, hv⟩⟩

-- The process below has two bytes at address 0x10, in the frame at 0x5000.

/-- A process whose memory holds the word `w` at address 0x10. -/
def saying (w : Nat) : Kernel :=
  { twoPages with mem := store twoPages.mem 8 0x5010 w }

/-- "hi" is printed as it is. -/
theorem print_faithful_iff_hi : PrintsExactly (saying 0x6968) 0x10 [104, 105] := by
  have hpa : userPa (saying 0x6968).mem ((saying 0x6968).procs 0).pagetable 0x10
      = 0x5010 := by decide
  have hs : StringAt (saying 0x6968).mem 0x5010 [104, 105] := by decide
  refine (print_faithful_iff (saying 0x6968) 0 0x10 [104, 105] rfl (by decide)
    fun u hu => ?_).1.mpr ⟨[104, 105], by rwa [hpa],
      verbatim_self.mpr (by decide)⟩
  rw [hpa] at hu ⊢
  rw [hu.unique hs]
  exact ⟨by decide, by decide⟩

/-- "%d" is printed as the number in a register: 7, say. -/
theorem percent_d_prints_register :
    PassesString (saying 0x6425) 0 0x10 [37, 100] ∧
    Adjacent (saying 0x6425) 0 0x10 3 ∧
    sysUserPrint 3 0x10 ⟨fun _ => 7, fun _ => 0⟩ (saying 0x6425)
      = ([55], .ok 0 (saying 0x6425)) := by
  refine ⟨⟨by simp, by decide⟩, ?_, sysUserPrint_prints (c := 0) rfl ?_⟩
  · unfold Adjacent
    decide
  · decide

-- ==== every call

namespace Fmt

variable {n i : Nat} {vl : Nat → Nat} {f f' : Fmt}

/-- The text of a format in a buffer of `n` bytes, with so many arguments
taken and so many bytes emitted: `none` outside a conversion, and behind a
percent sign whether there was an `l`. For a character without room any byte
stands, and its argument goes to the next conversion. -/
inductive Renders (m : Mem) (n : Nat) (vl : Nat → Nat) :
    Option Bool → Nat → Nat → List UInt8 → List UInt8 → Prop
  | done {x j pos} : Renders m n vl x j pos [] []
  | plain {j pos b q r} : b ≠ percent → Renders m n vl none j (pos + 1) q r →
      Renders m n vl none j pos (b :: q) (b :: r)
  | sign {j pos q r} : Renders m n vl (some false) j pos q r →
      Renders m n vl none j pos (percent :: q) r
  | long {x j pos b q r} : conversion b = some .l →
      Renders m n vl (some true) j pos q r → Renders m n vl (some x) j pos (b :: q) r
  | skip {x j pos b q r} : conversion b = none →
      Renders m n vl (some x) j pos q r → Renders m n vl (some x) j pos (b :: q) r
  | arg {x j pos b q r k p} : conversion b = some k → ¬ Crowded n pos k →
      Piece m x (vl j) k p → Renders m n vl none (j + 1) (pos + p.length) q r →
      Renders m n vl (some x) j pos (b :: q) (p ++ r)
  | crowded {x j pos b q r k c} : conversion b = some k → Crowded n pos k →
      Renders m n vl none j (pos + 1) q r →
      Renders m n vl (some x) j pos (b :: q) (c :: r)

/-- The loop over a format emits its text. -/
theorem Renders.fold {x : Option Bool} {j pos : Nat} {r : List UInt8}
    (hr : Renders m n vl x j pos u r) (h : Wrote n em f) (hpos : em.length = pos)
    (hc : f.format = x.isSome) (hl : f.longarg = x.getD false) (ht : f.taken = j)
    (hfuel : r.length < fuel) :
    ∃ f', u.foldlM (step m fuel n vl) f = some f' ∧ Wrote n (em ++ r) f' := by
  induction hr generalizing em f with
  | done => exact ⟨f, rfl, by rwa [List.append_nil]⟩
  | @plain _ _ b _ _ hb _ ih =>
      obtain ⟨f', hrun, h'⟩ := ih (h.putc b) (by simp [hpos]) hc hl ht
        (Nat.lt_of_succ_lt hfuel)
      rw [List.append_assoc] at h'
      refine ⟨f', ?_, h'⟩
      rw [List.foldlM_cons, step, if_neg (by simp [hc]), if_neg hb]
      exact hrun
  | sign _ ih =>
      rw [List.foldlM_cons, step, if_neg (by simp [hc]), if_pos rfl]
      exact ih (h.congr rfl rfl) hpos rfl hl ht hfuel
  | long hb _ ih =>
      have hc : f.format = true := hc
      simp only [List.foldlM_cons, step, if_pos hc, convert, hb]
      exact ih (h.congr rfl rfl) hpos hc rfl ht hfuel
  | skip hb _ ih =>
      have hc : f.format = true := hc
      simp only [List.foldlM_cons, step, if_pos hc, convert, hb]
      exact ih h hpos hc hl ht hfuel
  | @arg x _ _ _ _ _ _ p hb hroom hp _ ih =>
      rw [List.length_append] at hfuel
      have hlen : p.length < fuel := by omega
      have hbehind : Behind n em _ f := ⟨h, hc, ht⟩
      obtain rfl : f.longarg = x := hl
      subst hpos
      obtain ⟨f₁, hstep, h₁⟩ := hbehind.convert hb hroom hp hlen
      obtain ⟨f', hrun, h'⟩ := ih h₁.toWrote List.length_append h₁.format
        h₁.longarg h₁.taken (by omega)
      rw [List.append_assoc] at h'
      exact ⟨f', by rw [List.foldlM_cons, hstep]; exact hrun, h'⟩
  | @crowded _ _ _ _ _ _ _ c hb hfull _ ih =>
      have hbehind : Behind n em _ f := ⟨h, hc, ht⟩
      subst hpos
      obtain ⟨f₁, hstep, h₁⟩ := hbehind.crowded hb hfull c
      obtain ⟨f', hrun, h'⟩ := ih h₁.toWrote List.length_append h₁.format
        h₁.longarg h₁.taken (Nat.lt_of_succ_lt hfuel)
      rw [List.append_assoc] at h'
      exact ⟨f', by rw [List.foldlM_cons, hstep]; exact hrun, h'⟩

-- The last byte is left for the 0, and nothing is stored behind it.

variable (hi : n ≤ i + 1)
include hi

theorem store_beyond {p : Nat} {x : UInt8} {out : Nat → UInt8} :
    (if p + 1 < n then Function.update out p x else out) i = out i := by
  split_ifs
  · exact Function.update_of_ne (by omega) ..
  · rfl

theorem putHex_beyond {num : Int} {k : Nat} : (putHex n num k f).out i = f.out i := by
  induction k generalizing f with
  | zero => rfl
  | succ k ih => exact ih.trans (store_beyond hi)

theorem storeDigits_beyond {pos k : Nat} {num : Int} {out : Nat → UInt8} :
    storeDigits n pos k num out i = out i := by
  induction k generalizing num out with
  | zero => rfl
  | succ k ih => exact ih.trans (store_beyond hi)

theorem putString_beyond {s2 : Nat} (h : putString m n fuel s2 f = some f') :
    f'.out i = f.out i := by
  induction fuel generalizing s2 f with
  | zero => cases h
  | succ fuel ih =>
      rw [putString] at h
      split_ifs at h
      · cases h
        rfl
      · exact (ih h).trans (store_beyond hi)

theorem convert_beyond {b : UInt8} (h : f.convert m fuel n vl b = some f') :
    f'.out i = f.out i := by
  unfold convert at h
  split at h
  case h_4 =>
    cases h
    refine (storeDigits_beyond hi).trans ?_
    split_ifs
    · exact store_beyond hi
    · rfl
  case h_5 =>
    obtain ⟨f₁, hrun, ⟨⟩⟩ := Option.bind_eq_some_iff.mp h
    exact (putString_beyond hi hrun :)
  case h_6 =>
    split_ifs at h <;> cases h
    · exact store_beyond hi
    · rfl
  all_goals
    cases h
    simp only [converted, putc, putHex_beyond hi, store_beyond hi]

theorem fold_beyond (h : u.foldlM (step m fuel n vl) f = some f') :
    f'.out i = f.out i := by
  induction u generalizing f with
  | nil =>
      cases h
      rfl
  | cons b u ih =>
      obtain ⟨f₁, hstep, h⟩ := Option.bind_eq_some_iff.mp h
      refine (ih h).trans ?_
      rw [step] at hstep
      split_ifs at hstep
      · exact convert_beyond hi hstep
      · cases hstep
        rfl
      · cases hstep
        exact store_beyond hi

end Fmt

/-- A call returns the length of the format's text. The buffer then holds as
much of the text as fits before a 0, and what is behind it is as it was. -/
theorem vsnprintf_renders (m : Mem) (fuel n s : Nat) (vl : Nat → Nat)
    (out : Nat → UInt8) (u em : List UInt8) (hs : StringAt m s u)
    (hr : Fmt.Renders m n vl none 0 0 u em) (hu : u.length < fuel)
    (hem : em.length < fuel) :
    ∃ out', vsnprintf m fuel n s vl out = some (toInt32 em.length, out') ∧
      (∀ i < min em.length (n - 1), out' i = em.getD i 0) ∧
      (0 < n → out' (min em.length (n - 1)) = 0) ∧ ∀ i ≥ n, out' i = out i := by
  have hstart : Fmt.Wrote n [] (Garbage.start ⟨vl, out⟩) := ⟨rfl, nofun⟩
  obtain ⟨f, hrun, hpos, hout⟩ := hr.fold hstart rfl rfl rfl rfl hem
  have hbeyond : ∀ i ≥ n, f.out i = out i := fun i hi =>
    Fmt.fold_beyond (Nat.le_succ_of_le hi) hrun
  rw [← Fmt.loop_string hs hu] at hrun
  rw [List.nil_append] at hpos hout
  unfold vsnprintf
  change ∃ out', (Fmt.loop m fuel n vl fuel s (Garbage.start ⟨vl, out⟩) >>= _) = _ ∧ _
  rw [hrun, ← hpos]
  refine ⟨_, rfl, fun i hi => ?_, fun hn => ?_, fun i hi => ?_⟩
  · rw [← hout i (by omega) (by omega)]
    split_ifs
    · exact Function.update_of_ne (by omega) ..
    · exact Function.update_of_ne (by omega) ..
    · rfl
  · split_ifs
    · rw [Nat.min_eq_left (by omega), Function.update_self]
    · rw [Nat.min_eq_right (by omega), Function.update_self]
    · omega
  · rw [← hbeyond i hi]
    split_ifs
    · exact Function.update_of_ne (by omega) ..
    · exact Function.update_of_ne (by omega) ..
    · rfl

/-- "%d%c%d" in a buffer of three bytes: "12" is stored, the character is
counted, and the word it was passed for is the second number. -/
theorem vsnprintf_renders_number : ∃ out',
    vsnprintf (saying 0x642563256425).mem 7 3 0x5010
        (fun i => if i = 0 then 12 else if i = 1 then 345 else 6) (fun _ => 7)
      = some (6, out') ∧ out' 0 = 49 ∧ out' 1 = 50 ∧ out' 2 = 0 ∧ out' 3 = 7 := by
  obtain ⟨out', hrun, htext, hend, hout⟩ := vsnprintf_renders
    (saying 0x642563256425).mem 7 3 0x5010
    (fun i => if i = 0 then 12 else if i = 1 then 345 else 6) (fun _ => 7)
    [37, 100, 37, 99, 37, 100] ([49, 50] ++ 0 :: ([51, 52, 53] ++ [])) (by decide)
    (.sign (.arg (k := .d) rfl (by decide) (by unfold Fmt.Piece; decide)
      (.sign (.crowded (k := .c) rfl (by decide) (.sign (.arg (k := .d) rfl
        (by decide) (by unfold Fmt.Piece; decide) .done)))))) (by decide) (by decide)
  exact ⟨out', hrun, htext 0 (by decide), htext 1 (by decide), hend (by decide),
    hout 3 (by decide)⟩

end Pke
