/-
The kernel's own memory functions (util/string.c: `memcpy`, `memset`,
`strlen`).

Both have a loop that moves a word at a time, taken when the addresses
allow it, and a loop that moves bytes. The other models use what the two
are for, `copy` and `fill` of the byte memory; here they are the loops of
the source, with the 64-bit arithmetic of their pointers. `fuel` bounds
the rounds of a loop.
-/
import Pke.Model.Kernel

namespace Pke.Util

open ByteMem
open Traced (get modify halt)

/-- Programs on memory. -/
abbrev M := Traced.Prog Mem Empty Halt

/-- `sizeof(uintptr_t)`. -/
abbrev wordSize : Nat := 8

-- ==== memcpy

/-- The word loop of `memcpy`; returns `d` and `s`. -/
def copyWords (stop : Nat) : Nat → Nat → Nat → M (Nat × Nat)
  | 0, _, _ => halt .diverge
  | fuel + 1, d, s =>
      if d < stop then do
        modify fun m => store m wordSize d (load m wordSize s)
        copyWords stop fuel (u64 (d + wordSize)) (u64 (s + wordSize))
      else
        return (d, s)

/-- The byte loop of `memcpy`. -/
def copyBytes (stop : Nat) : Nat → Nat → Nat → M Unit
  | 0, _, _ => halt .diverge
  | fuel + 1, d, s =>
      if d < stop then do
        modify fun m => store m 1 d (m s).toNat
        copyBytes stop fuel (u64 (d + 1)) (u64 (s + 1))
      else
        return ()

def memcpy (fuel dest src len : Nat) : M Nat := do
  let (d, s) ←
    if (dest ||| src) &&& (wordSize - 1) = 0 then
      copyWords (u64 (dest + len + (2 ^ 64 - (wordSize - 1)))) fuel dest src
    else
      pure (dest, src)
  copyBytes (u64 (dest + len)) fuel d s
  return dest

-- ==== memset

/-- The low byte of an `int`, eight times. -/
def fillWord (byte : BitVec 32) : Nat :=
  let word := (byte &&& 0xFF).toNat
  let word := word ||| u64 (word <<< 8)
  let word := word ||| u64 (word <<< 16)
  word ||| u64 (u64 (word <<< 16) <<< 16)

/-- The word loop of `memset`. -/
def fillWords (stop word : Nat) : Nat → Nat → M Unit
  | 0, _ => halt .diverge
  | fuel + 1, d =>
      if d < stop then do
        modify fun m => store m wordSize d word
        fillWords stop word fuel (u64 (d + wordSize))
      else
        return ()

/-- The byte loop of `memset`. -/
def fillBytes (stop : Nat) (byte : BitVec 32) : Nat → Nat → M Unit
  | 0, _ => halt .diverge
  | fuel + 1, d =>
      if d < stop then do
        modify fun m => store m 1 d byte.toNat
        fillBytes stop byte fuel (u64 (d + 1))
      else
        return ()

def memset (fuel dest : Nat) (byte : BitVec 32) (len : Nat) : M Nat := do
  let _ ←
    if (dest ||| len) &&& (wordSize - 1) = 0 then
      fillWords (u64 (dest + len)) (fillWord byte) fuel dest
    else
      fillBytes (u64 (dest + len)) byte fuel dest
  return dest

-- ==== strlen

/-- The loop of `strlen`: where the string ends, if that is found. -/
def strend (m : Mem) : Nat → Nat → Option Nat
  | 0, _ => none
  | fuel + 1, p => if m p ≠ 0 then strend m fuel (p + 1) else some p

def strlen (m : Mem) (fuel s : Nat) : Option Nat :=
  (strend m fuel s).map (· - s)

end Pke.Util
