/-
The console: printing a string and reading a line for a process
(kernel/syscall.c, spike_interface/spike_utils.c, util/snprintf.c).

`sys_user_print` hands the process's string to `sprint` as the format.
`vsnprintf` is transcribed with its output buffer, its position, which
counts on past the end of the buffer, and its two flags. What it takes for
arguments are whatever words the argument registers and the stack hold, so
they are a parameter, as is what was in the buffer before; both are in
`Garbage`. The buffer is a local array of the kernel and is kept apart
from memory. `fuel` bounds the length of the strings that are walked.

`sys_user_getline` hands the process's buffer to the host. The host's
answer is a parameter too: a number of bytes stored from the address it was
given, or a negative code and nothing stored.
-/
import Pke.Model.UserIo
import Pke.Model.File

namespace Pke

open ByteMem
open Traced (get modify emit halt)

-- ==== vsnprintf

/-- The characters `vsnprintf` acts on after a percent sign. -/
inductive Conversion where
  | l | p | x | d | s | c
deriving DecidableEq, Repr

/-- The conversion a character asks for. -/
def conversion (b : UInt8) : Option Conversion :=
  if b = 108 then some .l
  else if b = 112 then some .p
  else if b = 120 then some .x
  else if b = 100 then some .d
  else if b = 115 then some .s
  else if b = 99 then some .c
  else none

abbrev percent : UInt8 := 37

/-- The local variables of `vsnprintf`; `taken` is the number of arguments
`vl` has yielded. -/
structure Fmt where
  format : Bool
  longarg : Bool
  taken : Nat
  pos : Nat
  out : Nat → UInt8

namespace Fmt

/-- `if (++pos < n) out[pos - 1] = ch`. -/
def putc (n : Nat) (ch : UInt8) (f : Fmt) : Fmt :=
  { f with
    pos := f.pos + 1
    out := if f.pos + 1 < n then Function.update f.out f.pos ch else f.out }

/-- The argument as a `long` or an `int`. -/
def num (f : Fmt) (v : Nat) : Int :=
  if f.longarg then (v : Int).bmod (2 ^ 64) else (v : Int).bmod (2 ^ 32)

/-- The hexadecimal digits from number `i` down. -/
def putHex (n : Nat) (num : Int) : Nat → Fmt → Fmt
  | 0, f => f
  | i + 1, f =>
      let d := (num / 16 ^ i % 16).toNat
      putHex n num i
        (f.putc n (UInt8.ofNat (if d < 10 then 48 + d else 97 + d - 10)))

/-- The number of decimal digits; twenty rounds are more than a `long`
needs. -/
def digitCount : Nat → Int → Nat
  | 0, _ => 1
  | rounds + 1, nn =>
      if nn.tdiv 10 = 0 then 1 else digitCount rounds (nn.tdiv 10) + 1

/-- The loop that stores the decimal digits, the last one first. -/
def storeDigits (n pos : Nat) : Nat → Int → (Nat → UInt8) → Nat → UInt8
  | 0, _, out => out
  | i + 1, num, out =>
      storeDigits n pos i (num.tdiv 10)
        (if pos + i + 1 < n then
          Function.update out (pos + i) (UInt8.ofNat (48 + num.tmod 10).toNat)
        else out)

def putDecimal (n : Nat) (num : Int) (f : Fmt) : Fmt :=
  let f := if num < 0 then f.putc n 45 else f
  let num := if num < 0 then (-num).bmod (2 ^ 64) else num
  let digits := digitCount 20 num
  { f with
    pos := f.pos + digits
    out := storeDigits n f.pos digits num f.out }

/-- The loop over a string argument. -/
def putString (m : Mem) (n : Nat) : Nat → Nat → Fmt → Option Fmt
  | 0, _, _ => none
  | fuel + 1, s2, f =>
      if m s2 = 0 then some f else putString m n fuel (s2 + 1) (f.putc n (m s2))

/-- An argument has been taken and converted. -/
def converted (f : Fmt) : Fmt :=
  { f with format := false, longarg := false, taken := f.taken + 1 }

/-- A character of the format behind a percent sign. -/
def convert (m : Mem) (fuel n : Nat) (vl : Nat → Nat) (b : UInt8) (f : Fmt) :
    Option Fmt :=
  let v := vl f.taken
  match conversion b with
  | some .l => some { f with longarg := true }
  | some .p =>
      let f := ({ f with longarg := true }.putc n 48).putc n 120
      some (putHex n (f.num v) 16 f).converted
  | some .x =>
      some (putHex n (f.num v) (if f.longarg then 16 else 8) f).converted
  | some .d => some (f.putDecimal n (f.num v)).converted
  | some .s => do
      let f ← putString m n fuel v f
      some f.converted
  | some .c =>
      -- `va_arg` stands behind the comparison: without room no argument is taken
      if f.pos + 1 < n then some (f.putc n (UInt8.ofNat v)).converted
      else some { f with format := false, longarg := false, pos := f.pos + 1 }
  | none => some f

/-- A character of the format. -/
def step (m : Mem) (fuel n : Nat) (vl : Nat → Nat) (f : Fmt) (b : UInt8) :
    Option Fmt :=
  if f.format then f.convert m fuel n vl b
  else if b = percent then some { f with format := true }
  else some (f.putc n b)

/-- The loop over the format, which is at `s`. -/
def loop (m : Mem) (fuel n : Nat) (vl : Nat → Nat) :
    Nat → Nat → Fmt → Option Fmt
  | 0, _, _ => none
  | k + 1, s, f =>
      if m s = 0 then some f
      else do
        let f ← f.step m fuel n vl (m s)
        loop m fuel n vl k (s + 1) f

end Fmt

/-- The result and the buffer. -/
def vsnprintf (m : Mem) (fuel n s : Nat) (vl : Nat → Nat) (out : Nat → UInt8) :
    Option (Int × (Nat → UInt8)) := do
  let f ← Fmt.loop m fuel n vl fuel s
    { format := false, longarg := false, taken := 0, pos := 0, out := out }
  let out :=
    if f.pos < n then Function.update f.out f.pos 0
    else if n ≠ 0 then Function.update f.out (n - 1) 0
    else f.out
  return (toInt32 f.pos, out)

-- ==== printing

/-- What the argument registers, the stack and the output buffer hold. -/
structure Garbage where
  vl : Nat → Nat
  out : Nat → UInt8

/-- `sizeof(out)`. -/
abbrev outSize : Nat := 256

/-- The bytes `vprintk` has the host write; the result is compared with
`sizeof(out)` as an unsigned number. -/
def vprintk (m : Mem) (fuel s : Nat) (g : Garbage) : Option (List UInt8) := do
  let (res, out) ← vsnprintf m fuel outSize s g.vl g.out
  let len := if u64OfInt res < outSize then u64OfInt res else outSize
  return (List.range len).map out

/-- Programs that write to the console. -/
abbrev C := Traced.Prog Kernel UInt8 Halt

/-- `sprint` with a format that is not the kernel's own. -/
def sprint (fuel s : Nat) (g : Garbage) : C Unit := do
  let k ← get
  match vprintk k.mem fuel s g with
  | none => halt .diverge
  | some l => l.forM emit

/-- `sys_user_print`; the length is not used. -/
def sysUserPrint (fuel buf : Nat) (g : Garbage) : C Int := do
  let k ← get
  match k.current with
  | none => halt (.assertFailed "current")
  | some c => do
      let pa ← Traced.silent (userVaToPa (k.procs c).pagetable buf)
      sprint fuel pa g
      return 0

-- ==== reading a line

/-- The host's answer to a read of up to `size` bytes: a count and so many
bytes, or a negative code and none. -/
structure HostRead (size : Int) where
  ret : Int
  bytes : List UInt8
  stored : bytes.length = ret.toNat
  fits : ret ≤ size

/-- Programs whose byte stores are recorded. -/
abbrev W := Traced.Prog Kernel Nat Halt

/-- Store one byte. -/
def storeByte (a : Nat) (b : UInt8) : W Unit := do
  emit a
  modify fun s => { s with mem := Function.update s.mem a b }

/-- Store bytes from index `k` of a buffer on. -/
def storeBytes (dst : Nat) : Nat → List UInt8 → W Unit
  | _, [] => return ()
  | k, b :: l => do
      storeByte (u64 (dst + k)) b
      storeBytes dst (k + 1) l

/-- `sgetline`: the host stores what it has read, then the kernel a 0 over
the last byte. -/
def sgetline (dst : Nat) (size : Int) (r : HostRead size) : W Unit := do
  storeBytes dst 0 r.bytes
  storeByte (u64OfInt (dst + (toInt32 r.ret - 1))) 0

/-- `sys_user_getline`, given the host's answer. -/
def sysUserGetline (dst : Nat) (size : Int) (r : HostRead size) : W Int := do
  let k ← get
  match k.current with
  | none => halt (.assertFailed "current")
  | some c => do
      let pa ← Traced.silent (userVaToPa (k.procs c).pagetable dst)
      sgetline pa size r
      return 0

end Pke
