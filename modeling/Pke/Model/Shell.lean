/-
The parser of the shell (user/sh.c: `gettoken`, `peek`, `parsecmd` and
what it calls; util/string.c: `strchr`, `strlen`).

The state is the memory of the shell's process. A line is parsed where it
lies, from `s` to `es`, its terminating NUL; the command that is built is
a `struct execcmd` in a page of its own, which is what `naive_malloc`
returned and a parameter here. Writes to `argv` and `eargv` are events, so
that a statement can speak of the indices. `panic` leaves through `exit`.

`strchr` is only ever called on string constants of the shell; such a
string is its characters. A pointer that walks a line walks it up to `es`,
so the loops count the characters left. `fuel` bounds `strlen`. Messages
are left out.
-/
import Pke.Lib.ByteMem
import Pke.Lib.Traced

namespace Pke.Sh

open ByteMem
open Traced (get modify emit halt)

-- ==== characters

/-- A character constant. -/
def ch (c : Char) : UInt8 := UInt8.ofNat c.toNat

def whitespace : List UInt8 := [' ', '\t', '\r', '\n', '\x0b'].map ch

def symbols : List UInt8 := ['<', '|', '>', '&', ';', '(', ')'].map ch

/-- `strchr` on a string constant: the index of the character. -/
def strchr : List UInt8 → UInt8 → Option Nat
  | [], _ => none
  | b :: l, c => if b = c then some 0 else (strchr l c).map (· + 1)

def isSpace (c : UInt8) : Bool := (strchr whitespace c).isSome

def isSymbol (c : UInt8) : Bool := (strchr symbols c).isSome

-- ==== scanning

/-- Walk over characters in `p`, of which `n` are left. -/
def scan (p : UInt8 → Bool) (m : Mem) : Nat → Nat → Nat
  | 0, s => s
  | n + 1, s => if p (m s) then scan p m n (s + 1) else s

/-- `while (s < es && strchr(whitespace, *s)) s++`. -/
def skipSpace (m : Mem) (es s : Nat) : Nat := scan isSpace m (es - s) s

/-- The end of the word at `s`. -/
def wordEnd (m : Mem) (es s : Nat) : Nat :=
  scan (fun c => !isSpace c && !isSymbol c) m (es - s) s

/-- What `gettoken` returns and stores: the kind of the token, its start
and end, and the pointer into the line. -/
structure Token where
  ret : UInt8
  q : Nat
  eq : Nat
  ps : Nat

/-- Kind and end of the token at `s`. -/
def tokenAt (m : Mem) (es s : Nat) : UInt8 × Nat :=
  let c := m s
  if c = 0 then (c, s)
  else if c = ch '|' ∨ c = ch '(' ∨ c = ch ')' ∨ c = ch ';' ∨ c = ch '&'
      ∨ c = ch '<' then
    (c, s + 1)
  else if c = ch '>' then
    if m (s + 1) = ch '>' then (ch '+', s + 2) else (c, s + 1)
  else
    (ch 'a', wordEnd m es s)

def gettoken (m : Mem) (es s : Nat) : Token :=
  let q := skipSpace m es s
  let t := tokenAt m es q
  { ret := t.1, q := q, eq := t.2, ps := skipSpace m es t.2 }

/-- Whether the next character is one of `toks`, and the pointer to it. -/
def peek (m : Mem) (es s : Nat) (toks : List UInt8) : Bool × Nat :=
  let s := skipSpace m es s
  (m s ≠ 0 ∧ (strchr toks (m s)).isSome, s)

-- ==== commands

abbrev maxArgs : Nat := 10

/-- The type of an executable command. -/
abbrev execType : Nat := 1

/-- `struct execcmd`: the type, `argv[MAXARGS]`, `eargv[MAXARGS]`. -/
abbrev argvOff : Nat := 8
abbrev eargvOff : Nat := argvOff + 8 * maxArgs
abbrev execcmdSize : Nat := eargvOff + 8 * maxArgs

/-- A write to an entry of one of the two arrays. -/
inductive ArgWrite where
  | argv (i : Nat)
  | eargv (i : Nat)
deriving DecidableEq, Repr

def ArgWrite.index : ArgWrite → Nat
  | .argv i => i
  | .eargv i => i

inductive ShHalt where
  | panic (msg : String)
  | diverge
deriving DecidableEq, Repr

/-- Programs of the shell. -/
abbrev P := Traced.Prog Mem ArgWrite ShHalt

/-- `cmd->argv[i] = v`. -/
def setArgv (cmd i v : Nat) : P Unit := do
  emit (.argv i)
  modify fun m => store m 8 (cmd + argvOff + 8 * i) v

/-- `cmd->eargv[i] = v`. -/
def setEargv (cmd i v : Nat) : P Unit := do
  emit (.eargv i)
  modify fun m => store m 8 (cmd + eargvOff + 8 * i) v

def argvAt (m : Mem) (cmd i : Nat) : Nat := load m 8 (cmd + argvOff + 8 * i)

def eargvAt (m : Mem) (cmd i : Nat) : Nat := load m 8 (cmd + eargvOff + 8 * i)

/-- `execcmd`, in the page `naive_malloc` returned. -/
def execcmd (page : Nat) : P Nat := do
  modify fun m => fill m page 0 execcmdSize
  modify fun m => store m 4 page execType
  return page

-- ==== parsing

/-- The loop of `parseexec`, at `s` and with `argc` words so far. Returns
the number of words and the pointer. -/
def parseArgs (cmd es : Nat) : Nat → Nat → Nat → P (Nat × Nat)
  | 0, _, _ => halt .diverge
  | fuel + 1, argc, s => do
      let m ← get
      let (stop, s) := peek m es s [ch '|', ch ')', ch '&', ch ';']
      if stop then
        return (argc, s)
      else
        let tok := gettoken m es s
        if tok.ret = 0 then
          return (argc, tok.ps)
        else if tok.ret ≠ ch 'a' then
          halt (.panic "syntax")
        else do
          setArgv cmd argc tok.q
          setEargv cmd argc tok.eq
          if argc + 1 ≥ maxArgs then
            halt (.panic "too many args")
          else
            parseArgs cmd es fuel (argc + 1) tok.ps

/-- The command and the pointer. The loop ends by itself after at most
`MAXARGS` rounds. -/
def parseexec (page s es : Nat) : P (Nat × Nat) := do
  let cmd ← execcmd page
  let (argc, s) ← parseArgs cmd es maxArgs 0 s
  setArgv cmd argc 0
  setEargv cmd argc 0
  return (cmd, s)

def parsepipe (page s es : Nat) : P (Nat × Nat) := parseexec page s es

def parseline (page s es : Nat) : P (Nat × Nat) := parsepipe page s es

/-- The loop of `nulterminate`, from index `i` on. -/
def terminate (cmd : Nat) : Nat → Nat → P Unit
  | 0, _ => halt .diverge
  | fuel + 1, i => do
      let m ← get
      if argvAt m cmd i ≠ 0 then do
        modify fun m => store m 1 (eargvAt m cmd i) 0
        terminate cmd fuel (i + 1)
      else
        return ()

def nulterminate (cmd : Nat) : P Nat := do
  if cmd = 0 then
    return 0
  else
    let m ← get
    if load m 4 cmd = execType then do
      terminate cmd maxArgs 0
      return cmd
    else
      return cmd

/-- The length of the string at `s`, counted from `n` on. -/
def strlen : Nat → Nat → Nat → P Nat
  | 0, _, _ => halt .diverge
  | fuel + 1, s, n => do
      let m ← get
      if m s = 0 then return n else strlen fuel (s + 1) (n + 1)

/-- `parsecmd` of the line at `s`, for `page` from `naive_malloc`. -/
def parsecmd (fuel page s : Nat) : P Nat := do
  let len ← strlen fuel s 0
  let es := s + len
  let (cmd, s) ← parseline page s es
  let m ← get
  let (_, s) := peek m es s []
  if s ≠ es then
    halt (.panic "syntax")
  else do
    let _ ← nulterminate cmd
    return cmd

end Pke.Sh
