/-
Whether an open leaves the path, and all other memory of the process, as it
was.

Of the stores an open makes the process can see one: the NUL in the place of
the colon. It is made whenever a path names a device, before anything is
known of the device, so it is there however the call ends. The second open
of such a path is one of a file on the host, by the device's name.

# The two sides
`Unconsumed` is about the end of the call: no byte of the process has
changed, and a path that lies in its memory resolves to the same device and
sub-path again. `Uncut` is about its beginning: there is no colon in the
path that the process could see. They are the same where the memory an open
works on is apart from that of the process (`open_unconsumed_iff`).

# What is asked of a path
Nothing. The kernel translates the address of the first byte and reads on
from there in physical memory, so the colon it finds may be one that the
process never wrote, or cannot reach; `Uncut` speaks of the text the kernel
reads.
-/
import Pke.Proofs.Open

namespace Pke.Open

open ByteMem Traced

variable {w : World} {s s' : Kernel} {c : Slot} {m m' m₁ : Mem}
variable {fuel va flags path k pfiles : Nat} {fl : List Nat} {l : List UInt8}

-- ==== what can be seen

theorem ColonAt.unique {j : Nat} (h : ColonAt m path k) (h' : ColonAt m path j) :
    j = k := by
  rcases Nat.lt_trichotomy j k with hlt | heq | hgt
  · exact absurd h'.colon (h.before j hlt).2
  · exact heq
  · exact absurd h.colon (h'.before k hgt).2

/-- Where the search for a name ends: NULL if it meets an empty entry. -/
def found (vdev : Vfs.VdevList) (name : List UInt8) :
    List (Fin Vfs.maxDev) → Option Vfs.VfsDev → Option (Option Vfs.VfsDev)
  | [], cursor => some cursor
  | i :: rest, _ =>
      match vdev i with
      | none => none
      | some d =>
          if d.devname = name then some (some d) else found vdev name rest (some d)

/-- The path the kernel reads is in memory of the process. -/
structure Held (s : Kernel) (c : Slot) (path : Nat) (l : List UInt8) : Prop where
  text : StringAt s.mem path l
  user : ∀ k ≤ l.length, UserByte s c (path + k)

/-- A path in user memory is still there if that memory is the same. -/
theorem Held.kept (h : Held s c path l) (hsame : Same (UserByte s c) s.mem m) :
    StringAt m path l := by
  apply h.text.agree
  intro a hlo hhi
  obtain ⟨k, rfl⟩ := Nat.exists_eq_add_of_le hlo
  exact hsame _ (h.user k (by omega))

end Pke.Open
