/-
What opening a file does to the memory of the process that asks.

Three kinds of stores are made. `get_device` puts a NUL in the place of the
first colon of the path, where the path lies. The file system writes to
its I/O buffer and to the pages of the inodes it makes, and `do_open` to the
file table: these are pages of the kernel, and what is written there does
not concern the process. Of the file table, though, the counter is behind
the page, and `ofile[-1]`, which a failed open on the host writes to, is in
front of it; the two have to be asked for as well (`Hidden`).

# Method
Two notions carry the frame. `Still` is for functions on memory: however
they end, the bytes of a set are as they were. `Spares` is for functions
that take pages: it keeps besides that the pages still free are pages of a
given list, so that an inode made later does not land in the set either.

# The condition
`Separated` says that what an open works on is apart from the memory of the
process. For the free pages this is the invariant of the kernel
(`separated_of_sys`). The I/O buffers are of no process model, and where the
counter lies depends on which page came after that of the file table, so
both remain to be asked for.
-/
import Pke.Proofs.ExecStack
import Pke.Proofs.FileTable
import Pke.Proofs.Getline
import Pke.Proofs.Vfs
import Pke.Model.Open

namespace Pke.Open

open ByteMem Traced

variable {V : Nat → Prop} {L : List Nat} {α β ε η : Type}
variable {s s' : Kernel} {m m' m₁ : Mem}

-- ==== sparing

/-- The bytes of `V` are the same in both memories. -/
def Same (V : Nat → Prop) (m m' : Mem) : Prop := ∀ a, V a → m' a = m a

theorem Same.refl (V : Nat → Prop) (m : Mem) : Same V m m := fun _ _ => rfl

theorem Same.trans (h : Same V m m₁) (h' : Same V m₁ m') : Same V m m' :=
  fun a ha => (h' a ha).trans (h a ha)

/-- The block at `p` has no byte of `V`. -/
def Misses (V : Nat → Prop) (p n : Nat) : Prop := ∀ a, V a → a < p ∨ p + n ≤ a

theorem Misses.sub {p n q k : Nat} (h : Misses V p n) (hlo : p ≤ q)
    (hhi : q + k ≤ p + n) : Misses V q k := by
  intro a ha
  have hout := h a ha
  omega

theorem Misses.store {a n v : Nat} (h : Misses V a n) (m : Mem) :
    Same V m (store m n a v) :=
  fun x hx => store_off m (h x hx)

theorem Misses.copy {dst src n : Nat} (h : Misses V dst n) (m : Mem) :
    Same V m (copy m dst src n) := by
  intro x hx
  have hag : Agree m (ByteMem.copy m dst src n) x (x + 1) := by
    apply copy_agree
    have hout := h x hx
    omega
  exact hag x (Nat.le_refl x) (Nat.lt_succ_self x)

/-- The bytes of `V` and those of the pages in `L`. -/
def With (V : Nat → Prop) (L : List Nat) (a : Nat) : Prop :=
  V a ∨ ∃ p ∈ L, p ≤ a ∧ a < p + pgSize

theorem Same.keep (h : Same (With V L) m m') : Same V m m' :=
  fun a ha => h a (Or.inl ha)

/-- A list whose pages are spared is still the list. -/
theorem Same.pool {fl : List Nat} (h : Same (With V L) s.mem m') (hp : Pool s fl)
    (hsub : fl ⊆ L) : Pool { s with mem := m' } fl := by
  refine hp.write rfl rfl fun p hmem a hlo hhi => ?_
  refine h a (Or.inr ⟨p, hsub hmem, hlo, ?_⟩)
  simp only [pgSize]
  omega

/-- However it ends, `p` leaves the bytes of `V` as they were; and if it
returns, the pages that are free are still pages of `L`. -/
def Spares (V : Nat → Prop) (L : List Nat) (p : K α) : Prop :=
  ∀ s fl, Pool s fl → fl ⊆ L →
    Wp (fun _ => False) (fun _ s' => Same V s.mem s'.mem) p
      (fun _ s' => Same V s.mem s'.mem ∧ ∃ fl', Pool s' fl' ∧ fl' ⊆ L) s

/-- The rule for a step that spares `V`. -/
theorem Spares.wp {p : K α} {E : Halt → Kernel → Prop} {Q : α → Kernel → Prop}
    {fl : List Nat} (h : Spares V L p) (hs : Same V m s.mem) (hp : Pool s fl)
    (hsub : fl ⊆ L) (hE : ∀ e s', Same V m s'.mem → E e s')
    (hQ : ∀ a s' fl', Same V m s'.mem → Pool s' fl' → fl' ⊆ L → Q a s') :
    Wp (fun _ => False) E p Q s := by
  refine ((h s fl hp hsub).mono fun a s' hr => ?_).mono_halt fun e s' hr =>
    hE e s' (hs.trans hr)
  obtain ⟨hsame, fl', hp', hsub'⟩ := hr
  exact hQ a s' fl' (hs.trans hsame) hp' hsub'

/-- A function on memory leaves the bytes of `V`, however it ends. -/
abbrev Still (V : Nat → Prop) (p : Prog Mem ε η α) : Prop :=
  Keeps (fun _ => True) (fun m (a : {a // V a}) => m a) p

theorem Still.same {p : Prog Mem ε η α} (h : Still V p) :
    Wp (fun _ => False) (fun _ m' => Same V m m') p (fun _ m' => Same V m m') m :=
  have hsame : ∀ m', (fun a : {a // V a} => m' a) = (fun a : {a // V a} => m a) →
      Same V m m' := fun _ hm a ha => congrFun hm ⟨a, ha⟩
  h.wp_self (fun _ m' _ hm => hsame m' hm) fun _ m' hm => hsame m' hm

section Rfs

variable {fs : Rfs.RfsFs} (hbuf : Misses V fs.buffer rfsBlksize)
include hbuf

end Rfs

-- ==== inodes

/-- The pages of `L`, and the page at 0, have no byte of `V`. -/
structure Clear (V : Nat → Prop) (L : List Nat) : Prop where
  null : Misses V 0 pgSize
  page : ∀ p ∈ L, Misses V p pgSize

/-- The first colon of the string at `path` is its byte `k`. -/
structure ColonAt (m : Mem) (path k : Nat) : Prop where
  colon : m (path + k) = Vfs.colonByte
  before : ∀ j < k, m (path + j) ≠ 0 ∧ m (path + j) ≠ Vfs.colonByte

/-- The stores of an open to the file table miss `V`. They are to the table
and its counter, and to the entry in front, which an open that failed on the
host is given. -/
structure Hidden (V : Nat → Prop) (pfiles : Nat) : Prop where
  room : 24 ≤ pfiles
  bytes : Misses V (pfiles - 24) (24 + (FileTable.nfileOff + 4))

/-- A byte that process `c` can reach in user mode. -/
def UserByte (s : Kernel) (c : Slot) (a : Nat) : Prop :=
  ∃ va w, va < 2 ^ 39 ∧ leaf s.mem (s.procs c).pagetable va = some w ∧
    w &&& pteU ≠ 0 ∧ a = pte2pa w + va % pgSize

variable {w : World} {c : Slot} {fuel va flags path k pfiles : Nat}
variable {fl : List Nat}

/-- An address is only translated by a valid entry. -/
theorem leaf_of_lookupFrame {root : Nat} (h : lookupFrame s.mem root va ≠ 0) :
    ∃ w, leaf s.mem root va = some w ∧ lookupFrame s.mem root va = pte2pa w := by
  unfold lookupFrame at h ⊢
  by_cases hlow : va ≥ maxVa
  · exact absurd (if_pos hlow) h
  rw [if_neg hlow] at h ⊢
  by_cases hnull : walkAddr s.mem root va = 0
  · exact absurd (if_pos hnull) h
  rw [if_neg hnull] at h ⊢
  unfold walkAddr at hnull h ⊢
  cases ht : tableAt s.mem root (vpath va) with
  | none =>
      rw [ht] at hnull
      exact absurd rfl hnull
  | some t =>
      rw [ht] at h
      change (if row s.mem t (px 0 va) &&& pteV = 0 ∨ _ then 0 else _) ≠ 0 at h
      by_cases hv : row s.mem t (px 0 va) &&& pteV = 0 ∨
          (row s.mem t (px 0 va) &&& pteR = 0 ∧ row s.mem t (px 0 va) &&& pteW = 0)
      · exact absurd (if_pos hv) h
      · refine ⟨row s.mem t (px 0 va), ?_, if_neg hv⟩
        rw [leaf_eq ht]
        exact if_pos fun hzero => hv (Or.inl hzero)

/-- The memory the open of a path works on is apart from that of the
process: the pages on the free list, the I/O buffers, and the file table
with its counter and the entry in front. What is free is not mapped. -/
structure Separated (w : World) (s : Kernel) (c : Slot) (fl : List Nat) :
    Prop where
  pool : Pool s fl
  clear : Clear (UserByte s c) fl
  mapped : ∀ va, lookupFrame s.mem (s.procs c).pagetable va ∉ fl
  buffers : ∀ i d, w.vdev i = some d →
    Misses (With (UserByte s c) fl) (w.rfs d).buffer rfsBlksize
  table : Hidden (UserByte s c) (s.procs c).pfiles
  descriptor : -1 ≤ w.kfd ∧ w.kfd < maxFds

/-- In the states the kernel runs through, the first three are so: what the
process has are frames of its own and shared code. -/
theorem separated_of_sys {cfg : Config} {heap : Slot → Nat → Nat → Prop}
    {own : Nat → Owner} {q : List Slot} (hS : Sys cfg heap s own fl q c)
    (hbuf : ∀ i d, w.vdev i = some d →
      Misses (With (UserByte s c) fl) (w.rfs d).buffer rfsBlksize)
    (htable : Hidden (UserByte s c) (s.procs c).pfiles)
    (hkfd : -1 ≤ w.kfd ∧ w.kfd < maxFds) : Separated w s c fl := by
  have hspace := hS.inv.space c hS.current
  have hheap := hS.inv.pages
  have hfree : ∀ p ∈ fl, own p = .free := fun p hp => (hheap.free p).mpr hp
  -- A page that holds a byte of the process is one of its frames, or code.
  have hmiss : ∀ p, p % pgSize = 0 → own p = .free ∨ own p = .held →
      Misses (UserByte s c) p pgSize := by
    intro p hal hp a ha
    obtain ⟨va, e, hva, hleaf, hu, rfl⟩ := ha
    have hown := hspace.userFrame hva hleaf hu
    have hne : p ≠ pte2pa e := by
      rintro rfl
      rcases hp with hp | hp <;> rcases hown with hown | hown <;>
        exact Owner.noConfusion (hp.symm.trans hown)
    have hdisj := page_disjoint hal (pte2pa_aligned e) hne
    have hoff := Nat.mod_lt va (by decide : 0 < pgSize)
    simp only [pgSize] at *
    omega
  refine ⟨hheap.pool, ⟨hmiss 0 rfl (Or.inr hheap.null), fun p hp => ?_⟩, fun va hmem => ?_,
    hbuf, htable, hkfd⟩
  · exact hmiss p (hheap.pool.page p hp).aligned (Or.inl (hfree p hp))
  · have hne : lookupFrame s.mem (s.procs c).pagetable va ≠ 0 :=
      Nat.ne_of_gt (hheap.pool.pos hmem)
    obtain ⟨e, he, heq⟩ := leaf_of_lookupFrame hne
    have hva : va < 2 ^ 39 := by
      by_contra hbig
      exact hne (if_pos (Nat.le_trans (by decide) (Nat.le_of_not_lt hbig)))
    have hown := hfree _ hmem
    rw [heq] at hown hne
    rcases hspace.leafFrame hva he with h | ⟨h, -⟩ | h | h
    · exact Owner.noConfusion (hown.symm.trans h)
    · exact Owner.noConfusion (hown.symm.trans h)
    · rw [h, hS.inv.trap_held] at hown
      exact Owner.noConfusion hown
    · exact hne h.pa

/-- A free page begins with a 0, so no scan of a path gets into one. -/
theorem Separated.colon_off (h : Separated w s c fl)
    (hat : ColonAt s.mem (s.paOf c va) k) {p : Nat} (hp : p ∈ fl) :
    s.paOf c va + k < p ∨ p + pgSize ≤ s.paOf c va + k := by
  have hal := (h.pool.page p hp).aligned
  have hpos := h.pool.pos hp
  have hzero := h.pool.first_byte hp
  by_contra hin
  rcases Nat.lt_or_ge p (s.paOf c va) with hlt | hge
  · -- the path would begin in the page
    have hmap := h.mapped va
    have hfal : lookupFrame s.mem (s.procs c).pagetable va % pgSize = 0 :=
      lookupFrame_aligned
    unfold Kernel.paOf userPa at hlt hin
    by_cases hnull : lookupFrame s.mem (s.procs c).pagetable va = 0
    · rw [if_pos hnull] at hlt
      exact absurd hlt (Nat.not_lt_zero p)
    · rw [if_neg hnull] at hlt hin
      apply hmap
      have heq : lookupFrame s.mem (s.procs c).pagetable va = p := by
        simp only [pgSize] at *
        omega
      rw [heq]
      exact hp
  · -- the scan would pass the first byte of the page
    obtain ⟨j, hj⟩ := Nat.exists_eq_add_of_le hge
    rw [hj] at hzero
    rcases Nat.lt_or_ge j k with hlt | hge'
    · exact (hat.before j hlt).1 hzero
    · obtain rfl : j = k := by omega
      exact absurd (hat.colon.symm.trans hzero) (by decide)

/-- The list is in order once the colon is overwritten. -/
theorem Separated.parsed (h : Separated w s c fl)
    (hat : ColonAt s.mem (s.paOf c va) k) :
    Pool { s with mem := store s.mem 1 (s.paOf c va + k) 0 } fl := by
  refine h.pool.write rfl rfl fun p hp => store_agree s.mem ?_
  have hoff := h.colon_off hat hp
  simp only [pgSize] at hoff
  omega

end Pke.Open
