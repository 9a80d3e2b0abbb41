/-
Reading and writing through a user buffer: how the loop splits the
buffer, and what it reports.

One round of the loop is `ioLoop_round`: from an index below the count it
passes a non-empty range inside one page and then stops on a short
transfer, or goes on at the index moved by what the call returned. While
no call fails the index is the number of bytes transferred so far, and
everything the split is for follows (`user_io_split_exact`).

A call stores what it likes in the frames of the buffer it is given a
range of (`Transfer.Confined`). The page table stays as it is as long as no
entry of the walk to the buffer lies in such a frame (`WalksApart`): the
walk looks up in the middle of a call what it found at the start.

# A failed call

A call that returns -1 is not recognised. Its value is stored in a
`uint64`, where it is larger than any length, so the transfer does not
count as short; the index is moved back by one and the loop goes on. At
index 0 that makes -1, which as a `uint64` is beyond every count: the
loop is done and reports all bytes as transferred. Later failures may be
absorbed by calls that transfer a byte again, so what the loop reports
depends on how the calls go on. `user_io_truthful_iff` says which calls
are reported truthfully however they go on: those of which none fails.
-/
import Pke.Proofs.Vmm
import Pke.Model.Config
import Pke.Model.UserIo
import Mathlib.Data.Nat.Find

namespace Pke

open ByteMem Traced Radix

-- ==== translation

/-- What `lookup_pa` computes, over any memory. -/
def lookupFrame (m : Mem) (root va : Nat) : Nat :=
  if va ≥ maxVa then 0
  else if walkAddr m root va = 0 then 0
  else
    let e := load m 8 (walkAddr m root va)
    if e &&& pteV = 0 ∨ (e &&& pteR = 0 ∧ e &&& pteW = 0) then 0
    else pte2pa e

variable {s : Kernel} {root va bufva count fuel k i : Nat} {c : Slot}
variable {t t' : Transfer} {m : Mem}

/-- `lookup_pa` never fails and changes nothing. -/
theorem returns_lookupPa :
    Returns (lookupPa root va)
      (fun pa s' => pa = lookupFrame s.mem root va ∧ s' = s) s := by
  unfold lookupPa lookupFrame
  by_cases hva : va ≥ maxVa
  · simp only [if_pos hva, Returns, wp_pure, and_self]
  · rw [if_neg hva, if_neg hva, Returns, wp_bind,
      wp_pageWalk_false (Nat.not_le.mp hva)]
    by_cases hw : walkAddr s.mem root va = 0
    · simp only [if_pos hw, wp_pure, and_self]
    · rw [if_neg hw, if_neg hw]
      simp only [ld, wp_bind, wp_get, wp_pure]
      split
      · simp only [wp_pure, and_self]
      · simp only [wp_pure, and_self]

theorem lookupPa_run :
    (lookupPa root va s).2 = .ok (lookupFrame s.mem root va) s := by
  obtain ⟨es, pa, s', hrun, rfl, rfl⟩ := returns_lookupPa.elim
  rw [hrun]

theorem lookupFrame_aligned : lookupFrame m root va % pgSize = 0 := by
  unfold lookupFrame
  split
  · rfl
  split
  · rfl
  simp only
  split
  · rfl
  · exact pte2pa_aligned _

theorem lookupFrame_lt : lookupFrame m root va < 2 ^ 64 := by
  have hpte : ∀ w, pte2pa w < 2 ^ 64 := fun w => Nat.mod_lt _ (by decide)
  unfold lookupFrame
  simp only
  split
  · decide
  split
  · decide
  split
  · decide
  · exact hpte _

/-- `user_va_to_pa` of a mapped address. -/
theorem returns_userVaToPa (hmap : lookupFrame s.mem root va ≠ 0) :
    Returns (userVaToPa root va)
      (fun pa s' => pa = lookupFrame s.mem root va + va % pgSize ∧ s' = s)
      s := by
  have hoff : va &&& ((1 <<< pgShift) - 1) = va % pgSize :=
    Nat.and_two_pow_sub_one_eq_mod va 12
  have hal : lookupFrame s.mem root va % pgSize = 0 := lookupFrame_aligned
  have hlt : lookupFrame s.mem root va < 2 ^ 64 := lookupFrame_lt
  have hva := Nat.mod_lt va (by decide : 0 < pgSize)
  unfold userVaToPa
  rw [Returns, wp_bind]
  refine returns_lookupPa.mono fun pa s' hpa => ?_
  obtain ⟨rfl, rfl⟩ := hpa
  rw [if_neg hmap, wp_pure, hoff]
  refine ⟨Nat.mod_eq_of_lt ?_, rfl⟩
  simp only [pgSize] at *
  omega

-- ==== one round

/-- The calls return -1 or a number of bytes within the length. -/
def Transfer.Bounded (t : Transfer) : Prop :=
  ∀ k buf len m, -1 ≤ (t k buf len m).1 ∧ (t k buf len m).1 ≤ len

/-- The length the loop passes at index `i`. -/
def chunkLen (bufva count i : Nat) : Nat :=
  min (count - i) (pgSize - (bufva + i) % 2 ^ 64 % pgSize)

/-- The address the loop passes at index `i`. -/
def chunkBuf (m : Mem) (root bufva i : Nat) : Nat :=
  u64 (lookupFrame m root (u64 (bufva + i)) + u64 (bufva + i) % pgSize)

theorem chunkLen_pos (hi : i < count) : 0 < chunkLen bufva count i := by
  have hlt := Nat.mod_lt ((bufva + i) % 2 ^ 64) (by decide : 0 < pgSize)
  unfold chunkLen
  simp only [pgSize] at *
  omega

theorem u64OfInt_nat {n : Nat} (hn : n < 2 ^ 64) : u64OfInt n = n := by
  unfold u64OfInt
  omega

theorem u64OfInt_minus_one : u64OfInt (-1) = 2 ^ 64 - 1 := by decide

theorem int32_eq {x : Int} (hlo : -2 ^ 31 ≤ x) (hhi : x < 2 ^ 31) :
    int32 x = x := by
  unfold int32
  rw [Int.bmod_def]
  split <;> omega

/-- A silent part of the loop is run for its value. -/
theorem bind_quietly {α β : Type} {p : K α} {f : α → Io β} {a : α}
    {s' : Kernel} (hp : (p s).2 = .ok a s') :
    (quietly p >>= f) s = f a s' := by
  have hq : quietly p s = ([], .ok a s') := by
    unfold quietly
    rw [hp]
  exact bind_run hq rfl

/-- A call is logged before the loop looks at its value. -/
theorem bind_transfer {β : Type} {f : Int → Io β} {buf len : Nat} {r : Int}
    {m' : Mem} (hr : t k buf len s.mem = (r, m')) :
    (transfer t k buf len >>= f) s =
      (⟨buf, len, s.mem, r⟩ :: (f r { s with mem := m' }).1,
        (f r { s with mem := m' }).2) := by
  have hcall : transfer t k buf len s
      = ([⟨buf, len, s.mem, r⟩], .ok r { s with mem := m' }) := by
    refine bind_run (m := get) (a := s) rfl ?_
    simp only [hr]
    rfl
  exact bind_run hcall rfl

/-- The call the loop makes at index `i`, its `k`-th. -/
def callAt (t : Transfer) (root bufva count k i : Nat) (m : Mem) : IoCall where
  buf := chunkBuf m root bufva i
  len := chunkLen bufva count i
  found := m
  ret := (t k (chunkBuf m root bufva i) (chunkLen bufva count i) m).1

/-- Memory after that call. -/
def memAfter (t : Transfer) (root bufva count k i : Nat) (m : Mem) : Mem :=
  (t k (chunkBuf m root bufva i) (chunkLen bufva count i) m).2

/-- A run with one more call before it. -/
def logged {α : Type} (call : IoCall)
    (run : List IoCall × Out Kernel Halt α) : List IoCall × Out Kernel Halt α :=
  (call :: run.1, run.2)

/-- One round of the loop. -/
theorem ioLoop_round (bufva fuel k : Nat) (hcur : s.current = some c)
    (hi : i < count)
    (hcount : count < 2 ^ 31) (ht : t.Bounded) {call : IoCall} {m' : Mem}
    (hcall : call = callAt t (s.procs c).pagetable bufva count k i s.mem)
    (hm' : m' = memAfter t (s.procs c).pagetable bufva count k i s.mem) :
    ioLoop t bufva count (fuel + 1) k i s =
      if 0 ≤ call.ret ∧ call.ret < call.len then
        ([call], .ok (some (i + call.ret)) { s with mem := m' })
      else
        logged call (ioLoop t bufva count fuel (k + 1) (i + call.ret)
          { s with mem := m' }) := by
  have hi64 : u64OfInt i = i := u64OfInt_nat (by omega)
  have hlen : (if count - i < pgSize
        - (u64 (bufva + i) - roundDown (u64 (bufva + i)) pgSize) then count - i
      else pgSize - (u64 (bufva + i) - roundDown (u64 (bufva + i)) pgSize))
      = call.len := by
    rw [hcall]
    unfold callAt chunkLen u64 roundDown
    simp only [pgSize]
    split <;> omega
  have hbuf : u64 (lookupFrame s.mem (s.procs c).pagetable (u64 (bufva + i))
      + (u64 (bufva + i) - roundDown (u64 (bufva + i)) pgSize)) = call.buf := by
    rw [hcall]
    unfold callAt chunkBuf roundDown
    simp only [pgSize]
    congr 2
    omega
  have hr : t k call.buf call.len s.mem = (call.ret, m') := by
    rw [hcall, hm']
    rfl
  have hfound : call.found = s.mem := by
    rw [hcall]
    rfl
  have hle : call.len ≤ count - i := by
    rw [hcall]
    exact Nat.min_le_left _ _
  have hb := ht k call.buf call.len s.mem
  rw [hr] at hb
  simp only at hb
  have hint : int32 (i + call.ret) = i + call.ret := by
    apply int32_eq <;> omega
  -- a failed call compares as larger than every length
  have hshort : u64OfInt call.ret < call.len
      ↔ 0 ≤ call.ret ∧ call.ret < call.len := by
    unfold u64OfInt
    omega
  have hcurrent : (theCurrent s).2 = .ok c s := by
    have hrun : theCurrent s = ([] ++ [], .ok c s) := by
      refine bind_run (m := get) (a := s) rfl ?_
      rw [hcur]
      rfl
    rw [hrun]
  rw [ioLoop]
  simp only [hi64, if_pos hi]
  have hproc : (proc c s).2 = .ok (s.procs c) s := rfl
  rw [bind_quietly hcurrent, bind_quietly hproc, bind_quietly lookupPa_run, hlen,
    hbuf]
  refine (bind_transfer hr).trans ?_
  rw [hint, ← hfound]
  by_cases h : 0 ≤ call.ret ∧ call.ret < call.len
  · rw [if_pos (hshort.mpr h), if_pos h]
    rfl
  · rw [if_neg fun hlt => h (hshort.mp hlt), if_neg h]
    rfl

/-- At the count the loop is done, and at -1 too. -/
theorem ioLoop_done {i : Int} (hi : i = count ∨ i = -1)
    (hcount : count < 2 ^ 31) :
    ioLoop t bufva count (fuel + 1) k i s
      = ([], .ok (some (count : Int)) s) := by
  have hbeyond : ¬ u64OfInt i < count := by
    rcases hi with rfl | rfl
    · rw [u64OfInt_nat (by omega)]
      exact Nat.lt_irrefl _
    · rw [u64OfInt_minus_one]
      omega
  have hmod : (count : Int).bmod (2 ^ 64) = count := by
    rw [Int.bmod_def]
    split <;> omega
  rw [ioLoop, if_neg hbeyond, hmod]
  rfl

/-- What a round can do: the call is short and the loop ends, or it is
full and the index moves on, or it fails and the index moves back. -/
theorem ioLoop_cases (t : Transfer) (k bufva : Nat) (hcur : s.current = some c)
    (hi : i < count) (hcount : count < 2 ^ 31) (ht : t.Bounded) :
    ∃ call m', call = callAt t (s.procs c).pagetable bufva count k i s.mem ∧
      m' = memAfter t (s.procs c).pagetable bufva count k i s.mem ∧
      0 < call.len ∧ i + call.len ≤ count ∧
      ((∃ n : Nat, call.ret = n ∧ n < call.len ∧ ∀ fuel,
          ioLoop t bufva count (fuel + 1) k i s
            = ([call], .ok (some ((i + n : Nat) : Int)) { s with mem := m' })) ∨
        (call.ret = call.len ∧ ∀ fuel,
          ioLoop t bufva count (fuel + 1) k i s
            = logged call (ioLoop t bufva count fuel (k + 1)
              ((i + call.len : Nat) : Int) { s with mem := m' })) ∨
        (call.ret = -1 ∧ ∀ fuel,
          ioLoop t bufva count (fuel + 1) k i s
            = logged call (ioLoop t bufva count fuel (k + 1) ((i : Int) - 1)
              { s with mem := m' }))) := by
  have hround := fun fuel => ioLoop_round bufva fuel k hcur hi hcount ht rfl rfl
  refine ⟨_, _, rfl, rfl, chunkLen_pos hi, ?_, ?_⟩
  · have hle : chunkLen bufva count i ≤ count - i := Nat.min_le_left _ _
    show i + chunkLen bufva count i ≤ count
    omega
  have hb := ht k (chunkBuf s.mem (s.procs c).pagetable bufva i)
    (chunkLen bufva count i) s.mem
  generalize hcall : callAt t (s.procs c).pagetable bufva count k i s.mem
    = call at *
  have hret : -1 ≤ call.ret ∧ call.ret ≤ call.len := by
    rw [← hcall]
    exact hb
  by_cases hneg : call.ret = -1
  · refine Or.inr (Or.inr ⟨hneg, fun fuel => ?_⟩)
    rw [hround fuel, if_neg (by omega), hneg]
    rfl
  obtain ⟨n, hn⟩ : ∃ n : Nat, call.ret = n := ⟨call.ret.toNat, by omega⟩
  have hadd : (i : Int) + call.ret = ((i + n : Nat) : Int) := by omega
  by_cases hshort : n < call.len
  · refine Or.inl ⟨n, hn, hshort, fun fuel => ?_⟩
    rw [hround fuel, if_pos (by omega), hadd]
  · have hfull : n = call.len := by omega
    refine Or.inr (Or.inl ⟨by omega, fun fuel => ?_⟩)
    rw [hround fuel, if_neg (by omega), hadd, hfull]

-- ==== without failures

/-- The number of bytes the calls transferred. -/
def transferred (calls : List IoCall) : Nat :=
  (calls.map fun call => call.ret.toNat).sum

theorem transferred_cons (call : IoCall) (calls : List IoCall) :
    transferred (call :: calls) = call.ret.toNat + transferred calls := by
  simp only [transferred, List.map_cons, List.sum_cons]

/-- While no call fails the index counts the bytes transferred. -/
theorem ioLoop_value (hcount : count < 2 ^ 31) (ht : t.Bounded) :
    ∀ fuel k i s calls v s', s.current = some c → i ≤ count →
      ioLoop t bufva count fuel k (i : Nat) s = (calls, .ok (some v) s') →
      (∀ call ∈ calls, call.ret ≠ -1) →
      v = i + transferred calls ∧
        ((∀ call ∈ calls, call.ret = call.len) → v = count) := by
  intro fuel
  induction fuel with
  | zero =>
      intro k i s calls v s' _ _ hrun _
      cases hrun
  | succ fuel ih =>
      intro k i s calls v s' hcur hi hrun hok
      rcases Nat.lt_or_eq_of_le hi with hlt | rfl
      · obtain ⟨call, m', -, -, hpos, hle, hcase⟩ :=
          ioLoop_cases t k bufva hcur hlt hcount ht
        rcases hcase with ⟨n, hn, hshort, heq⟩ | ⟨hfull, heq⟩ | ⟨hneg, heq⟩
        · rw [heq fuel] at hrun
          cases hrun
          rw [transferred_cons, hn, Int.toNat_natCast]
          refine ⟨rfl, fun hall => ?_⟩
          have := hall call List.mem_cons_self
          omega
        · rw [heq fuel] at hrun
          obtain ⟨⟨rest, out⟩, hrest⟩ : ∃ run, ioLoop t bufva count fuel (k + 1)
              ((i + call.len : Nat) : Int) { s with mem := m' } = run := ⟨_, rfl⟩
          rw [hrest] at hrun
          obtain ⟨rfl, rfl⟩ := Prod.mk.inj hrun
          obtain ⟨hv, hall⟩ := ih (k + 1) (i + call.len) { s with mem := m' } rest v
            s' hcur hle hrest
            fun call hcall => hok call (List.mem_cons_of_mem _ hcall)
          refine ⟨?_, fun h => hall fun call hcall =>
            h call (List.mem_cons_of_mem _ hcall)⟩
          show v = i + transferred (call :: rest)
          rw [hv, transferred_cons, hfull, Int.toNat_natCast]
          omega
        · rw [heq fuel] at hrun
          obtain ⟨hcalls, -⟩ := Prod.mk.inj hrun
          exact absurd hneg (hok call (hcalls ▸ List.mem_cons_self))
      · rw [ioLoop_done (Or.inl rfl) hcount] at hrun
        cases hrun
        exact ⟨rfl, fun _ => rfl⟩

/-- While no call fails the loop ends: every round but the last moves the
index on. -/
theorem ioLoop_ends (hcount : count < 2 ^ 31) (ht : t.Bounded) :
    ∀ d k i s, s.current = some c → i + d = count →
      (∀ fuel, ∀ call ∈ (ioLoop t bufva count fuel k (i : Nat) s).1,
        call.ret ≠ -1) →
      ∃ fuel calls v s',
        ioLoop t bufva count fuel k (i : Nat) s = (calls, .ok (some v) s') := by
  intro d
  induction d using Nat.strongRecOn with
  | ind d ih =>
      intro k i s hcur hi hok
      rcases Nat.eq_zero_or_pos d with rfl | hd
      · exact ⟨1, _, _, _, ioLoop_done (Or.inl (by omega)) hcount⟩
      obtain ⟨call, m', -, -, hpos, hle, hcase⟩ :=
        ioLoop_cases (i := i) t k bufva hcur (by omega) hcount ht
      rcases hcase with ⟨n, hn, hshort, heq⟩ | ⟨hfull, heq⟩ | ⟨hneg, heq⟩
      · exact ⟨1, _, _, _, heq 0⟩
      · obtain ⟨fuel, calls, v, s', hrun⟩ := ih (d - call.len) (by omega) (k + 1)
          (i + call.len) { s with mem := m' } hcur (by omega) fun fuel call' hmem =>
            hok (fuel + 1) call' (by
              rw [heq fuel]
              exact List.mem_cons_of_mem _ hmem)
        refine ⟨fuel + 1, call :: calls, v, s', ?_⟩
        rw [heq fuel, hrun]
        rfl
      · refine absurd hneg (hok 1 call ?_)
        rw [heq 0]
        exact List.mem_cons_self

/-- The buffer's pages are mapped. -/
def BufferMapped (root bufva count : Nat) (m : Mem) : Prop :=
  ∀ j < count, lookupFrame m root (bufva + j) ≠ 0

instance (root bufva count : Nat) (m : Mem) :
    Decidable (BufferMapped root bufva count m) :=
  inferInstanceAs (Decidable (∀ j < count, lookupFrame m root (bufva + j) ≠ 0))

/-- A process with two pages mapped at address 0, in frames that are not
neighbours: tables at 0x1000, 0x2000 and 0x3000. -/
def twoPages : Kernel :=
  { mem :=
      let perm := protToType (protWrite ||| protRead) true
      let m := store (fun _ => 0) 8 0x1000 (pa2pte 0x2000 ||| pteV)
      let m := store m 8 0x2000 (pa2pte 0x3000 ||| pteV)
      let m := store m 8 0x3000 (pa2pte 0x5000 ||| perm ||| pteV)
      store m 8 0x3008 (pa2pte 0x8000 ||| perm ||| pteV)
    gFreeMemList := 0, freeMemStartAddr := 0x1000, freeMemEndAddr := 0x9000
    gMemSize := 0, gKernelPagetable := 0, ramdisk0BaseAddr := 0
    procs := fun _ => { blankProcess with pagetable := 0x1000 }
    acct := fun _ => { tickCount := 0, totalTickCount := 0, totalMemCount := 0 }
    current := some 0, readyQueueHead := none, gUfreePage := 0, gTicks := 0
    hostFiles := 3, csr := { satp := 0, stvec := 0, sstatus := 0, sepc := 0 } }

/-- The loop ends after these calls with this value. -/
def IoRun (t : Transfer) (bufva count : Nat) (s : Kernel)
    (calls : List IoCall) (v : Int) : Prop :=
  ∃ fuel s', ioLoop t bufva count fuel 0 0 s = (calls, .ok (some v) s')

/-- The loop ends; it reports no more bytes than its calls transferred,
and an error if its first call failed. -/
structure Truthful (t : Transfer) (bufva count : Nat) (s : Kernel) :
    Prop where
  ends : ∃ calls v, IoRun t bufva count s calls v
  total : ∀ calls v, IoRun t bufva count s calls v → v ≤ transferred calls
  error : ∀ call calls v, IoRun t bufva count s (call :: calls) v →
    call.ret = -1 → v < 0

/-- The loop makes a `k`-th call, and it fails. -/
def CallFails (t : Transfer) (bufva count : Nat) (s : Kernel) (k : Nat) :
    Prop :=
  ∃ fuel call, (ioLoop t bufva count fuel 0 0 s).1[k]? = some call ∧
    call.ret = -1

/-- The two transfers are the same up to and including the first call of
the loop that fails. -/
def SameToFailure (t t' : Transfer) (bufva count : Nat) (s : Kernel) : Prop :=
  ∀ k, (∀ j < k, ¬ CallFails t bufva count s j) → t' k = t k

/-- A loop without a failed call is truthful. -/
theorem truthful_of_no_failure (hcur : s.current = some c)
    (hcount : count < 2 ^ 31) (ht : t.Bounded)
    (hok : ∀ k, ¬ CallFails t bufva count s k) :
    Truthful t bufva count s := by
  have hcalls : ∀ fuel, ∀ call ∈ (ioLoop t bufva count fuel 0 ((0 : Nat) : Int)
      s).1, call.ret ≠ -1 := by
    intro fuel call hmem hneg
    obtain ⟨k, hk⟩ := List.mem_iff_getElem?.mp hmem
    exact hok k ⟨fuel, call, hk, hneg⟩
  have hvalue : ∀ calls v, IoRun t bufva count s calls v →
      v = transferred calls ∧ ∀ call ∈ calls, call.ret ≠ -1 := by
    rintro calls v ⟨fuel, s', hrun⟩
    have hgood := hcalls fuel
    rw [show ioLoop t bufva count fuel 0 ((0 : Nat) : Int) s = _ from hrun]
      at hgood
    have hv := (ioLoop_value hcount ht fuel 0 0 s calls v s' hcur
      (Nat.zero_le _) hrun hgood).1
    exact ⟨by omega, hgood⟩
  refine ⟨?_, fun calls v hrun => ?_, fun call calls v hrun hneg => ?_⟩
  · obtain ⟨fuel, calls, v, s', hrun⟩ :=
      ioLoop_ends hcount ht count 0 0 s hcur (Nat.zero_add _) hcalls
    exact ⟨calls, v, fuel, s', hrun⟩
  · rw [(hvalue calls v hrun).1]
  · exact absurd hneg ((hvalue _ v hrun).2 call List.mem_cons_self)

/-- From call `k` on every call fails. -/
def Transfer.DeadFrom (t : Transfer) (k : Nat) : Prop :=
  ∀ j ≥ k, ∀ buf len m, (t j buf len m).1 = -1

/-- A round whose call fails. -/
theorem ioLoop_failed (bufva k : Nat) (hcur : s.current = some c)
    (hi : i < count) (hcount : count < 2 ^ 31) (ht : t.Bounded) {call : IoCall}
    (hcall : call = callAt t (s.procs c).pagetable bufva count k i s.mem)
    (hneg : call.ret = -1) :
    ∃ m', ∀ fuel, ioLoop t bufva count (fuel + 1) k i s
      = logged call (ioLoop t bufva count fuel (k + 1) ((i : Int) - 1)
        { s with mem := m' }) := by
  obtain ⟨call', m', hc, -, -, -, hcase⟩ :=
    ioLoop_cases t k bufva hcur hi hcount ht
  obtain rfl : call' = call := hc.trans hcall.symm
  rcases hcase with ⟨n, hn, -, -⟩ | ⟨hfull, -⟩ | ⟨-, heq⟩
  · omega
  · omega
  · exact ⟨m', heq⟩

/-- Once every call fails, the loop moves back to the start, one index a
call, and reports the whole count. -/
theorem ioLoop_back (bufva : Nat) (hcount : count < 2 ^ 31) (ht : t.Bounded) :
    ∀ i k s, s.current = some c → i ≤ count → t.DeadFrom k →
      ∃ fuel calls s', ioLoop t bufva count fuel k ((i : Int) - 1) s
          = (calls, .ok (some (count : Int)) s') ∧ transferred calls = 0 := by
  intro i
  induction i with
  | zero =>
      intro k s _ _ _
      exact ⟨1, [], s, ioLoop_done (Or.inr rfl) hcount, rfl⟩
  | succ i ih =>
      intro k s hcur hi hdead
      have hneg := hdead k (Nat.le_refl _)
        (chunkBuf s.mem (s.procs c).pagetable bufva i) (chunkLen bufva count i)
        s.mem
      obtain ⟨m', heq⟩ := ioLoop_failed bufva k hcur (by omega : i < count) hcount
        ht rfl hneg
      obtain ⟨fuel, calls, s', hrun, hzero⟩ := ih (k + 1) { s with mem := m' }
        hcur (by omega) fun j hj => hdead j (by omega)
      refine ⟨fuel + 1, callAt t (s.procs c).pagetable bufva count k i s.mem
        :: calls, s', ?_, ?_⟩
      · rw [show ((i + 1 : Nat) : Int) - 1 = (i : Nat) by omega, heq fuel, hrun]
        rfl
      · rw [transferred_cons, hzero]
        show (t k _ _ s.mem).1.toNat + 0 = 0
        rw [hneg]
        rfl

/-- If the calls go on failing after the first failure, the loop reports
bytes nobody transferred. -/
theorem ioLoop_fails (hcount : count < 2 ^ 31) (ht : t.Bounded)
    (ht' : t'.Bounded) :
    ∀ n k i s, s.current = some c → i ≤ count →
      (∃ fuel call, (ioLoop t bufva count fuel k (i : Nat) s).1[n]? = some call ∧
        call.ret = -1) →
      (∀ j < n, ∀ fuel call, (ioLoop t bufva count fuel k (i : Nat) s).1[j]?
        = some call → call.ret ≠ -1) →
      (∀ j ≤ n, t' (k + j) = t (k + j)) → t'.DeadFrom (k + n + 1) →
      ∃ fuel calls s', ioLoop t' bufva count fuel k (i : Nat) s
          = (calls, .ok (some (count : Int)) s') ∧
        i + transferred calls < count := by
  intro n
  induction n with
  | zero =>
      rintro k i s hcur hi ⟨fuel, call', hget, hneg'⟩ - hsame hdead
      cases fuel with
      | zero => cases hget
      | succ fuel =>
          rcases Nat.lt_or_eq_of_le hi with hlt | rfl
          · obtain ⟨call, m', hc, -, hpos, hle, hcase⟩ :=
              ioLoop_cases t k bufva hcur hlt hcount ht
            have hfirst : call' = call := by
              rcases hcase with ⟨n, -, -, heq⟩ | ⟨-, heq⟩ | ⟨-, heq⟩ <;>
                · rw [heq fuel] at hget
                  exact (Option.some.inj hget).symm
            subst hfirst
            have hk : t' k = t k := hsame 0 (Nat.le_refl _)
            have hc' : call'
                = callAt t' (s.procs c).pagetable bufva count k i s.mem := by
              rw [hc]
              unfold callAt
              rw [hk]
            obtain ⟨m'', heq⟩ := ioLoop_failed bufva k hcur hlt hcount ht' hc' hneg'
            obtain ⟨fuel, calls, s', hrun, hzero⟩ := ioLoop_back bufva hcount ht' i
              (k + 1) { s with mem := m'' } hcur hi hdead
            refine ⟨fuel + 1, call' :: calls, s', ?_, ?_⟩
            · rw [heq fuel, hrun]
              rfl
            · rw [transferred_cons, hzero, hneg']
              show i + 0 < count
              omega
          · rw [ioLoop_done (Or.inl rfl) hcount] at hget
            cases hget
  | succ n ih =>
      rintro k i s hcur hi ⟨fuel, call', hget, hneg'⟩ hclean hsame hdead
      cases fuel with
      | zero => cases hget
      | succ fuel =>
          rcases Nat.lt_or_eq_of_le hi with hlt | rfl
          · obtain ⟨call, m', hc, hm', hpos, hle, hcase⟩ :=
              ioLoop_cases t k bufva hcur hlt hcount ht
            rcases hcase with ⟨r, -, -, heq⟩ | ⟨hfull, heq⟩ | ⟨hneg, heq⟩
            · rw [heq fuel] at hget
              cases hget
            · have hk : t' k = t k := hsame 0 (by omega)
              have hc' : call
                  = callAt t' (s.procs c).pagetable bufva count k i s.mem := by
                rw [hc]
                unfold callAt
                rw [hk]
              have hm'' : m'
                  = memAfter t' (s.procs c).pagetable bufva count k i s.mem := by
                rw [hm']
                unfold memAfter
                rw [hk]
              rw [heq fuel] at hget
              obtain ⟨fuel', calls, s', hrun, hlt'⟩ := ih (k + 1) (i + call.len)
                { s with mem := m' } hcur hle ⟨fuel, call', hget, hneg'⟩
                (fun j hj fuel call'' hj' => hclean (j + 1) (by omega) (fuel + 1)
                  call'' (by rw [heq fuel]; exact hj'))
                (fun j hj => by
                  have := hsame (j + 1) (by omega)
                  rwa [Nat.add_comm j 1, ← Nat.add_assoc] at this)
                (by rwa [show k + 1 + n + 1 = k + (n + 1) + 1 by omega])
              refine ⟨fuel' + 1, call :: calls, s', ?_, ?_⟩
              · rw [ioLoop_round _ _ _ hcur hlt hcount ht' hc' hm'', if_neg (by omega),
                  hfull, show (i : Int) + (call.len : Int)
                    = ((i + call.len : Nat) : Int) by omega, hrun]
                rfl
              · rw [transferred_cons, hfull, Int.toNat_natCast]
                omega
            · exact absurd hneg (hclean 0 (by omega) (fuel + 1) call (by
                rw [heq fuel]
                rfl))
          · rw [ioLoop_done (Or.inl rfl) hcount] at hget
            cases hget

/-- The loop of `sys_user_read` and `sys_user_write` ends and reports
truthfully, whatever its calls do after the first one that fails, exactly
when none fails. -/
theorem user_io_truthful_iff (hcur : s.current = some c)
    (hcount : count < 2 ^ 31) (ht : t.Bounded) :
    (∀ t' : Transfer, t'.Bounded → SameToFailure t t' bufva count s →
        Truthful t' bufva count s)
      ↔ ∀ k, ¬ CallFails t bufva count s k := by
  constructor
  · intro htrue k hfail
    classical
    -- the first failure, and calls that go on failing after it
    have hex : ∃ k, CallFails t bufva count s k := ⟨k, hfail⟩
    let n := Nat.find hex
    let t' : Transfer := fun k =>
      if k ≤ n then t k else fun _ _ m => (-1, m)
    have hbefore : ∀ j < n, ¬ CallFails t bufva count s j :=
      fun j hj => Nat.find_min hex hj
    have ht' : t'.Bounded := by
      intro k buf len m
      show -1 ≤ ((if k ≤ n then t k else fun _ _ m => (-1, m)) buf len m).1 ∧ _
      by_cases hk : k ≤ n
      · simp only [t', if_pos hk]
        exact ht k buf len m
      · simp only [t', if_neg hk]
        omega
    have hsame : SameToFailure t t' bufva count s := by
      intro k hk
      have hle : k ≤ n := by
        by_contra hlt
        exact hk n (by omega) (Nat.find_spec hex)
      exact if_pos hle
    obtain ⟨fuel, calls, s', hrun, hlt⟩ := ioLoop_fails hcount ht ht' n 0 0 s
      hcur (Nat.zero_le _) (Nat.find_spec hex)
      (fun j hj fuel call hget hneg => hbefore j hj ⟨fuel, call, hget, hneg⟩)
      (fun j hj => if_pos (by omega))
      (fun j hj buf len m => by
        simp only [t', if_neg (by omega : ¬ j ≤ n)])
    have htotal := (htrue t' ht' hsame).total calls count ⟨fuel, s', hrun⟩
    omega
  · intro hok t' ht' hsame
    have heq : t' = t := funext fun k => hsame k fun j _ => hok j
    rw [heq]
    exact truthful_of_no_failure hcur hcount ht hok

/-- The theorem for a transfer that never fails. -/
theorem user_io_truthful_iff_two_pages :
    (∀ t' : Transfer, t'.Bounded →
        SameToFailure (fun _ _ len m => ((len : Int), m)) t' 0xff0 32 twoPages →
        Truthful t' 0xff0 32 twoPages)
      ↔ ∀ k, ¬ CallFails (fun _ _ len m => ((len : Int), m)) 0xff0 32
          twoPages k :=
  user_io_truthful_iff (c := 0) rfl (by decide)
    fun _ _ len _ => ⟨by omega, Int.le_refl _⟩

/-- `sys_user_read` of 5 bytes into a mapped buffer: its one call fails
and transfers nothing, and it reports 5 bytes read. -/
theorem failed_read_reports_count :
    ∃ call, IoRun (doRead 0) 0x10 5 twoPages [call] 5 ∧ call.ret = -1 ∧
      transferred [call] = 0 ∧ call.buf = 0x5010 :=
  ⟨_, ⟨2, _, Prod.ext rfl rfl⟩, rfl, rfl, rfl⟩

end Pke
