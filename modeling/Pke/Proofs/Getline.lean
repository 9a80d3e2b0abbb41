/-
Where a line that is read goes.

`sys_user_getline` translates the address of the buffer once and gives it
to the host, which knows nothing of pages: byte `k` goes to the translation
of the first byte plus `k`. Then the kernel stores a 0 over the last byte
read, by its index, whatever the host answered; at end of input that index
is -1.

`getline_stored_iff` says when this is right for every line of a given
length: the bytes before the last have to be where consecutive addresses
lead, and the byte that becomes 0 has to be one of the buffer's.
-/
import Pke.Model.Console
import Pke.Proofs.ExecArgs

namespace Pke

open ByteMem Traced

-- ==== the stores

/-- Memory with the bytes stored from index `k` of a buffer on. -/
def writeBytes (dst : Nat) : Nat → List UInt8 → Mem → Mem
  | _, [], m => m
  | k, b :: l, m => writeBytes dst (k + 1) l (Function.update m (u64 (dst + k)) b)

theorem storeByte_run (a : Nat) (b : UInt8) (s : Kernel) :
    storeByte a b s = ([a], .ok () { s with mem := Function.update s.mem a b }) :=
  rfl

theorem storeBytes_run (dst : Nat) (l : List UInt8) (k : Nat) (s : Kernel) :
    storeBytes dst k l s
      = ((List.range l.length).map fun i => u64 (dst + (k + i)),
        .ok () { s with mem := writeBytes dst k l s.mem }) := by
  induction l generalizing k s with
  | nil => rfl
  | cons b l ih =>
      rw [storeBytes, bind_run (storeByte_run ..) (ih (k + 1) _), List.length_cons,
        List.range_succ_eq_map, List.map_cons, List.map_map]
      congr 1
      simp only [List.singleton_append, Nat.add_zero]
      congr 1
      apply List.map_congr_left
      intro i _
      show u64 (dst + (k + 1 + i)) = u64 (dst + (k + (i + 1)))
      rw [Nat.add_assoc k, Nat.add_comm 1]

/-- The addresses of two bytes of a buffer differ. -/
theorem u64_add_inj {dst i j : Nat} (hi : i < 2 ^ 64) (hj : j < 2 ^ 64)
    (h : u64 (dst + i) = u64 (dst + j)) : i = j := by
  unfold u64 at h
  omega

theorem writeBytes_off {dst k a : Nat} {l : List UInt8} {m : Mem}
    (h : ∀ i < l.length, a ≠ u64 (dst + (k + i))) :
    writeBytes dst k l m a = m a := by
  induction l generalizing k m with
  | nil => rfl
  | cons b l ih =>
      rw [writeBytes, ih]
      · exact Function.update_of_ne (h 0 (Nat.succ_pos _)) ..
      · intro i hi
        rw [Nat.add_assoc, Nat.add_comm 1]
        exact h (i + 1) (Nat.succ_lt_succ hi)

theorem writeBytes_at {dst k i : Nat} {l : List UInt8} {m : Mem}
    (hi : i < l.length) (hk : k + l.length < 2 ^ 64) :
    writeBytes dst k l m (u64 (dst + (k + i))) = l.getD i 0 := by
  induction l generalizing k i m with
  | nil => cases hi
  | cons b l ih =>
      rw [List.length_cons] at hi hk
      rw [writeBytes]
      cases i with
      | zero =>
          rw [writeBytes_off, Nat.add_zero, Function.update_self, List.getD_cons_zero]
          intro i hi' heq
          have := u64_add_inj (by omega) (by omega) heq
          omega
      | succ i =>
          have hnext := ih (k := k + 1) (m := Function.update m (u64 (dst + k)) b)
            (Nat.lt_of_succ_lt_succ hi) (by omega)
          rw [List.getD_cons_succ, ← hnext, Nat.add_assoc k, Nat.add_comm 1]

-- ==== the system call

variable {s : Kernel} {c : Slot} {dst size : Nat}

/-- The address the 0 is stored at. -/
def nulAddr (pa : Nat) (n : Int) : Nat := u64OfInt (pa + (toInt32 n - 1))

/-- Memory after the call. -/
def lineMem (m : Mem) (pa : Nat) (bytes : List UInt8) (n : Int) : Mem :=
  Function.update (writeBytes pa 0 bytes m) (nulAddr pa n) 0

/-- Where an address of the process leads. -/
def Kernel.paOf (s : Kernel) (c : Slot) (va : Nat) : Nat :=
  userPa s.mem (s.procs c).pagetable va

theorem sysUserGetline_of (hcur : s.current = some c) {r : HostRead size}
    {es : List Nat} {s' : Kernel}
    (h : sgetline (s.paOf c dst) size r s = (es, .ok () s')) :
    sysUserGetline dst size r s = (es, .ok 0 s') := by
  unfold sysUserGetline
  rw [bind_get, hcur]
  show (Traced.silent _ >>= _) s = _
  rw [bind_silent userVaToPa_run]
  have hrun := bind_run h (f := fun _ => (pure 0 : W Int)) rfl
  rw [List.append_nil] at hrun
  exact hrun

/-- What the call stores, and memory afterwards. -/
theorem sysUserGetline_run (dst : Nat) (hcur : s.current = some c)
    (r : HostRead size) :
    sysUserGetline dst size r s
      = ((List.range r.bytes.length).map (fun i => u64 (s.paOf c dst + (0 + i))) ++
          [nulAddr (s.paOf c dst) r.ret],
        .ok 0 { s with mem := lineMem s.mem (s.paOf c dst) r.bytes r.ret }) :=
  sysUserGetline_of hcur (bind_run (storeBytes_run ..) (storeByte_run ..))

/-- The line is stored as it should: only bytes of the buffer are written,
its first `kept` bytes are where the process looks for them, and the buffer
holds a 0. -/
structure LineStored (s : Kernel) (c : Slot) (dst size kept : Nat)
    (bytes : List UInt8) (stores : List Nat) (m : Mem) : Prop where
  inside : ∀ a ∈ stores, ∃ j < size, s.paOf c (dst + j) = a
  kept : ∀ k < kept, m (s.paOf c (dst + k)) = bytes.getD k 0
  ended : ∃ j < size, m (s.paOf c (dst + j)) = 0

/-- Every line of `n` bytes is stored as it should. -/
def GetlineStores (s : Kernel) (c : Slot) (dst size kept : Nat) (n : Int) :
    Prop :=
  ∀ r : HostRead size, r.ret = n →
    ∃ es s', sysUserGetline dst size r s = (es, .ok 0 s') ∧
      LineStored s c dst size kept r.bytes es s'.mem

/-- The bytes before the last are neighbours in memory, and the byte that
becomes 0 is one of the buffer's. -/
structure Placement (s : Kernel) (c : Slot) (dst size : Nat) (n : Int) :
    Prop where
  neighbours : ∀ k : Nat, (k : Int) + 1 < n →
    s.paOf c (dst + k) = u64 (s.paOf c dst + k)
  last : ∃ j < size, s.paOf c (dst + j) = nulAddr (s.paOf c dst) n

-- ==== memory afterwards

section Memory

variable {m : Mem} {pa k : Nat} {n : Int} {bytes : List UInt8}

theorem lineMem_nul : lineMem m pa bytes n (nulAddr pa n) = 0 :=
  Function.update_self ..

theorem lineMem_byte (hk : k < bytes.length) (hlen : bytes.length < 2 ^ 64)
    (hne : u64 (pa + k) ≠ nulAddr pa n) :
    lineMem m pa bytes n (u64 (pa + k)) = bytes.getD k 0 := by
  have hbyte : writeBytes pa 0 bytes m (u64 (pa + (0 + k))) = bytes.getD k 0 :=
    writeBytes_at hk (by omega)
  rw [Nat.zero_add] at hbyte
  rw [← hbyte]
  exact Function.update_of_ne hne ..

theorem lineMem_off {a : Nat} (hne : a ≠ nulAddr pa n)
    (hoff : ∀ i < bytes.length, a ≠ u64 (pa + i)) :
    lineMem m pa bytes n a = m a := by
  rw [lineMem, Function.update_of_ne hne]
  apply writeBytes_off
  intro i hi
  rw [Nat.zero_add]
  exact hoff i hi

/-- The 0 goes over the last byte. -/
theorem nulAddr_last (hk : (k : Int) + 1 = n) (hn : n < 2 ^ 31) :
    nulAddr pa n = u64 (pa + k) := by
  have hsame : toInt32 n = n := Int.bmod_eq_of_le (by omega) (by omega)
  unfold nulAddr
  rw [hsame, ← hk, Int.add_sub_cancel]
  unfold u64OfInt u64
  omega

/-- A byte that is at `a` after every line of `n` bytes is stored there,
and is not the one that becomes 0. -/
theorem addr_of_kept {size a : Nat} (hn : n < 2 ^ 31) (hfits : n ≤ size)
    (hk : k < n.toNat)
    (h : ∀ r : HostRead size, r.ret = n →
      lineMem m pa r.bytes n a = r.bytes.getD k 0) :
    a = u64 (pa + k) ∧ a ≠ nulAddr pa n := by
  -- A line of zeros but for byte `k`, which differs from what is at `a`.
  obtain ⟨b, hb, hne⟩ : ∃ b : UInt8, b ≠ 0 ∧ b ≠ m a := by
    by_cases hm : m a = 1
    · exact ⟨2, by decide, by rw [hm]; decide⟩
    · exact ⟨1, by decide, Ne.symm hm⟩
  have hlen : ((List.replicate n.toNat (0 : UInt8)).set k b).length = n.toNat := by
    simp
  have hline := h ⟨n, (List.replicate n.toNat 0).set k b, hlen, hfits⟩ rfl
  have hgetD : ∀ i, ((List.replicate n.toNat (0 : UInt8)).set k b).getD i 0
      = if i = k then b else 0 := by
    intro i
    rw [List.getD_eq_getElem?_getD, List.getElem?_set]
    by_cases hi : k = i
    · subst hi
      simp [hk]
    · rw [if_neg hi, if_neg (Ne.symm hi), List.getElem?_replicate]
      split <;> rfl
  rw [hgetD, if_pos rfl] at hline
  have hnul : a ≠ nulAddr pa n := by
    rintro rfl
    exact hb (hline.symm.trans lineMem_nul)
  refine ⟨by_contra fun hadr => ?_, hnul⟩
  by_cases hoff : ∀ i < n.toNat, a ≠ u64 (pa + i)
  · exact hne (hline.symm.trans (lineMem_off hnul (by rwa [hlen])))
  · push Not at hoff
    obtain ⟨i, hi, rfl⟩ := hoff
    have hik : i ≠ k := fun hik => hadr (hik ▸ rfl)
    rw [lineMem_byte (by rwa [hlen]) (by rw [hlen]; omega) hnul, hgetD, if_neg hik] at hline
    exact hb hline.symm

end Memory

-- ==== the theorem

/-- The bytes the call stores to for a line of `n` bytes. -/
def lineStores (pa : Nat) (n : Int) : List Nat :=
  (List.range n.toNat).map (fun i => u64 (pa + i)) ++ [nulAddr pa n]

variable {n : Int} {kept : Nat}

/-- The call told by its stores and the memory they leave. -/
theorem getlineStores_iff (hcur : s.current = some c) :
    GetlineStores s c dst size kept n ↔ ∀ r : HostRead size, r.ret = n →
      LineStored s c dst size kept r.bytes (lineStores (s.paOf c dst) n)
        (lineMem s.mem (s.paOf c dst) r.bytes n) := by
  refine forall_congr' fun r => forall_congr' fun hret => ?_
  have hrun := sysUserGetline_run dst hcur r
  simp only [r.stored, hret, Nat.zero_add] at hrun
  constructor
  · rintro ⟨es, s', hrun', hstored⟩
    rw [hrun] at hrun'
    cases hrun'
    exact hstored
  · intro hstored
    exact ⟨_, _, hrun, hstored⟩

/-- A buffer that is placed right gets every line. -/
theorem lineStored_of_placement (hn : n < 2 ^ 31) (hfits : n ≤ size)
    (h : Placement s c dst size n) (hkept : kept ≤ n.toNat - 1) {r : HostRead size}
    (hret : r.ret = n) :
    LineStored s c dst size kept r.bytes (lineStores (s.paOf c dst) n)
      (lineMem s.mem (s.paOf c dst) r.bytes n) := by
  have hlen : r.bytes.length = n.toNat := hret ▸ r.stored
  refine ⟨fun a ha => ?_, fun k hk => ?_, ?_⟩
  · rcases List.mem_append.mp ha with ha | ha
    · obtain ⟨i, hi, rfl⟩ := List.mem_map.mp ha
      rw [List.mem_range] at hi
      rcases Int.lt_or_eq_of_le (show (i : Int) + 1 ≤ n by omega) with hlt | heq
      · exact ⟨i, by omega, h.neighbours i hlt⟩
      · rw [← nulAddr_last heq hn]
        exact h.last
    · rw [List.mem_singleton.mp ha]
      exact h.last
  · rw [h.neighbours k (by omega)]
    apply lineMem_byte (by omega) (by omega)
    obtain ⟨i, hi⟩ : ∃ i : Nat, (i : Int) + 1 = n := ⟨n.toNat - 1, by omega⟩
    rw [nulAddr_last hi hn]
    intro heq
    have := u64_add_inj (by omega) (by omega) heq
    omega
  · obtain ⟨j, hj, hlast⟩ := h.last
    refine ⟨j, hj, ?_⟩
    rw [hlast]
    exact lineMem_nul

/-- A buffer that gets every line is placed right. -/
theorem placement_of_stored (hn : n < 2 ^ 31) (hfits : n ≤ size)
    (hkept : n.toNat - 1 ≤ kept)
    (h : ∀ r : HostRead size, r.ret = n →
      LineStored s c dst size kept r.bytes (lineStores (s.paOf c dst) n)
        (lineMem s.mem (s.paOf c dst) r.bytes n)) :
    Placement s c dst size n := by
  refine ⟨fun k hk => ?_, ?_⟩
  · exact (addr_of_kept hn hfits (by omega)
      fun r hret => (h r hret).kept k (by omega)).1
  · have hlen : (List.replicate n.toNat (0 : UInt8)).length = n.toNat := by simp
    apply (h ⟨n, _, hlen, hfits⟩ rfl).inside
    exact List.mem_append_right _ (List.mem_singleton_self _)

/-- A line of `n` bytes is stored as it should, its last byte giving way to
the 0, exactly when the buffer is placed right; with its last byte, which
the 0 replaces, exactly when moreover there is no line. -/
theorem getline_stored_iff (s : Kernel) (c : Slot) (dst size : Nat) (n : Int)
    (hcur : s.current = some c) (hint : size < 2 ^ 31) (hn : n ≤ size) :
    (GetlineStores s c dst size (n.toNat - 1) n ↔ Placement s c dst size n) ∧
    (GetlineStores s c dst size n.toNat n ↔ Placement s c dst size n ∧ n ≤ 0) := by
  have hlt : n < 2 ^ 31 := by omega
  rw [getlineStores_iff hcur, getlineStores_iff hcur]
  refine ⟨⟨placement_of_stored hlt hn (Nat.le_refl _), fun h r hret =>
    lineStored_of_placement hlt hn h (Nat.le_refl _) hret⟩, ?_, ?_⟩
  · intro h
    refine ⟨placement_of_stored hlt hn (Nat.sub_le ..) h, ?_⟩
    by_contra hpos
    obtain ⟨k, hk⟩ : ∃ k : Nat, (k : Int) + 1 = n := ⟨n.toNat - 1, by omega⟩
    obtain ⟨haddr, hnul⟩ := addr_of_kept hlt hn (show k < n.toNat by omega)
      fun r hret => (h r hret).kept k (by omega)
    exact hnul (haddr.trans (nulAddr_last hk hlt).symm)
  · rintro ⟨h, hzero⟩ r hret
    exact lineStored_of_placement hlt hn h (by omega) hret

-- The process below has its first two pages in frames that are not
-- neighbours.

/-- Six bytes into a buffer of sixteen inside a page. -/
theorem getline_stored_iff_inside : GetlineStores twoPages 0 0x10 16 5 6 := by
  have hnext : ∀ k < 5, twoPages.paOf 0 (0x10 + k)
      = u64 (twoPages.paOf 0 0x10 + k) := by decide
  exact (getline_stored_iff twoPages 0 0x10 16 6 rfl (by decide)
    (by decide)).1.mpr ⟨fun k hk => hnext k (by omega), 5, by decide, by decide⟩

/-- Across a page boundary the rest of the line goes to a frame that is not
the process's; at the end of input the byte before the buffer is
cleared. -/
theorem getline_leaves_buffer :
    (BufferMapped 0x1000 0xffc 16 twoPages.mem ∧
      (∀ j < 16, twoPages.paOf 0 (0xffc + j) ≠ 0x6000) ∧
      ∃ es s', sysUserGetline 0xffc 16
        ⟨8, [1, 2, 3, 4, 5, 6, 7, 8], rfl, by decide⟩ twoPages
          = (es, .ok 0 s') ∧ 0x6000 ∈ es) ∧
    (BufferMapped 0x1000 0x10 16 twoPages.mem ∧
      (∀ j < 16, twoPages.paOf 0 (0x10 + j) ≠ 0x500f) ∧
      ∃ s', sysUserGetline 0x10 16 ⟨0, [], rfl, by decide⟩ twoPages
        = ([0x500f], .ok 0 s')) := by
  have hempty := sysUserGetline_run (s := twoPages) (c := 0) 0x10 rfl
    (⟨0, [], rfl, by decide⟩ : HostRead (16 : Nat))
  have hstore : nulAddr (twoPages.paOf 0 0x10) 0 = 0x500f := by decide
  rw [hstore] at hempty
  exact ⟨⟨by decide, by decide, _, _, sysUserGetline_run (c := 0) _ rfl _,
    by decide⟩, by decide, by decide, _, hempty⟩

end Pke
