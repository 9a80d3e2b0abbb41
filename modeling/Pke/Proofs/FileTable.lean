/-
The file table does not fit its page, and is built from what it held.

`struct files_struct` is 4112 bytes, sixteen more than a page: `nfile`
lies in the next page (`nfile_beyond`), and so does the `node` of the last
entry. Nothing else does, but `files_create` resets the counter and every
open that returns increments it (`wp_doOpen_beyond`).

The page comes uncleared from the free list. The first loop of
`files_create` writes the entries of the open host files and leaves the
others as they are; the second one frees the entries that do not say
`FD_HOST`. As `FD_HOST` is zero, an entry whose word happened to be zero
is taken for a host file, and is never free again.
-/
import Pke.Model.FileTable
import Mathlib.Data.Fintype.Card

namespace Pke.FileTable

open ByteMem
open Traced

/-- The status word of an entry. -/
def statusAt (m : Mem) (pfiles : Nat) (i : Fin maxFiles) : Nat :=
  load m 4 (ofile pfiles i + statusOff)

/-- The word `nfile`. -/
def nfileAt (m : Mem) (pfiles : Nat) : Nat := load m 4 (pfiles + nfileOff)

section Words

variable {m : Mem} {pfiles : Nat}

theorem ofile_val (pfiles : Nat) (i : Fin maxFiles) :
    ofile pfiles i = pfiles + 8 + 32 * i.val := by
  simp only [ofile, ofileOff, fileSize]
  omega

theorem statusAt_store {n a v : Nat} {i : Fin maxFiles}
    (h : a + n ≤ ofile pfiles i ∨ ofile pfiles i + 4 ≤ a) :
    statusAt (store m n a v) pfiles i = statusAt m pfiles i :=
  load_agree (store_agree m h)

theorem nfileAt_store {n a v : Nat} (h : a + n ≤ pfiles + nfileOff) :
    nfileAt (store m n a v) pfiles = nfileAt m pfiles :=
  load_agree (store_agree m (Or.inl h))

/-- A status written. -/
theorem statusAt_store_status {v : Nat} (hv : v < 2 ^ 32)
    (i j : Fin maxFiles) :
    statusAt (store m 4 (ofile pfiles i + statusOff) v) pfiles j
      = if j = i then v else statusAt m pfiles j := by
  split_ifs with hij
  · subst hij
    exact (load_store m 4 _ v).trans (Nat.mod_eq_of_lt hv)
  · have hne : j.val ≠ i.val := fun h => hij (Fin.ext h)
    apply statusAt_store
    simp only [ofile_val, statusOff]
    omega

/-- A field other than the status written. -/
theorem statusAt_store_field {n off v : Nat} (hlo : 4 ≤ off)
    (hhi : off + n ≤ fileSize) (i j : Fin maxFiles) :
    statusAt (store m n (ofile pfiles i + off) v) pfiles j
      = statusAt m pfiles j := by
  apply statusAt_store
  simp only [ofile_val, fileSize] at *
  rcases Nat.lt_trichotomy j.val i.val with h | h | h <;> omega

theorem nfileAt_store_field {n off v : Nat} (hhi : off + n ≤ fileSize)
    (i : Fin maxFiles) :
    nfileAt (store m n (ofile pfiles i + off) v) pfiles = nfileAt m pfiles := by
  apply nfileAt_store
  have := i.isLt
  simp only [ofile_val, fileSize, nfileOff, ofileOff, maxFiles] at *
  omega

theorem statusAt_store_nfile {v : Nat} (j : Fin maxFiles) :
    statusAt (store m 4 (pfiles + nfileOff) v) pfiles j
      = statusAt m pfiles j := by
  apply statusAt_store
  have := j.isLt
  simp only [ofile_val, fileSize, nfileOff, ofileOff, maxFiles] at *
  omega

end Words

-- ==== what is initialised

section Create

variable {bad : Write → Prop} {E : FileHalt → Mem → Prop} {m : Mem}
variable {spikeFiles : Fin maxFiles → SpikeFile} {pfiles : Nat}

theorem wp_put {n a v : Nat} {Q : Unit → Mem → Prop}
    (h : Q () (store m n a v)) : Wp bad E (put n a v) Q m := by
  simp [put, h]

/-- One round of the first loop. -/
theorem wp_saveHostFile (i : Fin maxFiles) :
    Wp bad E (saveHostFile spikeFiles pfiles i)
      (fun _ m' =>
        (∀ j, statusAt m' pfiles j
          = if j = i ∧ (spikeFiles i).kfd ≠ -1 then fdHost
            else statusAt m pfiles j) ∧
        nfileAt m' pfiles = if (spikeFiles i).kfd ≠ -1
          then (nfileAt m pfiles + 1) % 2 ^ 32 else nfileAt m pfiles) m := by
  unfold saveHostFile
  refine wp_ite.mpr ⟨fun hkfd => ?_, fun hkfd => ?_⟩
  · simp [hkfd]
  · simp only [wp_bind, incNfile]
    refine wp_put (wp_put (wp_put (wp_get.mpr (wp_put ⟨fun j => ?_, ?_⟩))))
    · rw [statusAt_store_nfile, statusAt_store_field (by decide) (by decide),
        statusAt_store_field (by decide) (by decide),
        statusAt_store_status (by decide)]
      simp only [ne_eq, hkfd, not_false_eq_true, and_true]
    · rw [if_pos hkfd]
      refine (load_store _ 4 _ _).trans ?_
      show (nfileAt _ pfiles + 1) % 2 ^ 32 = _
      rw [nfileAt_store_field (by decide), nfileAt_store_field (by decide),
        nfileAt_store_field (by decide)]

/-- One round of the second loop. -/
theorem wp_initEntry (i : Fin maxFiles) :
    Wp bad E (initEntry pfiles i)
      (fun _ m' =>
        (∀ j, statusAt m' pfiles j
          = if j = i ∧ statusAt m pfiles i ≠ fdHost then fdNone
            else statusAt m pfiles j) ∧
        nfileAt m' pfiles = nfileAt m pfiles) m := by
  unfold initEntry
  rw [wp_bind, wp_get]
  refine wp_ite.mpr ⟨fun hst => ?_, fun hst => ?_⟩
  · rw [wp_bind]
    refine wp_put (wp_put ⟨fun j => ?_, ?_⟩)
    · rw [statusAt_store_field (by decide) (by decide),
        statusAt_store_status (by decide)]
      have hst' : statusAt m pfiles i ≠ fdHost := hst
      simp only [hst', ne_eq, not_false_eq_true, and_true]
    · rw [nfileAt_store_field (by decide), nfileAt_store_field (by decide)]
  · have hst' : statusAt m pfiles i = fdHost := not_not.mp hst
    simp [hst']

/-- The first loop: the open host files are entered and counted, the
other entries hold what they held. -/
theorem wp_saveHostFiles (hzero : nfileAt m pfiles = 0) :
    Wp bad E ((List.finRange maxFiles).forM (saveHostFile spikeFiles pfiles))
      (fun _ m' =>
        (∀ j, statusAt m' pfiles j = if (spikeFiles j).kfd ≠ -1 then fdHost
          else statusAt m pfiles j) ∧
        nfileAt m' pfiles = ((List.finRange maxFiles).filter fun j =>
          (spikeFiles j).kfd ≠ -1).length) m := by
  refine (wp_forM (fun done m' =>
    (∀ j, statusAt m' pfiles j
      = if j ∈ done ∧ (spikeFiles j).kfd ≠ -1 then fdHost
        else statusAt m pfiles j) ∧
    nfileAt m' pfiles
      = (done.filter fun j => (spikeFiles j).kfd ≠ -1).length)
    ⟨fun j => by simp, by simpa using hzero⟩ ?_).mono ?_
  · intro done i rest hsplit m₁ ⟨hst, hn⟩
    refine (wp_saveHostFile i).mono fun _ m₂ ⟨hst₂, hn₂⟩ => ⟨fun j => ?_, ?_⟩
    · rw [hst₂, hst]
      by_cases hj : j = i
      · subst hj
        by_cases hk : (spikeFiles j).kfd = -1 <;> simp [hk]
      · simp [hj]
    · have hlen : done.length < 128 := by
        have := congrArg List.length hsplit
        simp only [List.length_finRange, List.length_append,
          List.length_cons, maxFiles] at this
        omega
      have hle := List.length_filter_le
        (fun j => decide ((spikeFiles j).kfd ≠ -1)) done
      rw [hn₂, hn, List.filter_append, List.length_append]
      by_cases hk : (spikeFiles i).kfd = -1
      · simp [hk]
      · simp only [hk, ne_eq, not_false_eq_true, if_true, decide_true,
          List.filter_cons_of_pos, List.filter_nil, List.length_singleton]
        exact Nat.mod_eq_of_lt (by simp only [ne_eq] at hle; omega)
  · rintro _ m' ⟨hst, hn⟩
    exact ⟨fun j => by simpa using hst j, hn⟩

/-- The second loop: every entry that does not say `FD_HOST` is free. -/
theorem wp_initEntries :
    Wp bad E ((List.finRange maxFiles).forM (initEntry pfiles))
      (fun _ m' =>
        (∀ j, statusAt m' pfiles j = if statusAt m pfiles j ≠ fdHost
          then fdNone else fdHost) ∧
        nfileAt m' pfiles = nfileAt m pfiles) m := by
  refine (wp_forM (fun done m' =>
    (∀ j, statusAt m' pfiles j
      = if j ∈ done ∧ statusAt m pfiles j ≠ fdHost then fdNone
        else statusAt m pfiles j) ∧
    nfileAt m' pfiles = nfileAt m pfiles)
    ⟨fun j => by simp, rfl⟩ ?_).mono ?_
  · intro done i rest _ m₁ ⟨hst, hn⟩
    refine (wp_initEntry i).mono fun _ m₂ ⟨hst₂, hn₂⟩ =>
      ⟨fun j => ?_, hn₂.trans hn⟩
    rw [hst₂, hst, hst]
    by_cases hj : j = i
    · subst hj
      by_cases hd : j ∈ done <;> by_cases hs : statusAt m pfiles j = fdHost <;>
        simp [hd, hs]
    · simp [hj]
  · rintro _ m' ⟨hst, hn⟩
    refine ⟨fun j => ?_, hn⟩
    rw [hst]
    by_cases hs : statusAt m pfiles j = fdHost <;> simp [hs]

/-- The table `files_create` builds. -/
theorem wp_filesCreate :
    Wp bad E (filesCreate spikeFiles pfiles)
      (fun _ m' =>
        (∀ j, statusAt m' pfiles j
          = if (spikeFiles j).kfd ≠ -1 ∨ statusAt m pfiles j = fdHost
            then fdHost else fdNone) ∧
        nfileAt m' pfiles = ((List.finRange maxFiles).filter fun j =>
          (spikeFiles j).kfd ≠ -1).length) m := by
  unfold filesCreate
  simp only [wp_bind]
  refine wp_put (wp_put ?_)
  refine (wp_saveHostFiles (load_store _ 4 _ 0)).mono fun _ m₁ hres => ?_
  obtain ⟨hst, hn⟩ := hres
  refine wp_initEntries.mono fun _ m₂ hres => ?_
  obtain ⟨hst₂, hn₂⟩ := hres
  refine ⟨fun j => ?_, hn₂.trans hn⟩
  have hstale : statusAt (store (store m 8 (pfiles + cwdOff) 0) 4
      (pfiles + nfileOff) 0) pfiles j = statusAt m pfiles j := by
    rw [statusAt_store_nfile]
    exact statusAt_store (Or.inl (by rw [ofile_val]; simp only [cwdOff]; omega))
  rw [hst₂, hst, hstale]
  by_cases hk : (spikeFiles j).kfd = -1 <;>
    by_cases hs : statusAt m pfiles j = fdHost <;> simp [hk, hs]

end Create

/-- The entries that say `FD_HOST`. -/
def hostEntries (m : Mem) (pfiles : Nat) : Finset (Fin maxFiles) :=
  Finset.univ.filter fun i => statusAt m pfiles i = fdHost

/-- The table lists the open host files and is free otherwise. -/
structure Lists (spikeFiles : Fin maxFiles → SpikeFile) (pfiles : Nat)
    (m : Mem) : Prop where
  host : ∀ i, statusAt m pfiles i = fdHost ↔ (spikeFiles i).kfd ≠ -1
  rest : ∀ i, statusAt m pfiles i ≠ fdHost → statusAt m pfiles i = fdNone
  count : nfileAt m pfiles = (hostEntries m pfiles).card
  room : (∃ i, (spikeFiles i).kfd = -1) → ∃ i, statusAt m pfiles i = fdNone

/-- What the page held shows through exactly where no host file is open
and the status word was zero. -/
theorem files_create_lists_iff (spikeFiles : Fin maxFiles → SpikeFile)
    (pfiles : Nat) (m : Mem) :
    ∃ es m', filesCreate spikeFiles pfiles m = (es, .ok () m') ∧
      (Lists spikeFiles pfiles m' ↔
        ∀ i, (spikeFiles i).kfd = -1 → statusAt m pfiles i ≠ fdHost) := by
  have hret : Returns (filesCreate spikeFiles pfiles) _ m := wp_filesCreate
  obtain ⟨es, _, m', hrun, hst, hn⟩ := hret.elim
  refine ⟨es, m', hrun, fun hlists i hkfd hzero => ?_, fun hstale => ?_⟩
  · have hhost : statusAt m' pfiles i = fdHost := by rw [hst i]; simp [hzero]
    exact (hlists.host i).mp hhost hkfd
  · have hiff : ∀ i, statusAt m' pfiles i = fdHost ↔ (spikeFiles i).kfd ≠ -1 := by
      intro i
      rw [hst i]
      by_cases hk : (spikeFiles i).kfd = -1
      · simp [hk, hstale i hk]
      · simp [hk]
    refine ⟨hiff, fun i hi => ?_, ?_, ?_⟩
    · rw [hst i] at hi ⊢
      by_contra hne
      simp_all
    · simp only [hn, hostEntries, hiff]
      rfl
    · rintro ⟨i, hkfd⟩
      refine ⟨i, ?_⟩
      rw [hst i]
      simp [hkfd, hstale i hkfd]

-- The runs below are after boot: the host files are standard input,
-- output and error, and the page is one of the pool.

def stdSpikeFiles : Fin maxFiles → SpikeFile := fun i =>
  if i.val < 3 then ⟨i.val, 4⟩ else ⟨-1, 0⟩

abbrev somePage : Nat := 0x80400000

/-- A page of ones: every entry beyond the standard three is freed. -/
theorem files_create_lists_iff_ones :
    ∃ es m', filesCreate stdSpikeFiles somePage (fun _ => 1) = (es, .ok () m')
      ∧ Lists stdSpikeFiles somePage m' := by
  obtain ⟨es, m', hrun, hiff⟩ :=
    files_create_lists_iff stdSpikeFiles somePage fun _ => 1
  refine ⟨es, m', hrun, hiff.mpr fun i _ => ?_⟩
  show load (fun _ => 1) 4 _ ≠ 0
  simp [load]

/-- A page of zeros: every entry is taken for a host file, three are
counted, and there is no entry for an open. -/
theorem files_create_zero_page_full :
    ∃ es m', filesCreate stdSpikeFiles somePage (fun _ => 0) = (es, .ok () m')
      ∧ (∀ i, statusAt m' somePage i = fdHost) ∧ nfileAt m' somePage = 3
      ∧ freeEntry m' somePage = none := by
  have hret : Returns (filesCreate stdSpikeFiles somePage) _ (fun _ => 0) :=
    wp_filesCreate
  obtain ⟨es, _, m', hrun, hst, hn⟩ := hret.elim
  have hall : ∀ i, statusAt m' somePage i = fdHost := by
    intro i
    rw [hst i, if_pos (Or.inr _)]
    exact load_eq_zero fun _ _ _ => rfl
  refine ⟨es, m', hrun, hall, hn.trans (by decide), ?_⟩
  refine List.find?_eq_none.mpr fun i _ hi => ?_
  have hnone : statusAt m' somePage i = fdNone := of_decide_eq_true hi
  rw [hall i] at hnone
  cases hnone

-- ==== where the stores go

/-- The store stays in the page that was taken. -/
def InPage (pfiles : Nat) (w : Write) : Prop :=
  pfiles ≤ w.addr ∧ w.addr + w.width ≤ pfiles + pgSize

section Stores

variable {E : FileHalt → Mem → Prop} {m : Mem}
variable {spikeFiles : Fin maxFiles → SpikeFile} {pfiles : Nat}

theorem nfile_beyond (pfiles : Nat) : ¬ InPage pfiles ⟨pfiles + nfileOff, 4⟩ := by
  simp only [InPage, nfileOff, ofileOff, maxFiles, fileSize, pgSize]
  omega

/-- Counting is a store outside the page. -/
theorem wp_incNfile_beyond {Q : Unit → Mem → Prop} :
    Wp (fun w => ¬ InPage pfiles w) E (incNfile pfiles) Q m := by
  simp only [incNfile, put, wp_bind, wp_get, wp_emit]
  exact Or.inl (nfile_beyond pfiles)

/-- An open that returns has counted. -/
theorem wp_doOpen_beyond {flags node : Nat} {ret : Int}
    {fstat : Mem → Nat → Option (Int × Int)} {Q : Int → Mem → Prop} :
    Wp (fun w => ¬ InPage pfiles w) (fun _ _ => True)
      (doOpen pfiles flags ret node fstat) Q m := by
  refine wp_ite.mpr ⟨fun _ => (wp_halt _).mpr trivial, fun _ =>
    wp_ite.mpr ⟨fun _ => ?_, fun _ => ?_⟩⟩
  · simp only [wp_bind]
    exact wp_put (wp_put wp_incNfile_beyond)
  · rw [wp_bind, wp_get]
    cases freeEntry m pfiles with
    | none => exact (wp_halt _).mpr trivial
    | some fd =>
        simp only [wp_bind]
        refine wp_put (wp_put (wp_put (wp_put (wp_put (wp_put (wp_put ?_))))))
        rw [wp_get]
        split
        · exact (wp_halt _).mpr trivial
        · refine wp_ite.mpr ⟨fun _ => (wp_halt _).mpr trivial, fun _ => ?_⟩
          simp only [wp_bind]
          exact wp_put wp_incNfile_beyond

end Stores

/-- `files_create` and every open store outside the page, and after
`files_create` the third word of the next page is the number of host
files. -/
theorem file_table_leaves_page (spikeFiles : Fin maxFiles → SpikeFile)
    (pfiles : Nat) (m : Mem) :
    (∃ w ∈ (filesCreate spikeFiles pfiles m).1, ¬ InPage pfiles w) ∧
    (∀ flags ret node fstat es fd m',
      doOpen pfiles flags ret node fstat m = (es, .ok fd m') →
        ∃ w ∈ es, ¬ InPage pfiles w) ∧
    ∃ es m', filesCreate spikeFiles pfiles m = (es, .ok () m') ∧
      load m' 4 (pfiles + pgSize + 8) = ((List.finRange maxFiles).filter
        fun j => (spikeFiles j).kfd ≠ -1).length := by
  refine ⟨⟨⟨pfiles + nfileOff, 4⟩, ?_, nfile_beyond pfiles⟩, ?_, ?_⟩
  · exact mem_bind_right rfl (mem_bind_left (List.mem_singleton_self _))
  · intro flags ret node fstat es fd m' hrun
    exact wp_doOpen_beyond.bad_of_run hrun
  · have hret : Returns (filesCreate spikeFiles pfiles) _ m := wp_filesCreate
    obtain ⟨es, _, m', hrun, -, hn⟩ := hret.elim
    exact ⟨es, m', hrun, hn⟩

/-- A neighbour full of ones has a 3 in it once the table is built. -/
theorem file_table_changes_neighbour :
    ∃ es m', filesCreate stdSpikeFiles somePage (fun _ => 1) = (es, .ok () m')
      ∧ load (fun _ => 1) 4 (somePage + pgSize + 8) = 0x01010101
      ∧ load m' 4 (somePage + pgSize + 8) = 3 := by
  have hret : Returns (filesCreate stdSpikeFiles somePage) _ (fun _ => 1) :=
    wp_filesCreate
  obtain ⟨es, _, m', hrun, -, hn⟩ := hret.elim
  exact ⟨es, m', hrun, by decide, hn.trans (by decide)⟩

end Pke.FileTable
