/-
File descriptors collide.

Two allocators hand out indexes into one table. A file of a device gets
the first free entry of the caller's `ofile[]`. A file of the host gets
the entry at its index in `spike_fds[]`, the first one empty there; that
array is shared by all processes, and nobody looks whether the caller's
entry is free. Either way the open fills one entry and counts one more
open file (`EntryFilled`); the descriptor is fresh and the count stays right
exactly when the entry was free, which for a host file is a matter of
luck.

An open that fails is entered too: `do_open` tells a device from the host
by the result of `vfs_open` being zero, so a -1 from the host is taken for
an index, and a file its device does not have for one that was found.
-/
import Pke.Proofs.HostFiles
import Mathlib.Data.Fintype.Card

namespace Pke

open Traced (Wp Run Entry wp_bind wp_get wp_pure wp_modify wp_ite wp_halt)

-- ==== open calls

/-- A call of `do_open`, with the host's answer should it be asked. -/
structure OpenCall where
  proc : Slot
  path : List Char
  flags : Nat
  ret : Int

/-- Perform the call and keep its result. -/
def OpenCall.run (dev : Device) (c : OpenCall) : F Unit := do
  let fd ← doOpen dev c.proc c.path c.flags c.ret
  Traced.modify fun s => { s with a0 := fd }

/-- The path names a file of the host. -/
abbrev OpenCall.OnHost (c : OpenCall) : Prop := getDevice c.path = none

/-- Every lookup on a device finds an inode, and every inode has a
size. -/
structure Device.Sound (dev : Device) : Prop where
  lookup : ∀ name sub, (dev.lookup name sub).1 = 0
  fstat : ∀ node, (dev.fstat node).1 = 0

/-- A host open succeeds: the host opens the file, and a slot and a
descriptor are free. -/
def OpenCall.Served (c : OpenCall) (s : FileSys) : Prop :=
  c.OnHost → 0 ≤ c.ret ∧ s.freeFile ≠ none ∧ s.freeFd ≠ none

/-- A run of open calls, by any processes. -/
abbrev OpenRun (dev : Device) (s₀ : FileSys) :
    List (Entry FileSys OpenCall) → FileSys → Prop :=
  Run (fun _ _ _ => False) OpenCall.Served (OpenCall.run dev) s₀

/-- The entries of a file table in use. -/
def FilesStruct.inUse (t : FilesStruct) : Finset (Fin maxFiles) :=
  Finset.univ.filter fun i => (t.ofile i).status ≠ .none

/-- `nfile` is the number of entries in use. -/
def FilesStruct.Counted (t : FilesStruct) : Prop := t.nfile = t.inUse.card

instance (t : FilesStruct) : Decidable t.Counted :=
  inferInstanceAs (Decidable (t.nfile = t.inUse.card))

/-- A successful call returned a descriptor that was free, and left the
process's other entries alone. -/
def OpensFresh (e : Entry FileSys OpenCall) : Prop :=
  0 ≤ e.post.a0 → ∃ fd : Fin maxFiles, e.post.a0 = fd.val ∧
    ((e.pre.pfiles e.op.proc).ofile fd).status = .none ∧
      ∀ j ≠ fd, (e.post.pfiles e.op.proc).ofile j
        = (e.pre.pfiles e.op.proc).ofile j

/-- The first empty entry of `spike_fds[]` is, as an index into the
caller's table, that of a free entry. -/
def OpenCall.HostIndexFree (c : OpenCall) (s : FileSys) : Prop :=
  c.OnHost → ∀ i, s.freeFd = some i →
    ((s.pfiles c.proc).ofile i).status = .none

-- ==== what a call does

/-- A table with an entry filled and counted. -/
def FilesStruct.enter (t : FilesStruct) (fd : Fin maxFiles) (file : File) :
    FilesStruct :=
  { ofile := Function.update t.ofile fd file, nfile := t.nfile + 1 }

/-- The call filled entry `fd` of the caller's table and returned it. -/
def EntryFilled (p : Slot) (fd : Fin maxFiles) (s : FileSys) (r : Int)
    (s' : FileSys) : Prop :=
  r = fd.val ∧ ∃ file : File, file.status ≠ .none ∧
    s'.pfiles = Function.update s.pfiles p ((s.pfiles p).enter fd file)

section Calls

variable {dev : Device} {p : Slot} {path : List Char} {flags : Nat} {ret : Int}
variable {s : FileSys} {bad : Empty → Prop}

/-- An entry of a process's table rewritten. -/
def FileSys.fill (s : FileSys) (p : Slot) (i : Fin maxFiles) (file : File) :
    FileSys :=
  { s with
    pfiles := Function.update s.pfiles p
      { s.pfiles p with ofile := Function.update (s.pfiles p).ofile i file } }

theorem arrayIndex_val {n : Nat} (i : Fin n) : arrayIndex n i.val = some i := by
  simp only [arrayIndex, Int.toNat_natCast]
  rw [dif_pos ⟨by omega, i.isLt⟩]

theorem wp_setFile {E : FileHalt → FileSys → Prop} {Q : Unit → FileSys → Prop}
    (i : Fin maxFiles) (g : File → File) : Wp bad E (setFile p i.val g) Q s
      ↔ Q () (s.fill p i (g ((s.pfiles p).ofile i))) := by
  simp only [setFile, arrayIndex_val, wp_modify]
  exact Iff.rfl

@[simp] theorem fill_self (i : Fin maxFiles) (file : File) :
    ((s.fill p i file).pfiles p).ofile i = file := by
  simp [FileSys.fill]

@[simp] theorem fill_fill (i : Fin maxFiles) (file file' : File) :
    (s.fill p i file).fill p i file' = s.fill p i file' := by
  simp [FileSys.fill]

/-- A filled entry is entered once it is counted. -/
theorem wp_incNfile {E : FileHalt → FileSys → Prop} {Q : Unit → FileSys → Prop}
    {i : Fin maxFiles} {file : File} {s₀ : FileSys}
    (hs : s.pfiles = s₀.pfiles) (hfile : file.status ≠ .none)
    (hQ : ∀ s', EntryFilled p i s₀ i.val s' → Q () s') :
    Wp bad E (incNfile p) Q (s.fill p i file) := by
  refine (wp_modify _).mpr (hQ _ ⟨rfl, file, hfile, ?_⟩)
  simp [FileSys.fill, FilesStruct.enter, hs]

-- Where `vfs_open` sends the two kinds of path.

theorem wp_vfsOpen_host (hpath : getDevice path = none) (hret : 0 ≤ ret)
    (hfile : s.freeFile ≠ none) (hfd : s.freeFd ≠ none) :
    Wp bad (fun _ _ => True) (vfsOpen dev path flags ret)
      (fun r s' => ∃ i, s.freeFd = some i ∧ r = ((i.val : Int), none) ∧
        s'.pfiles = s.pfiles) s := by
  unfold vfsOpen vfsLookup
  rw [wp_ite]
  refine ⟨fun _ => (wp_halt _).mpr trivial, fun _ => ?_⟩
  simp only [hpath, wp_bind, wp_pure, if_true]
  refine (wp_hostOpen ret).mono fun r s' hout => ?_
  cases hout with
  | full hf => exact absurd hf hfile
  | refused hf hneg => omega
  | unseated hf _ hnone => exact absurd hnone hfd
  | opened hf _ hi => exact ⟨_, hi, rfl, rfl⟩

theorem wp_vfsOpen_device (hdev : dev.Sound) {name sub : List Char}
    (hpath : getDevice path = some (name, sub)) :
    Wp bad (fun _ _ => True) (vfsOpen dev path flags ret)
      (fun r s' => ∃ node, r = (0, some node) ∧ s' = s) s := by
  unfold vfsOpen vfsLookup
  rw [wp_ite]
  refine ⟨fun _ => (wp_halt _).mpr trivial, fun _ => ?_⟩
  simp only [hpath, wp_bind, wp_ite, wp_halt, wp_pure]
  refine ⟨fun _ => trivial, fun _ => ⟨fun h => ?_, fun _ => ⟨_, rfl, trivial⟩⟩⟩
  rw [hdev.lookup] at h
  cases h

theorem freeEntry_status {t : FilesStruct} {i : Fin maxFiles}
    (hi : t.freeEntry = some i) : (t.ofile i).status = .none := by
  have := List.find?_some hi
  simpa using this

theorem wp_doOpen_host (hpath : getDevice path = none) (hret : 0 ≤ ret)
    (hfile : s.freeFile ≠ none) (hfd : s.freeFd ≠ none) :
    Wp bad (fun _ _ => True) (doOpen dev p path flags ret)
      (fun r s' => ∃ i, s.freeFd = some i ∧ EntryFilled p i s r s') s := by
  unfold doOpen
  rw [wp_ite]
  refine ⟨fun _ => (wp_halt _).mpr trivial, fun _ => ?_⟩
  rw [wp_bind]
  refine (wp_vfsOpen_host hpath hret hfile hfd).mono ?_
  rintro _ s' ⟨i, hi, rfl, hs'⟩
  refine wp_ite.mpr ⟨fun _ => ?_, fun _ => ?_⟩
  · rw [wp_bind, wp_setFile, wp_bind]
    refine wp_incNfile hs' (by simp) fun s'' hent => ?_
    exact (wp_pure _).mpr ⟨i, hi, hent⟩
  · -- Index 0 is taken for a file of a device, of which there is none.
    rw [wp_bind, wp_get]
    cases (s'.pfiles p).freeEntry with
    | none => exact (wp_halt _).mpr trivial
    | some fd =>
        rw [wp_bind, wp_setFile]
        exact (wp_halt _).mpr trivial

theorem wp_doOpen_device (hdev : dev.Sound) {name sub : List Char}
    (hpath : getDevice path = some (name, sub)) :
    Wp bad (fun _ _ => True) (doOpen dev p path flags ret)
      (fun r s' => ∃ i, ((s.pfiles p).ofile i).status = .none ∧
        EntryFilled p i s r s') s := by
  unfold doOpen
  rw [wp_ite]
  refine ⟨fun _ => (wp_halt _).mpr trivial, fun _ => ?_⟩
  rw [wp_bind]
  refine (wp_vfsOpen_device hdev hpath).mono ?_
  rintro _ s' ⟨node, rfl, rfl⟩
  refine wp_ite.mpr ⟨fun h => absurd rfl h, fun _ => ?_⟩
  rw [wp_bind, wp_get]
  cases hi : (s'.pfiles p).freeEntry with
  | none => exact (wp_halt _).mpr trivial
  | some i =>
      rw [wp_bind, wp_setFile]
      refine wp_ite.mpr ⟨fun h => absurd (hdev.fstat node) h, fun _ => ?_⟩
      rw [wp_bind, wp_setFile, fill_fill, wp_bind]
      refine wp_incNfile rfl (by simp) fun s'' hent => ?_
      exact (wp_pure _).mpr ⟨i, freeEntry_status hi, hent⟩

/-- A call fills the entry of the descriptor it returns: a free one for
a device, the one at the first empty index of `spike_fds[]` for the
host. -/
theorem wp_openCall (hdev : dev.Sound) {c : OpenCall} (hc : c.Served s) :
    Wp bad (fun _ _ => True) (c.run dev)
      (fun _ s' => ∃ i, EntryFilled c.proc i s s'.a0 s' ∧
        (c.OnHost → s.freeFd = some i) ∧
        (¬ c.OnHost → ((s.pfiles c.proc).ofile i).status = .none)) s := by
  unfold OpenCall.run
  rw [wp_bind]
  by_cases hhost : c.OnHost
  · obtain ⟨hret, hfile, hfd⟩ := hc hhost
    refine (wp_doOpen_host hhost hret hfile hfd).mono ?_
    rintro r s' ⟨i, hi, hent⟩
    exact (wp_modify _).mpr ⟨i, hent, fun _ => hi, fun h => absurd hhost h⟩
  · obtain ⟨⟨name, sub⟩, hpath⟩ := Option.ne_none_iff_exists'.mp hhost
    refine (wp_doOpen_device hdev hpath).mono ?_
    rintro r s' ⟨i, hi, hent⟩
    exact (wp_modify _).mpr ⟨i, hent, fun h => absurd h hhost, fun _ => hi⟩

end Calls

-- ==== fresh and counted

section Fresh

variable {dev : Device} {s s' : FileSys} {c : OpenCall} {i : Fin maxFiles}
variable {t : FilesStruct} {file : File}

theorem mem_inUse : i ∈ t.inUse ↔ (t.ofile i).status ≠ .none := by
  simp only [FilesStruct.inUse, Finset.mem_filter, Finset.mem_univ, true_and]

/-- Filling a free entry keeps the count right. -/
theorem FilesStruct.Counted.enter (ht : t.Counted) (hi : (t.ofile i).status = .none)
    (hfile : file.status ≠ .none) : (t.enter i file).Counted := by
  have huse : (t.enter i file).inUse = insert i t.inUse := by
    ext j
    rw [Finset.mem_insert, mem_inUse, mem_inUse]
    by_cases hji : j = i
    · simp [FilesStruct.enter, hji, hfile]
    · simp [FilesStruct.enter, hji]
  have hnew : i ∉ t.inUse := fun hmem => mem_inUse.mp hmem hi
  unfold FilesStruct.Counted at ht ⊢
  rw [huse, Finset.card_insert_of_notMem hnew]
  simp only [FilesStruct.enter, ht]
  omega

/-- A call is fresh and keeps the counts exactly when the entry it
fills was free. -/
theorem EntryFilled.fresh_iff (hent : EntryFilled c.proc i s s'.a0 s')
    (hcount : ∀ p, (s.pfiles p).Counted) :
    (OpensFresh ⟨c, s, s'⟩ ∧ ∀ p, (s'.pfiles p).Counted)
      ↔ ((s.pfiles c.proc).ofile i).status = .none := by
  obtain ⟨ha0, file, hfile, hs'⟩ := hent
  constructor
  · rintro ⟨hfresh, -⟩
    obtain ⟨fd, hfd, hnone, -⟩ := hfresh (by rw [ha0]; exact Int.natCast_nonneg _)
    obtain rfl : fd = i := Fin.ext (by rw [ha0] at hfd; omega)
    exact hnone
  · intro hnone
    refine ⟨fun _ => ⟨i, ha0, hnone, fun j hj => ?_⟩, fun p => ?_⟩
    · simp [hs', FilesStruct.enter, hj]
    · rw [hs']
      by_cases hp : p = c.proc
      · rw [hp, Function.update_self]
        exact (hcount c.proc).enter hnone hfile
      · rw [Function.update_of_ne hp]
        exact hcount p

theorem fresh_iff_hostIndexFree
    (hstep : ∃ i, EntryFilled c.proc i s s'.a0 s' ∧ (c.OnHost → s.freeFd = some i) ∧
      (¬ c.OnHost → ((s.pfiles c.proc).ofile i).status = .none))
    (hcount : ∀ p, (s.pfiles p).Counted) :
    (OpensFresh ⟨c, s, s'⟩ ∧ ∀ p, (s'.pfiles p).Counted)
      ↔ c.HostIndexFree s := by
  obtain ⟨i, hent, hhost, hdevice⟩ := hstep
  rw [hent.fresh_iff hcount]
  constructor
  · intro hnone honHost j hj
    obtain rfl : i = j := Option.some.inj ((hhost honHost).symm.trans hj)
    exact hnone
  · intro hfree
    by_cases honHost : c.OnHost
    · exact hfree honHost i (hhost honHost)
    · exact hdevice honHost

end Fresh

/-- In every run of opens by any processes, from tables whose counts are
right: every call is fresh and every count stays right, exactly when
every host open found the entry at its index free. -/
theorem descriptors_fresh_iff (dev : Device) (hdev : dev.Sound)
    (s₀ s : FileSys) (hcount : ∀ p, (s₀.pfiles p).Counted)
    (h : List (Entry FileSys OpenCall)) (hrun : OpenRun dev s₀ h s) :
    (∀ e ∈ h, OpensFresh e ∧ ∀ p, (e.post.pfiles p).Counted)
      ↔ ∀ e ∈ h, e.op.HostIndexFree e.pre := by
  -- The counts are right before a call if they were so after every call
  -- so far, which is what the call's own equivalence needs.
  have key : ((∀ e ∈ h, OpensFresh e ∧ ∀ p, (e.post.pfiles p).Counted)
      ↔ ∀ e ∈ h, e.op.HostIndexFree e.pre) ∧
      ((∀ e ∈ h, OpensFresh e ∧ ∀ p, (e.post.pfiles p).Counted) →
        ∀ p, (s.pfiles p).Counted) := by
    induction hrun with
    | start => exact ⟨by simp, fun _ => hcount⟩
    | @step h s s' c es past guard runs clean ih =>
        obtain ⟨hiff, hpre⟩ := ih
        have hstep := (wp_openCall hdev guard).of_run runs clean
        simp only [List.forall_mem_cons]
        refine ⟨?_, fun hall => hall.1.2⟩
        rw [and_comm, and_comm (a := c.HostIndexFree s), ← hiff]
        refine and_congr_right fun hpast => ?_
        exact fresh_iff_hostIndexFree hstep (hpre hpast)
  exact key.1

-- The runs below are of one process after boot: its table has entries
-- for standard input, output and error.

def stdFiles : Slot → FilesStruct := fun _ =>
  { ofile := fun i => if i.val < 3 then ⟨.host, false, false, i.val, 0, 4, 0⟩
      else ⟨.none, false, false, 0, 0, 0, 0⟩
    nfile := 3 }

theorem stdFiles_counted (p : Slot) : (stdFiles p).Counted := by
  decide +revert +kernel

/-- A device with one file. -/
def oneFile : Device :=
  { lookup := fun _ _ => (0, 1), fstat := fun _ => (0, 0) }

theorem oneFile_sound : oneFile.Sound := ⟨fun _ _ => rfl, fun _ => rfl⟩

/-- `open("1.txt", 0)`, the host answering with descriptor 3. -/
def openHost : OpenCall :=
  { proc := 0, path := ['1', '.', 't', 'x', 't'], flags := 0, ret := 3 }

/-- `open("ramdisk0:/ramfile", 0)`. -/
def openRam : OpenCall :=
  { proc := 0, path := "ramdisk0:/ramfile".toList, flags := 0, ret := 0 }

theorem openHost_served : openHost.Served (bootFiles stdFiles) :=
  fun _ => ⟨by decide, by decide, by decide⟩

/-- The host file first, as the shell does: index 3 is free in the
table, and the device file gets the entry after it. -/
theorem descriptors_fresh_iff_shell :
    ∃ (h : List (Entry FileSys OpenCall)) (s : FileSys),
      OpenRun oneFile (bootFiles stdFiles) h s ∧
        h.map Entry.op = [openRam, openHost] ∧
        ∀ e ∈ h, OpensFresh e ∧ ∀ p, (e.post.pfiles p).Counted := by
  have hhost : OpenRun oneFile (bootFiles stdFiles) [⟨openHost, _, _⟩] _ :=
    .step .start openHost_served (Traced.run_eq_of_value rfl) fun e => e.elim
  have hram : OpenRun oneFile (bootFiles stdFiles)
      [⟨openRam, _, _⟩, ⟨openHost, _, _⟩] _ :=
    .step hhost (fun h => by cases h) (Traced.run_eq_of_value rfl)
      fun e => e.elim
  refine ⟨_, _, hram, rfl, (descriptors_fresh_iff oneFile oneFile_sound _ _
    stdFiles_counted _ hram).mpr ?_⟩
  simp only [List.forall_mem_cons]
  refine ⟨fun h => (by cases h), fun _ i hi => ?_, fun e he => (by cases he)⟩
  obtain rfl : i = 3 := Option.some.inj hi.symm
  rfl

/-- The device file first: it gets entry 3, the first free one, and the
host file gets index 3 and the same entry. -/
theorem device_then_host_collide :
    ∃ (h : List (Entry FileSys OpenCall)) (s : FileSys),
      OpenRun oneFile (bootFiles stdFiles) h s ∧
        (∀ p, ((bootFiles stdFiles).pfiles p).Counted) ∧
        h.map Entry.op = [openHost, openRam] ∧
        h.map (fun e => e.post.a0) = [3, 3] ∧
        ((s.pfiles 0).nfile = 5 ∧ (s.pfiles 0).inUse.card = 4) ∧
        ¬ ∀ e ∈ h, OpensFresh e := by
  have hram : OpenRun oneFile (bootFiles stdFiles) [⟨openRam, _, _⟩] _ :=
    .step .start (fun h => by cases h) (Traced.run_eq_of_value rfl)
      fun e => e.elim
  have hhost : OpenRun oneFile (bootFiles stdFiles)
      [⟨openHost, _, _⟩, ⟨openRam, _, _⟩] _ :=
    .step hram (fun _ => ⟨by decide, by decide, by decide⟩)
      (Traced.run_eq_of_value rfl) fun e => e.elim
  refine ⟨_, _, hhost, stdFiles_counted, rfl, rfl, ⟨rfl, by decide +kernel⟩,
    fun hall => ?_⟩
  obtain ⟨fd, hfd, hnone, -⟩ := hall _ (List.mem_cons_self ..)
    (show (0 : Int) ≤ 3 by decide)
  obtain rfl : fd = 3 := Fin.ext (Int.ofNat_inj.mp hfd).symm
  cases hnone

-- ==== failing opens

/-- `O_CREATE`. -/
abbrev oCreate : Nat := 0x200

/-- The file cannot be opened: the host's open fails, or the device has no
such file and none is to be created. -/
def OpenCall.Fails (dev : Device) (c : OpenCall) (s : FileSys) : Prop :=
  (c.OnHost ∧ ∃ s₁, (hostOpen c.ret s).2 = .ok (-1) s₁) ∨
  ∃ name sub, getDevice c.path = some (name, sub) ∧ sub.head? = some '/' ∧
    (dev.lookup name sub).1 = 1 ∧ c.flags &&& oCreate = 0

/-- The call reports a failure and leaves the file tables as they were. -/
def NoTrace (s : FileSys) (r : Int) (s' : FileSys) : Prop :=
  r < 0 ∧ s'.stray = s.stray ∧ s'.pfiles = s.pfiles

section Failing

variable {dev : Device} {p : Slot} {path : List Char} {flags : Nat} {ret : Int}
variable {s : FileSys} {bad : Empty → Prop}

/-- A host open that fails has changed the host files only. -/
theorem wp_hostOpen_fails {ret : Int} {s₁ : FileSys}
    (h : (hostOpen ret s).2 = .ok (-1) s₁) :
    Wp bad (fun _ _ => False) (hostOpen ret)
      (fun r s' => r = -1 ∧ s'.stray = s.stray ∧ s'.pfiles = s.pfiles) s := by
  refine ((wp_hostOpen ret).also (Traced.wp_run_eq _)).mono ?_
  rintro r s' ⟨hout, _, hrun⟩
  obtain ⟨rfl, -⟩ : r = -1 ∧ s' = s₁ := by
    rw [hrun] at h
    cases h
    exact ⟨rfl, rfl⟩
  generalize hr : (-1 : Int) = r at hout
  cases hout with
  | full => exact ⟨rfl, rfl, rfl⟩
  | refused => exact ⟨rfl, rfl, rfl⟩
  | unseated => exact ⟨rfl, rfl, rfl⟩
  | opened => omega

/-- A failed open on the host is entered at index -1 and counted. -/
theorem wp_doOpen_host_fails (hpath : getDevice path = none) {s₁ : FileSys}
    (hopen : (hostOpen ret s).2 = .ok (-1) s₁) :
    Wp bad (fun _ _ => True) (doOpen dev p path flags ret)
      (fun r s' => r = -1 ∧ s'.stray = -1 :: s.stray ∧
        (s'.pfiles p).nfile = (s.pfiles p).nfile + 1) s := by
  unfold doOpen
  rw [wp_ite]
  refine ⟨fun _ => (wp_halt _).mpr trivial, fun _ => ?_⟩
  unfold vfsOpen vfsLookup
  rw [wp_bind, wp_ite]
  refine ⟨fun _ => (wp_halt _).mpr trivial, fun _ => ?_⟩
  simp only [hpath, wp_bind, wp_pure, if_true]
  refine ((wp_hostOpen_fails hopen).mono ?_).mono_halt fun _ _ => False.elim
  rintro _ s' ⟨rfl, hstray, hfiles⟩
  refine wp_ite.mpr ⟨fun _ => ?_, fun h => absurd (by decide) h⟩
  simp [setFile, incNfile, arrayIndex, hstray, hfiles]

/-- For a file its device does not have, a descriptor is handed out. -/
theorem wp_doOpen_device_fails {name sub : List Char}
    (hpath : getDevice path = some (name, sub))
    (habsent : (dev.lookup name sub).1 = 1) :
    Wp bad (fun _ _ => True) (doOpen dev p path flags ret)
      (fun r _ => 0 ≤ r) s := by
  unfold doOpen
  rw [wp_ite]
  refine ⟨fun _ => (wp_halt _).mpr trivial, fun _ => ?_⟩
  unfold vfsOpen vfsLookup
  rw [wp_bind, wp_ite]
  refine ⟨fun _ => (wp_halt _).mpr trivial, fun _ => ?_⟩
  simp only [hpath, wp_bind, wp_ite, wp_halt, wp_pure]
  refine ⟨fun _ => trivial, fun _ => ⟨fun h => ?_, fun _ => ?_⟩⟩
  · rw [habsent] at h
    cases h
  · refine ⟨fun h => absurd rfl h, fun _ => ?_⟩
    rw [wp_get]
    cases (s.pfiles p).freeEntry with
    | none => exact (wp_halt _).mpr trivial
    | some fd =>
        simp only [wp_bind, wp_setFile, wp_ite, wp_halt]
        refine ⟨fun _ => trivial, fun _ => ?_⟩
        exact (wp_modify _).mpr ((wp_pure _).mpr (Int.natCast_nonneg _))

end Failing

/-- No open that fails is without trace, whatever the tables, the path
and the mode. -/
theorem failing_open_leaves_trace (dev : Device) (c : OpenCall) (s : FileSys)
    (hfail : c.Fails dev s) :
    ¬ ∃ es r s', doOpen dev c.proc c.path c.flags c.ret s = (es, .ok r s') ∧
      NoTrace s r s' := by
  rintro ⟨es, r, s', hrun, hneg, hstray, -⟩
  have hes : ∀ e ∈ es, ¬ (fun _ : Empty => False) e := fun _ _ => id
  rcases hfail with ⟨hpath, s₁, hopen⟩ | ⟨name, sub, hpath, -, habsent, -⟩
  · obtain ⟨-, hentered, -⟩ :=
      (wp_doOpen_host_fails hpath hopen).of_run hrun hes
    rw [hstray] at hentered
    exact absurd (congrArg List.length hentered) (by simp)
  · have := (wp_doOpen_device_fails hpath habsent).of_run hrun hes
    omega

/-- A device without files. -/
def noFile : Device := { oneFile with lookup := fun _ _ => (1, 0) }

/-- `open("1.txt", 0)`, refused by the host. -/
def openMissing : OpenCall := { openHost with ret := -2 }

theorem failing_open_leaves_trace_both :
    (openMissing.Fails noFile (bootFiles stdFiles) ∧
      openRam.Fails noFile (bootFiles stdFiles)) ∧
    ∀ c ∈ [openMissing, openRam], ¬ ∃ es r s',
      doOpen noFile c.proc c.path c.flags c.ret (bootFiles stdFiles)
          = (es, .ok r s') ∧ NoTrace (bootFiles stdFiles) r s' := by
  have hhost : openMissing.Fails noFile (bootFiles stdFiles) :=
    Or.inl ⟨rfl, _, rfl⟩
  have hram : openRam.Fails noFile (bootFiles stdFiles) :=
    Or.inr ⟨_, _, rfl, rfl, rfl, rfl⟩
  refine ⟨⟨hhost, hram⟩, ?_⟩
  simp only [List.forall_mem_cons]
  exact ⟨failing_open_leaves_trace _ _ _ hhost,
    failing_open_leaves_trace _ _ _ hram, fun c hc => by cases hc⟩

/-- The refused open returns -1, but it has stored to entry -1 and four
files are counted; the device file that does not exist is opened as
descriptor 3. -/
theorem failing_open_counted :
    (openMissing.Fails noFile (bootFiles stdFiles) ∧
      ∃ es s', doOpen noFile 0 openMissing.path 0 (-2) (bootFiles stdFiles)
        = (es, .ok (-1) s') ∧ s'.stray = [-1] ∧ (s'.pfiles 0).nfile = 4) ∧
    (openRam.Fails noFile (bootFiles stdFiles) ∧
      ∃ es s', doOpen noFile 0 openRam.path 0 0 (bootFiles stdFiles)
        = (es, .ok 3 s') ∧ (s'.pfiles 0).nfile = 4 ∧
          ((s'.pfiles 0).ofile 3).status = .opened) :=
  ⟨⟨Or.inl ⟨rfl, _, rfl⟩, _, _, Traced.run_eq_of_value rfl, rfl, rfl⟩,
    ⟨Or.inr ⟨_, _, rfl, rfl, rfl, rfl⟩, _, _, Traced.run_eq_of_value rfl, rfl,
      rfl⟩⟩

end Pke
