/-
Host files do not balance. A slot of `spike_files[]` that an open has
taken is never given back.

`spike_file_get_free` starts a slot at three references and
`spike_file_decref` gives it back, and closes the file on the host, when
the count falls from two. No open and its close, as the kernel pairs
them, get that far. The ELF loader's close indexes `spike_fds[]` by the
host's descriptor, where its file was never entered, so it gives up one
reference of three. A host open enters the file and counts a fourth;
`host_close` takes a fifth to reach it and gives up one or two. An open
the host refuses gives up one of three and leaves its slot at two.

`FileTables` is what the two arrays keep: an entry of `spike_fds[]` names a
slot in use, and no two name the same one. With it every step says what
it did (`OpenOutcome`, `wp_hostClose`, `wp_loadHostElf`), each leaves a
slot in use in use, and so the first open of a run spoils the balance
for good.
-/
import Pke.Lib.Run
import Pke.Model.File
import Mathlib.Data.List.Perm.Basic
import Mathlib.Data.List.Nodup

namespace Pke

open Traced (Wp Run Entry wp_bind wp_get wp_pure wp_modify wp_ite wp_halt)

-- ==== steps on the tables

/-- A slot of `spike_files[]` rewritten. -/
def FileSys.put (s : FileSys) (f : Fin maxFiles) (x : SpikeFile) : FileSys :=
  { s with spikeFiles := Function.update s.spikeFiles f x }

/-- An entry of `spike_fds[]` rewritten. -/
def FileSys.seat (s : FileSys) (i : Fin maxFds) (f : Option (Fin maxFiles)) :
    FileSys :=
  { s with spikeFds := Function.update s.spikeFds i f }

section Steps

variable {s : FileSys} {f : Fin maxFiles} {i : Fin maxFds}

@[simp] theorem put_self (x : SpikeFile) : (s.put f x).spikeFiles f = x :=
  Function.update_self ..

@[simp] theorem put_put (x y : SpikeFile) : (s.put f x).put f y = s.put f y := by
  simp only [FileSys.put, Function.update_idem]

@[simp] theorem put_fds (x : SpikeFile) : (s.put f x).spikeFds = s.spikeFds :=
  rfl

@[simp] theorem seat_files (g : Option (Fin maxFiles)) :
    (s.seat i g).spikeFiles = s.spikeFiles := rfl

@[simp] theorem seat_put (g : Option (Fin maxFiles)) (x : SpikeFile) :
    (s.seat i g).put f x = (s.put f x).seat i g := rfl

variable {bad : Empty → Prop} {E : FileHalt → FileSys → Prop}
variable {Q : Unit → FileSys → Prop}

@[simp] theorem wp_setRefcnt (n : UInt32) : Wp bad E (setRefcnt f n) Q s
    ↔ Q () (s.put f ⟨(s.spikeFiles f).kfd, n⟩) := wp_modify _

@[simp] theorem wp_setKfd (k : Int) : Wp bad E (setKfd f k) Q s
    ↔ Q () (s.put f ⟨k, (s.spikeFiles f).refcnt⟩) := wp_modify _

@[simp] theorem wp_setFd (g : Option (Fin maxFiles)) :
    Wp bad E (setFd i g) Q s ↔ Q () (s.seat i g) := wp_modify _

/-- Above two references, giving one up is all a decrement does. -/
theorem wp_spikeFileDecref (h2 : (s.spikeFiles f).refcnt ≠ 2) :
    Wp bad E (spikeFileDecref f) Q s
      ↔ Q () (s.put f ⟨(s.spikeFiles f).kfd, (s.spikeFiles f).refcnt - 1⟩) := by
  simp only [spikeFileDecref, wp_bind, wp_get, wp_setRefcnt, if_neg h2, wp_pure]

/-- A file in use can be counted once more. -/
theorem wp_spikeFileIncref (h0 : (s.spikeFiles f).refcnt ≠ 0) :
    Wp bad E (spikeFileIncref f) Q s
      ↔ Q () (s.put f ⟨(s.spikeFiles f).kfd, (s.spikeFiles f).refcnt + 1⟩) := by
  simp only [spikeFileIncref, wp_bind, wp_get, wp_setRefcnt, if_neg h0, wp_pure]

theorem wp_spikeFileOpen {ret : Int}
    {Q : Except Int (Fin maxFiles) → FileSys → Prop}
    (hfull : s.freeFile = none → Q (.error (-enomem)) s)
    (hok : ∀ f, s.freeFile = some f → 0 ≤ ret →
      Q (.ok f) (s.put f ⟨toInt32 ret, 3⟩))
    (hno : ∀ f, s.freeFile = some f → ret < 0 →
      Q (.error ret) (s.put f ⟨(s.spikeFiles f).kfd, 2⟩)) :
    Wp bad E (spikeFileOpen ret) Q s := by
  simp only [spikeFileOpen, spikeFileOpenat, spikeFileGetFree, wp_bind, wp_get]
  cases hf : s.freeFile with
  | none =>
      simp only [wp_pure]
      exact hfull hf
  | some f =>
      simp only [wp_bind, wp_setRefcnt, wp_pure, wp_ite]
      refine ⟨fun hret => ?_, fun hret => ?_⟩
      · simp only [wp_setKfd, put_self, put_put]
        exact hok f hf hret
      · rw [wp_spikeFileDecref (by simp [initFileRef])]
        simp only [put_self, put_put]
        exact hno f hf (by omega)

/-- A file in use is entered in the first empty entry of `spike_fds[]`
and counted once more. -/
theorem wp_spikeFileDup {Q : Int → FileSys → Prop}
    (h0 : (s.spikeFiles f).refcnt ≠ 0) (hfull : s.freeFd = none → Q (-1) s)
    (hok : ∀ i, s.freeFd = some i → Q i.val ((s.put f
      ⟨(s.spikeFiles f).kfd, (s.spikeFiles f).refcnt + 1⟩).seat i (some f))) :
    Wp bad E (spikeFileDup f) Q s := by
  simp only [spikeFileDup, wp_bind, wp_get]
  cases hi : s.freeFd with
  | none =>
      simp only [wp_pure]
      exact hfull hi
  | some i =>
      rw [wp_bind, wp_setFd, wp_bind,
        wp_spikeFileIncref (by rw [seat_files]; exact h0), wp_pure]
      exact hok i hi

end Steps

-- ==== what opens and closes do

/-- The ways a host open ends. -/
inductive OpenOutcome (ret : Int) (s : FileSys) : Int → FileSys → Prop
  | full (hf : s.freeFile = none) : OpenOutcome ret s (-1) s
  | refused {f : Fin maxFiles} (hf : s.freeFile = some f) (hret : ret < 0) :
      OpenOutcome ret s (-1) (s.put f ⟨(s.spikeFiles f).kfd, 2⟩)
  | unseated {f : Fin maxFiles} (hf : s.freeFile = some f) (hret : 0 ≤ ret)
      (hfd : s.freeFd = none) :
      OpenOutcome ret s (-1) (s.put f ⟨toInt32 ret, 2⟩)
  | opened {f : Fin maxFiles} {i : Fin maxFds} (hf : s.freeFile = some f)
      (hret : 0 ≤ ret) (hfd : s.freeFd = some i) :
      OpenOutcome ret s i.val ((s.put f ⟨toInt32 ret, 4⟩).seat i (some f))

section Outcomes

variable {s : FileSys} {f : Fin maxFiles} {i : Fin maxFds}
variable {bad : Empty → Prop} {E : FileHalt → FileSys → Prop}

theorem wp_hostOpen (ret : Int) :
    Wp bad E (hostOpen ret) (OpenOutcome ret s) s := by
  unfold hostOpen
  rw [wp_bind]
  refine wp_spikeFileOpen (fun hf => ?_) (fun f hf hret => ?_)
    (fun f hf hret => ?_)
  · exact (wp_pure _).mpr (.full hf)
  · rw [wp_bind]
    refine wp_spikeFileDup (by simp) (fun hfd => ?_) (fun i hfd => ?_)
    · rw [if_pos (by decide), wp_bind, wp_spikeFileDecref (by simp), wp_pure]
      simp only [put_self, put_put]
      exact .unseated hf hret hfd
    · rw [if_neg (by omega), wp_pure]
      simp only [put_self, put_put]
      exact .opened hf hret hfd
  · exact (wp_pure _).mpr (.refused hf hret)

/-- A close gives up one reference, or two where the host's descriptor
is the index the file was entered at. -/
theorem wp_spikeFileClose {Q : Int → FileSys → Prop}
    (h2 : (s.spikeFiles f).refcnt ≠ 2)
    (h3 : ∀ i, s.spikeFds i = some f → (s.spikeFiles f).refcnt ≠ 3)
    (hmiss : Q (-1)
      (s.put f ⟨(s.spikeFiles f).kfd, (s.spikeFiles f).refcnt - 1⟩))
    (hhit : ∀ i, s.spikeFds i = some f → Q 0 ((s.put f
      ⟨(s.spikeFiles f).kfd, (s.spikeFiles f).refcnt - 1 - 1⟩).seat i none)) :
    Wp bad E (spikeFileClose (some f)) Q s := by
  simp only [spikeFileClose, wp_bind, wp_get]
  split
  case h_1 i hi =>
    have hfd : s.spikeFds i = some f := by
      have := (Option.filter_eq_some_iff.mp hi).2
      simpa using this
    have h2' : (s.spikeFiles f).refcnt - 1 ≠ 2 := by
      intro h
      apply h3 i hfd
      rw [← UInt32.sub_add_cancel (s.spikeFiles f).refcnt 1, h]
      rfl
    rw [wp_bind, wp_setFd, wp_bind, wp_spikeFileDecref (by simpa using h2),
      wp_bind, wp_spikeFileDecref (by simpa using h2'), wp_pure]
    simp only [seat_put, put_self, put_put, seat_files]
    exact hhit i hfd
  case h_2 =>
    rw [wp_bind, wp_spikeFileDecref h2, wp_pure]
    exact hmiss

/-- A close of a descriptor whose file has four references leaves it
three or four. -/
theorem wp_hostClose {Q : Int → FileSys → Prop} (hfd : s.spikeFds i = some f)
    (h4 : (s.spikeFiles f).refcnt = 4)
    (hmiss : Q (-1) (s.put f ⟨(s.spikeFiles f).kfd, 4⟩))
    (hhit : ∀ j, s.spikeFds j = some f →
      Q 0 ((s.put f ⟨(s.spikeFiles f).kfd, 3⟩).seat j none)) :
    Wp bad E (hostClose i.val) Q s := by
  have hidx : arrayIndex maxFds i.val = some i := by
    simp only [arrayIndex, Int.toNat_natCast]
    rw [dif_pos ⟨by omega, i.isLt⟩]
  simp only [hostClose, spikeFileGet, wp_bind, wp_get, hidx, Option.bind_some,
    hfd, h4, wp_ite]
  refine ⟨fun h => absurd h (by decide), fun _ => ?_⟩
  rw [wp_setRefcnt, wp_pure]
  refine wp_spikeFileClose (by simp) (by simp) ?_ fun j hj => ?_
  · simpa using hmiss
  · simpa using hhit j hj

/-- The loader's file was never entered in `spike_fds[]`, so its close
leaves two references. -/
theorem wp_loadHostElf {Q : Int → FileSys → Prop} {ret : Int}
    (hnew : ∀ f, s.freeFile = some f → ∀ i, s.spikeFds i ≠ some f)
    (hok : ∀ f, s.freeFile = some f → 0 ≤ ret →
      Q (-1) (s.put f ⟨toInt32 ret, 2⟩)) :
    Wp bad (fun _ _ => True) (loadHostElf ret) Q s := by
  unfold loadHostElf
  rw [wp_bind]
  refine wp_spikeFileOpen (fun _ => ?_) (fun f hf hret => ?_) (fun f _ _ => ?_)
  · simp only [wp_ite, wp_halt, implies_true, and_self]
  · refine wp_spikeFileClose (by simp) (fun i hi => absurd hi (hnew f hf i)) ?_
      (fun i hi => absurd hi (hnew f hf i))
    simpa using hok f hf hret
  · simp only [wp_ite, wp_halt, implies_true, and_self]

end Outcomes

-- ==== opens and closes

/-- The host-file operations of the kernel: a load of a program, a host
open, each with the host's answer, and a host close. -/
inductive HostOp where
  | loadElf (ret : Int)
  | open (ret : Int)
  | close (fd : Int)
deriving DecidableEq, Repr

def HostOp.prog : HostOp → F Int
  | .loadElf ret => loadHostElf ret
  | .open ret => hostOpen ret
  | .close fd => hostClose fd

/-- Perform an operation and keep its result. -/
def HostOp.run (op : HostOp) : F Unit := do
  let r ← op.prog
  Traced.modify fun s => { s with a0 := r }

/-- The tables as they are linked. -/
def staticFiles (pfiles : Slot → FilesStruct) : FileSys :=
  { spikeFiles := fun _ => ⟨-1, 0⟩, spikeFds := fun _ => none
    hostClosed := [], pfiles := pfiles, stray := [], a0 := 0 }

/-- The tables once the kernel is up. -/
def bootFiles (pfiles : Slot → FilesStruct) : FileSys :=
  (spikeFileInit (staticFiles pfiles)).2.state

/-- A run of host-file operations. -/
abbrev HostRun (s₀ : FileSys) : List (Entry FileSys HostOp) → FileSys → Prop :=
  Run (fun _ _ _ => False) (fun _ _ => True) HostOp.run s₀

/-- The step opened a file. A load that returned has opened its file. -/
def Opened (e : Entry FileSys HostOp) : Prop :=
  match e.op with
  | .loadElf _ => True
  | .open _ => 0 ≤ e.post.a0
  | .close _ => False

/-- The step tried to open a file and reported that it could not. -/
def OpenFailed (e : Entry FileSys HostOp) : Prop :=
  match e.op with
  | .open _ => e.post.a0 < 0
  | _ => False

/-- The descriptors that host opens have returned and no close has
been given yet. -/
def outstanding : List (Entry FileSys HostOp) → List Int
  | [] => []
  | e :: h => match e.op with
      | .loadElf _ => outstanding h
      | .open _ =>
          if 0 ≤ e.post.a0 then e.post.a0 :: outstanding h else outstanding h
      | .close fd => (outstanding h).erase fd

/-- Every close is of a descriptor that is open. -/
def Matched : List (Entry FileSys HostOp) → Prop
  | [] => True
  | e :: h => (∀ fd, e.op = .close fd → fd ∈ outstanding h) ∧ Matched h

/-- Every close is of an open descriptor, and every open is closed. -/
structure Settled (h : List (Entry FileSys HostOp)) : Prop where
  matched : Matched h
  closed : outstanding h = []

/-- The host descriptors of the files opened, one for each. -/
def hostOpened : List (Entry FileSys HostOp) → List Int
  | [] => []
  | e :: h => match e.op with
      | .loadElf ret => toInt32 ret :: hostOpened h
      | .open ret =>
          if 0 ≤ e.post.a0 then toInt32 ret :: hostOpened h else hostOpened h
      | .close _ => hostOpened h

/-- The references balance over a run: slots and entries that were used
are free again, the host was asked to close what it had opened, each
file once, and an open that failed changed nothing. -/
structure Balanced (s₀ : FileSys) (h : List (Entry FileSys HostOp))
    (s : FileSys) : Prop where
  slots : ∀ e ∈ h, Opened e → ∀ f, e.pre.freeFile = some f →
    (s.spikeFiles f).refcnt = 0
  entries : ∀ e ∈ h, ∀ ret, e.op = .open ret → ∀ i : Fin maxFds,
    e.post.a0 = i.val → s.spikeFds i = none
  closes : s.hostClosed.Perm (hostOpened h ++ s₀.hostClosed)
  failures : ∀ e ∈ h, OpenFailed e →
    e.post.spikeFiles = e.pre.spikeFiles ∧ e.post.spikeFds = e.pre.spikeFds

-- ==== slots in use stay in use

/-- An entry of `spike_fds[]` names a slot in use, and no two entries
name the same one. -/
structure FileTables (s : FileSys) : Prop where
  used : ∀ i f, s.spikeFds i = some f → (s.spikeFiles f).refcnt ≠ 0
  inj : ∀ i j f, s.spikeFds i = some f → s.spikeFds j = some f → i = j

/-- Every slot in use is in use later. -/
def StaysUsed (s s' : FileSys) : Prop :=
  ∀ f, (s.spikeFiles f).refcnt ≠ 0 → (s'.spikeFiles f).refcnt ≠ 0

section Tables

variable {s : FileSys} {f : Fin maxFiles} {i : Fin maxFds}

theorem refcnt_of_freeFile (hf : s.freeFile = some f) :
    (s.spikeFiles f).refcnt = 0 := by
  have := List.find?_some hf
  simpa using this

theorem empty_of_freeFd (hi : s.freeFd = some i) : s.spikeFds i = none := by
  have := List.find?_some hi
  simpa using this

theorem put_ne (x : SpikeFile) {g : Fin maxFiles} (hg : g ≠ f) :
    (s.put f x).spikeFiles g = s.spikeFiles g := Function.update_of_ne hg ..

theorem staysUsed_put {x : SpikeFile} (hx : x.refcnt ≠ 0) : StaysUsed s (s.put f x) := by
  intro g hg
  by_cases hgf : g = f
  · rw [hgf, put_self]
    exact hx
  · rw [put_ne x hgf]
    exact hg

theorem FileTables.put (hT : FileTables s) {x : SpikeFile} (hx : x.refcnt ≠ 0) :
    FileTables (s.put f x) :=
  ⟨fun i g hi => staysUsed_put hx g (hT.used i g hi), hT.inj⟩

/-- A free slot is entered nowhere. -/
theorem FileTables.unseated (hT : FileTables s) (hf : s.freeFile = some f) :
    s.spikeFds i ≠ some f := by
  intro hi
  exact hT.used i f hi (refcnt_of_freeFile hf)

/-- Entering a slot that is entered nowhere. -/
theorem FileTables.seat (hT : FileTables s) (hused : (s.spikeFiles f).refcnt ≠ 0)
    (hnew : ∀ j, s.spikeFds j ≠ some f) : FileTables (s.seat i (some f)) := by
  refine ⟨fun j g hj => ?_, fun j k g hj hk => ?_⟩
  · by_cases hji : j = i
    · subst hji
      obtain rfl : f = g := by simpa [FileSys.seat] using hj
      exact hused
    · exact hT.used j g (by simpa [FileSys.seat, hji] using hj)
  · simp only [FileSys.seat, Function.update_apply] at hj hk
    split at hj <;> split at hk
    · rename_i h1 h2
      rw [h1, h2]
    · rw [← hj] at hk
      exact absurd hk (hnew k)
    · rw [← hk] at hj
      exact absurd hj (hnew j)
    · exact hT.inj j k g hj hk

theorem FileTables.clear (hT : FileTables s) : FileTables (s.seat i none) := by
  have hsub : ∀ j g, (s.seat i none).spikeFds j = some g →
      s.spikeFds j = some g := by
    intro j g hj
    simp only [FileSys.seat, Function.update_apply] at hj
    split at hj
    · cases hj
    · exact hj
  exact ⟨fun j g hj => hT.used j g (hsub j g hj), fun j k g hj hk =>
    hT.inj j k g (hsub j g hj) (hsub k g hk)⟩

end Tables

-- ==== the first open

/-- The step breaks the balance of every run that holds it: it failed
and changed a slot, or its slot is still in use. -/
def Spoils (e : Entry FileSys HostOp) (s : FileSys) : Prop :=
  (OpenFailed e ∧ e.post.spikeFiles ≠ e.pre.spikeFiles) ∨
    (Opened e ∧ ∃ f, e.pre.freeFile = some f ∧ (s.spikeFiles f).refcnt ≠ 0)

theorem Spoils.later {e : Entry FileSys HostOp} {s s' : FileSys}
    (h : Spoils e s) (huse : StaysUsed s s') : Spoils e s' := by
  rcases h with h | ⟨hopen, f, hf, hused⟩
  · exact Or.inl h
  · exact Or.inr ⟨hopen, f, hf, huse f hused⟩

theorem Spoils.not_balanced {e : Entry FileSys HostOp} {s₀ s : FileSys}
    {h : List (Entry FileSys HostOp)} (hsp : Spoils e s) (he : e ∈ h) :
    ¬ Balanced s₀ h s := by
  intro hb
  rcases hsp with ⟨hfail, hne⟩ | ⟨hopen, f, hf, hused⟩
  · exact hne (hb.failures e he hfail).1
  · exact hused (hb.slots e he hopen f hf)

/-- The file of a descriptor: entered there, with four references. -/
def Seated (s : FileSys) (fd : Int) : Prop :=
  ∃ (i : Fin maxFds) (f : Fin maxFiles),
    fd = i.val ∧ s.spikeFds i = some f ∧ (s.spikeFiles f).refcnt = 4

/-- What holds along a run of matched opens and closes. -/
structure HostInv (h : List (Entry FileSys HostOp)) (s : FileSys) : Prop where
  tables : FileTables s
  seated : ∀ fd ∈ outstanding h, Seated s fd
  nodup : (outstanding h).Nodup
  room : h = [] → ∃ f, s.freeFile = some f
  spoiled : h ≠ [] → ∃ e ∈ h, Spoils e s

section Invariant

variable {h : List (Entry FileSys HostOp)} {s : FileSys} {op : HostOp}
variable {f : Fin maxFiles} {i : Fin maxFds} {x : SpikeFile} {r fd ret : Int}

/-- A step that keeps slots in use and, being the first, spoils the
balance. -/
theorem HostInv.next {s' : FileSys} (hI : HostInv h s) (hT : FileTables s')
    (huse : StaysUsed s s') (hnodup : (outstanding (⟨op, s, s'⟩ :: h)).Nodup)
    (hseat : ∀ fd ∈ outstanding (⟨op, s, s'⟩ :: h), Seated s' fd)
    (hfirst : ∀ f, s.freeFile = some f → h = [] → Spoils ⟨op, s, s'⟩ s') :
    HostInv (⟨op, s, s'⟩ :: h) s' := by
  refine ⟨hT, hseat, hnodup, fun hnil => absurd hnil (List.cons_ne_nil _ _),
    fun _ => ?_⟩
  by_cases hnil : h = []
  · obtain ⟨f, hf⟩ := hI.room hnil
    exact ⟨_, List.mem_cons_self .., hfirst f hf hnil⟩
  · obtain ⟨e, he, hsp⟩ := hI.spoiled hnil
    exact ⟨e, List.mem_cons_of_mem _ he, hsp.later huse⟩

/-- Rewriting another slot leaves a descriptor's file as it is. -/
theorem Seated.put (hs : Seated s fd)
    (hne : ∀ i, fd = i.val → s.spikeFds i ≠ some f) :
    Seated (s.put f x) fd := by
  obtain ⟨i, g, hi, hg, h4⟩ := hs
  have hgf : g ≠ f := by
    intro hgf
    exact hne i hi (hgf ▸ hg)
  exact ⟨i, g, hi, hg, by rw [put_ne x hgf]; exact h4⟩

theorem Seated.seat {g : Option (Fin maxFiles)} (hs : Seated s fd)
    (hne : fd ≠ i.val) : Seated (s.seat i g) fd := by
  obtain ⟨j, f, hj, hf, h4⟩ := hs
  have hji : j ≠ i := by
    intro hji
    exact hne (hji ▸ hj)
  refine ⟨j, f, hj, ?_, h4⟩
  simpa [FileSys.seat, hji] using hf

/-- Rewriting a slot that was free spoils a failing open. -/
theorem put_spikeFiles_ne (hf : s.freeFile = some f) (hx : x.refcnt ≠ 0) :
    (s.put f x).spikeFiles ≠ s.spikeFiles := by
  intro heq
  apply hx
  rw [← put_self (s := s) (f := f) x, heq]
  exact refcnt_of_freeFile hf

theorem wp_loadElf_inv (hI : HostInv h s) :
    Wp (fun _ => False) (fun _ _ => True) (HostOp.loadElf ret).run
      (fun _ s' => HostInv (⟨.loadElf ret, s, s'⟩ :: h) s') s := by
  unfold HostOp.run HostOp.prog
  rw [wp_bind]
  refine wp_loadHostElf (fun f hf i => hI.tables.unseated hf)
    fun f hf hret => (wp_modify _).mpr ?_
  have hT : FileTables (s.put f ⟨toInt32 ret, 2⟩) := hI.tables.put (by simp)
  refine hI.next ⟨hT.used, hT.inj⟩ (staysUsed_put (by simp)) hI.nodup
    (fun fd hfd => ?_) (fun g hg _ => ?_)
  · exact (hI.seated fd hfd).put fun i _ => hI.tables.unseated hf
  · refine Or.inr ⟨trivial, f, hf, ?_⟩
    show ((s.put f ⟨toInt32 ret, 2⟩).spikeFiles f).refcnt ≠ 0
    rw [put_self]
    simp

theorem outstanding_open {s' : FileSys} (h0 : 0 ≤ s'.a0) :
    outstanding (⟨.open ret, s, s'⟩ :: h) = s'.a0 :: outstanding h := by
  simp only [outstanding, if_pos h0]

theorem wp_open_inv (hI : HostInv h s) :
    Wp (fun _ => False) (fun _ _ => True) (HostOp.open ret).run
      (fun _ s' => HostInv (⟨.open ret, s, s'⟩ :: h) s') s := by
  unfold HostOp.run HostOp.prog
  rw [wp_bind]
  refine (wp_hostOpen ret).mono fun r s' hout => (wp_modify _).mpr ?_
  -- An open that fails with its slot rewritten is the same step however
  -- it failed.
  have hfailed : ∀ (f : Fin maxFiles) (x : SpikeFile), s.freeFile = some f →
      x.refcnt ≠ 0 → HostInv (⟨.open ret, s, { s.put f x with a0 := -1 }⟩ :: h)
        { s.put f x with a0 := -1 } := by
    intro f x hf hx
    have hT : FileTables (s.put f x) := hI.tables.put hx
    refine hI.next ⟨hT.used, hT.inj⟩ (staysUsed_put hx) hI.nodup
      (fun fd hfd => ?_) (fun g hg _ => Or.inl ⟨Int.negSucc_lt_zero 0, ?_⟩)
    · exact (hI.seated fd hfd).put fun i _ => hI.tables.unseated hf
    · exact put_spikeFiles_ne hf hx
  cases hout with
  | full hf =>
      refine hI.next ⟨hI.tables.used, hI.tables.inj⟩ (fun _ hg => hg) hI.nodup
        hI.seated (fun g hg _ => ?_)
      rw [hf] at hg
      cases hg
  | refused hf hret => exact hfailed _ _ hf (by simp)
  | unseated hf hret hfd => exact hfailed _ _ hf (by simp)
  | @opened f i hf hret hfd =>
      have hfree : (i.val : Int) ∉ outstanding h := by
        intro hmem
        obtain ⟨j, g, hj, hg, -⟩ := hI.seated _ hmem
        obtain rfl : i = j := Fin.ext (by omega)
        rw [empty_of_freeFd hfd] at hg
        cases hg
      have hT : FileTables ((s.put f ⟨toInt32 ret, 4⟩).seat i (some f)) := by
        apply (hI.tables.put (by simp)).seat
        · rw [put_self]
          simp
        · exact fun j => hI.tables.unseated hf
      have hout : outstanding (⟨.open ret, s,
          { (s.put f ⟨toInt32 ret, 4⟩).seat i (some f) with a0 := i.val }⟩ :: h)
          = (i.val : Int) :: outstanding h :=
        outstanding_open (Int.natCast_nonneg _)
      refine hI.next ⟨hT.used, hT.inj⟩ (fun g hg => staysUsed_put (by simp) g hg)
        ?_ (fun fd hmem => ?_) (fun g hg _ => Or.inr ⟨?_, f, hf, ?_⟩)
      · rw [hout]
        exact List.nodup_cons.mpr ⟨hfree, hI.nodup⟩
      · rw [hout] at hmem
        rcases List.mem_cons.mp hmem with rfl | hmem
        · refine ⟨i, f, rfl, Function.update_self .., ?_⟩
          exact congrArg SpikeFile.refcnt (put_self (s := s) _)
        · have hold : Seated (s.put f ⟨toInt32 ret, 4⟩) fd :=
            (hI.seated fd hmem).put fun j _ => hI.tables.unseated hf
          exact hold.seat fun heq => hfree (heq ▸ hmem)
      · exact Int.natCast_nonneg _
      · show ((s.put f ⟨toInt32 ret, 4⟩).spikeFiles f).refcnt ≠ 0
        rw [put_self]
        simp

theorem wp_close_inv (hI : HostInv h s) (hfd : fd ∈ outstanding h) :
    Wp (fun _ => False) (fun _ _ => True) (HostOp.close fd).run
      (fun _ s' => HostInv (⟨.close fd, s, s'⟩ :: h) s') s := by
  obtain ⟨i, f, rfl, hi, h4⟩ := hI.seated fd hfd
  unfold HostOp.run HostOp.prog
  rw [wp_bind]
  -- Descriptors still open are of other files, entered elsewhere.
  have hothers : ∀ fd ∈ (outstanding h).erase i.val,
      fd ≠ i.val ∧ ∀ x, Seated (s.put f x) fd := by
    intro fd hmem
    obtain ⟨hne, hmem⟩ := (hI.nodup.mem_erase_iff).mp hmem
    refine ⟨hne, fun x => (hI.seated fd hmem).put fun j hj hjf => hne ?_⟩
    rw [hj, hI.tables.inj j i f hjf hi]
  have hnonempty : h ≠ [] := by
    rintro rfl
    cases hfd
  refine wp_hostClose hi h4 ((wp_modify _).mpr ?_)
    fun j hj => (wp_modify _).mpr ?_
  · have hT : FileTables (s.put f ⟨(s.spikeFiles f).kfd, 4⟩) :=
      hI.tables.put (by simp)
    exact hI.next ⟨hT.used, hT.inj⟩ (staysUsed_put (by simp)) (hI.nodup.erase _)
      (fun fd hmem => (hothers fd hmem).2 _)
      (fun g _ hnil => absurd hnil hnonempty)
  · obtain rfl : j = i := hI.tables.inj j i f hj hi
    have hT : FileTables ((s.put f ⟨(s.spikeFiles f).kfd, 3⟩).seat j none) :=
      (hI.tables.put (by simp)).clear
    exact hI.next ⟨hT.used, hT.inj⟩ (fun g hg => staysUsed_put (by simp) g hg)
      (hI.nodup.erase _)
      (fun fd hmem => ((hothers fd hmem).2 _).seat (hothers fd hmem).1)
      (fun g _ hnil => absurd hnil hnonempty)

end Invariant

-- ==== the balance

theorem bootFiles_freeFile (pfiles : Slot → FilesStruct) :
    (bootFiles pfiles).freeFile = some 3 := rfl

/-- Standard input, output and error are entered, nothing else. -/
theorem bootFiles_fds (pfiles : Slot → FilesStruct) :
    (bootFiles pfiles).spikeFds = Function.update (Function.update
      (Function.update (fun _ => none) 0 (some 0)) 1 (some 1)) 2 (some 2) := rfl

theorem bootFiles_files (pfiles : Slot → FilesStruct) :
    ((bootFiles pfiles).spikeFiles 0).refcnt = 4 ∧
      ((bootFiles pfiles).spikeFiles 1).refcnt = 4 ∧
        ((bootFiles pfiles).spikeFiles 2).refcnt = 4 := ⟨rfl, rfl, rfl⟩

theorem bootFiles_entered {pfiles : Slot → FilesStruct} {i : Fin maxFds}
    {f : Fin maxFiles} (hf : (bootFiles pfiles).spikeFds i = some f) :
    i = f ∧ (f = 0 ∨ f = 1 ∨ f = 2) := by
  rw [bootFiles_fds] at hf
  simp only [Function.update_apply] at hf
  grind

theorem bootFiles_tables (pfiles : Slot → FilesStruct) :
    FileTables (bootFiles pfiles) := by
  obtain ⟨h0, h1, h2⟩ := bootFiles_files pfiles
  refine ⟨fun i f hf => ?_, fun i j f hi hj => ?_⟩
  · rcases (bootFiles_entered hf).2 with rfl | rfl | rfl
    · rw [h0]; decide
    · rw [h1]; decide
    · rw [h2]; decide
  · rw [(bootFiles_entered hi).1, (bootFiles_entered hj).1]

theorem hostInv_boot (pfiles : Slot → FilesStruct) :
    HostInv [] (bootFiles pfiles) :=
  ⟨bootFiles_tables pfiles, fun _ hfd => (List.not_mem_nil hfd).elim,
    List.nodup_nil, fun _ => ⟨3, bootFiles_freeFile pfiles⟩,
    fun hne => absurd rfl hne⟩

/-- Every run of matched opens and closes. -/
theorem HostInv.of_run {pfiles : Slot → FilesStruct} {s : FileSys}
    {h : List (Entry FileSys HostOp)} (hrun : HostRun (bootFiles pfiles) h s)
    (hm : Matched h) : HostInv h s := by
  induction hrun with
  | start => exact hostInv_boot pfiles
  | @step h s s' op es past guard runs clean ih =>
      have hI := ih hm.2
      have hstep : Wp (fun _ => False) (fun _ _ => True) op.run
          (fun _ s' => HostInv (⟨op, s, s'⟩ :: h) s') s := by
        cases op with
        | loadElf ret => exact wp_loadElf_inv hI
        | «open» ret => exact wp_open_inv hI
        | close fd => exact wp_close_inv hI (hm.1 fd rfl)
      exact hstep.of_run runs clean

/-- The first operation of a run that matches its closes is an open. -/
theorem Matched.eq_nil {h : List (Entry FileSys HostOp)} (hm : Matched h)
    (hops : ∀ e ∈ h, ∃ fd, e.op = .close fd) : h = [] := by
  induction h with
  | nil => rfl
  | cons e h ih =>
      obtain ⟨fd, hfd⟩ := hops e (List.mem_cons_self ..)
      have hmem := hm.1 fd hfd
      rw [ih hm.2 fun e he => hops e (List.mem_cons_of_mem _ he)] at hmem
      cases hmem

/-- Once everything opened is closed the references balance exactly in
the runs that opened nothing. -/
theorem references_balance_iff (pfiles : Slot → FilesStruct)
    (h : List (Entry FileSys HostOp)) (s : FileSys)
    (hrun : HostRun (bootFiles pfiles) h s) (hset : Settled h) :
    Balanced (bootFiles pfiles) h s ↔ ∀ e ∈ h, ∃ fd, e.op = .close fd := by
  constructor
  · intro hb e he
    obtain ⟨e', he', hsp⟩ := (HostInv.of_run hrun hset.matched).spoiled
      (List.ne_nil_of_mem he)
    exact absurd hb (hsp.not_balanced he')
  · intro hops
    obtain rfl : h = [] := hset.matched.eq_nil hops
    cases hrun
    exact ⟨fun e he => (List.not_mem_nil he).elim,
      fun e he => (List.not_mem_nil he).elim, List.Perm.refl _,
      fun e he => (List.not_mem_nil he).elim⟩

-- A file table with every entry free, and the runs below start from it.

def noFiles : Slot → FilesStruct := fun _ =>
  { ofile := fun _ => ⟨.none, false, false, 0, 0, 0, 0⟩, nfile := 0 }

/-- The state after an operation. -/
def HostOp.after (op : HostOp) (s : FileSys) : FileSys := (op.run s).2.state

/-- A load of a program, the host answering with descriptor 3. -/
theorem references_balance_iff_load :
    HostRun (bootFiles noFiles)
        [⟨.loadElf 3, bootFiles noFiles,
          (HostOp.loadElf 3).after (bootFiles noFiles)⟩]
        ((HostOp.loadElf 3).after (bootFiles noFiles)) ∧
      ¬ Balanced (bootFiles noFiles)
        [⟨.loadElf 3, bootFiles noFiles,
          (HostOp.loadElf 3).after (bootFiles noFiles)⟩]
        ((HostOp.loadElf 3).after (bootFiles noFiles)) := by
  have hrun : HostRun (bootFiles noFiles)
      [⟨.loadElf 3, bootFiles noFiles,
        (HostOp.loadElf 3).after (bootFiles noFiles)⟩]
      ((HostOp.loadElf 3).after (bootFiles noFiles)) :=
    .step .start trivial (Traced.run_eq_of_value rfl) fun e => e.elim
  refine ⟨hrun, fun hb => ?_⟩
  have hset : Settled [⟨.loadElf 3, bootFiles noFiles,
      (HostOp.loadElf 3).after (bootFiles noFiles)⟩] :=
    ⟨⟨fun fd hfd => HostOp.noConfusion hfd, trivial⟩, rfl⟩
  obtain ⟨fd, hfd⟩ := (references_balance_iff noFiles _ _ hrun hset).mp hb _
    (List.mem_singleton_self _)
  cases hfd

/-- A host open answered with descriptor 3, which is also the index it
is entered at, and its close: nothing is left open, the slot still has
three references and the host was not asked to close the file. -/
theorem open_close_unbalanced :
    ∃ (h : List (Entry FileSys HostOp)) (s : FileSys),
      HostRun (bootFiles noFiles) h s ∧ Settled h ∧
        h.map Entry.op = [.close 3, .open 3] ∧
        (s.spikeFiles 3).refcnt = 3 ∧ s.hostClosed = [] ∧
        ¬ Balanced (bootFiles noFiles) h s := by
  have hopen : HostRun (bootFiles noFiles) [⟨.open 3, _, _⟩] _ :=
    .step .start trivial (Traced.run_eq_of_value rfl) fun e => e.elim
  have hclose : HostRun (bootFiles noFiles) [⟨.close 3, _, _⟩, ⟨.open 3, _, _⟩]
      _ :=
    .step hopen trivial (Traced.run_eq_of_value rfl) fun e => e.elim
  refine ⟨_, _, hclose, ⟨⟨?_, ?_, trivial⟩, rfl⟩, rfl, rfl, rfl, ?_⟩
  · intro fd hfd
    cases hfd
    exact List.mem_cons_self ..
  · intro fd hfd
    cases hfd
  · intro hb
    have h0 := hb.slots _ (List.mem_cons_of_mem _ (List.mem_singleton_self _))
      (show (0 : Int) ≤ 3 by decide) 3 rfl
    exact absurd h0 (by decide)

end Pke
