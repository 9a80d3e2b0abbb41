/-
Inodes of the RAM disk: two ways to load one, and the lookup of a name.

`rfs_load_dinode` reads the block of the root inode whatever inode it is
asked for; `rfs_lookup` reads the block its directory entry names. They
agree on an inode exactly when the two blocks hold the same one
(`inode_loads_agree_iff`).

`rfs_lookup` takes an entry of `addrs[]`, the number of a block, for the
address of the block. So what it compares the name with is not on the disk
but at the first addresses of the machine, where there is no memory. The
disk says what the lookup should find; whatever it says, some content of
those addresses makes the lookup find something else
(`lookup_exact_iff`), unless the directory is empty.
-/
import Pke.Model.RfsInode
import Pke.Proofs.UserIo
import Pke.Proofs.Vfs

namespace Pke.Rfs

open ByteMem Traced

variable {fs : RfsFs} {m m' : Mem}

-- ==== loading

/-- The operations of an inode type. -/
def opsOf (type : Int) : Option InodeOps :=
  if type = tDir then some .dirops else if type = tFile then some .fileops else none

theorem rfsGetOps_some {type : Int} {ops : InodeOps} (h : opsOf type = some ops) :
    rfsGetOps type m = ([], .ok ops m) := by
  unfold opsOf at h
  unfold rfsGetOps
  split_ifs at h ⊢
  · cases h; rfl
  · cases h; rfl

theorem rfsGetOps_none {type : Int} (h : opsOf type = none) :
    ∃ msg, rfsGetOps type m = ([], .halt (.panic msg) m) := by
  unfold opsOf at h
  unfold rfsGetOps
  split_ifs at h ⊢
  exact ⟨_, rfl⟩

theorem intAt_congr {a b : Nat} (h : load m' 4 b = load m 4 a) :
    intAt m' b = intAt m a :=
  congrArg (fun w : Nat => (w : Int).bmod (2 ^ 32)) h

/-- A disk inode depends on its bytes only. -/
theorem dinodeAt_shift {a b : Nat} (h : ∀ k < 96, m' (b + k) = m (a + k)) :
    dinodeAt m' b = dinodeAt m a := by
  have hload : ∀ n off, off + n ≤ 96 → load m' n (b + off) = load m n (a + off) := by
    intro n off hn
    apply load_shift
    intro k hk
    rw [Nat.add_assoc, Nat.add_assoc]
    exact h (off + k) (by omega)
  have hint : ∀ off, off + 4 ≤ 96 → intAt m' (b + off) = intAt m (a + off) :=
    fun off hoff => intAt_congr (hload 4 off hoff)
  simp only [dinodeAt, Dinode.mk.injEq]
  refine ⟨hint 0 (by decide), hint 4 (by decide), hint 8 (by decide),
    hint 12 (by decide), funext fun i => ?_⟩
  have hi := i.isLt
  rw [Nat.add_assoc, Nat.add_assoc]
  exact hload 8 _ (by simp only [rfsNdirect] at hi; omega)

/-- A block that has been read is in the buffer. -/
theorem dinodeAt_buffer (fs : RfsFs) (m : Mem) (b : Nat) :
    dinodeAt (copy m fs.buffer (fs.block b) rfsBlksize) fs.buffer
      = dinodeAt m (fs.block b) :=
  dinodeAt_shift fun k hk => copy_apply m (by simp only [rfsBlksize, pgSize]; omega)

theorem rfsR1block_run {b : Nat} (hb : b < ramdisk0Block) :
    rfsR1block fs b m
      = ([], .ok () (copy m fs.buffer (fs.block b) rfsBlksize)) := by
  unfold rfsR1block
  rw [if_neg (by simp only [ramdisk0Block] at *; omega)]
  rfl

theorem rfsCreateInode_some {din : Nat} (ino : Int) {ops : InodeOps}
    (h : opsOf (dinodeAt m din).type = some ops) :
    rfsCreateInode din ino m = ([], .ok ⟨dinodeAt m din, ino, ops⟩ m) := by
  unfold rfsCreateInode
  rw [bind_get]
  exact bind_run (rfsGetOps_some h) rfl

theorem rfsCreateInode_none {din : Nat} (ino : Int)
    (h : opsOf (dinodeAt m din).type = none) :
    ∃ msg, rfsCreateInode din ino m = ([], .halt (.panic msg) m) := by
  obtain ⟨msg, hpanic⟩ := rfsGetOps_none (m := m) h
  refine ⟨msg, ?_⟩
  unfold rfsCreateInode
  rw [bind_get]
  exact bind_halt hpanic

/-- `rfs_load_dinode`, where the root inode has a type. -/
theorem rfsLoadDinode_some (ino : Int) {ops : InodeOps}
    (h : opsOf (dinodeAt m (fs.block rfsBlknInode)).type = some ops) :
    ∃ m₁, rfsLoadDinode fs ino m
      = ([], .ok ⟨dinodeAt m (fs.block rfsBlknInode), ino, ops⟩ m₁) := by
  rw [← dinodeAt_buffer] at h ⊢
  exact ⟨_, bind_run (rfsR1block_run (by decide)) (rfsCreateInode_some ino h)⟩

theorem rfsLoadDinode_none (ino : Int)
    (h : opsOf (dinodeAt m (fs.block rfsBlknInode)).type = none) :
    ∃ msg m₁, rfsLoadDinode fs ino m = ([], .halt (.panic msg) m₁) := by
  rw [← dinodeAt_buffer] at h
  obtain ⟨msg, hpanic⟩ := rfsCreateInode_none ino h
  exact ⟨msg, _, bind_run (rfsR1block_run (by decide)) hpanic⟩

/-- An inode is created under the number its entry has by then. -/
theorem createAgain {din de : Nat} {ino : Int} {ops : InodeOps}
    (h : opsOf (dinodeAt m din).type = some ops) (hentry : intAt m de = ino) :
    (Traced.get >>= fun m => rfsCreateInode din (intAt m de) : R Inode) m
      = ([], .ok ⟨dinodeAt m din, ino, ops⟩ m) := by
  rw [bind_get, hentry]
  exact rfsCreateInode_some ino h

/-- The inode of an entry that is not in the buffer. -/
theorem loadEntry_some {ino de : Nat} {ops : InodeOps} (hino : ino < ramdisk0Block)
    (h : opsOf (dinodeAt m (fs.block ino)).type = some ops)
    (hentry : intAt m de = ino)
    (hde : de + 4 ≤ fs.buffer ∨ fs.buffer + rfsBlksize ≤ de) :
    ∃ m₁, loadEntry fs de m = ([], .ok ⟨dinodeAt m (fs.block ino), ino, ops⟩ m₁) := by
  have hagain : intAt (copy m fs.buffer (fs.block ino) rfsBlksize) de = ino := by
    rw [← hentry]
    exact intAt_congr (load_agree (copy_agree m hde.symm))
  rw [← dinodeAt_buffer] at h ⊢
  unfold loadEntry
  rw [bind_get, hentry]
  exact ⟨_, bind_run (rfsR1block_run hino) (createAgain h hagain)⟩

-- ==== agreement

/-- Both ways produce the inode that is in block `ino`. -/
def LoadsAgree (fs : RfsFs) (m : Mem) (ino de : Nat) : Prop :=
  ∃ node m₁ m₂, rfsLoadDinode fs ino m = ([], .ok node m₁) ∧
    loadEntry fs de m = ([], .ok node m₂) ∧ node.inum = ino ∧
    node.info = dinodeAt m (fs.block ino) ∧ opsOf node.info.type = some node.ops

/-- The two ways to load inode `ino` agree exactly when its block holds the
same as the block of the root inode. -/
theorem inode_loads_agree_iff (fs : RfsFs) (m : Mem) (ino de : Nat)
    (hino : rfsBlknInode ≤ ino ∧ ino < rfsBlknInode + rfsMaxInodeNum)
    (htype : (dinodeAt m (fs.block ino)).type = tDir ∨
      (dinodeAt m (fs.block ino)).type = tFile)
    (hentry : intAt m de = ino)
    (hde : de + 4 ≤ fs.buffer ∨ fs.buffer + rfsBlksize ≤ de) :
    LoadsAgree fs m ino de
      ↔ dinodeAt m (fs.block rfsBlknInode) = dinodeAt m (fs.block ino) := by
  obtain ⟨ops, hops⟩ : ∃ ops, opsOf (dinodeAt m (fs.block ino)).type = some ops := by
    rcases htype with h | h
    · exact ⟨.dirops, by rw [h]; rfl⟩
    · exact ⟨.fileops, by rw [h]; rfl⟩
  constructor
  · rintro ⟨node, m₁, m₂, hload, -, -, hinfo, -⟩
    cases hroot : opsOf (dinodeAt m (fs.block rfsBlknInode)).type with
    | none =>
        obtain ⟨msg, m₃, hpanic⟩ := rfsLoadDinode_none ino hroot
        rw [hload] at hpanic
        cases hpanic
    | some ops' =>
        obtain ⟨m₃, hrun⟩ := rfsLoadDinode_some ino hroot
        rw [hload] at hrun
        have hnode := (Out.ok.inj (Prod.mk.inj hrun).2).1
        rw [hnode] at hinfo
        exact hinfo
  · intro hsame
    have hops' := hops
    rw [← hsame] at hops'
    obtain ⟨m₁, hload⟩ := rfsLoadDinode_some ino hops'
    obtain ⟨m₂, hlookup⟩ := loadEntry_some
      (by simp only [rfsBlknInode, rfsMaxInodeNum, ramdisk0Block] at *; omega)
      hops hentry hde
    rw [hsame] at hload
    exact ⟨_, m₁, m₂, hload, hlookup, rfl, rfl, hops⟩

-- A disk with the root directory in block 1 and a file in block 2, and
-- entries that name them at 0x10 and 0x30.

def smallFs : RfsFs := { base := 0x80100000, buffer := 0x80300000 }

def smallDisk : Mem :=
  let m := store (fun _ => 0) 4 (smallFs.block 1 + 4) tDir
  let m := store m 4 (smallFs.block 2 + 4) tFile
  store (store m 4 0x10 1) 4 0x30 2

theorem inode_loads_agree_iff_root : LoadsAgree smallFs smallDisk 1 0x10 :=
  (inode_loads_agree_iff smallFs smallDisk 1 0x10 ⟨by decide, by decide⟩
    (Or.inl (by decide)) (by decide) (Or.inl (by decide))).mpr rfl

/-- Asked for inode 2, `rfs_load_dinode` makes a directory of it. -/
theorem inode_two_is_loaded_as_root :
    ∃ node₁ m₁ node₂ m₂, rfsLoadDinode smallFs 2 smallDisk = ([], .ok node₁ m₁) ∧
      loadEntry smallFs 0x30 smallDisk = ([], .ok node₂ m₂) ∧
      node₁.inum = 2 ∧ node₁.ops = .dirops ∧
      node₂.inum = 2 ∧ node₂.ops = .fileops := by
  have hroot : opsOf (dinodeAt smallDisk (smallFs.block 1)).type = some .dirops := by
    decide
  have hfile : opsOf (dinodeAt smallDisk (smallFs.block 2)).type = some .fileops := by
    decide
  obtain ⟨m₁, hload⟩ := rfsLoadDinode_some 2 hroot
  obtain ⟨m₂, hlookup⟩ : ∃ m₂, loadEntry smallFs 0x30 smallDisk = ([], .ok
      ⟨dinodeAt smallDisk (smallFs.block 2), (2 : Nat), .fileops⟩ m₂) :=
    loadEntry_some (by decide) hfile (by decide) (Or.inl (by decide))
  exact ⟨_, m₁, _, m₂, hload, hlookup, rfl, rfl, rfl, rfl⟩

-- ==== how many entries

/-- The number of entries of a directory. -/
def entryCount (dir : Dinode) : Nat := dir.size.toNat / direntrySize

/-- A block never has more entries than fit. -/
theorem entriesLeft_le {size : Int} {i : Nat} (hlo : 0 ≤ size)
    (hhi : size ≤ rfsNdirect * rfsBlksize) (hi : i < rfsNdirect) :
    (entriesLeft size i).toNat ≤ 128 ∧ (size < 32 → (entriesLeft size i).toNat = 0) ∧
      (32 ≤ size → i = 0 → 0 < (entriesLeft size i).toNat) := by
  simp only [rfsNdirect, rfsBlksize, pgSize] at hhi hi
  have hdiff : int32 (size - i * rfsBlksize) = size - i * 4096 := by
    simp only [rfsBlksize, pgSize]
    exact int32_eq (by omega) (by omega)
  unfold entriesLeft
  rw [hdiff]
  simp only [rfsBlksize, direntrySize, pgSize]
  split_ifs with hbig
  · refine ⟨by decide, fun h => by omega, fun _ _ => by decide⟩
  · rcases Int.lt_or_le (size - i * 4096) 0 with hneg | hpos
    · -- The difference wraps to a number just below 2^64.
      obtain ⟨x, hx⟩ : ∃ x : Nat, (x : Int) = i * 4096 - size :=
        ⟨(i * 4096 - size).toNat, by omega⟩
      have hwrap : u64OfInt (size - i * 4096) / 32 = 2 ^ 59 - (x + 31) / 32 := by
        unfold u64OfInt
        omega
      have hsplit : ((2 ^ 59 - (x + 31) / 32 : Nat) : Int)
          = -((x + 31) / 32 : Nat) + 2 ^ 27 * ((2 ^ 32 : Nat) : Int) := by
        push_cast
        omega
      have hsmall : int32 ((2 ^ 59 - (x + 31) / 32 : Nat) : Int)
          = -((x + 31) / 32 : Nat) := by
        rw [hsplit, int32, Int.add_mul_bmod_self_right]
        exact Int.bmod_eq_of_le (by omega) (by omega)
      rw [hwrap, hsmall]
      refine ⟨by omega, fun _ => by omega, fun _ hi0 => ?_⟩
      subst hi0
      omega
    · obtain ⟨x, hx⟩ : ∃ x : Nat, (x : Int) = size - i * 4096 :=
        ⟨(size - i * 4096).toNat, by omega⟩
      rw [← hx, u64OfInt_nat (by omega), int32_eq (by omega) (by omega)]
      refine ⟨by omega, fun _ => by omega, fun _ hi0 => ?_⟩
      subst hi0
      omega

-- ==== the search

variable {bad : Empty → Prop} {E : Halt → Mem → Prop}
variable {fuel path de : Nat} {l : List UInt8}

/-- The name of the entry at `a`, compared with the path. -/
theorem compareName (a : Nat) (hpath : Spells (bytesAt m path) l)
    (hfuel : l.length < fuel) :
    ∃ r, strcmp fuel (bytesAt m (a + 4)) (bytesAt m path) = some r ∧
      (r = 0 ↔ Spells (bytesAt m (a + 4)) l) :=
  strcmp_spells hpath hfuel

/-- Entries with other names are passed by. -/
theorem wp_searchEntries_miss (hpath : Spells (bytesAt m path) l)
    (hfuel : l.length < fuel) {n j : Nat}
    (hmiss : ∀ k < n, ¬ Spells (bytesAt m (de + (j + k) * direntrySize + 4)) l) :
    Wp bad E (searchEntries fs fuel path de n j)
      (fun r m' => r = none ∧ m' = m) m := by
  induction n generalizing j with
  | zero => exact (wp_pure _).mpr ⟨rfl, rfl⟩
  | succ n ih =>
      obtain ⟨r, hr, hzero⟩ := compareName (de + j * direntrySize) hpath hfuel
      have hne : r ≠ 0 := fun h => hmiss 0 (Nat.succ_pos n) (hzero.mp h)
      rw [searchEntries, wp_bind, wp_get, hr]
      refine wp_ite.mpr ⟨fun h => absurd h hne, fun _ => ih fun k hk => ?_⟩
      rw [Nat.add_assoc j, Nat.add_comm 1]
      exact hmiss (k + 1) (Nat.succ_lt_succ hk)

/-- An entry with the name ends the search. -/
theorem wp_searchEntries_hit (hpath : Spells (bytesAt m path) l)
    (hfuel : l.length < fuel) {n j : Nat}
    (hhit : Spells (bytesAt m (de + j * direntrySize + 4)) l) :
    Wp bad (fun _ _ => True) (searchEntries fs fuel path de (n + 1) j)
      (fun r _ => r ≠ none) m := by
  obtain ⟨r, hr, hzero⟩ := compareName (de + j * direntrySize) hpath hfuel
  rw [searchEntries, wp_bind, wp_get, hr]
  refine wp_ite.mpr ⟨fun _ => ?_, fun h => absurd (hzero.mpr hhit) h⟩
  rw [wp_bind]
  refine (wp_run_eq _).mono fun node m' _ => ?_
  exact (wp_pure _).mpr (Option.some_ne_none node)

/-- The address of an entry the search looks at. -/
def searchedEntry (dir : Dinode) (i : Fin rfsNdirect) (j : Nat) : Nat :=
  dir.addrs i + j * direntrySize

/-- No entry the search looks at has the name. -/
def Missed (m : Mem) (dir : Dinode) (l : List UInt8) : Prop :=
  ∀ i : Fin rfsNdirect, i < dir.blocks → ∀ j < (entriesLeft dir.size i).toNat,
    ¬ Spells (bytesAt m (searchedEntry dir i j + 4)) l

variable {dir : Dinode}

theorem wp_searchBlocks_miss (hpath : Spells (bytesAt m path) l)
    (hfuel : l.length < fuel) (hmiss : Missed m dir l)
    (is : List (Fin rfsNdirect)) :
    Wp bad E (searchBlocks fs fuel path dir is) (fun r _ => r = none) m := by
  induction is with
  | nil => exact (wp_pure _).mpr rfl
  | cons i rest ih =>
      rw [searchBlocks]
      refine wp_ite.mpr ⟨fun hi => ?_, fun _ => (wp_pure _).mpr rfl⟩
      rw [wp_bind]
      refine (wp_searchEntries_miss hpath hfuel fun k hk => ?_).mono ?_
      · rw [Nat.zero_add]
        exact hmiss i hi k hk
      · rintro r m' ⟨rfl, rfl⟩
        exact ih

theorem wp_searchBlocks_hit (hpath : Spells (bytesAt m path) l)
    (hfuel : l.length < fuel) {i : Fin rfsNdirect} {rest : List (Fin rfsNdirect)}
    (hi : i < dir.blocks) (hsome : 0 < (entriesLeft dir.size i).toNat)
    (hhit : Spells (bytesAt m (searchedEntry dir i 0 + 4)) l) :
    Wp bad (fun _ _ => True) (searchBlocks fs fuel path dir (i :: rest))
      (fun r _ => r ≠ none) m := by
  rw [searchBlocks]
  refine wp_ite.mpr ⟨fun _ => ?_, fun h => absurd hi h⟩
  obtain ⟨n, hn⟩ := Nat.exists_eq_succ_of_ne_zero (Nat.ne_of_gt hsome)
  rw [wp_bind, hn]
  refine (wp_searchEntries_hit hpath hfuel hhit).mono fun r m' hr => ?_
  cases r with
  | none => exact absurd rfl hr
  | some node => exact (wp_pure _).mpr hr

/-- The lookup of "/name" is the search for the name. -/
theorem wp_rfsLookup {node : Inode} {Q : Int × Option Inode → Mem → Prop}
    (hpath : StringAt m path (47 :: l)) (hl : l ≠ [])
    (h : Wp bad E (searchBlocks fs fuel (path + 1) node.info
      (List.finRange rfsNdirect)) (fun r m' =>
        (∀ found, r = some found → Q (0, some found) m') ∧
          (r = none → Q (1, none) m')) m) :
    Wp bad E (rfsLookup fs fuel node path) Q m := by
  obtain ⟨-, hslash, hname⟩ := hpath
  obtain ⟨b, l, rfl⟩ := List.exists_cons_of_ne_nil hl
  obtain ⟨hb, rfl, -⟩ := hname
  unfold rfsLookup
  rw [wp_bind, wp_get]
  refine wp_ite.mpr ⟨fun hroot => absurd hroot.2 hb, fun _ => ?_⟩
  refine wp_ite.mpr ⟨fun hrel => absurd hslash hrel, fun _ => ?_⟩
  rw [wp_bind]
  refine h.mono fun r m' hQ => ?_
  cases r with
  | none => exact (wp_pure _).mpr (hQ.2 rfl)
  | some found => exact (wp_pure _).mpr (hQ.1 found rfl)

-- ==== the disk

/-- The address of entry `e` of a directory, on the disk. -/
def entryAddr (fs : RfsFs) (dir : Dinode) (e : Nat) : Nat :=
  if h : e / 128 < rfsNdirect then
    fs.block (dir.addrs ⟨e / 128, h⟩) + e % 128 * direntrySize
  else 0

/-- The directory is laid out on the disk: its blocks are blocks of the
disk and hold its entries, whose names end within their field and whose
inodes are inodes. -/
structure LaidOut (fs : RfsFs) (m : Mem) (dir : Dinode) : Prop where
  nonneg : 0 ≤ dir.size
  direct : dir.blocks ≤ rfsNdirect
  room : dir.size ≤ dir.blocks * rfsBlksize
  addrs : ∀ i : Fin rfsNdirect, i < dir.blocks → dir.addrs i < ramdisk0Block
  names : ∀ e < entryCount dir, ∃ l, StringAt m (entryAddr fs dir e + 4) l ∧
    l.length < rfsMaxFnameLen
  inums : ∀ e < entryCount dir, rfsBlknInode ≤ intAt m (entryAddr fs dir e) ∧
    intAt m (entryAddr fs dir e) < rfsBlknInode + rfsMaxInodeNum
  types : ∀ e < entryCount dir,
    opsOf (dinodeAt m (fs.block (intAt m (entryAddr fs dir e)).toNat)).type ≠ none

/-- The outcome the disk says: the first entry with the name and its inode,
or that there is none. -/
def Exact (fs : RfsFs) (dir : Dinode) (l : List UInt8) (m : Mem)
    (out : Out Mem Halt (Int × Option Inode)) : Prop :=
  (∃ e < entryCount dir, StringAt m (entryAddr fs dir e + 4) l ∧
    (∀ e' < e, ¬ StringAt m (entryAddr fs dir e' + 4) l) ∧
    ∃ node m', out = .ok (0, some node) m' ∧
      node.inum = intAt m (entryAddr fs dir e) ∧
      node.info = dinodeAt m (fs.block (intAt m (entryAddr fs dir e)).toNat)) ∨
  ((∀ e < entryCount dir, ¬ StringAt m (entryAddr fs dir e + 4) l) ∧
    ∃ m', out = .ok (1, none) m')

/-- The two memories differ below the machine's memory only. -/
def SameRam (m m' : Mem) : Prop := ∀ a, dramBase ≤ a → m' a = m a

/-- A memory with other content below the machine's memory. -/
def overlay (low m : Mem) : Mem := fun a => if a < dramBase then low a else m a

theorem sameRam_overlay (low m : Mem) : SameRam m (overlay low m) :=
  fun _ ha => if_neg (Nat.not_lt.mpr ha)

theorem overlay_low {low : Mem} {a : Nat} (ha : a < dramBase) :
    overlay low m a = low a := if_pos ha

theorem SameRam.string (h : SameRam m m') {a : Nat} (ha : dramBase ≤ a) :
    StringAt m' a l ↔ StringAt m a l := by
  constructor
  · exact fun hs => hs.agree fun x hx _ => (h x (Nat.le_trans ha hx)).symm
  · exact fun hs => hs.agree fun x hx _ => h x (Nat.le_trans ha hx)

/-- The entries of a directory are in the machine's memory. -/
theorem dram_le_entryAddr (hbase : dramBase ≤ fs.base) {e : Nat}
    (hdir : LaidOut fs m dir) (he : e < entryCount dir) :
    dramBase ≤ entryAddr fs dir e := by
  have hsize := hdir.room
  have hblocks := hdir.direct
  have hlt : e / 128 < rfsNdirect := by
    simp only [entryCount, direntrySize, rfsBlksize, pgSize, rfsNdirect] at *
    omega
  rw [entryAddr, dif_pos hlt, RfsFs.block]
  omega

/-- What the search looks at is below it. -/
theorem searchedEntry_lt (hdir : LaidOut fs m dir) {i : Fin rfsNdirect} {j : Nat}
    (hi : i < dir.blocks) (hj : j < (entriesLeft dir.size i).toNat) :
    searchedEntry dir i j < 4224 := by
  have haddr := hdir.addrs i hi
  have hle := (entriesLeft_le hdir.nonneg (Int.le_trans hdir.room (by
    have := hdir.direct
    simp only [rfsBlksize, pgSize, rfsNdirect] at *
    omega)) i.isLt).1
  simp only [searchedEntry, direntrySize, ramdisk0Block] at *
  omega

-- ==== the theorem

variable {node : Inode}

/-- Where no entry that is looked at has the name, nothing is found. -/
theorem lookup_missed (fs : RfsFs) (hpath : StringAt m path (47 :: l)) (hl : l ≠ [])
    (hfuel : l.length < fuel) (hmiss : Missed m node.info l) :
    ∃ es m', rfsLookup fs fuel node path m = (es, .ok (1, none) m') := by
  have hret : Returns (rfsLookup fs fuel node path) (fun r _ => r = (1, none)) m := by
    refine wp_rfsLookup hpath hl ((wp_searchBlocks_miss hpath.2.2.spells hfuel hmiss
      _).mono ?_)
    rintro r m' rfl
    exact ⟨nofun, fun _ => rfl⟩
  obtain ⟨es, _, m', hrun, rfl⟩ := hret.elim
  exact ⟨es, m', hrun⟩

/-- Where the first entry that is looked at has the name, the lookup does
not say that there is none. -/
theorem lookup_hit (hpath : StringAt m path (47 :: l)) (hl : l ≠ [])
    (hfuel : l.length < fuel) (hblocks : 0 < node.info.blocks)
    (hsome : 0 < (entriesLeft node.info.size 0).toNat)
    (hhit : Spells (bytesAt m (searchedEntry node.info 0 0 + 4)) l) :
    ¬ ∃ m', (rfsLookup fs fuel node path m).2 = .ok (1, none) m' := by
  have hwp : Wp (fun _ => False) (fun _ _ => True) (rfsLookup fs fuel node path)
      (fun r _ => r.1 ≠ 1) m := by
    refine wp_rfsLookup hpath hl ?_
    obtain ⟨rest, hrest⟩ : ∃ rest, List.finRange rfsNdirect = 0 :: rest :=
      ⟨_, List.finRange_succ⟩
    rw [hrest]
    refine (wp_searchBlocks_hit hpath.2.2.spells hfuel (i := 0)
      hblocks hsome hhit).mono fun r m' hr => ?_
    exact ⟨fun _ _ => (by decide : (0 : Int) ≠ 1), fun hnone => absurd hnone hr⟩
  rintro ⟨m', hrun⟩
  exact hwp.of_run (Prod.ext rfl hrun) (fun _ _ => id) rfl

/-- Zeros at the first addresses are no name. -/
theorem missed_zeros (hdir : LaidOut fs m dir) (hl : l ≠ []) :
    Missed (overlay (fun _ => 0) m) dir l := by
  intro i hi j hj hspells
  have hlt := searchedEntry_lt hdir hi hj
  obtain ⟨b, l, rfl⟩ := List.exists_cons_of_ne_nil hl
  have hhead := hspells.2 0 (Nat.zero_le _)
  have hzero : overlay (fun _ => 0) m (searchedEntry dir i j + 4) = 0 :=
    overlay_low (by simp only [dramBase]; omega)
  exact hspells.1 b List.mem_cons_self (hhead.symm.trans hzero)

/-- A name can be put where the search looks first. -/
theorem hit_planted (hdir : LaidOut fs m dir) (hblocks : 0 < dir.blocks)
    (hname : ∀ b ∈ l, b ≠ 0) (hlen : l.length < pkeMaxAllowableRam) :
    Spells (bytesAt (overlay (fun a => l.getD (a - (searchedEntry dir 0 0 + 4)) 0) m)
      (searchedEntry dir 0 0 + 4)) l := by
  have haddr : searchedEntry dir 0 0 < 128 := by
    have := hdir.addrs 0 hblocks
    simp only [searchedEntry, ramdisk0Block] at *
    omega
  refine ⟨hname, fun k hk => ?_⟩
  have hlow : searchedEntry dir 0 0 + 4 + k < dramBase := by
    simp only [pkeMaxAllowableRam, dramBase] at *
    omega
  rw [bytesAt, overlay_low hlow, Nat.add_sub_cancel_left]

/-- A lookup of "/name" finds what the directory on the disk says, whatever
is below the machine's memory, exactly when the directory is empty. -/
theorem lookup_exact_iff (fs : RfsFs) (fuel path : Nat) (node : Inode) (m : Mem)
    (l : List UInt8) (hdir : LaidOut fs m node.info) (hbase : dramBase ≤ fs.base)
    (hram : dramBase ≤ path ∧ path + l.length + 1 < physTop)
    (hpath : StringAt m path (47 :: l)) (hl : l ≠ []) (hfuel : l.length < fuel) :
    (∀ m', SameRam m m' → Exact fs node.info l m' (rfsLookup fs fuel node path m').2)
      ↔ entryCount node.info = 0 := by
  have hpath' : ∀ {m'}, SameRam m m' → StringAt m' path (47 :: l) :=
    fun h => (h.string hram.1).mpr hpath
  have hentry : ∀ {m'}, SameRam m m' → ∀ e < entryCount node.info,
      (StringAt m' (entryAddr fs node.info e + 4) l
        ↔ StringAt m (entryAddr fs node.info e + 4) l) := fun h e he =>
    h.string (Nat.le_trans (dram_le_entryAddr hbase hdir he) (Nat.le_add_right ..))
  have hsize : node.info.size ≤ rfsNdirect * rfsBlksize := by
    have := hdir.room
    have := hdir.direct
    simp only [rfsBlksize, pgSize, rfsNdirect] at *
    omega
  constructor
  · intro hexact
    by_contra hne
    have h32 : 32 ≤ node.info.size := by
      simp only [entryCount, direntrySize] at hne
      omega
    have hblocks : 0 < node.info.blocks := by
      have := hdir.room
      simp only [rfsBlksize, pgSize] at this
      omega
    by_cases hon : ∃ e < entryCount node.info,
        StringAt m (entryAddr fs node.info e + 4) l
    · -- The disk has the name: zeros hide it.
      obtain ⟨e, he, hs⟩ := hon
      have hsame := sameRam_overlay (fun _ => 0) m
      obtain ⟨es, m', hrun⟩ := lookup_missed fs (hpath' hsame) hl hfuel
        (missed_zeros hdir hl)
      rcases hexact _ hsame with ⟨_, _, _, _, node', m'', hout, -⟩ | ⟨hno, -⟩
      · rw [hrun] at hout
        cases hout
      · exact hno e he ((hentry hsame e he).mpr hs)
    · -- It has not: the name is put where the search looks.
      have hsame := sameRam_overlay
        (fun a => l.getD (a - (searchedEntry node.info 0 0 + 4)) 0) m
      have hsome := (entriesLeft_le hdir.nonneg hsize (by decide)).2.2 h32 rfl
      have hplant := hit_planted hdir hblocks
        (stringAt_iff.mp hpath.2.2).1 (m := m) (by
          simp only [pkeMaxAllowableRam, physTop, dramBase] at *
          omega)
      rcases hexact _ hsame with ⟨e, he, hs, -⟩ | ⟨-, hout⟩
      · exact hon ⟨e, he, (hentry hsame e he).mp hs⟩
      · exact lookup_hit (hpath' hsame) hl hfuel hblocks hsome hplant hout
  · intro hzero m' hsame
    have h32 : node.info.size < 32 := by
      simp only [entryCount, direntrySize] at hzero
      have := hdir.nonneg
      omega
    have hmiss : Missed m' node.info l := by
      intro i _ j hj
      rw [(entriesLeft_le hdir.nonneg hsize i.isLt).2.1 h32] at hj
      cases hj
    obtain ⟨es, m'', hrun⟩ := lookup_missed fs (hpath' hsame) hl hfuel hmiss
    refine Or.inr ⟨fun e he => ?_, m'', by rw [hrun]⟩
    rw [hzero] at he
    cases he

-- A disk as it is mounted: inode 1 is the root directory, whose one entry,
-- "/", is in block 12. The path "//" is at 0x80400000.

def rootInode (size : Int) : Inode :=
  { info := { size := size, type := tDir, nlinks := 1, blocks := 1
              addrs := fun _ => rfsBlknFree }
    inum := 1, ops := .dirops }

def mountedDisk : Mem :=
  let m := store (fun _ => 0) 4 (smallFs.block 1 + 4) tDir
  let m := store m 4 (smallFs.block rfsBlknFree) rfsBlknInode
  let m := store m 1 (smallFs.block rfsBlknFree + 4) 47
  store m 2 0x80400000 0x2f2f

theorem mountedDisk_path : StringAt mountedDisk 0x80400000 [47, 47] := by decide

/-- An empty directory has no file "/". -/
theorem lookup_exact_iff_empty :
    Exact smallFs (rootInode 0).info [47] mountedDisk
      (rfsLookup smallFs 2 (rootInode 0) 0x80400000 mountedDisk).2 := by
  have hdir : LaidOut smallFs mountedDisk (rootInode 0).info :=
    { nonneg := by decide
      direct := by decide
      room := by decide
      addrs := fun _ _ => (by decide : rfsBlknFree < ramdisk0Block)
      names := nofun
      inums := nofun
      types := nofun }
  exact (lookup_exact_iff smallFs 2 0x80400000 (rootInode 0) mountedDisk [47] hdir
    (by decide) ⟨by decide, by decide⟩ mountedDisk_path (by decide)
    (by decide)).mpr rfl mountedDisk fun _ _ => rfl

/-- The root directory has one, and the lookup does not find it. -/
theorem root_entry_not_found :
    LaidOut smallFs mountedDisk (rootInode 32).info ∧
    StringAt mountedDisk (entryAddr smallFs (rootInode 32).info 0 + 4) [47] ∧
    ∃ es m', rfsLookup smallFs 2 (rootInode 32) 0x80400000 mountedDisk
      = (es, .ok (1, none) m') := by
  have hone : ∀ {P : Nat → Prop}, P 0 → ∀ e < entryCount (rootInode 32).info, P e := by
    intro P h e he
    obtain rfl : e = 0 := Nat.lt_one_iff.mp he
    exact h
  have hdir : LaidOut smallFs mountedDisk (rootInode 32).info :=
    { nonneg := by decide
      direct := by decide
      room := by decide
      addrs := fun _ _ => (by decide : rfsBlknFree < ramdisk0Block)
      names := hone ⟨[47], by decide, by decide⟩
      inums := hone (by decide)
      types := hone (by decide) }
  exact ⟨hdir, by decide, [], mountedDisk, rfl⟩

end Pke.Rfs
