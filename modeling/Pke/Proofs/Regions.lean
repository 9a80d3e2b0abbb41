/-
Region tables: what `mapped_info` says about a page table.

`Regions` relates a page table to the table of recorded regions that
`do_fork`, `do_wait` and `realloc_process` steer by: every page of a
recorded region is mapped, to a frame its segment type may have, and
every mapped page is recorded or one of the `extra` leaves the caller
accounts for. Pages that are mapped and not recorded yet, heap pages and
fault pages are extra leaves.

The two edits the kernel makes are proved once: mapping a page adds an
extra leaf (`Regions.map`), writing the next free entry of the table
turns extra leaves into recorded ones (`Regions.record`).
-/
import Pke.Proofs.Vmm
import Pke.Model.Process

namespace Pke

open ByteMem Traced

-- ==== entries in memory

/-- Memory after recording a region in entry `j`. -/
def regionStore (m : Mem) (base j va npages seg : Nat) : Mem :=
  store (store (store m 8 (base + 16 * j) va) 4 (base + 16 * j + 8) npages)
    4 (base + 16 * j + 12) seg

variable {bad : Event → Prop} {E : Halt → Kernel → Prop}
variable {s s' : Kernel} {own own' : Nat → Owner} {fl fl' : List Nat}
variable {m m' : Mem} {base va : Nat}

theorem regionAt_agree {k : Nat} (hag : Agree m m' base (base + 4096))
    (hk : k < maxRegions) : regionAt m' base k = regionAt m base k := by
  simp only [maxRegions] at hk
  have h8 : load m' 8 (base + 16 * k) = load m 8 (base + 16 * k) :=
    load_agree (hag.mono (by omega) (by omega))
  have h4 : ∀ d, d ≤ 12 → load m' 4 (base + 16 * k + d)
      = load m 4 (base + 16 * k + d) := fun d hd =>
    load_agree (hag.mono (by omega) (by omega))
  unfold regionAt
  rw [h8, h4 8 (by decide), h4 12 (by decide)]

theorem regionAt_store_self {j va np seg : Nat} (hva : va < 2 ^ 64)
    (hnp : np < 2 ^ 32) (hseg : seg < 2 ^ 32) :
    regionAt (regionStore m base j va np seg) base j = ⟨va, np, seg⟩ := by
  have h1 : load (regionStore m base j va np seg) 8 (base + 16 * j) = va := by
    unfold regionStore
    rw [load_agree (store_agree _ (by omega)),
      load_agree (store_agree _ (by omega)), load_store]
    exact Nat.mod_eq_of_lt hva
  have h2 : load (regionStore m base j va np seg) 4 (base + 16 * j + 8)
      = np := by
    unfold regionStore
    rw [load_agree (store_agree _ (by omega)), load_store]
    exact Nat.mod_eq_of_lt hnp
  have h3 : load (regionStore m base j va np seg) 4 (base + 16 * j + 12)
      = seg := by
    unfold regionStore
    rw [load_store]
    exact Nat.mod_eq_of_lt hseg
  unfold regionAt
  rw [h1, h2, h3]

theorem regionAt_store_ne {j k va np seg : Nat} (hne : k ≠ j) :
    regionAt (regionStore m base j va np seg) base k = regionAt m base k := by
  have hload : ∀ n d, d + n ≤ 16 →
      load (regionStore m base j va np seg) n (base + 16 * k + d)
        = load m n (base + 16 * k + d) := by
    intro n d hd
    unfold regionStore
    rw [load_agree (store_agree _ (by omega)),
      load_agree (store_agree _ (by omega)),
      load_agree (store_agree _ (by omega))]
  have h0 := hload 8 0 (by decide)
  rw [Nat.add_zero] at h0
  unfold regionAt
  rw [h0, hload 4 8 (by decide), hload 4 12 (by decide)]

theorem within_regionStore {j va np seg : Nat} (hj : j < maxRegions) :
    Within m (regionStore m base j va np seg) base := by
  simp only [maxRegions] at hj
  have h1 : Within m (store m 8 (base + 16 * j) va) base :=
    within_store (by omega) (by omega)
  refine (h1.trans (within_store ?_ ?_)).trans (within_store ?_ ?_)
  · omega
  · omega
  · omega
  · omega

@[simp] theorem wp_setRegion {j va np : Nat} {seg : SegType}
    {Q : Unit → Kernel → Prop} :
    Wp bad E (setRegion base j va np seg) Q s
      ↔ Q () { s with mem := regionStore s.mem base j va np seg.word } := by
  simp only [setRegion, sd, sw, onMem, wp_bind, wp_modify]
  rfl

theorem SegType.word_lt (seg : SegType) : seg.word < 2 ^ 32 := by
  cases seg <;> decide

theorem SegType.ofWord_word (seg : SegType) :
    SegType.ofWord seg.word = some seg := by
  cases seg <;> rfl

-- ==== the table

/-- A region covers the page of `va`. -/
def MappedRegion.Covers (r : MappedRegion) (va : Nat) : Prop :=
  inPages r.va r.npages va

/-- The frame a page of a segment of process `i` may have. Code frames
are private until a fork shares them; the trap section is not a page of
the pool. -/
def SegType.Holds (i v : Nat) (o : Owner) : SegType → Prop
  | .code => o = .frame i v ∨ o = .code
  | .system => True
  | _ => o = .frame i v

/-- `lookup_pa` accepts the leaf. -/
def Readable (w : Nat) : Prop := w &&& pteR ≠ 0 ∨ w &&& pteW ≠ 0

/-- User mode may write to the page. -/
def UserWritable (w : Nat) : Prop := w &&& pteU ≠ 0 ∧ w &&& pteW ≠ 0

instance (w : Nat) : Decidable (UserWritable w) :=
  inferInstanceAs (Decidable (_ ∧ _))

theorem UserWritable.flags {w : Nat} (hu : UserWritable w) :
    pteFlags w ≠ pteV := by
  intro hflags
  have hbit : w &&& pteU = pteFlags w &&& pteU := by
    unfold pteFlags
    rw [Nat.and_assoc]
    rfl
  rw [hflags] at hbit
  exact hu.1 hbit

/-- The leaf of page `v` of a segment: readable, its frame of the right
kind; the pages that serve the kernel sit at their physical address and
are not for user mode, all others are, for writing too. -/
structure RegionLeaf (own : Nat → Owner) (i : Nat) (seg : SegType)
    (v w : Nat) : Prop where
  readable : Readable w
  owner : seg.Holds i v (own (pte2pa w))
  kernel : seg = .context ∨ seg = .system →
    pte2pa w = v * pgSize ∧ w &&& pteU = 0
  user : ¬ (seg = .context ∨ seg = .system) → UserWritable w

/-- The first `n` entries of the table at `info` are page-aligned,
in range and pairwise disjoint; the other entries are zero. -/
structure RegionTable (m : Mem) (info n : Nat) : Prop where
  count : n ≤ maxRegions
  kind : ∀ k < n, ∃ seg : SegType, (regionAt m info k).segType = seg.word
  aligned : ∀ k < n, (regionAt m info k).va % pgSize = 0
  bounded : ∀ k < n, (regionAt m info k).va
    + (regionAt m info k).npages * pgSize ≤ maxVa
  disjoint : ∀ j < n, ∀ k < n, ∀ va, (regionAt m info j).Covers va →
    (regionAt m info k).Covers va → j = k
  blank : ∀ k, n ≤ k → k < maxRegions → regionAt m info k = ⟨0, 0, 0⟩

/-- The table at `info` describes the page table at `root`, up to
`extra` leaves. -/
structure Regions (m : Mem) (own : Nat → Owner) (i root info n : Nat)
    (extra : Nat → Nat → Prop) : Prop where
  tables : Tables m own i root
  owner : own info = .regions i
  table : RegionTable m info n
  mapped : ∀ k < n, ∀ seg : SegType, (regionAt m info k).segType = seg.word →
    ∀ va, (regionAt m info k).Covers va →
      ∃ w, leaf m root va = some w ∧ RegionLeaf own i seg (va / pgSize) w
  leaves : ∀ va w, va < 2 ^ 39 → leaf m root va = some w →
    (∃ k < n, (regionAt m info k).Covers va) ∨ extra (va / pgSize) w

variable {i root info n : Nat} {extra extra' : Nat → Nat → Prop}

theorem RegionTable.covers_lt (h : RegionTable m info n) {k : Nat}
    (hk : k < n) (hc : (regionAt m info k).Covers va) : va < maxVa := by
  have hb := h.bounded k hk
  have ha := h.aligned k hk
  unfold MappedRegion.Covers inPages at hc
  simp only [pgSize] at hb ha
  omega

/-- A region table is its entries. -/
theorem RegionTable.congr_entries (h : RegionTable m info n)
    (he : ∀ k < maxRegions, regionAt m' info k = regionAt m info k) :
    RegionTable m' info n := by
  have hat : ∀ k < n, regionAt m' info k = regionAt m info k := fun k hk =>
    he k (Nat.lt_of_lt_of_le hk h.count)
  refine ⟨h.count, fun k hk => ?_, fun k hk => ?_, fun k hk => ?_,
    fun j hj k hk va hcj hck => ?_, fun k hnk hk => ?_⟩
  · rw [hat k hk]
    exact h.kind k hk
  · rw [hat k hk]
    exact h.aligned k hk
  · rw [hat k hk]
    exact h.bounded k hk
  · rw [hat j hj] at hcj
    rw [hat k hk] at hck
    exact h.disjoint j hj k hk va hcj hck
  · rw [he k hk]
    exact h.blank k hnk hk

theorem RegionTable.agree (h : RegionTable m info n)
    (hag : Agree m m' info (info + 4096)) : RegionTable m' info n :=
  h.congr_entries fun _ hk => regionAt_agree hag hk

/-- The owner of a recorded frame survives any relabelling that spares
the frames of the process and the shared code. -/
theorem RegionLeaf.relabel {seg : SegType} {v w : Nat}
    (h : RegionLeaf own i seg v w)
    (hown : ∀ p, (∃ u, own p = .frame i u) ∨ own p = .code →
      own' p = own p) : RegionLeaf own' i seg v w where
  readable := h.readable
  owner := by
    have ho := h.owner
    cases seg with
    | code =>
        have hsame : own' (pte2pa w) = own (pte2pa w) := by
          apply hown
          exact ho.imp (fun hf => ⟨v, hf⟩) id
        show own' (pte2pa w) = _ ∨ own' (pte2pa w) = _
        rw [hsame]
        exact ho
    | system => trivial
    | data => exact (hown _ (Or.inl ⟨v, ho⟩)).trans ho
    | stack => exact (hown _ (Or.inl ⟨v, ho⟩)).trans ho
    | context => exact (hown _ (Or.inl ⟨v, ho⟩)).trans ho
  kernel := h.kernel
  user := h.user

/-- The relation carries over to a memory with the same region page, in
which the recorded leaves are still there and every other leaf is
accounted for. -/
theorem Regions.transfer (hR : Regions m own i root info n extra)
    (htab : Tables m' own' i root) (hinfo : own' info = .regions i)
    (hag : Agree m m' info (info + 4096))
    (hown : ∀ p, (∃ u, own p = .frame i u) ∨ own p = .code →
      own' p = own p)
    (hkeep : ∀ va w, va < 2 ^ 39 → leaf m root va = some w →
      (∃ k < n, (regionAt m info k).Covers va) → leaf m' root va = some w)
    (hnew : ∀ va w, va < 2 ^ 39 → leaf m' root va = some w →
      leaf m root va = some w ∧ (extra (va / pgSize) w → extra' (va / pgSize) w)
        ∨ extra' (va / pgSize) w) :
    Regions m' own' i root info n extra' := by
  have hat : ∀ k < n, regionAt m' info k = regionAt m info k := fun k hk =>
    regionAt_agree hag (Nat.lt_of_lt_of_le hk hR.table.count)
  refine ⟨htab, hinfo, hR.table.agree hag, ?_, ?_⟩
  · intro k hk seg hseg va hc
    rw [hat k hk] at hseg hc
    have hva : va < 2 ^ 39 := Nat.lt_trans (hR.table.covers_lt hk hc) (by decide)
    obtain ⟨w, hw, hl⟩ := hR.mapped k hk seg hseg va hc
    exact ⟨w, hkeep va w hva hw ⟨k, hk, hc⟩, hl.relabel hown⟩
  · intro va w hva hw
    rcases hnew va w hva hw with ⟨hold, hex⟩ | he
    · rcases hR.leaves va w hva hold with ⟨k, hk, hc⟩ | he
      · refine Or.inl ⟨k, hk, ?_⟩
        rw [hat k hk]
        exact hc
      · exact Or.inr (hex he)
    · exact Or.inr he

/-- The relation depends on the tables, the region page, and the owners
of the recorded frames. -/
theorem Regions.congr (hR : Regions m own i root info n extra)
    (hown : ∀ p, (∃ u, own p = .frame i u) ∨ own p = .code →
      own' p = own p)
    (htab : ∀ path t, own t = .table i path →
      own' t = .table i path ∧ Agree m m' t (t + 4096))
    (hreg : own' info = .regions i ∧ Agree m m' info (info + 4096))
    (hextra : ∀ v w, extra v w → extra' v w) :
    Regions m' own' i root info n extra' := by
  have hleaf : ∀ va, leaf m' root va = leaf m root va := fun va =>
    leaf_congr hR.tables fun path t ht => (htab path t ht).2
  apply hR.transfer _ hreg.1 hreg.2 hown
  · intro va w _ hw _
    exact (hleaf va).trans hw
  · intro va w _ hw
    rw [hleaf va] at hw
    exact Or.inl ⟨hw, hextra _ _⟩
  · exact hR.tables.congr (fun path t ht => (htab path t ht).2)
      fun path t ht => (htab path t ht).1

theorem Regions.mono (hR : Regions m own i root info n extra)
    (hextra : ∀ v w, extra v w → extra' v w) :
    Regions m own i root info n extra' :=
  { hR with
    leaves := fun va w hva hw => (hR.leaves va w hva hw).imp_right
      (hextra _ _) }

-- ==== edits

theorem inPages_one {a : Nat} : inPages va 1 a ↔ a / 4096 = va / 4096 := by
  unfold inPages
  omega

theorem inPages_add {a k : Nat} (hal : a % pgSize = 0) (hk : k < n) :
    inPages a n (a + k * pgSize) := by
  unfold inPages
  simp only [pgSize] at hal ⊢
  omega

theorem page_add {a k : Nat} (hal : a % pgSize = 0) :
    (a + k * pgSize) / pgSize = a / pgSize + k := by
  simp only [pgSize] at hal ⊢
  omega

/-- The leaves after mapping one page. -/
theorem Mapped.one {pa perm a : Nat} (h : Mapped va pa perm 1 root m m')
    (ha : a < 2 ^ 39) : leaf m' root a =
      if a / 4096 = va / 4096 then some (pa2pte pa ||| perm ||| pteV)
      else leaf m root a := by
  rw [h.leaves a ha]
  by_cases hpage : a / 4096 = va / 4096
  · rw [if_pos (inPages_one.mpr hpage), if_pos hpage, hpage, Nat.sub_self,
      Nat.zero_mul, Nat.add_zero]
  · rw [if_neg fun hin => hpage (inPages_one.mp hin), if_neg hpage]

/-- Growing the tree keeps what is in use. -/
theorem Grown.keep_used {N : List (Fin 512) → Prop}
    (hg : Grown i root N s own fl s' own' fl') {o : Owner} {p : Nat}
    (hp : own p = o) (ho : o ≠ .free) : own' p = o := by
  rw [hg.keep p (by rw [hp]; exact ho)]
  exact hp

/-- Mapping a page adds an extra leaf. -/
theorem Regions.map {N : List (Fin 512) → Prop} {pa perm : Nat}
    (hR : Regions s.mem own i root info n extra) (hh : Heap s own fl)
    (hg : Grown i root N s own fl s' own' fl')
    (hm : Mapped va pa perm 1 root s.mem s'.mem) :
    Regions s'.mem own' i root info n (fun v w => extra v w ∨
      (v = va / pgSize ∧ w = pa2pte pa ||| perm ||| pteV)) := by
  have hused : own info ≠ .free := by rw [hR.owner]; exact Owner.noConfusion
  have hpage : PageIn s info :=
    hh.page info (by rw [hR.owner]; exact Owner.noConfusion)
  apply hR.transfer hg.tables (hg.keep_used hR.owner Owner.noConfusion)
  · apply hg.agree info hpage.aligned hused
    intro path
    rw [hR.owner]
    exact Owner.noConfusion
  · intro p hp
    apply hg.keep
    rcases hp with ⟨u, hu⟩ | hu
    · rw [hu]; exact Owner.noConfusion
    · rw [hu]; exact Owner.noConfusion
  · intro a w ha hw _
    -- a page that was mapped before is not the new one
    have hold : a / 4096 ≠ va / 4096 := by
      intro hpage
      rw [hm.unmapped a ha (inPages_one.mpr hpage)] at hw
      cases hw
    rw [hm.one ha, if_neg hold]
    exact hw
  · intro a w ha hw
    rw [hm.one ha] at hw
    by_cases hpage : a / 4096 = va / 4096
    · rw [if_pos hpage] at hw
      exact Or.inr (Or.inr ⟨hpage, (Option.some.inj hw).symm⟩)
    · rw [if_neg hpage] at hw
      exact Or.inl ⟨hw, Or.inl⟩

theorem segType_word_inj {a b : SegType} (h : a.word = b.word) : a = b := by
  have hof := congrArg SegType.ofWord h
  rw [SegType.ofWord_word, SegType.ofWord_word] at hof
  exact Option.some.inj hof

section Record

variable {a j np : Nat} {seg : SegType}

/-- Entry `k` after a region was recorded in entry `j`, of a table that
counts one more entry now. -/
theorem RegionTable.entry (h : RegionTable m info n) (j : Nat)
    (seg : SegType) (ha : a < 2 ^ 64) (hnp : np < 2 ^ 32)
    (hn : n < maxRegions) {k : Nat} (hk : k < n + 1) :
    (k = j ∧ regionAt (regionStore m info j a np seg.word) info k
        = ⟨a, np, seg.word⟩) ∨
    (k ≠ j ∧ k < n ∧ regionAt (regionStore m info j a np seg.word) info k
        = regionAt m info k) ∨
    (k ≠ j ∧ k = n ∧ regionAt (regionStore m info j a np seg.word) info k
        = ⟨0, 0, 0⟩) := by
  by_cases hkj : k = j
  · rw [hkj]
    exact Or.inl ⟨rfl, regionAt_store_self ha hnp seg.word_lt⟩
  · rw [regionAt_store_ne hkj]
    by_cases hkn : k = n
    · refine Or.inr (Or.inr ⟨hkj, hkn, ?_⟩)
      exact h.blank k (Nat.le_of_eq hkn.symm) (by omega)
    · exact Or.inr (Or.inl ⟨hkj, by omega, rfl⟩)

theorem not_covers_zero : ¬ (⟨0, 0, 0⟩ : MappedRegion).Covers va :=
  not_inPages_zero 0 va

/-- The loader and `do_fork` record a region in the first entry that
looks unused: the next one, or an earlier one that is then lost. -/
theorem RegionTable.record (h : RegionTable m info n) (hn : n < maxRegions)
    (hj : j ≤ n) (haligned : a % pgSize = 0) (hbound : a + np * pgSize ≤ maxVa)
    (hdis : ∀ k < n, k ≠ j → ∀ va, (regionAt m info k).Covers va →
      ¬ inPages a np va) :
    RegionTable (regionStore m info j a np seg.word) info (n + 1) := by
  have ha : a < 2 ^ 64 := by
    simp only [pgSize, maxVa] at hbound
    omega
  have hnp : np < 2 ^ 32 := by
    simp only [pgSize, maxVa] at hbound
    omega
  refine ⟨hn, ?_, ?_, ?_, ?_, ?_⟩
  · intro k hk
    rcases h.entry j seg ha hnp hn hk with
      ⟨_, he⟩ | ⟨_, hkn, he⟩ | ⟨_, _, he⟩
    · rw [he]
      exact ⟨seg, rfl⟩
    · rw [he]
      exact h.kind k hkn
    · rw [he]
      exact ⟨.code, rfl⟩
  · intro k hk
    rcases h.entry j seg ha hnp hn hk with
      ⟨_, he⟩ | ⟨_, hkn, he⟩ | ⟨_, _, he⟩
    · rw [he]
      exact haligned
    · rw [he]
      exact h.aligned k hkn
    · rw [he]
      exact Nat.zero_mod _
  · intro k hk
    rcases h.entry j seg ha hnp hn hk with
      ⟨_, he⟩ | ⟨_, hkn, he⟩ | ⟨_, _, he⟩
    · rw [he]
      exact hbound
    · rw [he]
      exact h.bounded k hkn
    · rw [he]
      decide
  · intro k hk l hl va hck hcl
    rcases h.entry j seg ha hnp hn hk with
      ⟨hkj, he⟩ | ⟨hkj, hkn, he⟩ | ⟨_, _, he⟩
    · rw [he] at hck
      rcases h.entry j seg ha hnp hn hl with
        ⟨hlj, he'⟩ | ⟨hlj, hln, he'⟩ | ⟨_, _, he'⟩
      · rw [hkj, hlj]
      · rw [he'] at hcl
        exact absurd hck (hdis l hln hlj va hcl)
      · rw [he'] at hcl
        exact absurd hcl not_covers_zero
    · rw [he] at hck
      rcases h.entry j seg ha hnp hn hl with
        ⟨_, he'⟩ | ⟨_, hln, he'⟩ | ⟨_, _, he'⟩
      · rw [he'] at hcl
        exact absurd hcl (hdis k hkn hkj va hck)
      · rw [he'] at hcl
        exact h.disjoint k hkn l hln va hck hcl
      · rw [he'] at hcl
        exact absurd hcl not_covers_zero
    · rw [he] at hck
      exact absurd hck not_covers_zero
  · intro k hnk hk
    rw [regionAt_store_ne (by omega)]
    exact h.blank k (by omega) hk

/-- Recording a region whose pages are mapped already. -/
theorem Regions.record (hR : Regions m own i root info n extra)
    (hal : ∀ (p : Nat), (∃ path, own p = .table i path) ∨ p = info →
      p % pgSize = 0)
    (hn : n < maxRegions) (hj : j ≤ n) (haligned : a % pgSize = 0)
    (hbound : a + np * pgSize ≤ maxVa)
    (hdis : ∀ k < n, k ≠ j → ∀ va, (regionAt m info k).Covers va →
      ¬ inPages a np va)
    (hmapped : ∀ va, inPages a np va → ∃ w, leaf m root va = some w ∧
      RegionLeaf own i seg (va / pgSize) w)
    (hextra : ∀ va w, va < 2 ^ 39 → leaf m root va = some w →
      extra (va / pgSize) w ∨ (j < n ∧ (regionAt m info j).Covers va) →
      ¬ inPages a np va → extra' (va / pgSize) w) :
    Regions (regionStore m info j a np seg.word) own i root info (n + 1)
      extra' := by
  have ha : a < 2 ^ 64 := by
    simp only [pgSize, maxVa] at hbound
    omega
  have hnp : np < 2 ^ 32 := by
    simp only [pgSize, maxVa] at hbound
    omega
  have hw : Within m (regionStore m info j a np seg.word) info :=
    within_regionStore (Nat.lt_of_le_of_lt hj hn)
  have htab : ∀ path t, own t = .table i path →
      Agree m (regionStore m info j a np seg.word) t (t + 4096) := by
    intro path t ht
    apply hw.agree (hal t (Or.inl ⟨path, ht⟩)) (hal info (Or.inr rfl))
    intro heq
    rw [heq, hR.owner] at ht
    cases ht
  have hleaf : ∀ va, leaf (regionStore m info j a np seg.word) root va
      = leaf m root va := fun va => leaf_congr hR.tables htab
  refine ⟨hR.tables.congr htab fun _ _ ht => ht, hR.owner,
    hR.table.record hn hj haligned hbound hdis, ?_, ?_⟩
  · intro k hk seg' hseg va hc
    rw [hleaf va]
    rcases hR.table.entry j seg ha hnp hn hk with
      ⟨_, he⟩ | ⟨_, hkn, he⟩ | ⟨_, _, he⟩
    · rw [he] at hseg hc
      rw [← segType_word_inj hseg]
      exact hmapped va hc
    · rw [he] at hseg hc
      exact hR.mapped k hkn seg' hseg va hc
    · rw [he] at hc
      exact absurd hc not_covers_zero
  · intro va w hva hw
    rw [hleaf va] at hw
    by_cases hin : inPages a np va
    · refine Or.inl ⟨j, by omega, ?_⟩
      rw [regionAt_store_self ha hnp seg.word_lt]
      exact hin
    · rcases hR.leaves va w hva hw with ⟨k, hk, hc⟩ | he
      · by_cases hkj : k = j
        · rw [hkj] at hk hc
          exact Or.inr (hextra va w hva hw (Or.inr ⟨hk, hc⟩) hin)
        · refine Or.inl ⟨k, by omega, ?_⟩
          rw [regionAt_store_ne hkj]
          exact hc
      · exact Or.inr (hextra va w hva hw (Or.inl he) hin)

end Record

-- ==== counting pages

/-- The pages of the first `d` regions of a table. -/
def pagesUpTo (m : Mem) (info d : Nat) : Nat :=
  ((List.range d).map fun k => (regionAt m info k).npages).sum

theorem pagesUpTo_succ (m : Mem) (info d : Nat) :
    pagesUpTo m info (d + 1)
      = pagesUpTo m info d + (regionAt m info d).npages := by
  unfold pagesUpTo
  rw [List.range_succ, List.map_append, List.sum_append, List.map_singleton,
    List.sum_singleton]

theorem pagesUpTo_mono (m : Mem) (info : Nat) {d e : Nat} (h : d ≤ e) :
    pagesUpTo m info d ≤ pagesUpTo m info e := by
  induction e with
  | zero => rw [Nat.le_zero.mp h]
  | succ e ih =>
      by_cases hde : d = e + 1
      · rw [hde]
      · rw [pagesUpTo_succ]
        exact Nat.le_trans (ih (by omega)) (Nat.le_add_right _ _)

theorem pagesUpTo_congr {m m' : Mem} {info info' n : Nat}
    (h : ∀ k < n, (regionAt m' info' k).npages = (regionAt m info k).npages) :
    pagesUpTo m' info' n = pagesUpTo m info n := by
  unfold pagesUpTo
  congr 1
  apply List.map_congr_left
  intro k hk
  rw [h k (List.mem_range.mp hk)]

end Pke
