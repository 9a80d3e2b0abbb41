/-
The region table of an image.

The loader looks for the first entry whose address is 0 and counts the
regions separately. `elf_load_records_iff` says when the two stay in step:
every segment is then recorded in the next entry, with the pages mapped
for it, and what is recorded can be unmapped again (`Booked`).
-/
import Pke.Proofs.Image
import Pke.Proofs.Release

namespace Pke

open ByteMem Traced

variable {cfg : Config} {s s' s₁ : Kernel} {own own' own₁ : Nat → Owner}
variable {fl fl' : List Nat} {i : Slot} {root va pa n : Nat}
variable {f : HostFile} {ph : ElfProgHeader}

-- ==== bookkeeping

/-- The segment was recorded in entry `k` of the table and nowhere else,
and the pages mapped for it are those of the entry. -/
structure RecordedAs (i : Slot) (k : Nat) (l : SegmentLoad) : Prop where
  bound : k < maxRegions
  entry : regionAt l.post.mem (l.post.procs i).mappedInfo k
    = ⟨l.ph.vaddr, 1, l.ph.segment.word⟩
  others : ∀ k' < maxRegions, k' ≠ k →
    regionAt l.post.mem (l.post.procs i).mappedInfo k'
      = regionAt l.pre.mem (l.pre.procs i).mappedInfo k'
  pages : ∀ va, (va < maxVa ∧ leaf l.pre.mem (l.pre.procs i).pagetable va = none ∧
      leaf l.post.mem (l.post.procs i).pagetable va ≠ none)
    ↔ (regionAt l.post.mem (l.post.procs i).mappedInfo k).Covers va

/-- The segments were recorded one after the other from entry `k` on. -/
def RecordedFrom (i : Slot) : Nat → List SegmentLoad → Prop
  | _, [] => True
  | k, l :: run => RecordedAs i k l ∧ RecordedFrom i (k + 1) run

/-- The regions recorded for `n` segments can be unmapped, one by one and
all of them, and an unmapping clears the pages of its region. -/
structure Unmappable (i : Slot) (n : Nat) (s : Kernel) : Prop where
  each : ∀ k, 3 ≤ k → k < 3 + n →
    Returns (freeRegion (s.procs i).pagetable
        (regionAt s.mem (s.procs i).mappedInfo k))
      (fun _ s' => ∀ va,
        (regionAt s.mem (s.procs i).mappedInfo k).Covers va →
        leaf s'.mem (s.procs i).pagetable va = none) s
  all : Returns (freeRegions i) (fun _ _ => True) s

/-- From entry `k` on the region table is blank. -/
def BlankFrom (k : Nat) (m : Mem) (info : Nat) : Prop :=
  ∀ k', k ≤ k' → k' < maxRegions → regionAt m info k' = ⟨0, 0, 0⟩

/-- Segments that were recorded in order are page-aligned, and the table
had the entries for them. -/
theorem LoadRun.aligned_of_recorded {run : List SegmentLoad}
    (hrun : LoadRun f i s run s') :
    ∀ own fl k, Heap s own fl → Tables s.mem own i (s.procs i).pagetable →
      own (s.procs i).mappedInfo = .regions i →
      BlankFrom k s.mem (s.procs i).mappedInfo → k ≤ maxRegions →
      RecordedFrom i k run → (∀ l ∈ run, l.ph.vaddr < 2 ^ 64) →
      k + run.length ≤ maxRegions ∧
      (run ≠ [] → freeRegionIndex s.mem (s.procs i).mappedInfo = k) ∧
      (∀ ph ∈ run.map SegmentLoad.ph, ph.vaddr % pgSize = 0) ∧
      Holeless (run.map SegmentLoad.ph) := by
  induction hrun with
  | nil =>
      intro own fl k _ _ _ _ hk _ _
      exact ⟨hk, fun h => absurd rfl h, nofun, trivial⟩
  | cons hseg hrest ih =>
      rename_i s s₁ s' ph es run
      intro own fl k hh hT hinfo hblank _ hrec hvaddr
      obtain ⟨hthis, hrec⟩ := hrec
      have hk : k < maxRegions := hthis.bound
      have hzero : (regionAt s.mem (s.procs i).mappedInfo k).va = 0 := by
        rw [hblank k (Nat.le_refl _) hk]
      have hidx := freeRegionIndex_le hk hzero
      obtain ⟨pa, own₁, fl₁, hd, _⟩ := segmentDone_of_run hh hT hinfo rfl (by omega)
        (hvaddr _ List.mem_cons_self) hseg
      have hroot := hd.pagetable
      have htab := hd.mappedInfo
      have hentry := hthis.entry
      simp only [htab] at hentry
      -- the entry it was recorded in is the one the search found
      have hj : freeRegionIndex s.mem (s.procs i).mappedInfo = k := by
        by_contra hne
        rw [hd.entry k hk, if_neg (Ne.symm hne), hblank k (Nat.le_refl _) hk]
          at hentry
        exact absurd (congrArg MappedRegion.npages hentry) Nat.zero_ne_one
      have hpages : ∀ va, (va < maxVa ∧
          leaf s.mem (s.procs i).pagetable va = none ∧
          leaf s₁.mem (s.procs i).pagetable va ≠ none)
          ↔ va / 4096 = ph.vaddr / 4096 := by
        intro va
        have h := hthis.pages va
        simp only [htab, hroot, hentry] at h
        exact h.trans inPages_one
      have hva : ph.vaddr < maxVa := ((hpages ph.vaddr).mpr rfl).1
      have hal : ph.vaddr % pgSize = 0 := by
        by_contra hal
        have hle : ph.vaddr + pgSize ≤ 2 ^ 64 := by
          simp only [maxVa, pgSize] at *
          omega
        have htwo := imagePages_unaligned hal hle
        have hsecond := hd.range 1 (by simp only; omega)
        have h39 : ph.vaddr / 4096 * 4096 + 1 * pgSize < 2 ^ 39 :=
          Nat.lt_trans hsecond (by decide)
        have hin : ph.Spans (ph.vaddr / 4096 * 4096 + 1 * pgSize) := by
          unfold ElfProgHeader.Spans inPages
          simp only [pgSize]
          omega
        have hsame := (hpages _).mp ⟨hsecond, hd.mapped.unmapped _ h39 hin, by
          rw [hd.leaf h39, if_pos hin]
          exact Option.some_ne_none _⟩
        simp only [pgSize] at hsame
        omega
      have hinfo₁ : own₁ (s.procs i).mappedInfo = .regions i := by
        rw [hd.keep _ (by rw [hinfo]; exact Owner.noConfusion)]
        exact hinfo
      obtain ⟨hroom, hnext, halign, hhole⟩ := ih own₁ fl₁ (k + 1) hd.pages
        (by rw [hroot]; exact hd.tables) (by rw [htab]; exact hinfo₁)
        (fun k' hk' hlt => by
          rw [htab, hd.entry k' hlt, if_neg (by omega)]
          exact hblank k' (by omega) hlt)
        hk hrec (fun l hl => hvaddr l (List.mem_cons_of_mem _ hl))
      refine ⟨by rw [List.length_cons]; omega, fun _ => hj, ?_, ?_, hhole⟩
      · intro ph' hph
        rcases List.mem_cons.mp hph with rfl | hph
        · exact hal
        · exact halign ph' hph
      · -- an entry with address 0 would be found again
        intro hv0
        rw [List.map_eq_nil_iff]
        by_contra hne
        have hfound := hnext hne
        have hle : freeRegionIndex s₁.mem (s₁.procs i).mappedInfo ≤ k := by
          apply freeRegionIndex_le hk
          rw [htab, hentry]
          exact hv0
        omega

theorem ElfProgHeader.segment_kind (ph : ElfProgHeader) :
    ph.segment = .code ∨ ph.segment = .data := by
  unfold ElfProgHeader.segment
  by_cases h : ph.flags = segReadExec
  · exact Or.inl (if_pos h)
  · exact Or.inr (if_neg h)

/-- A process whose recorded regions are entries of one page each. -/
structure Booked (s : Kernel) (own : Nat → Owner) (fl : List Nat) (i : Slot)
    (k : Nat) : Prop where
  pages : Heap s own fl
  regions : Regions s.mem own i (s.procs i).pagetable (s.procs i).mappedInfo k
    fun _ _ => True
  single : ∀ k' < k,
    (regionAt s.mem (s.procs i).mappedInfo k').npages = 1
  image : ∀ k', 3 ≤ k' → k' < k → ∃ seg : SegType,
    (seg = .code ∨ seg = .data) ∧
    (regionAt s.mem (s.procs i).mappedInfo k').segType = seg.word
  total : (s.procs i).totalMappedRegion = k

/-- A page-aligned segment spans its page. -/
theorem ElfProgHeader.spans_aligned (ph : ElfProgHeader)
    (hal : ph.vaddr % pgSize = 0) (hva : ph.vaddr < 2 ^ 64) :
    ph.Spans va ↔ inPages ph.vaddr 1 va := by
  unfold ElfProgHeader.Spans inPages
  rw [imagePages_aligned hal hva, Nat.mul_div_cancel _ (by decide : 0 < 4096)]

theorem SegmentDone.below {j : Nat}
    (hd : SegmentDone f i ph pa j s own s' own' fl')
    (hal : ph.vaddr % pgSize = 0) (hva : ph.vaddr < 2 ^ 64) :
    ph.vaddr + pgSize ≤ maxVa := by
  have hone := imagePages_aligned hal hva
  have := hd.range 0 (by omega)
  simp only [pgSize, maxVa] at *
  omega

/-- The region of a segment at a page-aligned address, recorded in the
next entry. -/
theorem Booked.record {k : Nat} {fl₁ : List Nat} (hb : Booked s own fl i k)
    (hd : SegmentDone f i ph pa k s own s₁ own₁ fl₁) (hk : k < maxRegions)
    (hal : ph.vaddr % pgSize = 0) (hva : ph.vaddr < 2 ^ 64) :
    Booked s₁ own₁ fl₁ i (k + 1) := by
  have hroot := hd.pagetable
  have htab := hd.mappedInfo
  have hmax := hd.below hal hva
  have hspan : ∀ va, ph.Spans va ↔ inPages ph.vaddr 1 va := fun va =>
    ph.spans_aligned hal hva
  have hpage : PageIn s₁ pa :=
    hd.pages.page pa (by rw [hd.frame]; exact Owner.noConfusion)
  have hlt := hpage.lt hd.pages
  -- pages recorded before are not pages of the segment
  have hold : ∀ va w, va < 2 ^ 39 →
      leaf s.mem (s.procs i).pagetable va = some w → ¬ ph.Spans va := by
    intro va w h39 hw hin
    rw [hd.mapped.unmapped va h39 hin] at hw
    cases hw
  have hcovers : ∀ k' < k, ∀ va,
      (regionAt s.mem (s.procs i).mappedInfo k').Covers va → va < 2 ^ 39 :=
    fun k' hk' va hc =>
      Nat.lt_trans (hb.regions.table.covers_lt hk' hc) (by decide)
  have hentries : ∀ k' < maxRegions, regionAt s₁.mem (s.procs i).mappedInfo k'
      = regionAt (regionStore s.mem (s.procs i).mappedInfo k ph.vaddr 1
        ph.segment.word) (s.procs i).mappedInfo k' := by
    intro k' hk'
    rw [hd.entry k' hk']
    by_cases heq : k' = k
    · rw [if_pos heq, heq, regionAt_store_self hva (by decide) ph.segment.word_lt]
    · rw [if_neg heq, regionAt_store_ne heq]
  have htable : RegionTable s₁.mem (s.procs i).mappedInfo (k + 1) := by
    refine RegionTable.congr_entries ?_ hentries
    apply hb.regions.table.record hk (Nat.le_refl k) hal (by omega)
    intro k' hk' _ va hc hin
    obtain ⟨seg, hseg⟩ := hb.regions.table.kind k' hk'
    obtain ⟨w, hw, -⟩ := hb.regions.mapped k' hk' seg hseg va hc
    exact hold va w (hcovers k' hk' va hc) hw ((hspan va).mpr hin)
  have hcase : ∀ k' < k + 1, (k' = k ∧ regionAt s₁.mem (s.procs i).mappedInfo k'
      = ⟨ph.vaddr, 1, ph.segment.word⟩) ∨ (k' < k ∧
      regionAt s₁.mem (s.procs i).mappedInfo k'
        = regionAt s.mem (s.procs i).mappedInfo k') := by
    intro k' hk'
    rw [hd.entry k' (by omega)]
    by_cases heq : k' = k
    · exact Or.inl ⟨heq, if_pos heq⟩
    · exact Or.inr ⟨by omega, if_neg heq⟩
  refine ⟨hd.pages, ⟨?_, ?_, ?_, ?_, ?_⟩, ?_, ?_, ?_⟩
  · rw [hroot]
    exact hd.tables
  · rw [htab, hd.keep _ (by rw [hb.regions.owner]; exact Owner.noConfusion)]
    exact hb.regions.owner
  · rw [htab]
    exact htable
  · rw [htab, hroot]
    intro k' hk' seg hseg va hc
    rcases hcase k' hk' with ⟨rfl, he⟩ | ⟨hlt', he⟩
    · rw [he] at hseg hc
      have h39 : va < 2 ^ 39 := by
        have := inPages_one.mp hc
        simp only [maxVa, pgSize] at *
        omega
      have hv : va / pgSize = ph.vaddr / pgSize := inPages_one.mp hc
      refine ⟨_, by rw [hd.leaf h39, if_pos ((hspan va).mpr hc)], ?_⟩
      unfold imageEntry
      rw [show va / 4096 = ph.vaddr / 4096 from hv, Nat.sub_self, Nat.zero_mul,
        Nat.add_zero, ← segType_word_inj hseg]
      apply regionLeaf_entry hpage.aligned (by omega) (by decide) (by decide)
      · exact ElfProgHeader.segment_holds hd.frame
      · exact fun h => absurd h ph.segment_user
      · exact fun _ => by decide
    · rw [he] at hseg hc
      obtain ⟨w, hw, hleaf⟩ := hb.regions.mapped k' hlt' seg hseg va hc
      have h39 := hcovers k' hlt' va hc
      refine ⟨w, by rw [hd.leaf h39, if_neg (hold va w h39 hw)]; exact hw, ?_⟩
      apply hleaf.relabel
      intro p hp
      apply hd.keep
      rcases hp with ⟨u, hu⟩ | hu
      · rw [hu]; exact Owner.noConfusion
      · rw [hu]; exact Owner.noConfusion
  · rw [htab, hroot]
    intro va w h39 hw
    by_cases hin : ph.Spans va
    · refine Or.inl ⟨k, Nat.lt_succ_self k, ?_⟩
      rw [hd.entry k hk, if_pos rfl]
      exact (hspan va).mp hin
    · rw [hd.leaf h39, if_neg hin] at hw
      rcases hb.regions.leaves va w h39 hw with ⟨k', hk', hc⟩ | hno
      · refine Or.inl ⟨k', by omega, ?_⟩
        rw [hd.entry k' (by omega), if_neg (by omega)]
        exact hc
      · exact Or.inr hno
  · rw [htab]
    intro k' hk'
    rcases hcase k' hk' with ⟨-, he⟩ | ⟨hlt', he⟩
    · rw [he]
    · rw [he]
      exact hb.single k' hlt'
  · rw [htab]
    intro k' h3 hk'
    rcases hcase k' hk' with ⟨-, he⟩ | ⟨hlt', he⟩
    · rw [he]
      exact ⟨ph.segment, ph.segment_kind, rfl⟩
    · rw [he]
      exact hb.image k' h3 hlt'
  · rw [hd.slot, ← hb.total]

/-- What the process has recorded can be unmapped. -/
theorem Booked.unmappable (hb : Booked s own fl i (3 + n)) :
    Unmappable i n s := by
  have hsmall : ∀ k < 3 + n,
      (regionAt s.mem (s.procs i).mappedInfo k).npages * pgSize < 2 ^ 32 := by
    intro k hk
    rw [hb.single k hk]
    decide
  refine ⟨fun k h3 hk => ?_, ?_⟩
  · obtain ⟨seg, hkind, hseg⟩ := hb.image k h3 hk
    have hmapped := hb.regions.mapped k hk seg hseg
    have hdrop : ∀ free : Bool, (free = true → seg = .data) →
        Returns (userVmUnmap (s.procs i).pagetable
          (regionAt s.mem (s.procs i).mappedInfo k).va
          ((regionAt s.mem (s.procs i).mappedInfo k).npages * pgSize % 2 ^ 32)
          free) (fun _ s' => ∀ va,
            (regionAt s.mem (s.procs i).mappedInfo k).Covers va →
            leaf s'.mem (s.procs i).pagetable va = none) s := by
      intro free hfree
      rw [Nat.mod_eq_of_lt (hsmall k hk)]
      refine (wp_dropPages hb.pages hb.regions.tables
        (hb.regions.table.aligned k hk) (hb.regions.table.bounded k hk)
        fun va hc => ?_).mono fun _ s' hres => ?_
      · obtain ⟨w, hw, hleaf⟩ := hmapped va hc
        refine ⟨w, hw, hleaf.readable, fun hf => ?_⟩
        have howner := hleaf.owner
        rw [hfree hf] at howner
        exact howner
      · obtain ⟨own', fl', hd, -⟩ := hres
        intro va hc
        have h39 : va < 2 ^ 39 :=
          Nat.lt_trans (hb.regions.table.covers_lt hk hc) (by decide)
        rw [hd.leaves va h39]
        exact if_pos hc
    unfold freeRegion
    rw [hseg, SegType.ofWord_word]
    rcases hkind with rfl | rfl
    · exact hdrop false fun h => absurd h Bool.false_ne_true
    · exact hdrop true fun _ => rfl
  · have hR := hb.regions
    rw [← hb.total] at hR hsmall
    exact (wp_freeRegions hb.pages hR hsmall).mono fun _ _ _ => trivial

/-- Page-aligned segments are recorded in order, if the table has the
entries and none but the last is at address 0. -/
theorem LoadRun.booked {run : List SegmentLoad} (hrun : LoadRun f i s run s') :
    ∀ own fl k, Booked s own fl i k → k + run.length ≤ maxRegions →
      (run ≠ [] → ∀ k' < k,
        (regionAt s.mem (s.procs i).mappedInfo k').va ≠ 0) →
      (∀ ph ∈ run.map SegmentLoad.ph, ph.vaddr % pgSize = 0) →
      Holeless (run.map SegmentLoad.ph) → (∀ l ∈ run, l.ph.vaddr < 2 ^ 64) →
      RecordedFrom i k run ∧ ∃ own' fl', Booked s' own' fl' i (k + run.length) := by
  induction hrun with
  | nil =>
      intro own fl k hb _ _ _ _ _
      exact ⟨trivial, own, fl, hb⟩
  | cons hseg hrest ih =>
      rename_i s s₁ s' ph es run
      intro own fl k hb hroom hzero halign hhole hvaddr
      rw [List.length_cons] at hroom
      have hk : k < maxRegions := by omega
      have hva : ph.vaddr < 2 ^ 64 := hvaddr _ List.mem_cons_self
      have hal : ph.vaddr % pgSize = 0 := halign ph List.mem_cons_self
      have hnonzero := hzero (List.cons_ne_nil _ _)
      have hj : freeRegionIndex s.mem (s.procs i).mappedInfo = k := by
        apply freeRegionIndex_eq hk _ hnonzero
        rw [hb.regions.table.blank k (Nat.le_refl _) hk]
      obtain ⟨pa, own₁, fl₁, hd, _⟩ := segmentDone_of_run hb.pages hb.regions.tables
        hb.regions.owner hj hk hva hseg
      have hb₁ := hb.record hd hk hal hva
      have hroot := hd.pagetable
      have htab := hd.mappedInfo
      obtain ⟨hrec, own', fl', hb'⟩ := ih own₁ fl₁ (k + 1) hb₁ (by omega) (by
          intro hne k' hk'
          rw [htab, hd.entry k' (by omega)]
          by_cases heq : k' = k
          · rw [if_pos heq]
            exact fun hv0 => hne (List.map_eq_nil_iff.mp (hhole.1 hv0))
          · rw [if_neg heq]
            exact hnonzero k' (by omega))
        (fun ph' hph => halign ph' (List.mem_cons_of_mem _ hph)) hhole.2
        (fun l hl => hvaddr l (List.mem_cons_of_mem _ hl))
      refine ⟨⟨⟨hk, ?_, ?_, ?_⟩, hrec⟩, own', fl', ?_⟩
      · simp only [htab]
        rw [hd.entry k hk, if_pos rfl]
      · intro k' hk' hne
        simp only [htab]
        rw [hd.entry k' hk', if_neg hne]
      · intro va
        simp only [htab, hroot]
        rw [hd.entry k hk, if_pos rfl]
        refine (Iff.trans ?_ (ph.spans_aligned hal hva))
        have hmax := hd.below hal hva
        constructor
        · rintro ⟨hlt, hnone, hsome⟩
          by_contra hin
          rw [hd.leaf (Nat.lt_trans hlt (by decide)), if_neg hin] at hsome
          exact hsome hnone
        · intro hin
          have hlt : va < maxVa := by
            have := inPages_one.mp ((ph.spans_aligned hal hva).mp hin)
            simp only [maxVa, pgSize] at *
            omega
          have h39 : va < 2 ^ 39 := Nat.lt_trans hlt (by decide)
          refine ⟨hlt, hd.mapped.unmapped va h39 hin, ?_⟩
          rw [hd.leaf h39, if_pos hin]
          exact Option.some_ne_none _
      · rw [List.length_cons, Nat.add_comm run.length 1, ← Nat.add_assoc]
        exact hb'

/-- A fresh process has recorded what it has mapped. -/
theorem Space.booked {P : MappedRegion → Prop}
    (hS : Space cfg P s own i fun _ _ => False) (hh : Heap s own fl)
    (hthree : (s.procs i).totalMappedRegion = 3) : Booked s own fl i 3 := by
  refine ⟨hh, ?_, ?_, fun k' h3 hk' => absurd hk' (Nat.not_lt.mpr h3), hthree⟩
  · rw [← hthree]
    exact hS.regions.mono fun _ _ _ => trivial
  · intro k hk
    obtain rfl | rfl | rfl : k = 0 ∨ k = 1 ∨ k = 2 := by omega
    · rw [hS.stack]
    · rw [hS.context]
    · rw [hS.system]

/-- The regions every process starts with are not at address 0. -/
theorem Space.nonzero {P : MappedRegion → Prop} {heap : Nat → Nat → Prop}
    (hS : Space cfg P s own i heap) (hh : Heap s own fl) :
    ∀ k < 3, (regionAt s.mem (s.procs i).mappedInfo k).va ≠ 0 := by
  intro k hk
  obtain rfl | rfl | rfl : k = 0 ∨ k = 1 ∨ k = 2 := by omega
  · rw [hS.stack]
    decide
  · rw [hS.context]
    have hpage : PageIn s (s.procs i).trapframe :=
      hh.page _ (by rw [hS.trapframe]; exact Owner.noConfusion)
    exact Nat.ne_of_gt (hpage.pos hh)
  · rw [hS.system]
    have hbase := cfg.trap_base
    exact Nat.ne_of_gt (Nat.lt_trans (by decide) hbase)

/-- An image accepted for a fresh process: every segment is recorded in
the next entry of the region table with the pages mapped for it, no other
entry is written, and the regions can be unmapped, exactly when there are
at most 253 segments, each page-aligned, and none but the last is at
address 0. -/
theorem elf_load_records_iff {P : MappedRegion → Prop} {es : List Event}
    (hh : Heap s own fl) (hS : Space cfg P s own i fun _ _ => False)
    (hthree : (s.procs i).totalMappedRegion = 3)
    (hload : elfLoad f (elfInit f).2 i s = (es, .ok .ok s')) :
    ∃ run, LoadRun f i s run s' ∧ run.map SegmentLoad.ph = segments f ∧
      ((RecordedFrom i 3 run ∧
          (s'.procs i).totalMappedRegion = 3 + (segments f).length ∧
          Unmappable i (segments f).length s')
        ↔ (segments f).length ≤ 253 ∧
          (∀ ph ∈ segments f, ph.vaddr % pgSize = 0) ∧ Holeless (segments f)) := by
  obtain ⟨run, hrun, hmap⟩ := loadLoop_run _ _ _ _ _ hload
  have hmap : run.map SegmentLoad.ph = segments f := hmap
  have hlen : run.length = (segments f).length := by
    rw [← hmap, List.length_map]
  have hlt : ∀ l ∈ run, l.ph.vaddr < 2 ^ 64 := fun l hl =>
    vaddr_lt (n := (elfInit f).2.phnum) (hmap ▸ List.mem_map_of_mem hl)
  refine ⟨run, hrun, hmap, fun hrec => ?_, fun hgood => ?_⟩
  · obtain ⟨hroom, -, halign, hhole⟩ := hrun.aligned_of_recorded own fl 3 hh
      hS.regions.tables hS.regions.owner
      (fun k hk hlt => hS.regions.table.blank k (by omega) hlt) (by decide) hrec.1
      hlt
    rw [hmap] at halign hhole
    simp only [maxRegions] at hroom
    exact ⟨by omega, halign, hhole⟩
  · obtain ⟨hcount, halign, hhole⟩ := hgood
    rw [← hmap] at halign hhole
    obtain ⟨hrec, own', fl', hb⟩ := hrun.booked own fl 3 (hS.booked hh hthree)
      (by simp only [maxRegions]; omega) (fun _ => hS.nonzero hh) halign hhole hlt
    rw [hlen] at hb
    exact ⟨hrec, hb.total, hb.unmappable⟩

/-- The clean image is recorded in the fourth and fifth entry. -/
theorem cleanImage_recorded :
    ∃ s own fl es s' run, FreshProcess (tinyMachine 0x10000) s own fl 0 ∧
      elfLoad cleanImage (elfInit cleanImage).2 0 s = (es, .ok .ok s') ∧
      LoadRun cleanImage 0 s run s' ∧ RecordedFrom 0 3 run ∧
      (s'.procs 0).totalMappedRegion = 5 ∧ Unmappable 0 2 s' := by
  obtain ⟨s, own, fl, hf, hlen⟩ := tinyMachine_fresh
  obtain ⟨es, s', hload⟩ := cleanImage_accepted hf (by omega)
  obtain ⟨run, hrun, -, hiff⟩ := elf_load_records_iff hf.pages hf.space hf.total
    hload
  rw [cleanImage_segments] at hiff
  obtain ⟨hrec, htotal, hunmap⟩ := hiff.mpr
    ⟨by decide, by decide, fun h => absurd h (by decide), nofun, trivial⟩
  exact ⟨s, own, fl, es, s', run, hf, hload, hrun, hrec, htotal, hunmap⟩

/-- Two segments, the first one at address 0. -/
def zeroFirst : List ElfProgHeader := [fourBytes 176 0, fourBytes 176 0x1000]

def zeroFirstImage : HostFile := imageOf zeroFirst [1, 2, 0, 0]

set_option maxRecDepth 8000 in
theorem zeroFirstImage_segments : segments zeroFirstImage = zeroFirst := by
  decide

set_option maxRecDepth 8000 in
/-- The two segments are not recorded in the next two entries: the second
takes the entry of the first. -/
theorem zeroFirstImage_unrecorded :
    ∃ s own fl es s', FreshProcess (tinyMachine 0x10000) s own fl 0 ∧
      elfLoad zeroFirstImage (elfInit zeroFirstImage).2 0 s = (es, .ok .ok s') ∧
      ∃ run, LoadRun zeroFirstImage 0 s run s' ∧
        run.map SegmentLoad.ph = segments zeroFirstImage ∧
        ¬ RecordedFrom 0 3 run := by
  obtain ⟨s, own, fl, hf, hlen⟩ := tinyMachine_fresh
  obtain ⟨es, s', hload⟩ := fourBytes_pair_accepted hf (by omega)
    zeroFirstImage_segments (by decide) (by decide) (by decide) (by decide)
    (by decide) (by decide)
  obtain ⟨run, hrun, hmap⟩ := loadLoop_run _ _ _ _ _ hload
  refine ⟨s, own, fl, es, s', hf, hload, run, hrun, hmap, fun hrec => ?_⟩
  obtain ⟨-, -, -, hhole⟩ := hrun.aligned_of_recorded own fl 3 hf.pages
    hf.space.regions.tables hf.space.regions.owner
    (fun k hk hlt => hf.space.regions.table.blank k (by rw [hf.total]; exact hk) hlt)
    (by decide) hrec (fun l hl => vaddr_lt (hmap ▸ List.mem_map_of_mem hl))
  rw [hmap, show loadHeaders zeroFirstImage _ _ = zeroFirst from
    zeroFirstImage_segments] at hhole
  exact absurd (hhole.1 rfl) (by decide)

end Pke
