/-
What user mode gets from the loader.

# Two properties of an accepted image

- `elf_image_faithful_iff`: the process finds the file's bytes. The
  loader reads `memsz` bytes, so what lies behind the `filesz` bytes of a
  segment in the file is loaded too; and it reads them to the start of the
  frame, wherever in its page the segment starts.
- `elf_load_maps_own_iff`: only pages taken for the image are mapped, and
  each because a byte of the image lies in it.
-/
import Pke.Proofs.Image
import Pke.Proofs.PageMap

namespace Pke

open ByteMem Traced

variable {cfg : Config} {s s' s₁ : Kernel} {own own' own₁ : Nat → Owner}
variable {fl fl' : List Nat} {i : Slot} {root va pa n : Nat}
variable {f : HostFile} {ph : ElfProgHeader}

-- ==== fidelity

/-- The byte user mode loads from `va`. -/
def userLoad (m : Mem) (root va : Nat) : Option UInt8 :=
  if va ≥ maxVa then none
  else (leaf m root va).bind fun w =>
    if w &&& pteU ≠ 0 ∧ w &&& pteR ≠ 0 then some (m (pte2pa w + va % pgSize))
    else none

/-- The byte due at offset `k` of a segment: the file's, then zeros. -/
def ElfProgHeader.imageByte (ph : ElfProgHeader) (f : HostFile) (k : Nat) :
    UInt8 :=
  if k < ph.filesz then f.getD (ph.off + k) 0 else 0

/-- The byte the loader puts at offset `x` of a segment's page. -/
def ElfProgHeader.frameByte (ph : ElfProgHeader) (f : HostFile) (x : Nat) :
    UInt8 :=
  if x < ph.memsz then f.getD (ph.off + x) 0 else 0

/-- User mode finds every byte of the image. -/
def ImageFaithful (f : HostFile) (m : Mem) (root : Nat) : Prop :=
  ∀ ph ∈ segments f, ∀ k < ph.memsz,
    userLoad m root (ph.vaddr + k) = some (ph.imageByte f k)

/-- What user mode finds in a segment that lies in one page. -/
theorem ImagePage.userLoad {l : SegmentLoad} {k : Nat}
    (hp : ImagePage f i root l pa own s' own') (hh : Heap s' own' fl')
    (hk : k < l.ph.memsz)
    (hin : l.ph.vaddr % pgSize + l.ph.memsz ≤ pgSize) :
    userLoad s'.mem root (l.ph.vaddr + k)
      = if l.ph.vaddr < maxVa then
          some (l.ph.frameByte f (l.ph.vaddr % pgSize + k))
        else none := by
  unfold Pke.userLoad
  by_cases hva : l.ph.vaddr < maxVa
  · have hpage : (l.ph.vaddr + k) / 4096 = l.ph.vaddr / 4096 ∧
        (l.ph.vaddr + k) % 4096 = l.ph.vaddr % 4096 + k ∧
        l.ph.vaddr + k < maxVa := by
      simp only [pgSize, maxVa] at *
      omega
    have hpages : 0 < imagePages l.ph.vaddr := by
      unfold imagePages pagesMeeting
      simp only [maxVa, pgSize] at *
      rw [if_pos (by omega)]
      omega
    have hspan : l.ph.Spans (l.ph.vaddr + k) := by
      unfold ElfProgHeader.Spans inPages
      rw [hpage.1]
      omega
    have hal : PageIn s' pa :=
      hh.page pa (by rw [hp.frame]; exact Owner.noConfusion)
    have hlt := hal.lt hh
    have hentry : imageEntry l.ph pa (l.ph.vaddr + k)
        = pa2pte pa ||| imagePerm ||| pteV := by
      unfold imageEntry
      rw [hpage.1, Nat.sub_self, Nat.zero_mul, Nat.add_zero]
    rw [if_neg (Nat.not_le.mpr hpage.2.2), if_pos hva,
      hp.leaf _ (Nat.lt_trans hpage.2.2 (by decide)) hspan, hentry,
      Option.bind_some, entry_pa hal.aligned (by omega) (by decide),
      entry_and (by decide) (by decide), entry_and (by decide) (by decide),
      if_pos (by decide)]
    rw [show (l.ph.vaddr + k) % pgSize = l.ph.vaddr % pgSize + k from hpage.2.1,
      hp.content _ (by omega)]
    rfl
  · rw [if_neg hva, if_pos (Nat.le_trans (Nat.not_lt.mp hva) (Nat.le_add_right ..))]

/-- What user mode finds in an image whose segments lie in one page
each. -/
theorem ImageLoaded.userLoad {run : List SegmentLoad} {k : Nat}
    (hl : ImageLoaded f i run s own s' own' fl')
    (hmap : run.map SegmentLoad.ph = segments f) (hph : ph ∈ segments f)
    (hk : k < ph.memsz) (hin : ph.vaddr % pgSize + ph.memsz ≤ pgSize) :
    userLoad s'.mem (s'.procs i).pagetable (ph.vaddr + k)
      = if ph.vaddr < maxVa then
          some (ph.frameByte f (ph.vaddr % pgSize + k))
        else none := by
  rw [← hmap] at hph
  obtain ⟨l, hmem, rfl⟩ := List.mem_map.mp hph
  obtain ⟨pa, hp⟩ := hl.image l hmem
  rw [hl.slot]
  exact hp.userLoad hl.pages hk hin

/-- An image whose segments lie in one page each, accepted for any process
with room for it in its region table, is found by user mode as the file
has it exactly when the byte the loader put in its place is the one due,
everywhere in the image. -/
theorem elf_image_faithful_iff {P : MappedRegion → Prop}
    {heap : Nat → Nat → Prop} {es : List Event} (hh : Heap s own fl)
    (hS : Space cfg P s own i heap)
    (hload : elfLoad f (elfInit f).2 i s = (es, .ok .ok s'))
    (hcount : (s.procs i).totalMappedRegion + (segments f).length ≤ maxRegions)
    (hpage : ∀ ph ∈ segments f, ph.vaddr % pgSize + ph.memsz ≤ pgSize) :
    ImageFaithful f s'.mem (s'.procs i).pagetable
      ↔ ∀ ph ∈ segments f, ∀ k < ph.memsz, ph.vaddr < maxVa ∧
          ph.frameByte f (ph.vaddr % pgSize + k) = ph.imageByte f k := by
  obtain ⟨run, own', fl', -, hmap, hl⟩ := elfLoad_loads hh hS hload hcount
  constructor
  · intro hfaith ph hph k hk
    have h := hfaith ph hph k hk
    rw [hl.userLoad hmap hph hk (hpage ph hph)] at h
    by_cases hva : ph.vaddr < maxVa
    · rw [if_pos hva] at h
      exact ⟨hva, Option.some.inj h⟩
    · rw [if_neg hva] at h
      cases h
  · intro hall ph hph k hk
    obtain ⟨hva, heq⟩ := hall ph hph k hk
    rw [hl.userLoad hmap hph hk (hpage ph hph), if_pos hva, heq]

/-- A fresh process of the small machine finds the clean image. -/
theorem cleanImage_faithful :
    ∃ s own fl es s', FreshProcess (tinyMachine 0x10000) s own fl 0 ∧
      elfLoad cleanImage (elfInit cleanImage).2 0 s = (es, .ok .ok s') ∧
      ImageFaithful cleanImage s'.mem (s'.procs 0).pagetable := by
  obtain ⟨s, own, fl, hf, hlen⟩ := tinyMachine_fresh
  obtain ⟨es, s', hload⟩ := cleanImage_accepted hf (by omega)
  refine ⟨s, own, fl, es, s', hf, hload, ?_⟩
  rw [elf_image_faithful_iff hf.pages hf.space hload
    (hf.more (by rw [cleanImage_segments]; decide)) cleanImage_page, cleanImage_segments]
  decide

/-- Two bytes of the file, and others behind them. -/
def tailedImage : HostFile := imageOf [fourBytes 120 0x10000] [1, 2, 3, 4]

set_option maxRecDepth 8000 in
theorem tailedImage_segments : segments tailedImage = [fourBytes 120 0x10000] := by
  decide

set_option maxRecDepth 8000 in
/-- The file's bytes behind the two of the segment are found where zeros
are due. -/
theorem tailedImage_unfaithful :
    ∃ s own fl es s', FreshProcess (tinyMachine 0x10000) s own fl 0 ∧
      (elfInit tailedImage).1 = .ok ∧
      elfLoad tailedImage (elfInit tailedImage).2 0 s = (es, .ok .ok s') ∧
      userLoad s'.mem (s'.procs 0).pagetable 0x10002 = some 3 ∧
      ¬ ImageFaithful tailedImage s'.mem (s'.procs 0).pagetable := by
  obtain ⟨s, own, fl, hf, hlen⟩ := tinyMachine_fresh
  obtain ⟨es, s', hload⟩ := fourBytes_accepted hf (f := tailedImage) (by omega)
    (by decide) (by decide) (by decide) (by decide) tailedImage_segments
  obtain ⟨run, own', fl', -, hmap, hl⟩ := elfLoad_loads hf.pages hf.space hload
    (hf.more (by rw [tailedImage_segments]; decide))
  have hmem : fourBytes 120 0x10000 ∈ segments tailedImage := by
    rw [tailedImage_segments]
    exact List.mem_singleton_self _
  have hthree : userLoad s'.mem (s'.procs 0).pagetable 0x10002 = some 3 := by
    have h := hl.userLoad (k := 2) hmap hmem (by decide) (by decide)
    exact h
  refine ⟨s, own, fl, es, s', hf, by decide, hload, hthree, fun hfaith => ?_⟩
  have hzero := hfaith _ hmem 2 (by decide)
  rw [show (fourBytes 120 0x10000).vaddr + 2 = 0x10002 from rfl, hthree] at hzero
  exact absurd hzero (by decide)

-- ==== pages mapped

/-- Whatever the load made user-accessible is a page `elf_alloc_mb`
obtained from the free list, now neither free nor a table, and holds a
byte of a segment. -/
def MapsOwn (f : HostFile) (i : Slot) (run : List SegmentLoad)
    (s s' : Kernel) : Prop :=
  ∀ va w, va < maxVa → leaf s.mem (s.procs i).pagetable va = none →
    leaf s'.mem (s'.procs i).pagetable va = some w → w &&& pteU ≠ 0 →
    (∃ l ∈ run, l.Obtains i (pte2pa w)) ∧ OnFreeList s (pte2pa w) ∧
    ¬ OnFreeList s' (pte2pa w) ∧ ¬ IsTable s' (s'.procs i).pagetable (pte2pa w) ∧
    ∃ ph ∈ segments f, ∃ k < ph.memsz, (ph.vaddr + k) / pgSize = va / pgSize

/-- The entries of an image are for user mode. -/
theorem imageEntry_user : imageEntry ph pa va &&& pteU ≠ 0 := by
  unfold imageEntry
  rw [entry_and (by decide) (by decide)]
  decide

/-- The first page mapped for a segment. -/
theorem ElfProgHeader.spans_self (hva : ph.vaddr < maxVa) {va : Nat}
    (hpage : va / pgSize = ph.vaddr / pgSize) : ph.Spans va := by
  unfold ElfProgHeader.Spans inPages imagePages pagesMeeting
  simp only [maxVa, pgSize] at *
  rw [if_pos (by omega)]
  omega

/-- Segments with pages in common are one. -/
theorem ImageLoaded.same {run : List SegmentLoad} {l l' : SegmentLoad}
    (hl : ImageLoaded f i run s own s' own' fl') (hmem : l ∈ run) (hmem' : l' ∈ run)
    {va : Nat} (hva : va < 2 ^ 39) (hin : l.ph.Spans va)
    (hin' : l'.ph.Spans va) : l = l' := by
  by_contra hne
  have hsymm : Std.Symm fun l l' : SegmentLoad => ∀ va < 2 ^ 39, l.ph.Spans va →
      ¬ l'.ph.Spans va := ⟨fun l l' h va hva hin hin' => h va hva hin' hin⟩
  exact hl.apart.forall hmem hmem' hne va hva hin hin'

/-- A segment at a page-aligned address gets one page. -/
theorem ImagePage.only {l : SegmentLoad}
    (hp : ImagePage f i root l pa own s' own') (hh : Heap s' own' fl')
    (hal : l.ph.vaddr % pgSize = 0) (hlt : l.ph.vaddr < 2 ^ 64) {va w : Nat}
    (hva : va < 2 ^ 39) (hin : l.ph.Spans va)
    (hw : Pke.leaf s'.mem root va = some w) :
    va / pgSize = l.ph.vaddr / pgSize ∧ pte2pa w = pa := by
  have hpage : va / pgSize = l.ph.vaddr / pgSize := by
    unfold ElfProgHeader.Spans inPages at hin
    rw [imagePages_aligned hal hlt] at hin
    simp only [pgSize]
    omega
  have hin' : PageIn s' pa :=
    hh.page pa (by rw [hp.frame]; exact Owner.noConfusion)
  have hlt := hin'.lt hh
  refine ⟨hpage, ?_⟩
  rw [hp.leaf va hva hin] at hw
  obtain rfl := Option.some.inj hw
  unfold imageEntry
  rw [show va / 4096 = l.ph.vaddr / 4096 from hpage, Nat.sub_self, Nat.zero_mul,
    Nat.add_zero]
  exact entry_pa hin'.aligned (by omega) (by decide)

/-- A page mapped for the image holds a byte of a segment only if it is
the page the segment starts in. -/
theorem ImageLoaded.starts {run : List SegmentLoad} {l : SegmentLoad}
    (hl : ImageLoaded f i run s own s' own' fl')
    (hmap : run.map SegmentLoad.ph = segments f)
    (hpage : ∀ ph ∈ segments f, ph.vaddr % pgSize + ph.memsz ≤ pgSize)
    (hmem : l ∈ run) (hva : va < maxVa) (hin : l.ph.Spans va) {k : Nat}
    {ph : ElfProgHeader} (hph : ph ∈ segments f) (hk : k < ph.memsz)
    (hbyte : (ph.vaddr + k) / pgSize = va / pgSize) :
    ph = l.ph ∧ va / pgSize = ph.vaddr / pgSize := by
  have hfit := hpage ph hph
  have hstart : va / pgSize = ph.vaddr / pgSize ∧ ph.vaddr < maxVa := by
    simp only [pgSize, maxVa] at *
    omega
  rw [← hmap] at hph
  obtain ⟨l', hmem', rfl⟩ := List.mem_map.mp hph
  have h39 : va < 2 ^ 39 := Nat.lt_trans hva (by decide)
  refine ⟨?_, hstart.1⟩
  rw [hl.same hmem' hmem h39 (ElfProgHeader.spans_self hstart.2 hstart.1) hin]

/-- The addresses of a segment's pages, newly mapped. -/
theorem ImageLoaded.newly {run : List SegmentLoad} {l : SegmentLoad}
    (hl : ImageLoaded f i run s own s' own' fl') (hmem : l ∈ run)
    (hown : MapsOwn f i run s s') {va : Nat} (hva : va < maxVa)
    (hin : l.ph.Spans va) :
    ∃ ph ∈ segments f, ∃ k < ph.memsz, (ph.vaddr + k) / pgSize = va / pgSize := by
  obtain ⟨pa, hp⟩ := hl.image l hmem
  have h39 : va < 2 ^ 39 := Nat.lt_trans hva (by decide)
  have hroot : (s'.procs i).pagetable = (s.procs i).pagetable := by rw [hl.slot]
  exact (hown va _ hva (hl.fresh l hmem va h39 hin)
    (by rw [hroot]; exact hp.leaf va h39 hin) imageEntry_user).2.2.2.2

/-- An image whose segments lie in one page each, accepted for any process
with room for it in its region table: only pages taken for the image are
mapped, and each because a byte of the image lies in it, exactly when
every segment the kernel can map is page-aligned and not empty. -/
theorem elf_load_maps_own_iff {P : MappedRegion → Prop}
    {heap : Nat → Nat → Prop} {es : List Event} (hh : Heap s own fl)
    (hS : Space cfg P s own i heap)
    (hload : elfLoad f (elfInit f).2 i s = (es, .ok .ok s'))
    (hcount : (s.procs i).totalMappedRegion + (segments f).length ≤ maxRegions)
    (hpage : ∀ ph ∈ segments f, ph.vaddr % pgSize + ph.memsz ≤ pgSize) :
    ∃ run, LoadRun f i s run s' ∧ run.map SegmentLoad.ph = segments f ∧
      (MapsOwn f i run s s' ↔ ∀ ph ∈ segments f, ph.vaddr < maxVa →
        ph.vaddr % pgSize = 0 ∧ 0 < ph.memsz) := by
  obtain ⟨run, own', fl', hrun, hmap, hl⟩ := elfLoad_loads hh hS hload hcount
  have hroot : (s'.procs i).pagetable = (s.procs i).pagetable := by rw [hl.slot]
  refine ⟨run, hrun, hmap, fun hown ph hph hva => ?_, fun hgood va w hva hnone
    hsome huser => ?_⟩
  · rw [← hmap] at hph
    obtain ⟨l, hmem, rfl⟩ := List.mem_map.mp hph
    obtain ⟨pa, hp⟩ := hl.image l hmem
    constructor
    · -- the second page of an unaligned segment holds no byte
      by_contra hal
      have hle : l.ph.vaddr + pgSize ≤ 2 ^ 64 := by
        simp only [maxVa, pgSize] at *
        omega
      have htwo := imagePages_unaligned hal hle
      have hsecond := hp.range 1 (by omega)
      have hin : l.ph.Spans (l.ph.vaddr / 4096 * 4096 + 1 * pgSize) := by
        unfold ElfProgHeader.Spans inPages
        simp only [pgSize]
        omega
      obtain ⟨ph, hph', k, hk, hbyte⟩ := hl.newly hmem hown hsecond hin
      obtain ⟨rfl, hstart⟩ := hl.starts hmap hpage hmem hsecond hin hph' hk hbyte
      simp only [pgSize] at hstart
      omega
    · -- the first page holds a byte, and no other segment has one there
      have hin : l.ph.Spans l.ph.vaddr := ElfProgHeader.spans_self hva rfl
      obtain ⟨ph, hph', k, hk, hbyte⟩ := hl.newly hmem hown hva hin
      obtain ⟨rfl, -⟩ := hl.starts hmap hpage hmem hva hin hph' hk hbyte
      omega
  · have h39 : va < 2 ^ 39 := Nat.lt_trans hva (by decide)
    rw [hroot] at hsome ⊢
    obtain ⟨l, hmem, hin⟩ := hl.new va w h39 hnone hsome
    obtain ⟨pa, hp⟩ := hl.image l hmem
    have hph : l.ph ∈ segments f := hmap ▸ List.mem_map_of_mem hmem
    have hlt : l.ph.vaddr < 2 ^ 64 := vaddr_lt hph
    have hfirst := hp.range 0 (by
      unfold ElfProgHeader.Spans inPages at hin
      omega)
    obtain ⟨hal, hpos⟩ := hgood l.ph hph (by
      simp only [maxVa, pgSize] at *
      omega)
    obtain ⟨hsame, hpa⟩ := hp.only hl.pages hal hlt h39 hin hsome
    rw [hpa]
    refine ⟨⟨l, hmem, hp.obtained⟩, ⟨fl, hh.pool.chain, (hh.free pa).mp hp.was⟩,
      ?_, ?_, l.ph, hph, 0, hpos, hsame.symm⟩
    · rintro ⟨fl'', hchain, hmem'⟩
      rw [hchain.unique hl.pages.pool.chain, ← hl.pages.free, hp.frame] at hmem'
      cases hmem'
    · rintro ⟨path, hlen, htable⟩
      have hown := hl.tables path pa hlen htable
      rw [hp.frame] at hown
      cases hown

/-- The clean image maps its own pages only. -/
theorem cleanImage_maps_own :
    ∃ s own fl es s' run, FreshProcess (tinyMachine 0x10000) s own fl 0 ∧
      elfLoad cleanImage (elfInit cleanImage).2 0 s = (es, .ok .ok s') ∧
      LoadRun cleanImage 0 s run s' ∧ MapsOwn cleanImage 0 run s s' := by
  obtain ⟨s, own, fl, hf, hlen⟩ := tinyMachine_fresh
  obtain ⟨es, s', hload⟩ := cleanImage_accepted hf (by omega)
  obtain ⟨run, hrun, -, hiff⟩ := elf_load_maps_own_iff hf.pages hf.space hload
    (hf.more (by rw [cleanImage_segments]; decide)) cleanImage_page
  refine ⟨s, own, fl, es, s', run, hf, hload, hrun, hiff.mpr ?_⟩
  rw [cleanImage_segments]
  decide

/-- A segment in the middle of a page. -/
def shiftedImage : HostFile := imageOf [fourBytes 120 0x10800] [1, 2, 0, 0]

set_option maxRecDepth 8000 in
theorem shiftedImage_segments :
    segments shiftedImage = [fourBytes 120 0x10800] := by
  decide

set_option maxRecDepth 8000 in
/-- The page after that of the segment is mapped for user mode, to a page
nobody obtained. -/
theorem shiftedImage_maps_other :
    ∃ s own fl es s' run w, FreshProcess (tinyMachine 0x10000) s own fl 0 ∧
      elfLoad shiftedImage (elfInit shiftedImage).2 0 s = (es, .ok .ok s') ∧
      LoadRun shiftedImage 0 s run s' ∧
      run.map SegmentLoad.ph = segments shiftedImage ∧
      leaf s.mem (s.procs 0).pagetable 0x11000 = none ∧
      leaf s'.mem (s'.procs 0).pagetable 0x11000 = some w ∧ w &&& pteU ≠ 0 ∧
      (¬ ∃ l ∈ run, l.Obtains 0 (pte2pa w)) ∧ ¬ MapsOwn shiftedImage 0 run s s' := by
  obtain ⟨s, own, fl, hf, hlen⟩ := tinyMachine_fresh
  obtain ⟨es, s', hload⟩ := fourBytes_accepted hf (f := shiftedImage) (by omega)
    (by decide) (by decide) (by decide) (by decide) shiftedImage_segments
  obtain ⟨run, own', fl', hrun, hmap, hl⟩ := elfLoad_loads hf.pages hf.space hload
    (hf.more (by rw [shiftedImage_segments]; decide))
  obtain ⟨l, rfl, hph⟩ : ∃ l, run = [l] ∧ l.ph = fourBytes 120 0x10800 := by
    rw [shiftedImage_segments] at hmap
    obtain ⟨l, rest, rfl, hph, hrest⟩ := List.map_eq_cons_iff.mp hmap
    rw [List.map_eq_nil_iff.mp hrest]
    exact ⟨l, rfl, hph⟩
  obtain ⟨pa, hp⟩ := hl.image l List.mem_cons_self
  have hspan : l.ph.Spans 0x11000 := by
    rw [hph]
    decide
  have hleaf : leaf s'.mem (s'.procs 0).pagetable 0x11000
      = some (imageEntry l.ph pa 0x11000) := by
    rw [hl.slot]
    exact hp.leaf _ (by decide) hspan
  have hnone := hl.fresh l List.mem_cons_self 0x11000 (by decide) hspan
  have hpage := hl.pages.page pa (by rw [hp.frame]; exact Owner.noConfusion)
  -- the entry is for the page behind the one obtained
  have hbehind : pte2pa (imageEntry l.ph pa 0x11000) = pa + 4096 := by
    have hal := hpage.aligned
    have hlt := hpage.lt hl.pages
    unfold imageEntry
    rw [hph]
    apply entry_pa _ _ (by decide)
    · simp only [pgSize] at hal ⊢
      show (pa + 4096) % 4096 = 0
      omega
    · show pa + 4096 < _
      omega
  have hnot : ¬ ∃ l' ∈ [l], l'.Obtains 0 (pte2pa (imageEntry l.ph pa 0x11000)) := by
    rintro ⟨l', hmem, es₁, s₁, hob⟩
    obtain ⟨es₂, s₂, hob'⟩ := hp.obtained
    rw [List.mem_singleton.mp hmem, hob', hbehind] at hob
    have heq : pa = pa + 4096 := by
      injection hob with _ hout
      injection hout
    omega
  refine ⟨s, own, fl, es, s', [l], _, hf, hload, hrun, hmap, hnone, hleaf,
    imageEntry_user, hnot, fun hown => hnot ?_⟩
  exact (hown 0x11000 _ (by decide) hnone hleaf imageEntry_user).1

end Pke
