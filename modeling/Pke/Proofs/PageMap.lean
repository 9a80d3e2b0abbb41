/-
A page table refines a partial map.

`VmRun` is any sequence of returning `map_pages` and `user_vm_unmap`
calls on one root; `MapRun` (Spec/PageMap.lean) is the same sequence on
the abstract map. `Represents` ties the two: a page of the map is bound
to the frame its leaf entry holds, and the free lists agree.

The calls have to respect the allocator the way the kernel does. A
frame to be mapped is not on the free list and not one of the tables,
so the tables the walk takes later are none of the frames; a frame to
be given back is mapped once, so what is on the free list is in use
nowhere. These are `Mappable` and `Exclusive`.
-/
import Pke.Spec.PageMap
import Pke.Proofs.Vmm
import Pke.Model.Config

namespace Pke

open ByteMem Traced

/-- A zeroed page for the root and the free list the tables come from. -/
structure ZeroedRoot (s : Kernel) (root : Nat) (fl : List Nat) : Prop where
  pool : Pool s fl
  page : PageIn s root
  unused : root ∉ fl
  zero : ∀ x, root ≤ x → x < root + pgSize → s.mem x = 0

/-- The page is on the free list. -/
def OnFreeList (s : Kernel) (p : Nat) : Prop := ∃ fl, FreeList s fl ∧ p ∈ fl

/-- The page is one of the tables of `root`. -/
def IsTable (s : Kernel) (root p : Nat) : Prop :=
  ∃ path, path.length < 3 ∧ tableAt s.mem root path = some p

/-- The arguments of a `map_pages` call. The frames must not wrap, the
last one included. -/
structure Mappable (s : Kernel) (root va size pa perm : Nat) : Prop where
  size_pos : 1 ≤ size
  range : va + size ≤ maxVa
  pa_pos : pa ≠ 0
  pa_aligned : pa % pgSize = 0
  no_wrap : pa + pagesMeeting va size * pgSize ≤ 2 ^ 64
  perm_lt : perm < 2 ^ 10
  readable : perm &&& pteR ≠ 0 ∨ perm &&& pteW ≠ 0
  not_free : ∀ k < pagesMeeting va size, ¬ OnFreeList s (pa + k * pgSize)
  not_table : ∀ k < pagesMeeting va size, ¬ IsTable s root (pa + k * pgSize)

/-- The frames of a range are mapped nowhere else. -/
def Exclusive (s : Kernel) (root va size : Nat) : Prop :=
  ∀ a b w w', a < maxVa → b < maxVa → inPages va (pagesFrom va size) a →
    leaf s.mem root a = some w → leaf s.mem root b = some w' →
    pte2pa w = pte2pa w' → a / pgSize = b / pgSize

/-- Returning calls on the page table at `root`, one after another. -/
inductive VmRun (root : Nat) : List VmCall → Kernel → Kernel → Prop where
  | start {s : Kernel} : VmRun root [] s s
  | map {calls : List VmCall} {s₀ s s' : Kernel} {es : List Event}
      {va size pa perm : Nat} {r : Int} :
      VmRun root calls s₀ s → Mappable s root va size pa perm →
      mapPages root va size pa perm s = (es, .ok r s') →
      VmRun root (calls ++ [.map va size pa perm r]) s₀ s'
  | unmap {calls : List VmCall} {s₀ s s' : Kernel} {es : List Event}
      {va size : Nat} {free : Bool} :
      VmRun root calls s₀ s → (free = true → Exclusive s root va size) →
      userVmUnmap root va size free s = (es, .ok () s') →
      VmRun root (calls ++ [.unmap va size free]) s₀ s'

/-- Frame `f` is mapped by entry `w`, and it is a page in use that is no
table. -/
structure FrameEntry (own : Nat → Owner) (f w : Nat) : Prop where
  entry : ∃ perm, perm < 1024 ∧ (perm &&& pteR ≠ 0 ∨ perm &&& pteW ≠ 0) ∧
    w = pa2pte f ||| perm ||| pteV
  pos : f ≠ 0
  aligned : f % pgSize = 0
  bound : f + pgSize ≤ 2 ^ 64
  used : own f ≠ .free
  no_table : ∀ path, own f ≠ .table 0 path

/-- The page table at `root` holds the map. -/
structure Represents (s : Kernel) (root : Nat) (A : PageMap)
    (own : Nat → Owner) : Prop where
  heap : Heap s own A.free
  tables : Tables s.mem own 0 root
  nodes : ∀ p path, own p = .table 0 path →
    path.length < 3 ∧ tableAt s.mem root path = some p
  small : ∀ v f, A.map v = some f → v < maxVa / pgSize
  unbound : ∀ va, va < 2 ^ 39 → A.map (va / pgSize) = none →
    leaf s.mem root va = none
  bound : ∀ va f, va < 2 ^ 39 → A.map (va / pgSize) = some f →
    ∃ w, leaf s.mem root va = some w ∧ FrameEntry own f w

variable {s s' s₀ : Kernel} {root va size pa perm f w : Nat}
variable {own own' : Nat → Owner} {A : PageMap} {fl fl' : List Nat}

-- ==== entries

theorem FrameEntry.pte2pa (h : FrameEntry own f w) : pte2pa w = f := by
  obtain ⟨perm, hperm, _, rfl⟩ := h.entry
  have hor : perm ||| pteV < 1024 :=
    Nat.or_lt_two_pow hperm (by decide : 1 < 2 ^ 10)
  have hb := h.bound
  rw [Nat.or_assoc]
  refine pte2pa_or h.aligned ?_ hor
  simp only [pgSize] at hb
  omega

theorem FrameEntry.leafPa (h : FrameEntry own f w) : leafPa (some w) = f := by
  obtain ⟨perm, hperm, hrw, hw⟩ := h.entry
  have hor : perm ||| pteV < 1024 :=
    Nat.or_lt_two_pow hperm (by decide : 1 < 2 ^ 10)
  have hflag : ∀ k, k < 1024 → perm &&& k ≠ 0 → w &&& k ≠ 0 := by
    intro k hk hne hzero
    rw [hw, Nat.or_assoc, pa2pte_or_and hor hk, Nat.and_or_distrib_right] at hzero
    exact hne (Nat.or_eq_zero_iff.mp hzero).1
  have hboth : ¬ (w &&& pteR = 0 ∧ w &&& pteW = 0) := by
    rintro ⟨hzr, hzw⟩
    rcases hrw with hr | hr
    · exact hflag pteR (by decide) hr hzr
    · exact hflag pteW (by decide) hr hzw
  show (if w &&& pteR = 0 ∧ w &&& pteW = 0 then 0 else Pke.pte2pa w) = f
  rw [if_neg hboth, h.pte2pa]

theorem FrameEntry.relabel (h : FrameEntry own f w) (hf : own' f = own f) :
    FrameEntry own' f w :=
  { h with
    used := by rw [hf]; exact h.used
    no_table := by rw [hf]; exact h.no_table }

-- ==== translation

/-- `user_va_to_pa` computes the map. -/
theorem Represents.translate (hr : Represents s root A own) (hva : va < maxVa) :
    Returns (userVaToPa root va)
      (fun v s' => v = A.translate va ∧ s' = s) s := by
  have h39 : va < 2 ^ 39 := Nat.lt_trans hva (by decide)
  have hoff : va &&& ((1 <<< pgShift) - 1) = va % pgSize :=
    Nat.and_two_pow_sub_one_eq_mod va 12
  simp only [userVaToPa, Returns, wp_bind, wp_lookupPa hr.heap hr.tables hva, hoff]
  unfold PageMap.translate
  cases hmap : A.map (va / pgSize) with
  | none =>
      rw [hr.unbound va h39 hmap]
      simp only [leafPa, if_true, wp_pure, and_self]
  | some f =>
      obtain ⟨w, hw, hf⟩ := hr.bound va f h39 hmap
      have hlt : f + va % pgSize < 2 ^ 64 := by
        have hb := hf.bound
        have hm := Nat.mod_lt va (by decide : 0 < pgSize)
        omega
      rw [hw, hf.leafPa]
      simp only [if_neg hf.pos, wp_pure]
      exact ⟨Nat.mod_eq_of_lt hlt, trivial⟩

-- ==== the two calls

/-- Mapping keeps the representation, with the pages mapped bound. -/
theorem Represents.bind {k n : Nat} {N : List (Fin 512) → Prop}
    (hr : Represents s root A own)
    (hg : Grown 0 root N s own A.free s' own' fl')
    (hm : Mapped (va / pgSize * pgSize) pa perm k root s.mem s'.mem)
    (hM : Mappable s root va size pa perm) (hn : n = pagesMeeting va size)
    (hk : k ≤ n) :
    Represents s' root ⟨bindPages A.map (va / pgSize) k pa, fl'⟩ own' := by
  have hbase : va / pgSize * pgSize / 4096 = va / pgSize := by
    simp only [pgSize]
    omega
  have hin : ∀ a, inPages (va / pgSize * pgSize) k a ↔
      va / pgSize ≤ a / pgSize ∧ a / pgSize < va / pgSize + k := by
    intro a
    unfold inPages
    rw [hbase]
  refine ⟨hg.heap, hg.tables, fun p path hp => ?_, fun v f hsome => ?_,
    fun a ha hnone => ?_, fun a f ha hsome => ?_⟩
  · -- a table was one before, or was taken from the list for it
    by_cases hfree : own p = .free
    · obtain ⟨tk, hfl, htk⟩ := hg.taken
      have hmem : p ∈ tk ++ fl' := hfl ▸ (hr.heap.free p).mp hfree
      rcases List.mem_append.mp hmem with hmem | hmem
      · obtain ⟨path', _, hlen, ht⟩ := htk p hmem
        have hown := hg.tables path' p hlen ht
        rw [hown] at hp
        injection hp with _ hpath
        rw [← hpath]
        exact ⟨hlen, ht⟩
      · rw [(hg.heap.free p).mpr hmem] at hp
        cases hp
    · rw [hg.keep p hfree] at hp
      obtain ⟨hlen, ht⟩ := hr.nodes p path hp
      exact ⟨hlen, hg.mono path p hlen ht⟩
  · simp only [bindPages] at hsome
    split at hsome
    case isTrue hin' =>
      have hrange := hM.range
      have hsize := hM.size_pos
      unfold pagesMeeting at hn
      simp only [maxVa, pgSize] at *
      omega
    case isFalse => exact hr.small v f hsome
  · rw [hm.leaves a ha]
    simp only [hin]
    simp only [bindPages] at hnone
    split at hnone
    case isTrue => cases hnone
    case isFalse hout =>
      rw [if_neg hout]
      exact hr.unbound a ha hnone
  · rw [hm.leaves a ha]
    simp only [hin]
    simp only [bindPages] at hsome
    split at hsome
    case isTrue hin' =>
      rw [if_pos hin']
      have hk' : a / pgSize - va / pgSize < pagesMeeting va size := by omega
      have hwrap := hM.no_wrap
      have hsub : (a / pgSize - va / pgSize + 1) * pgSize
          ≤ pagesMeeting va size * pgSize := Nat.mul_le_mul_right _ hk'
      have hf : f = pa + (a / pgSize - va / pgSize) * pgSize :=
        (Option.some.inj hsome).symm
      have hused : own f ≠ .free := by
        intro hfree
        refine hM.not_free _ hk' ⟨A.free, hr.heap.pool.chain, ?_⟩
        rw [← hf]
        exact (hr.heap.free f).mp hfree
      have htab : ∀ path, own f ≠ .table 0 path := by
        intro path hpath
        obtain ⟨hlen, ht⟩ := hr.nodes f path hpath
        exact hM.not_table _ hk' ⟨path, hlen, hf ▸ ht⟩
      refine ⟨_, rfl, ⟨perm, hM.perm_lt, hM.readable, ?_⟩, ?_, ?_, ?_, ?_, ?_⟩
      · rw [hbase, hf]
      · have := hM.pa_pos
        omega
      · have := hM.pa_aligned
        rw [hf]
        simp only [pgSize] at this ⊢
        omega
      · rw [hf]
        simp only [pgSize] at hwrap hsub ⊢
        omega
      · rw [hg.keep f hused]
        exact hused
      · intro path
        rw [hg.keep f hused]
        exact htab path
    case isFalse hout =>
      obtain ⟨w, hw, hf⟩ := hr.bound a f ha hsome
      rw [if_neg hout]
      exact ⟨w, hw, hf.relabel (hg.keep f hf.used)⟩

/-- `map_pages` on a represented table. -/
theorem Represents.mapPages {es : List Event} {r : Int}
    (hr : Represents s root A own) (hM : Mappable s root va size pa perm)
    (hrun : mapPages root va size pa perm s = (es, .ok r s')) :
    ∃ A' own', MapStep (.map va size pa perm r) A A' ∧
      Represents s' root A' own' := by
  have hlt : va + size < 2 ^ 64 := Nat.lt_of_le_of_lt hM.range (by decide)
  have hwp : Wp (fun _ => False) (fun _ _ => True)
      (Pke.mapPages root va size pa perm) (fun r s' => ∃ A' own',
        MapStep (.map va size pa perm r) A A' ∧ Represents s' root A' own') s := by
    rw [mapPages_eq hM.size_pos (Nat.le_of_lt hlt)]
    refine (wp_mapLoop (N := fun _ => True) hM.perm_lt _ _ pa s own A.free
      hr.heap hr.tables hM.no_wrap (fun _ _ _ _ => trivial)
      (Or.inr fun _ _ => trivial)).mono fun r s' hres => ?_
    obtain ⟨own', fl', k, hg, hm, _, hcase⟩ := hres
    rcases hcase with ⟨rfl, rfl⟩ | ⟨rfl, hk, rfl, _⟩
    · obtain ⟨tk, hfl, _⟩ := hg.taken
      exact ⟨_, own', .mapAll hfl, hr.bind hg hm hM rfl (Nat.le_refl _)⟩
    · exact ⟨_, own', .mapSome hk, hr.bind hg hm hM rfl (Nat.le_of_lt hk)⟩
  exact hwp.of_run hrun fun _ _ h => h

/-- The frames of a range, in order. -/
theorem Represents.frames {n : Nat} (hr : Represents s root A own)
    (hal : va % pgSize = 0)
    (hmapped : ∀ k < n, va + k * pgSize < maxVa ∧
      leaf s.mem root (va + k * pgSize) ≠ none) :
    ∀ k < n, A.map (va / pgSize + k)
      = (freedFrames true s.mem root va n)[k]? := by
  intro k hk
  obtain ⟨hmax, hleaf⟩ := hmapped k hk
  have h39 : va + k * pgSize < 2 ^ 39 := Nat.lt_trans hmax (by decide)
  have hpage : (va + k * pgSize) / pgSize = va / pgSize + k := by
    simp only [pgSize] at hal ⊢
    omega
  have hget : (freedFrames true s.mem root va n)[k]?
      = some (frameAt s.mem root (va + k * pgSize)) := by
    unfold freedFrames
    rw [if_pos rfl, List.getElem?_map, List.getElem?_range hk]
    rfl
  rw [hget, ← hpage]
  cases hmap : A.map ((va + k * pgSize) / pgSize) with
  | none => exact absurd (hr.unbound _ h39 hmap) hleaf
  | some f =>
      obtain ⟨w, hw, hf⟩ := hr.bound _ f h39 hmap
      unfold frameAt
      rw [hw, Option.getD_some, hf.pte2pa]

/-- Unmapping keeps the representation, with the pages unbound. -/
theorem Represents.unbind {n : Nat} {free : Bool}
    (hr : Represents s root A own)
    (hu : Unmapped 0 root va n (freedFrames free s.mem root va n) s own A.free
      s' own' fl')
    (hn : n = pagesFrom va size)
    (hex : free = true → Exclusive s root va size) :
    Represents s' root ⟨unbindPages A.map (va / pgSize) n, fl'⟩ own' := by
  have hin : ∀ a, inPages va n a ↔
      va / pgSize ≤ a / pgSize ∧ a / pgSize < va / pgSize + n := fun _ => Iff.rfl
  refine ⟨hu.heap, hu.tables, fun p path hp => ?_, fun v f hsome => ?_,
    fun a ha hnone => ?_, fun a f ha hsome => ?_⟩
  · rw [hu.owner] at hp
    split at hp
    case isTrue => cases hp
    case isFalse =>
      obtain ⟨hlen, ht⟩ := hr.nodes p path hp
      exact ⟨hlen, (hu.nodes path hlen).trans ht⟩
  · simp only [unbindPages] at hsome
    split at hsome
    case isTrue => cases hsome
    case isFalse => exact hr.small v f hsome
  · rw [hu.leaves a ha]
    simp only [hin]
    simp only [unbindPages] at hnone
    split at hnone
    case isTrue hin' => rw [if_pos hin']
    case isFalse hout =>
      rw [if_neg hout]
      exact hr.unbound a ha hnone
  · rw [hu.leaves a ha]
    simp only [hin]
    simp only [unbindPages] at hsome
    split at hsome
    case isTrue => cases hsome
    case isFalse hout =>
      obtain ⟨w, hw, hf⟩ := hr.bound a f ha hsome
      rw [if_neg hout]
      refine ⟨w, hw, hf.relabel ?_⟩
      rw [hu.owner, if_neg]
      -- a frame given back is mapped in the range only
      intro hmem
      unfold freedFrames at hmem
      cases free with
      | false => exact absurd hmem List.not_mem_nil
      | true =>
          rw [if_pos rfl] at hmem
          obtain ⟨k, hk, hfk⟩ := List.mem_map.mp hmem
          rw [List.mem_range] at hk
          obtain ⟨hmax, hleaf⟩ := hu.mapped k hk
          obtain ⟨w', hw'⟩ := Option.ne_none_iff_exists'.mp hleaf
          have ha' : a < maxVa := by
            have := hr.small _ f hsome
            simp only [maxVa, pgSize] at this ⊢
            omega
          have hink : inPages va n (va + k * pgSize) := by
            unfold inPages
            simp only [pgSize]
            omega
          have hsame : pte2pa w' = pte2pa w := by
            rw [hf.pte2pa, ← hfk]
            unfold frameAt
            rw [hw', Option.getD_some]
          have hpage := hex rfl _ a w' w hmax ha' (hn ▸ hink) hw' hw hsame
          exact hout (hpage ▸ (hin _).mp hink)

/-- `user_vm_unmap` on a represented table. -/
theorem Represents.userVmUnmap {es : List Event} {free : Bool}
    (hr : Represents s root A own)
    (hex : free = true → Exclusive s root va size)
    (hrun : userVmUnmap root va size free s = (es, .ok () s')) :
    ∃ A' own', MapStep (.unmap va size free) A A' ∧
      Represents s' root A' own' := by
  have hwp : Wp (fun _ => False) (fun _ _ => True)
      (Pke.userVmUnmap root va size free) (fun _ s' => ∃ A' own',
        MapStep (.unmap va size free) A A' ∧ Represents s' root A' own') s := by
    unfold Pke.userVmUnmap
    rw [wp_ite]
    refine ⟨fun _ => (wp_halt _).mpr trivial, fun hal => ?_⟩
    have hal' : va % pgSize = 0 := not_not.mp hal
    show Wp _ _ (unmapLoop root free (pagesFrom va size) va) _ s
    have hframe : ∀ k w, va + k * pgSize < maxVa →
        leaf s.mem root (va + k * pgSize) = some w →
        ∃ f, FrameEntry own f w := by
      intro k w hmax hw
      have h39 : va + k * pgSize < 2 ^ 39 := Nat.lt_trans hmax (by decide)
      cases hmap : A.map ((va + k * pgSize) / pgSize) with
      | none =>
          rw [hr.unbound _ h39 hmap] at hw
          cases hw
      | some f =>
          obtain ⟨w', hw', hf⟩ := hr.bound _ f h39 hmap
          rw [hw'] at hw
          exact ⟨f, Option.some.inj hw ▸ hf⟩
    have hink : ∀ k < pagesFrom va size,
        inPages va (pagesFrom va size) (va + k * pgSize) := by
      intro k hk
      unfold inPages
      simp only [pgSize]
      omega
    have hinj : free = true → ∀ j k, j < k → k < pagesFrom va size →
        va + k * pgSize < maxVa → ∀ w w',
        leaf s.mem root (va + j * pgSize) = some w →
        leaf s.mem root (va + k * pgSize) = some w' → pte2pa w ≠ pte2pa w' := by
      intro hf j k hjk hk hmax w w' hw hw' hsame
      have hmaxj : va + j * pgSize < maxVa := by
        refine Nat.lt_of_le_of_lt ?_ hmax
        simp only [pgSize]
        omega
      have hpage := hex hf _ _ w w' hmaxj hmax (hink j (by omega)) hw hw' hsame
      simp only [pgSize] at hpage hal'
      omega
    refine (wp_unmapLoop _ va s own A.free hr.heap hr.tables ?_ hinj
      (Or.inr fun _ _ => trivial)).mono fun _ s' hres => ?_
    · intro _ k _ hmax w hw
      obtain ⟨f, hf⟩ := hframe k w hmax hw
      rw [← hf.pte2pa] at hf
      exact ⟨hf.used, hf.no_table, Or.inr fun _ _ => trivial⟩
    · obtain ⟨own', fl', hu, -⟩ := hres
      have hrep := hr.unbind hu rfl hex
      have hfr := hr.frames hal' hu.mapped
      have hlen : (freedFrames true s.mem root va (pagesFrom va size)).length
          = pagesFrom va size := by
        unfold freedFrames
        rw [if_pos rfl, List.length_map, List.length_range]
      have hlist := hu.list
      cases free with
      | false =>
          have hnil : fl' = A.free := hlist
          rw [hnil] at hrep
          exact ⟨_, own', .unmap hlen hfr, hrep⟩
      | true =>
          have hnd := hu.heap.pool.nodup
          rw [hlist] at hnd
          have hfreed := List.nodup_reverse.mp (List.nodup_append.mp hnd).1
          exact ⟨_, own', .unmapFree hlen hfr hfreed, hlist ▸ hrep⟩
  exact hwp.of_run hrun fun _ _ h => h

-- ==== whole runs

/-- Who owns what before the first call. -/
def startOwner (root : Nat) (fl : List Nat) (p : Nat) : Owner :=
  if p ∈ fl then .free else if p = root then .table 0 [] else .held

/-- A zeroed root holds the empty map. -/
theorem represents_start (hz : ZeroedRoot s root fl) :
    Represents s root ⟨fun _ => none, fl⟩ (startOwner root fl) := by
  have hroot : startOwner root fl root = .table 0 [] := by
    unfold startOwner
    rw [if_neg hz.unused, if_pos rfl]
  refine ⟨⟨hz.pool, fun p => ?_, fun p hp => ?_⟩, fun path t _ ht => ?_,
    fun p path hp => ?_, fun v f h => ?_, fun va _ _ => ?_, fun va f _ h => ?_⟩
  · unfold startOwner
    by_cases hmem : p ∈ fl
    · rw [if_pos hmem]
      exact iff_of_true rfl hmem
    · rw [if_neg hmem]
      refine iff_of_false ?_ hmem
      split <;> exact Owner.noConfusion
  · unfold startOwner at hp
    split at hp
    case isTrue hmem => exact hz.pool.page p hmem
    case isFalse =>
      split at hp
      case isTrue hpr => rw [hpr]; exact hz.page
      case isFalse => exact absurd rfl hp
  · obtain ⟨rfl, rfl⟩ := tableAt_zeroed hz.zero ht
    exact hroot
  · unfold startOwner at hp
    split at hp
    case isTrue => cases hp
    case isFalse =>
      split at hp
      case isTrue hpr =>
        injection hp with _ hnil
        rw [← hnil, hpr]
        exact ⟨by decide, rfl⟩
      case isFalse => cases hp
  · cases h
  · exact leaf_zeroed hz.zero
  · cases h

theorem VmRun.represents {calls : List VmCall} (hrun : VmRun root calls s₀ s) :
    ZeroedRoot s₀ root fl →
    ∃ A own, MapRun fl calls A ∧ Represents s root A own := by
  induction hrun with
  | start =>
      intro hz
      exact ⟨_, _, .start, represents_start hz⟩
  | map _ hM hcall ih =>
      intro hz
      obtain ⟨A, own, hA, hrep⟩ := ih hz
      obtain ⟨A', own', hstep, hrep'⟩ := hrep.mapPages hM hcall
      exact ⟨A', own', .snoc hA hstep, hrep'⟩
  | unmap _ hex hcall ih =>
      intro hz
      obtain ⟨A, own, hA, hrep⟩ := ih hz
      obtain ⟨A', own', hstep, hrep'⟩ := hrep.userVmUnmap hex hcall
      exact ⟨A', own', .snoc hA hstep, hrep'⟩

/-- A page table built by `map_pages` and `user_vm_unmap` calls from a
zeroed root refines the partial map those calls describe: every
translation is the map's, and the free list is the one the map keeps,
with exactly the frames given back pushed once each. -/
theorem page_table_refines_map {calls : List VmCall}
    (hz : ZeroedRoot s₀ root fl) (hrun : VmRun root calls s₀ s) :
    ∃ A : PageMap, MapRun fl calls A ∧ FreeList s A.free ∧
      ∀ va < maxVa, Returns (userVaToPa root va)
        (fun v s' => v = A.translate va ∧ s' = s) s := by
  obtain ⟨A, own, hA, hrep⟩ := hrun.represents hz
  exact ⟨A, hA, hrep.heap.pool.chain, fun va hva => hrep.translate hva⟩

/-- A kernel with the given memory and free list and no process. -/
def bareKernel (m : Mem) (head start stop : Nat) : Kernel :=
  { mem := m, gFreeMemList := head, freeMemStartAddr := start
    freeMemEndAddr := stop, gMemSize := 0, gKernelPagetable := 0
    ramdisk0BaseAddr := 0, procs := fun _ => blankProcess
    acct := fun _ => { tickCount := 0, totalTickCount := 0, totalMemCount := 0 }
    current := none, readyQueueHead := none, gUfreePage := 0, gTicks := 0
    hostFiles := ⟨0, Nat.succ_pos _⟩
    csr := { satp := 0, stvec := 0, sstatus := 0, sepc := 0 } }

/-- Six pages of memory: a zeroed root, two free pages, and three in use. -/
def sixPages : Kernel :=
  bareKernel (store (fun _ => 0) 8 0x2000 0x3000) 0x2000 0x1000 0x7000

theorem sixPages_list : FreeList sixPages [0x2000, 0x3000] := by
  refine ⟨by decide, by decide +kernel, ?_⟩
  show freeNext sixPages.mem 0x3000 = none
  decide +kernel

theorem sixPages_start : ZeroedRoot sixPages 0x1000 [0x2000, 0x3000] := by
  have hpage : ∀ p ∈ [0x1000, 0x2000, 0x3000], PageIn sixPages p := by
    intro p hp
    simp only [List.mem_cons, List.not_mem_nil, or_false] at hp
    rcases hp with rfl | rfl | rfl
    · exact ⟨by decide, by decide, by decide⟩
    · exact ⟨by decide, by decide, by decide⟩
    · exact ⟨by decide, by decide, by decide⟩
  refine ⟨⟨sixPages_list, fun p hp => ?_, by decide, by decide⟩, ?_, by decide,
    fun x hlo hhi => ?_⟩
  · exact hpage p (List.mem_cons_of_mem _ hp)
  · exact hpage _ (List.mem_cons_self ..)
  · show store (fun _ => 0) 8 0x2000 0x3000 x = 0
    simp only [pgSize] at hhi
    unfold store
    rw [if_neg (by omega)]

/-- Two pages mapped at address 0, to frames in use. -/
theorem sixPages_mappable : Mappable sixPages 0x1000 0 8192 0x5000 pteR := by
  have hrep := represents_start sixPages_start
  have htwo : pagesMeeting 0 8192 = 2 := by decide
  have hframe : ∀ k < pagesMeeting 0 8192,
      startOwner 0x1000 [0x2000, 0x3000] (0x5000 + k * pgSize) = .held := by
    intro k hk
    rw [htwo] at hk
    obtain rfl | rfl : k = 0 ∨ k = 1 := by omega
    · decide
    · decide
  refine ⟨by decide, by decide, by decide, by decide, by decide, by decide,
    Or.inl (by decide), fun k hk => ?_, fun k hk => ?_⟩
  · rintro ⟨fl, hfl, hmem⟩
    rw [Intrusive.Chain.unique hfl sixPages_list, ← hrep.heap.free, hframe k hk] at hmem
    cases hmem
  · rintro ⟨path, hlen, ht⟩
    have hown := hrep.tables path _ hlen ht
    rw [hframe k hk] at hown
    cases hown

/-- Frames of a map that binds no frame twice are mapped once. -/
theorem Represents.exclusive (hr : Represents s root A own)
    (hinj : ∀ v v' f, A.map v = some f → A.map v' = some f → v = v') :
    Exclusive s root va size := by
  have hmap : ∀ a w, a < maxVa → leaf s.mem root a = some w →
      A.map (a / pgSize) = some (pte2pa w) := by
    intro a w ha hw
    have h39 : a < 2 ^ 39 := Nat.lt_trans ha (by decide)
    cases hmap : A.map (a / pgSize) with
    | none =>
        rw [hr.unbound a h39 hmap] at hw
        cases hw
    | some f =>
        obtain ⟨w', hw', hf⟩ := hr.bound a f h39 hmap
        obtain rfl := Option.some.inj (hw'.symm.trans hw)
        rw [hf.pte2pa]
  intro a b w w' ha hb _ hw hw' heq
  exact hinj _ _ _ (hmap a w ha hw) (heq ▸ hmap b w' hb hw')

/-- A bound frame may be bound again. -/
theorem Represents.mappable (hr : Represents s root A own)
    (hmap : A.map (va / pgSize) = some pa) (hva : va < 2 ^ 39) {va' : Nat}
    (hrange : va' + 1 ≤ maxVa) : Mappable s root va' 1 pa pteR := by
  obtain ⟨w, -, hf⟩ := hr.bound va pa hva hmap
  have hone : pagesMeeting va' 1 = 1 := by
    unfold pagesMeeting
    rw [Nat.add_sub_cancel, Nat.sub_self]
  refine ⟨Nat.le_refl 1, hrange, hf.pos, hf.aligned, ?_, by decide,
    Or.inl (by decide), fun k hk => ?_, fun k hk => ?_⟩
  · rw [hone, Nat.one_mul]
    exact hf.bound
  all_goals
    rw [hone] at hk
    obtain rfl := Nat.lt_one_iff.mp hk
    rw [Nat.zero_mul, Nat.add_zero]
  · rintro ⟨fl, hfl, hmem⟩
    rw [hfl.unique hr.heap.pool.chain, ← hr.heap.free] at hmem
    exact hf.used hmem
  · rintro ⟨path, hlen, ht⟩
    exact hf.no_table path (hr.tables path _ hlen ht)

/-- Two pages mapped, the second unmapped and its frame given back, and a
third page bound to the frame of the first. -/
def threeCalls : List VmCall :=
  [.map 0 8192 0x5000 pteR 0, .unmap 4096 4096 true, .map 8192 1 0x5000 pteR 0]

/-- The state the first of them leaves, and the second. -/
def afterOne : Kernel := (mapPages 0x1000 0 8192 0x5000 pteR sixPages).2.state

def afterTwo : Kernel := (userVmUnmap 0x1000 4096 4096 true afterOne).2.state

theorem page_table_refines_map_three_calls :
    ∃ s A, VmRun 0x1000 threeCalls sixPages s ∧ MapRun [0x2000, 0x3000] threeCalls A ∧
      FreeList s A.free ∧ ∀ va < maxVa, Returns (userVaToPa 0x1000 va)
        (fun v s' => v = A.translate va ∧ s' = s) s := by
  have hcall₁ := run_eq_of_value (show (mapPages 0x1000 0 8192 0x5000 pteR
    sixPages).2.value = some 0 by decide +kernel)
  have hcall₂ := run_eq_of_value (show (userVmUnmap 0x1000 4096 4096 true
    afterOne).2.value = some () by decide +kernel)
  have hcall₃ := run_eq_of_value (show (mapPages 0x1000 8192 1 0x5000 pteR
    afterTwo).2.value = some 0 by decide +kernel)
  obtain ⟨A₁, own₁, hstep₁, hrep₁⟩ :=
    (represents_start sixPages_start).mapPages sixPages_mappable hcall₁
  have hmap₁ : A₁.map = bindPages (fun _ => none) 0 2 0x5000 := by
    cases hstep₁
    rfl
  have hex : Exclusive afterOne 0x1000 4096 4096 := by
    have hbound : ∀ v f, A₁.map v = some f → f = 0x5000 + v * 4096 := by
      intro v f hv
      rw [hmap₁] at hv
      unfold bindPages at hv
      split at hv
      case isTrue => exact (Option.some.inj hv).symm
      case isFalse => cases hv
    refine hrep₁.exclusive fun v v' f hv hv' => ?_
    have h := hbound v f hv
    have h' := hbound v' f hv'
    omega
  obtain ⟨A₂, own₂, hstep₂, hrep₂⟩ := hrep₁.userVmUnmap (fun _ => hex) hcall₂
  have hmap₂ : A₂.map (0 / pgSize) = some 0x5000 := by
    cases hstep₂
    show unbindPages A₁.map 1 1 0 = some 0x5000
    rw [hmap₁]
    rfl
  have hrun : VmRun 0x1000 threeCalls sixPages _ :=
    .map (.unmap (.map .start sixPages_mappable hcall₁) (fun _ => hex) hcall₂)
      (hrep₂.mappable hmap₂ (by decide) (by decide)) hcall₃
  obtain ⟨A, hA, hfl, hva⟩ := page_table_refines_map sixPages_start hrun
  exact ⟨_, A, hrun, hA, hfl, hva⟩

/-- Mapping two bytes across a page boundary to the last frame of the
address space: every condition holds with `pa + size` in place of the
end of the last frame, the call returns 0, and the second page is bound
to frame 0, so it translates to 0 and not to its frame plus offset. -/
theorem map_pages_last_frame_wraps :
    ∃ va size pa perm, 1 ≤ size ∧ va + size ≤ maxVa ∧ pa ≠ 0 ∧
      pa % pgSize = 0 ∧ pa + size < 2 ^ 64 ∧ perm < 2 ^ 10 ∧
      perm &&& pteR ≠ 0 ∧
      (mapPages 0x1000 va size pa perm sixPages).2.value = some 0 ∧
      (userVaToPa 0x1000 (va + 2)
        (mapPages 0x1000 va size pa perm sixPages).2.state).2.value = some 0 ∧
      u64 (pa + pgSize + (va + 2) % pgSize) = 1 :=
  ⟨4095, 2, 2 ^ 64 - 4096, pteR, by decide, by decide, by decide, by decide,
    by decide, by decide, by decide, by decide +kernel, by decide +kernel,
    by decide⟩

end Pke
