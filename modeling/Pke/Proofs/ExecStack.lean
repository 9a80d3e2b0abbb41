/-
The stack exec builds for the new process.

Every argument has a slot of eight bytes, the first one at the top of the
stack page and each next one below. `strcpy` writes an argument to its
slot whatever its length; one of eight characters or more goes on in the
slot above, which belongs to the argument before it, or for the first
argument past the end of the page.

# Two properties

- `exec_delivers_iff`: the process finds its arguments. It does exactly
  when each fits its slot, or what is too long of it is the argument
  before.
- `exec_argv_never_ends`: the array is not one that exec itself could
  take. Its last element is not NULL but the address of a slot that holds
  a zero.
-/
import Pke.Proofs.ExecArgs
import Pke.Proofs.Image
import Pke.Proofs.Ownership

namespace Pke

open ByteMem Traced

variable {cfg : Config} {s t t' : Kernel} {own : Nat → Owner} {fl : List Nat}
variable {c : Slot} {frame : Nat}

-- ==== the stack page

/-- The frame of the user stack. -/
def newStack (s : Kernel) (c : Slot) : Nat :=
  frameAt s.mem (s.procs c).pagetable (userStackTop - pgSize)

/-- The lowest address of the user stack. -/
abbrev stackBase : Nat := userStackTop - pgSize

theorem stackBase_page {off : Nat} (hoff : off < pgSize) :
    (stackBase + off) / 4096 = stackBase / 4096 ∧
      (stackBase + off) % pgSize = off ∧ stackBase + off < maxVa := by
  simp only [stackBase, pgSize, userStackTop, maxVa] at *
  omega

theorem lookupFrame_leaf (hh : Heap s own fl) {i root va : Nat}
    (hT : Tables s.mem own i root) (hva : va < maxVa) :
    lookupFrame s.mem root va = leafPa (leaf s.mem root va) := by
  have hlook : Returns (lookupPa root va)
      (fun pa _ => pa = leafPa (leaf s.mem root va)) s :=
    (wp_lookupPa hh hT hva).mpr rfl
  obtain ⟨es, pa, s', hrun, rfl⟩ := hlook.elim
  have hout : (lookupPa root va s).2 = .ok (lookupFrame s.mem root va) s :=
    lookupPa_run
  rw [hrun] at hout
  injection hout with hpa _
  exact hpa.symm

/-- The stack of a fresh process: its addresses are those of one frame. -/
structure StackPage (t : Kernel) (own : Nat → Owner) (c : Slot) (frame : Nat) :
    Prop where
  aligned : frame % pgSize = 0
  pos : 0 < frame
  lt : frame + pgSize ≤ 2 ^ 64
  owner : own frame = .frame c (stackBase / pgSize)
  translate : ∀ off < pgSize,
    userPa t.mem (t.procs c).pagetable (stackBase + off) = frame + off
  readable : ∀ off < pgSize,
    userByte t c (stackBase + off) = some (t.mem (frame + off))
  top : userByte t c userStackTop = none

/-- The trapframe is a page of the pool, which lies above the stack. -/
theorem FreshProcess.trapframe (hf : FreshProcess cfg t own fl c) :
    PageIn t (t.procs c).trapframe ∧ kernBase ≤ (t.procs c).trapframe := by
  have hpage : PageIn t (t.procs c).trapframe :=
    hf.pages.page _ (by rw [hf.space.trapframe]; exact Owner.noConfusion)
  have hlo := hpage.lo
  have hstart := hf.ranges.start
  have hend := cfg.etext_end
  have htext := cfg.trap_text
  have hbase := cfg.trap_base
  exact ⟨hpage, by omega⟩

theorem FreshProcess.stackPage (hf : FreshProcess cfg t own fl c) :
    StackPage t own c (newStack t c) := by
  have hS := hf.space
  have hseg := congrArg MappedRegion.segType hS.stack
  have hcov : ∀ off < pgSize,
      (regionAt t.mem (t.procs c).mappedInfo 0).Covers (stackBase + off) := by
    intro off hoff
    rw [hS.stack]
    exact inPages_one.mpr (stackBase_page hoff).1
  obtain ⟨w, hw, hl⟩ := hS.regions.mapped 0 (by rw [hf.total]; decide) .stack hseg
    (stackBase + 0) (hcov 0 (by decide))
  have hleaf : ∀ off < pgSize,
      leaf t.mem (t.procs c).pagetable (stackBase + off) = some w := by
    intro off hoff
    rw [← hw]
    apply leaf_page (by decide)
    · exact Nat.lt_trans (stackBase_page hoff).2.2 (by decide)
    · exact (stackBase_page hoff).1
  have hframe : newStack t c = pte2pa w := by
    unfold newStack frameAt
    rw [show leaf t.mem (t.procs c).pagetable (userStackTop - pgSize) = some w
      from hw]
    rfl
  have hown : own (pte2pa w) = .frame c (stackBase / pgSize) := hl.owner
  have hpage : PageIn t (pte2pa w) :=
    hf.pages.page _ (by rw [hown]; exact Owner.noConfusion)
  have hpos := hpage.pos hf.pages
  have hlt := hpage.lt hf.pages
  have hal := hpage.aligned
  rw [hframe]
  refine ⟨hal, hpos, ?_, hown, ?_, ?_, ?_⟩
  · simp only [pgSize] at hal ⊢
    omega
  · intro off hoff
    obtain ⟨-, hmod, hmax⟩ := stackBase_page hoff
    unfold userPa
    rw [lookupFrame_leaf hf.pages hS.regions.tables hmax, hleaf off hoff, hmod]
    have hread : ¬ (w &&& pteR = 0 ∧ w &&& pteW = 0) := by
      rintro ⟨hr, hwr⟩
      rcases hl.readable with h | h
      · exact h hr
      · exact h hwr
    unfold leafPa
    simp only [if_neg hread]
    rw [if_neg (Nat.ne_of_gt hpos)]
  · intro off hoff
    obtain ⟨-, hmod, -⟩ := stackBase_page hoff
    unfold userByte
    rw [hleaf off hoff, Option.bind_some, if_pos (hl.user nofun).1, hmod]
  · -- above the stack nothing is mapped
    have hnone : leaf t.mem (t.procs c).pagetable userStackTop = none := by
      refine hS.unmapped (by decide) (fun _ => by decide) fun k hk hc => ?_
      rw [hf.total] at hk
      have hcase : k = 0 ∨ k = 1 ∨ k = 2 := by omega
      rcases hcase with rfl | rfl | rfl
      · rw [hS.stack] at hc
        exact absurd (inPages_one.mp hc) (by decide)
      · rw [hS.context] at hc
        have hc := inPages_one.mp hc
        have hbase := hf.trapframe.2
        simp only [userStackTop, kernBase] at *
        omega
      · rw [hS.system] at hc
        have hc := inPages_one.mp hc
        have hbase := cfg.trap_base
        simp only [userStackTop, kernBase] at *
        omega
    unfold userByte
    rw [hnone]
    rfl

/-- Writing to a frame of the process leaves it fresh, and its stack where
it is. -/
theorem FreshProcess.write {p v : Nat} {m' : Mem}
    (hf : FreshProcess cfg s own fl c) (hp : own p = .frame c v)
    (hw : Within s.mem m' p) :
    FreshProcess cfg { s with mem := m' } own fl c ∧
      newStack { s with mem := m' } c = newStack s c := by
  have hpal : p % pgSize = 0 :=
    (hf.pages.page p (by rw [hp]; exact Owner.noConfusion)).aligned
  have hspace : Space cfg BelowStack { s with mem := m' } own c fun _ _ => False :=
    hf.space.writeFrame hf.pages (Or.inl hp) rfl hw
  refine ⟨⟨hf.pages.within hpal (by rw [hp]; exact Owner.noConfusion) hw,
    ⟨hf.ranges.start, hf.ranges.stop⟩, hspace, hf.total⟩, ?_⟩
  have hleaf : leaf m' (s.procs c).pagetable (userStackTop - pgSize)
      = leaf s.mem (s.procs c).pagetable (userStackTop - pgSize) := by
    apply leaf_congr hf.space.regions.tables
    intro path q hq
    apply hw.agree (hf.pages.table_page hq).aligned hpal
    intro heq
    rw [heq, hp] at hq
    cases hq
  unfold newStack frameAt
  rw [hleaf]

/-- The states differ in the stack page at most. -/
structure OnStack (frame : Nat) (s t : Kernel) : Prop where
  same : t = { s with mem := t.mem }
  within : Within s.mem t.mem frame

theorem OnStack.refl (frame : Nat) (s : Kernel) : OnStack frame s s :=
  ⟨rfl, Within.refl _ _⟩

theorem OnStack.trans {u : Kernel} (h : OnStack frame s t) (h' : OnStack frame t u) :
    OnStack frame s u := by
  refine ⟨?_, h.within.trans h'.within⟩
  rw [h'.same, h.same]

theorem OnStack.procs (h : OnStack frame s t) : t.procs = s.procs := by
  rw [h.same]

theorem onStack_put {n pa v : Nat} (hlo : frame ≤ pa)
    (hhi : pa + n ≤ frame + pgSize) :
    OnStack frame t { t with mem := store t.mem n pa v } :=
  ⟨rfl, within_store hlo hhi⟩

section Stack

variable (hf : FreshProcess cfg s own fl c)
include hf

theorem FreshProcess.onStack (h : OnStack (newStack s c) s t) :
    FreshProcess cfg t own fl c ∧ newStack t c = newStack s c := by
  rw [h.same]
  exact hf.write hf.stackPage.owner h.within

theorem FreshProcess.stackPage_of (h : OnStack (newStack s c) s t) :
    StackPage t own c (newStack s c) := by
  obtain ⟨hft, heq⟩ := hf.onStack h
  rw [← heq]
  exact hft.stackPage

theorem FreshProcess.translate {off : Nat} (h : OnStack (newStack s c) s t)
    (hoff : off < pgSize) :
    (userVaToPa (s.procs c).pagetable (stackBase + off) t).2
      = .ok (newStack s c + off) t := by
  have htr := (hf.stackPage_of h).translate off hoff
  rw [h.procs] at htr
  rw [userVaToPa_run, htr]

end Stack

-- ==== the loops

/-- The slot of argument `i`, in the new process. -/
def slotVa (i : Nat) : Nat := userStackTop - 8 * (i + 1)

/-- The same slot in the frame. -/
def slotPa (frame i : Nat) : Nat := frame + pgSize - 8 * (i + 1)

/-- The slots from `i` on, and one behind `n` of them. -/
def slotVas : Nat → Nat → List Nat
  | i, 0 => [slotVa i]
  | i, n + 1 => slotVa i :: slotVas (i + 1) n

theorem length_slotVas (i n : Nat) : (slotVas i n).length = n + 1 := by
  induction n generalizing i with
  | zero => rfl
  | succ n ih => rw [slotVas, List.length_cons, ih]

theorem getElem_slotVas {i n k : Nat} (hk : k ≤ n) :
    (slotVas i n)[k]? = some (slotVa (i + k)) := by
  induction n generalizing i k with
  | zero =>
      obtain rfl : k = 0 := Nat.le_zero.mp hk
      rfl
  | succ n ih =>
      cases k with
      | zero => rfl
      | succ k =>
          rw [slotVas, List.getElem?_cons_succ, ih (Nat.le_of_succ_le_succ hk),
            Nat.add_assoc, Nat.add_comm 1]

/-- The next doubleword down the stack. -/
theorem down_stack {off : Nat} (hlo : 8 ≤ off) (hhi : off ≤ pgSize) :
    u64 (stackBase + off + (2 ^ 64 - 8)) = stackBase + (off - 8) := by
  unfold u64
  simp only [stackBase, pgSize, userStackTop] at *
  omega

theorem slotVa_eq {i : Nat} (hi : i ≤ 30) :
    slotVa i = stackBase + (pgSize - 8 * (i + 1)) := by
  unfold slotVa
  simp only [stackBase, pgSize, userStackTop]
  omega

theorem slotPa_add (frame : Nat) {i : Nat} (hi : i ≤ 31) :
    slotPa frame i + 8 * (i + 1) = frame + pgSize ∧ frame ≤ slotPa frame i := by
  unfold slotPa
  simp only [pgSize]
  omega

theorem slotPa_eq (frame : Nat) {i : Nat} (hi : i ≤ 31) :
    frame + (pgSize - 8 * (i + 1)) = slotPa frame i := by
  unfold slotPa
  simp only [pgSize]
  omega

/-- The write stays in the stack page. -/
def ExecWrite.OnPage (frame : Nat) : ExecWrite → Prop
  | .store pa len => frame ≤ pa ∧ pa + len ≤ frame + pgSize
  | _ => True

variable {bad : ExecWrite → Prop} {E : Halt → Kernel → Prop}

theorem wpOn_put {n pa v : Nat} {Q : Unit → Kernel → Prop}
    (h : (ExecWrite.store pa n).OnPage frame ∨ bad (.store pa n))
    (hQ : frame ≤ pa → pa + n ≤ frame + pgSize →
      Q () { t with mem := store t.mem n pa v }) :
    WpOn (ExecWrite.OnPage frame) bad E (put n pa v) Q t := by
  refine WpOn.bind (wpOn_emit ?_)
  rcases h with hon | hb
  · exact Or.inr ⟨hon, wpOn_modify (hQ hon.1 hon.2)⟩
  · exact Or.inl hb

section Loops

variable (hf : FreshProcess cfg s own fl c)
include hf

/-- The first loop, by an invariant of the arguments already written. -/
theorem FreshProcess.wpOn_pushStrings {I : Nat → Kernel → Prop}
    {J : Kernel → Prop}
    (hon : ∀ i t, I i t → OnStack (newStack s c) s t) :
    ∀ (srcs : List Nat) (i : Nat) (t : Kernel), i + srcs.length ≤ 30 → I i t →
      (∀ j src t, srcs[j]? = some src → I (i + j) t →
        WpOn (ExecWrite.OnPage (newStack s c)) bad E
          (strcpy (2 ^ 64) (slotPa (newStack s c) (i + j)) src)
          (fun _ t' => I (i + j + 1) t') t) →
      (∀ t, I (i + srcs.length) t → J { t with
        mem := store t.mem 8 (slotPa (newStack s c) (i + srcs.length)) 0 }) →
      WpOn (ExecWrite.OnPage (newStack s c)) bad E
        (pushStrings (s.procs c).pagetable srcs i (stackBase + (pgSize - 8 * i)))
        (fun r t' => J t' ∧
          r = (slotVa (i + srcs.length), slotVas i srcs.length)) t := by
  have hslot : ∀ i ≤ 30, u64 (stackBase + (pgSize - 8 * i) + (2 ^ 64 - 8))
      = stackBase + (pgSize - 8 * (i + 1)) := by
    intro i hi
    rw [down_stack (by simp only [pgSize]; omega) (by simp only [pgSize]; omega)]
    congr 1
  have hpa : ∀ i ≤ 30, newStack s c + (pgSize - 8 * (i + 1))
      = slotPa (newStack s c) i :=
    fun i hi => slotPa_eq _ (Nat.le_succ_of_le hi)
  have htranslate : ∀ i ≤ 30, ∀ t, I i t →
      (userVaToPa (s.procs c).pagetable (stackBase + (pgSize - 8 * (i + 1))) t).2
        = .ok (slotPa (newStack s c) i) t := by
    intro i hi t hI
    rw [← hpa i hi]
    apply hf.translate (hon i t hI)
    simp only [pgSize]
    omega
  intro srcs
  induction srcs with
  | nil =>
      intro i t hi hI _ hJ
      rw [List.length_nil, Nat.add_zero] at hi hJ
      unfold pushStrings
      simp only [hslot i hi]
      refine WpOn.bind (wpOn_silent (htranslate i hi t hI) ?_)
      refine WpOn.bind (wpOn_put (Or.inl ?_) fun _ _ => ?_)
      · unfold ExecWrite.OnPage slotPa
        simp only [pgSize]
        omega
      · refine WpOn.bind (wpOn_emit (Or.inr ⟨trivial, wpOn_pure ⟨?_, ?_⟩⟩))
        · exact hJ t hI
        · simp only [List.length_nil, slotVas, Nat.add_zero, slotVa_eq hi]
  | cons src srcs ih =>
      intro i t hi hI hstep hJ
      rw [List.length_cons] at hi
      unfold pushStrings
      simp only [hslot i (by omega)]
      refine WpOn.bind (wpOn_silent (htranslate i (by omega) t hI) ?_)
      refine WpOn.bind ((hstep 0 src t rfl hI).mono fun _ t₁ hI₁ => ?_)
      refine WpOn.bind (wpOn_emit (Or.inr ⟨trivial, ?_⟩))
      refine WpOn.bind ((ih (i + 1) t₁ (by omega) hI₁ ?_ ?_).mono fun r t₂ hr => ?_)
      · intro j src' t hj hI
        have h := hstep (j + 1) src' t hj
        rw [show i + (j + 1) = i + 1 + j by omega] at h
        exact h hI
      · intro t hI
        have h := hJ t
        rw [List.length_cons, show i + (srcs.length + 1) = i + 1 + srcs.length by
          omega] at h
        exact h hI
      · obtain ⟨hJ₂, rfl⟩ := hr
        refine wpOn_pure ⟨hJ₂, ?_⟩
        rw [List.length_cons, slotVas, slotVa_eq (i := i) (by omega),
          show i + (srcs.length + 1) = i + 1 + srcs.length by omega]

/-- The second loop. -/
theorem FreshProcess.wpOn_pushPointers :
    ∀ (ps : List Nat) (off : Nat) (t : Kernel), OnStack (newStack s c) s t →
      8 * ps.length ≤ off → off ≤ pgSize → (∀ p ∈ ps, p < 2 ^ 64) →
      WpOn (ExecWrite.OnPage (newStack s c)) bad E
        (pushPointers (s.procs c).pagetable ps (stackBase + off))
        (fun r t' => r = stackBase + (off - 8 * ps.length) ∧
          OnStack (newStack s c) s t' ∧
          Agree t.mem t'.mem (newStack s c + off) (newStack s c + pgSize) ∧
          ∀ k p, ps[k]? = some p →
            load t'.mem 8 (newStack s c + off - 8 * (k + 1)) = p) t := by
  intro ps
  induction ps with
  | nil =>
      intro off t hon _ _ _
      exact wpOn_pure ⟨rfl, hon, Agree.refl _ _ _, nofun⟩
  | cons p ps ih =>
      intro off t hon hlo hhi hp
      rw [List.length_cons] at hlo
      have hlt : off - 8 < pgSize := by
        simp only [pgSize] at *
        omega
      unfold pushPointers
      simp only [down_stack (show 8 ≤ off by omega) hhi]
      refine WpOn.bind (wpOn_silent (hf.translate hon hlt) ?_)
      refine WpOn.bind (wpOn_put (Or.inl ⟨Nat.le_add_right _ _, by omega⟩)
        fun h₁ h₂ => ?_)
      refine (ih (off - 8) _ (hon.trans (onStack_put h₁ h₂)) (by omega) (by omega)
        fun q hq => hp q (List.mem_cons_of_mem p hq)).mono fun r t₂ hres => ?_
      obtain ⟨hr, hon₂, hag, hload⟩ := hres
      have hkeep : Agree t.mem t₂.mem (newStack s c + off)
          (newStack s c + pgSize) := by
        refine Agree.trans ?_ (hag.mono (by omega) (Nat.le_refl _))
        exact store_agree t.mem (Or.inl (by omega))
      refine ⟨?_, hon₂, hkeep, fun k q hq => ?_⟩
      · rw [hr, List.length_cons]
        congr 1
        omega
      · cases k with
        | zero =>
            obtain rfl : p = q := Option.some.inj hq
            have hword : load t₂.mem 8 (newStack s c + (off - 8))
                = load (store t.mem 8 (newStack s c + (off - 8)) p) 8
                    (newStack s c + (off - 8)) := by
              apply load_agree
              exact hag.mono (Nat.le_refl _) (by omega)
            rw [show newStack s c + off - 8 * (0 + 1)
              = newStack s c + (off - 8) by omega, hword, load_store]
            exact Nat.mod_eq_of_lt (hp p List.mem_cons_self)
        | succ k =>
            have h := hload k q hq
            rw [← h]
            congr 1
            omega

/-- The stack is laid out for `n` arguments, below the slots of `t₁`. -/
structure Laid (cfg : Config) (own : Nat → Owner) (fl : List Nat) (c : Slot)
    (n frame : Nat) (s t₁ t : Kernel) : Prop where
  fresh : FreshProcess cfg t own fl c
  stack : newStack t c = frame
  procs : t.procs = s.procs
  count : load t.mem 8 ((t.procs c).trapframe + tfA0) = n
  argv : load t.mem 8 ((t.procs c).trapframe + tfA1)
    = stackBase + (pgSize - 16 * (n + 1))
  sp : load t.mem 8 ((t.procs c).trapframe + tfSp)
    = stackBase + (pgSize - 16 * (n + 1))
  slots : Agree t₁.mem t.mem (slotPa frame n) (frame + pgSize)
  pointers : ∀ i ≤ n,
    load t.mem 8 (frame + (pgSize - 16 * (n + 1)) + 8 * i) = slotVa i

/-- The stack-building code, by an invariant of its first loop. -/
theorem FreshProcess.wpOn_buildStack {I : Nat → Kernel → Prop}
    {J : Kernel → Prop} {srcs : List Nat}
    (hsp : load s.mem 8 ((s.procs c).trapframe + tfSp) = userStackTop)
    (hlen : srcs.length ≤ maxArgs)
    (hon : ∀ i t, I i t → OnStack (newStack s c) s t)
    (hJon : ∀ t, J t → OnStack (newStack s c) s t) (hI : I 0 s)
    (hstep : ∀ j src t, srcs[j]? = some src → I j t →
      WpOn (ExecWrite.OnPage (newStack s c)) bad E
        (strcpy (2 ^ 64) (slotPa (newStack s c) j) src)
        (fun _ t' => I (j + 1) t') t)
    (hJ : ∀ t, I srcs.length t → J { t with
      mem := store t.mem 8 (slotPa (newStack s c) srcs.length) 0 }) :
    WpOn (ExecWrite.OnPage (newStack s c)) bad E (buildStack c srcs) (fun _ t' =>
      ∃ t₁, J t₁ ∧ Laid cfg own fl c srcs.length (newStack s c) s t₁ t') s := by
  have hn : srcs.length ≤ 10 := hlen
  generalize hcount : srcs.length = n at hn
  have hproc : (proc c s).2 = .ok (s.procs c) s := rfl
  have hload : (ld ((s.procs c).trapframe + tfSp) s).2 = .ok userStackTop s := by
    rw [← hsp]
    rfl
  unfold buildStack
  refine WpOn.bind (wpOn_silent hproc (WpOn.bind (wpOn_silent hload ?_)))
  have htop : userStackTop = stackBase + (pgSize - 8 * 0) := by decide
  rw [htop]
  refine WpOn.bind ((hf.wpOn_pushStrings (J := J) hon srcs 0 s (by omega) hI
    ?_ ?_).mono fun r t₁ hres => ?_)
  · intro j src t hj hIj
    rw [Nat.zero_add] at hIj ⊢
    exact hstep j src t hj hIj
  · intro t hIt
    rw [Nat.zero_add] at hIt ⊢
    exact hJ t hIt
  obtain ⟨hJ₁, rfl⟩ := hres
  have hon₁ := hJon t₁ hJ₁
  simp only [Nat.zero_add, hcount]
  rw [slotVa_eq (by omega)]
  have hlen' : (slotVas 0 n).reverse.length = n + 1 := by
    rw [List.length_reverse, length_slotVas]
  have hslot : ∀ k ≤ n, (slotVas 0 n).reverse[k]? = some (slotVa (n - k)) := by
    intro k hk
    rw [List.getElem?_reverse (by rw [length_slotVas]; omega), length_slotVas,
      getElem_slotVas (by omega), Nat.zero_add]
    congr 2
  refine WpOn.bind ((hf.wpOn_pushPointers (slotVas 0 n).reverse
    (pgSize - 8 * (n + 1)) t₁ hon₁ (by simp only [hlen', pgSize]; omega)
    (Nat.sub_le _ _) ?_).mono fun r t₂ hres => ?_)
  · intro p hp
    obtain ⟨k, hk, rfl⟩ := List.mem_iff_getElem.mp hp
    have h := hslot k (by rw [hlen'] at hk; omega)
    rw [List.getElem?_eq_getElem hk] at h
    rw [Option.some.inj h]
    unfold slotVa
    simp only [userStackTop]
    omega
  obtain ⟨rfl, hon₂, hag, hptr⟩ := hres
  rw [hlen', show pgSize - 8 * (n + 1) - 8 * (n + 1) = pgSize - 16 * (n + 1) by
    omega]
  -- the registers
  obtain ⟨hf₂, hstack₂⟩ := hf.onStack hon₂
  have htf : own (s.procs c).trapframe
      = .frame c ((s.procs c).trapframe / pgSize) := hf.space.trapframe
  have hpage := hf.stackPage
  obtain ⟨htfpage, htfbase⟩ := hf.trapframe
  have hne : newStack s c ≠ (s.procs c).trapframe := by
    intro heq
    have hown := hpage.owner
    rw [heq, htf] at hown
    injection hown with _ hvpn
    simp only [stackBase, userStackTop, kernBase, pgSize] at *
    omega
  have hal := htfpage.aligned
  have hprocs₂ := hon₂.procs
  generalize htfa : (s.procs c).trapframe = tf at *
  generalize hspa : stackBase + (pgSize - 16 * (n + 1)) = sp
  have hsplt : sp < 256 ^ 8 := by
    rw [← hspa]
    simp only [stackBase, userStackTop, pgSize]
    omega
  refine WpOn.bind (wpOn_silent rfl (WpOn.bind (wpOn_silent rfl
    (wpOn_silent rfl ?_))))
  have hw : Within t₂.mem (store (store (store t₂.mem 8 (tf + tfSp) sp) 8
      (tf + tfA0) n) 8 (tf + tfA1) sp) tf := by
    refine ((within_store ?_ ?_).trans (within_store ?_ ?_)).trans
      (within_store ?_ ?_)
    all_goals simp only [tfSp, tfA0, tfA1]; omega
  obtain ⟨hf₃, hstack₃⟩ := hf₂.write htf hw
  have hkeep := hw.agree hpage.aligned hal hne
  have htf₂ : (t₂.procs c).trapframe = tf := by rw [hprocs₂, htfa]
  refine ⟨t₁, hJ₁, hf₃, hstack₃.trans hstack₂, hprocs₂, ?_, ?_, ?_, ?_, ?_⟩
  · show load (store (store (store t₂.mem 8 (tf + tfSp) sp) 8 (tf + tfA0) n) 8
      (tf + tfA1) sp) 8 ((t₂.procs c).trapframe + tfA0) = n
    rw [htf₂, load_agree (store_agree _ (Or.inr (by simp only [tfA0, tfA1]; omega))),
      load_store]
    exact Nat.mod_eq_of_lt (Nat.lt_of_le_of_lt hn (by decide))
  · rw [hspa]
    show load (store (store (store t₂.mem 8 (tf + tfSp) sp) 8 (tf + tfA0) n) 8
      (tf + tfA1) sp) 8 ((t₂.procs c).trapframe + tfA1) = sp
    rw [htf₂, load_store]
    exact Nat.mod_eq_of_lt hsplt
  · rw [hspa]
    show load (store (store (store t₂.mem 8 (tf + tfSp) sp) 8 (tf + tfA0) n) 8
      (tf + tfA1) sp) 8 ((t₂.procs c).trapframe + tfSp) = sp
    rw [htf₂, load_agree (store_agree _ (Or.inr (by simp only [tfSp, tfA1]; omega))),
      load_agree (store_agree _ (Or.inr (by simp only [tfSp, tfA0]; omega))),
      load_store]
    exact Nat.mod_eq_of_lt hsplt
  · rw [← slotPa_eq _ (show n ≤ 31 by omega)]
    exact hag.trans (hkeep.mono (Nat.le_add_right _ _) (Nat.le_refl _))
  · intro i hi
    have h := hptr (n - i) _ (hslot (n - i) (by omega))
    rw [show n - (n - i) = i by omega,
      show newStack s c + (pgSize - 8 * (n + 1)) - 8 * (n - i + 1)
        = newStack s c + (pgSize - 16 * (n + 1)) + 8 * i by
          simp only [pgSize]
          omega] at h
    rw [← h]
    apply load_agree
    apply hkeep.mono
    · omega
    · simp only [pgSize]
      omega

end Loops

-- ==== strings

/-- `strcpy` as far as it stays in the page. -/
theorem wpOn_strcpy_any {fuel dst src : Nat} (hon : OnStack frame s t) :
    WpOn (ExecWrite.OnPage frame) (fun e => ¬ e.OnPage frame) (fun _ _ => True)
      (strcpy fuel dst src) (fun _ t' => OnStack frame s t') t := by
  induction fuel generalizing dst src t with
  | zero => exact wpOn_halt trivial
  | succ fuel ih =>
      unfold strcpy
      refine WpOn.bind (wpOn_get (WpOn.bind (wpOn_put (em _) fun hlo hhi => ?_)))
      have hon' := hon.trans (onStack_put (v := (t.mem src).toNat) hlo hhi)
      by_cases hz : t.mem src = 0
      · rw [if_pos hz]
        exact wpOn_pure hon'
      · rw [if_neg hz]
        exact ih hon'

/-- `strcpy` to the page, of a string below it or off the page. -/
theorem wpOn_strcpy_string {fuel dst src : Nat} {l : List UInt8}
    (hl : StringAt t.mem src l)
    (hsrc : src + l.length < dst ∨ frame + pgSize ≤ src) (hlo : frame ≤ dst)
    (hhi : dst + l.length < frame + pgSize) (hfuel : l.length < fuel) :
    WpOn (ExecWrite.OnPage frame) bad E (strcpy fuel dst src) (fun _ t' =>
      t' = { t with mem := copy t.mem dst src (l.length + 1) }) t := by
  induction l generalizing fuel dst src t with
  | nil =>
      cases fuel with
      | zero => cases hfuel
      | succ fuel =>
          have hz : t.mem src = 0 := hl
          unfold strcpy
          refine WpOn.bind (wpOn_get (WpOn.bind (wpOn_put (Or.inl ⟨hlo, hhi⟩)
            fun _ _ => ?_)))
          rw [if_pos hz]
          apply wpOn_pure
          rw [List.length_nil, Nat.zero_add, copy_one]
  | cons b l ih =>
      cases fuel with
      | zero => cases hfuel
      | succ fuel =>
          obtain ⟨hb, hm, htail⟩ := hl
          rw [List.length_cons] at hsrc hhi hfuel
          unfold strcpy
          refine WpOn.bind (wpOn_get (WpOn.bind (wpOn_put
            (Or.inl ⟨hlo, by omega⟩) fun _ _ => ?_)))
          rw [if_neg (by rw [hm]; exact hb)]
          have hag : Agree t.mem (store t.mem 1 dst (t.mem src).toNat) (src + 1)
              (src + 1 + l.length + 1) := store_agree _ (by omega)
          refine (ih (htail.agree hag) (by omega) (by omega) (by omega)
            (by omega)).mono fun _ t' ht' => ?_
          have hdisj : dst < src + 1 ∨ src + 1 + (l.length + 1) ≤ dst := by omega
          rw [ht', List.length_cons, ← copy_succ t.mem hdisj]

/-- User mode finds the string `l` at `va`. -/
def UserString (t : Kernel) (c : Slot) (va : Nat) (l : List UInt8) : Prop :=
  (∀ b ∈ l, b ≠ 0) ∧ ∀ k ≤ l.length, userByte t c (va + k) = some (l.getD k 0)

/-- The doubleword user mode finds at `va`. -/
def userWord (t : Kernel) (c : Slot) (va : Nat) : Option Nat :=
  if (List.range 8).all fun k => (userByte t c (va + k)).isSome then
    some (load (fun a => (userByte t c a).getD 0) 8 va)
  else none

theorem UserString.stringAt {va : Nat} {l : List UInt8}
    (h : UserString t c va l) :
    StringAt (fun a => (userByte t c a).getD 0) va l := by
  refine stringAt_iff.mpr ⟨h.1, fun k hk => ?_⟩
  simp only [h.2 k hk, Option.getD_some]

theorem StackPage.userString {off : Nat} {l : List UInt8}
    (hp : StackPage t own c frame) (hoff : off + l.length < pgSize)
    (h : StringAt t.mem (frame + off) l) : UserString t c (stackBase + off) l := by
  obtain ⟨hne, hbytes⟩ := stringAt_iff.mp h
  refine ⟨hne, fun k hk => ?_⟩
  rw [Nat.add_assoc, hp.readable (off + k) (by omega), ← Nat.add_assoc, hbytes k hk]

theorem StackPage.userWord {off : Nat} (hp : StackPage t own c frame)
    (hoff : off + 8 ≤ pgSize) :
    userWord t c (stackBase + off) = some (load t.mem 8 (frame + off)) := by
  have hbyte : ∀ k < 8, userByte t c (stackBase + off + k)
      = some (t.mem (frame + off + k)) := by
    intro k hk
    rw [Nat.add_assoc, hp.readable (off + k) (by omega), ← Nat.add_assoc]
  unfold Pke.userWord
  have hall : (List.range 8).all fun k =>
      (userByte t c (stackBase + off + k)).isSome := by
    rw [List.all_eq_true]
    intro k hk
    rw [hbyte k (List.mem_range.mp hk)]
    rfl
  rw [if_pos hall]
  refine congrArg some (load_shift fun k hk => ?_)
  simp only [hbyte k hk, Option.getD_some]

-- ==== delivery

/-- The process has its arguments: their number in `a0`, and in `a1`, as
in `sp`, the address of an array of pointers to them. -/
structure ArgvFound (t : Kernel) (c : Slot) (args : List (List UInt8)) :
    Prop where
  count : load t.mem 8 ((t.procs c).trapframe + tfA0) = args.length
  sp : load t.mem 8 ((t.procs c).trapframe + tfA1)
    = load t.mem 8 ((t.procs c).trapframe + tfSp)
  strings : ∀ (i : Nat) (l : List UInt8), args[i]? = some l → ∃ p,
    userWord t c (load t.mem 8 ((t.procs c).trapframe + tfA1) + 8 * i) = some p ∧
    UserString t c p l

/-- The stack-building code returns, has written to the stack page only,
and the process has its arguments. -/
def Delivers (c : Slot) (srcs : List Nat) (args : List (List UInt8))
    (s : Kernel) : Prop :=
  ∃ es t, buildStack c srcs s = (es, .ok () t) ∧
    (∀ e ∈ es, e.OnPage (newStack s c)) ∧ ArgvFound t c args

/-- The saved strings are intact, and not where the slots are. -/
structure Saved (s : Kernel) (c : Slot) (srcs : List Nat)
    (args : List (List UInt8)) : Prop where
  length : srcs.length = args.length
  string : ∀ (i src : Nat) (l : List UInt8), srcs[i]? = some src →
    args[i]? = some l →
    StringAt s.mem src l ∧
    (src + l.length < slotPa (newStack s c) args.length ∨
      newStack s c + pgSize ≤ src)

/-- Each argument fits its slot, or what is too long of it is the argument
before. -/
def SlotsHold (args : List (List UInt8)) : Prop :=
  ∀ (i : Nat) (l : List UInt8), args[i]? = some l →
    l.length < 8 ∨ ∃ j, i = j + 1 ∧ args[j]? = some (l.drop 8)

theorem SlotsHold.length_le {args : List (List UInt8)} (h : SlotsHold args) :
    ∀ (i : Nat) (l : List UInt8), args[i]? = some l →
      l.length < 8 * (i + 1) := by
  intro i
  induction i with
  | zero =>
      intro l hl
      rcases h 0 l hl with hlen | ⟨j, hj, _⟩
      · omega
      · cases hj
  | succ i ih =>
      intro l hl
      rcases h (i + 1) l hl with hlen | ⟨j, hj, hprev⟩
      · omega
      · obtain rfl : i = j := Nat.succ.inj hj
        have hlt := ih _ hprev
        rw [List.length_drop] at hlt
        omega

/-- Pushing an argument leaves the slots above as they are: what is written
to them is what they hold. -/
theorem agree_above {m : Mem} {src : Nat} {l : List UInt8} (dst : Nat)
    (hl : StringAt m src l)
    (hprev : l.length < 8 ∨ StringAt m (dst + 8) (l.drop 8)) (hi : Nat) :
    Agree m (copy m dst src (l.length + 1)) (dst + 8) hi := by
  intro x hlo _
  unfold copy
  by_cases hx : dst ≤ x ∧ x < dst + (l.length + 1)
  · rw [if_pos hx]
    have hprev := hprev.resolve_left (by omega)
    obtain ⟨-, hbytes⟩ := stringAt_iff.mp hl
    obtain ⟨-, habove⟩ := stringAt_iff.mp hprev
    have h := habove (x - (dst + 8)) (by rw [List.length_drop]; omega)
    rw [show dst + 8 + (x - (dst + 8)) = x by omega, List.getD_eq_getElem?_getD,
      List.getElem?_drop, show 8 + (x - (dst + 8)) = x - dst by omega,
      ← List.getD_eq_getElem?_getD] at h
    rw [hbytes (x - dst) (by omega), h]
  · rw [if_neg hx]

section Delivery

variable {srcs : List Nat} {args : List (List UInt8)}

theorem lt_of_getElem {j : Nat} {l : List UInt8} (h : args[j]? = some l) :
    j < args.length :=
  (List.getElem?_eq_some_iff.mp h).1

/-- The arguments before `i` are in their slots, and nothing is below. -/
structure Written (frame : Nat) (args : List (List UInt8)) (s : Kernel) (i : Nat)
    (t : Kernel) : Prop where
  on : OnStack frame s t
  below : ∀ x, x + 8 * i < frame + pgSize → t.mem x = s.mem x
  strings : ∀ (j : Nat) (l : List UInt8), j < i → args[j]? = some l →
    StringAt t.mem (slotPa frame j) l

/-- A string that is not where the slots are is still there. -/
theorem Written.source {i src : Nat} {l : List UInt8}
    (hw : Written frame args s i t) (hi : i ≤ 30) (hl : StringAt s.mem src l)
    (hsrc : src + l.length < slotPa frame i ∨ frame + pgSize ≤ src) :
    StringAt t.mem src l := by
  obtain ⟨hadd, -⟩ := slotPa_add frame (show i ≤ 31 by omega)
  apply hl.agree
  intro x hlo hhi
  rcases hsrc with h | h
  · exact hw.below x (by omega)
  · exact hw.on.within x (Or.inr (Nat.le_trans h hlo))

/-- The next argument is pushed. -/
theorem Written.push {j src : Nat} {l : List UInt8}
    (hw : Written frame args s j t) (hj : j ≤ 30) (hfit : SlotsHold args)
    (hl : args[j]? = some l) (hstr : StringAt t.mem src l) :
    Written frame args s (j + 1)
      { t with mem := copy t.mem (slotPa frame j) src (l.length + 1) } := by
  have hlt := hfit.length_le j l hl
  obtain ⟨hadd, hlo⟩ := slotPa_add frame (show j ≤ 31 by omega)
  have hprev : l.length < 8 ∨ StringAt t.mem (slotPa frame j + 8) (l.drop 8) := by
    refine (hfit j l hl).imp_right ?_
    rintro ⟨k, rfl, hk⟩
    obtain ⟨hadd', -⟩ := slotPa_add frame (show k ≤ 31 by omega)
    rw [show slotPa frame (k + 1) + 8 = slotPa frame k by omega]
    exact hw.strings k _ (Nat.lt_succ_self k) hk
  have habove := agree_above (slotPa frame j) hstr hprev (frame + pgSize)
  refine ⟨hw.on.trans ⟨rfl, within_copy hlo (by simp only [pgSize] at hadd; omega)⟩,
    fun x hx => ?_, fun k l' hk hl' => ?_⟩
  · rw [← hw.below x (by omega)]
    exact copy_agree t.mem (Or.inr (by omega)) x (Nat.le_refl x) (Nat.lt_succ_self x)
  · rcases Nat.lt_succ_iff_lt_or_eq.mp hk with hk | rfl
    · -- an argument above
      have hlt' := hfit.length_le k l' hl'
      obtain ⟨hadd', -⟩ := slotPa_add frame (show k ≤ 31 by omega)
      apply (hw.strings k l' hk hl').agree
      exact habove.mono (by omega) (by omega)
    · obtain rfl : l = l' := Option.some.inj (hl.symm.trans hl')
      exact hstr.copy

/-- The slot behind the last argument is cleared. -/
theorem Written.clear (hw : Written frame args s args.length t)
    (hn : args.length ≤ 30) (hfit : SlotsHold args) :
    Written frame args s (args.length + 1)
      { t with mem := store t.mem 8 (slotPa frame args.length) 0 } := by
  obtain ⟨hadd, hlo⟩ := slotPa_add frame (show args.length ≤ 31 by omega)
  refine ⟨hw.on.trans (onStack_put hlo (by omega)), fun x hx => ?_,
    fun k l _ hl => ?_⟩
  · rw [← hw.below x (by omega)]
    exact store_agree t.mem (Or.inr (by omega)) x (Nat.le_refl x)
      (Nat.lt_succ_self x)
  · have hk := lt_of_getElem hl
    have hlt := hfit.length_le k l hl
    obtain ⟨hadd', -⟩ := slotPa_add frame (show k ≤ 31 by omega)
    apply (hw.strings k l hk hl).agree
    exact store_agree t.mem (Or.inl (by omega))

variable (hf : FreshProcess cfg s own fl c)
  (hsp : load s.mem 8 ((s.procs c).trapframe + tfSp) = userStackTop)
  (hn : args.length ≤ maxArgs) (hsaved : Saved s c srcs args)
include hf hsp hn hsaved

/-- What the stack holds for arguments that fit their slots. -/
theorem buildStack_fits (hfit : SlotsHold args) :
    ∃ es t t₁, buildStack c srcs s = (es, .ok () t) ∧
      (∀ e ∈ es, e.OnPage (newStack s c)) ∧
      Laid cfg own fl c args.length (newStack s c) s t₁ t ∧
      (∀ (i : Nat) (l : List UInt8), args[i]? = some l →
        StringAt t.mem (slotPa (newStack s c) i) l) ∧
      load t.mem 8 (slotPa (newStack s c) args.length) = 0 := by
  have hlen := hsaved.length
  have hn10 : args.length ≤ 10 := hn
  have hstep : ∀ j src t, srcs[j]? = some src →
      Written (newStack s c) args s j t →
      WpOn (ExecWrite.OnPage (newStack s c)) (fun _ => False) (fun _ _ => False)
        (strcpy (2 ^ 64) (slotPa (newStack s c) j) src)
        (fun _ t' => Written (newStack s c) args s (j + 1) t') t := by
    intro j src t hj hw
    have hjlt : j < srcs.length := (List.getElem?_eq_some_iff.mp hj).1
    obtain ⟨l, hl⟩ : ∃ l, args[j]? = some l :=
      ⟨_, List.getElem?_eq_getElem (by omega)⟩
    obtain ⟨hstr, hoff⟩ := hsaved.string j src l hj hl
    have hlt := hfit.length_le j l hl
    obtain ⟨hadd, hlo⟩ := slotPa_add (newStack s c) (show j ≤ 31 by omega)
    obtain ⟨hadd', -⟩ := slotPa_add (newStack s c) (show args.length ≤ 31 by omega)
    have hsrc : src + l.length < slotPa (newStack s c) j ∨
        newStack s c + pgSize ≤ src := hoff.imp_left fun h => by omega
    have hstr := hw.source (by omega) hstr hsrc
    have hfuel : l.length < 2 ^ 64 :=
      Nat.lt_of_lt_of_le (show l.length < 100 by omega) (by decide)
    refine (wpOn_strcpy_string hstr hsrc hlo (by omega) hfuel).mono ?_
    intro _ t' ht'
    rw [ht']
    exact hw.push (by omega) hfit hl hstr
  have hzero : ∀ t, Written (newStack s c) args s srcs.length t →
      let t' := { t with mem := store t.mem 8 (slotPa (newStack s c) srcs.length) 0 }
      Written (newStack s c) args s (args.length + 1) t' ∧
      load t'.mem 8 (slotPa (newStack s c) args.length) = 0 := by
    intro t hw
    rw [hlen] at hw ⊢
    exact ⟨hw.clear (by omega) hfit, load_store ..⟩
  obtain ⟨es, ⟨⟩, t, hrun, hes, t₁, ⟨hw, hclear⟩, hlaid⟩ := WpOn.elim
    (hf.wpOn_buildStack (I := Written (newStack s c) args s)
      (J := fun t' => Written (newStack s c) args s (args.length + 1) t' ∧
        load t'.mem 8 (slotPa (newStack s c) args.length) = 0) hsp
      (by rw [hlen]; exact hn) (fun _ _ h => h.on) (fun _ h => h.1.on)
      ⟨OnStack.refl _ _, fun _ _ => rfl, nofun⟩ hstep hzero)
  rw [hlen] at hlaid
  obtain ⟨hadd, -⟩ := slotPa_add (newStack s c) (show args.length ≤ 31 by omega)
  refine ⟨es, t, t₁, hrun, hes, hlaid, fun i l hl => ?_, ?_⟩
  · have hi := lt_of_getElem hl
    have hlt := hfit.length_le i l hl
    obtain ⟨hadd', -⟩ := slotPa_add (newStack s c) (show i ≤ 31 by omega)
    apply (hw.strings i l (by omega) hl).agree
    exact hlaid.slots.mono (by omega) (by omega)
  · rw [← hclear]
    exact load_agree (hlaid.slots.mono (Nat.le_refl _) (by omega))

/-- Arguments that fit their slots are delivered. -/
theorem delivers_of_slotsHold (hfit : SlotsHold args) :
    Delivers c srcs args s := by
  have hn10 : args.length ≤ 10 := hn
  obtain ⟨es, t, _, hrun, hes, hlaid, hstr, -⟩ := buildStack_fits hf hsp hn hsaved hfit
  have hpage : StackPage t own c (newStack s c) := by
    rw [← hlaid.stack]
    exact hlaid.fresh.stackPage
  refine ⟨es, t, hrun, hes, hlaid.count, hlaid.argv.trans hlaid.sp.symm,
    fun i l hl => ⟨slotVa i, ?_, ?_⟩⟩
  · have hi := lt_of_getElem hl
    rw [hlaid.argv, Nat.add_assoc, hpage.userWord (by simp only [pgSize]; omega),
      ← Nat.add_assoc, hlaid.pointers i (by omega)]
  · have hi := lt_of_getElem hl
    have hlt := hfit.length_le i l hl
    rw [slotVa_eq (by omega)]
    apply hpage.userString (by simp only [pgSize]; omega)
    rw [slotPa_eq _ (by omega)]
    exact hstr i l hl

/-- Arguments that are delivered fit their slots. -/
theorem slotsHold_of_delivers (hdel : Delivers c srcs args s) :
    SlotsHold args := by
  obtain ⟨es, t, hrun, hes, hfound⟩ := hdel
  have hlen := hsaved.length
  have hn10 : args.length ≤ 10 := hn
  have hstay : ∀ j src t, srcs[j]? = some src → OnStack (newStack s c) s t →
      WpOn (ExecWrite.OnPage (newStack s c)) (fun e => ¬ e.OnPage (newStack s c))
        (fun _ _ => True) (strcpy (2 ^ 64) (slotPa (newStack s c) j) src)
        (fun _ t' => OnStack (newStack s c) s t') t :=
    fun _ _ _ _ hon => wpOn_strcpy_any hon
  have hzero : ∀ t, OnStack (newStack s c) s t → OnStack (newStack s c) s { t with
      mem := store t.mem 8 (slotPa (newStack s c) srcs.length) 0 } := by
    intro t hon
    obtain ⟨hadd, hlo⟩ := slotPa_add (newStack s c) (show srcs.length ≤ 31 by
      rw [hlen]; exact Nat.le_trans hn (by decide))
    exact hon.trans (onStack_put hlo (by omega))
  obtain ⟨t₁, -, hlaid⟩ := (hf.wpOn_buildStack
    (I := fun _ => OnStack (newStack s c) s) (J := OnStack (newStack s c) s) hsp
    (by rw [hlen]; exact hn) (fun _ _ h => h) (fun _ h => h) (OnStack.refl _ _)
    hstay hzero).of_run hrun fun e he => not_not.mpr (hes e he)
  rw [hlen] at hlaid
  have hpaget : StackPage t own c (newStack s c) := by
    rw [← hlaid.stack]
    exact hlaid.fresh.stackPage
  -- the pointers are those of the slots
  have hslot : ∀ (i : Nat) (l : List UInt8), args[i]? = some l →
      UserString t c (slotVa i) l := by
    intro i l hl
    have hi : i < args.length := (List.getElem?_eq_some_iff.mp hl).1
    obtain ⟨p, hp, hstr⟩ := hfound.strings i l hl
    rw [hlaid.argv, Nat.add_assoc, hpaget.userWord (by simp only [pgSize]; omega),
      ← Nat.add_assoc, hlaid.pointers i (by omega)] at hp
    obtain rfl : slotVa i = p := Option.some.inj hp
    exact hstr
  intro i l hl
  have hi : i < args.length := (List.getElem?_eq_some_iff.mp hl).1
  by_cases hshort : l.length < 8
  · exact Or.inl hshort
  · right
    have hstr := hslot i l hl
    cases i with
    | zero =>
        -- the ninth byte would be above the stack
        have htop := hstr.2 8 (by omega)
        rw [show slotVa 0 + 8 = userStackTop from rfl, hpaget.top] at htop
        cases htop
    | succ j =>
        refine ⟨j, rfl, ?_⟩
        obtain ⟨l', hl'⟩ : ∃ l', args[j]? = some l' :=
          ⟨_, List.getElem?_eq_getElem (by omega)⟩
        have hrest := hstr.stringAt.drop (k := 8) (by omega)
        have hnext : slotVa (j + 1) + 8 = slotVa j := by
          unfold slotVa
          simp only [userStackTop]
          omega
        rw [hnext] at hrest
        rw [hl', (hslot j l' hl').stringAt.unique hrest]

/-- For every argument list: the new process has its arguments, and no
byte off its stack page is written, exactly when each fits its slot of
eight bytes, or what is too long of it is the argument before. -/
theorem exec_delivers_iff : Delivers c srcs args s ↔ SlotsHold args :=
  ⟨slotsHold_of_delivers hf hsp hn hsaved, delivers_of_slotsHold hf hsp hn hsaved⟩

end Delivery

/-- A fresh process, and some saved strings. -/
theorem saved_strings (ls : List (List UInt8)) (hne : ∀ l ∈ ls, ∀ b ∈ l, b ≠ 0)
    (hlen : ∀ l ∈ ls, l.length < 64) (hfew : ls.length ≤ 8) :
    ∃ cfg s own fl c srcs, FreshProcess cfg s own fl c ∧
      load s.mem 8 ((s.procs c).trapframe + tfSp) = userStackTop ∧
      Saved s c srcs ls := by
  obtain ⟨s, own, fl, hf, -⟩ := tinyMachine_fresh
  have htf : own (s.procs 0).trapframe = .frame 0 ((s.procs 0).trapframe / pgSize) :=
    hf.space.trapframe
  obtain ⟨hpage, hbase⟩ := hf.trapframe
  have hstack := hf.stackPage
  have hne' : newStack s 0 ≠ (s.procs 0).trapframe := by
    intro heq
    have hown := hstack.owner
    rw [heq, htf] at hown
    injection hown with _ hvpn
    simp only [stackBase, userStackTop, kernBase, pgSize] at *
    omega
  have hdis := page_disjoint hstack.aligned hpage.aligned hne'
  generalize htfa : (s.procs 0).trapframe = tf at *
  -- the strings are kept in the trapframe page, behind the registers
  let m' : Mem := fun x =>
    if tf + 512 ≤ x ∧ x < tf + 1024 then
      (ls.getD ((x - (tf + 512)) / 64) []).getD ((x - (tf + 512)) % 64) 0
    else store s.mem 8 (tf + tfSp) userStackTop x
  have houter : ∀ x, ¬ (tf + 512 ≤ x ∧ x < tf + 1024) →
      m' x = store s.mem 8 (tf + tfSp) userStackTop x := fun x hx => if_neg hx
  have hinner : ∀ i k, i < 8 → k < 64 →
      m' (tf + 512 + 64 * i + k) = (ls.getD i []).getD k 0 := by
    intro i k hi hk
    have hx : tf + 512 + 64 * i + k - (tf + 512) = 64 * i + k := by omega
    refine (if_pos (by omega)).trans ?_
    rw [hx, Nat.mul_add_div (by decide), Nat.mul_add_mod, Nat.div_eq_of_lt hk,
      Nat.mod_eq_of_lt hk, Nat.add_zero]
  have hw : Within s.mem m' tf := by
    intro x hx
    rw [houter x (by omega)]
    exact within_store (q := tf) (Nat.le_add_right ..)
      (by simp only [tfSp]; omega) x hx
  obtain ⟨hf', hstack'⟩ := hf.write htf hw
  refine ⟨_, { s with mem := m' }, own, fl, 0,
    (List.range ls.length).map fun i => tf + 512 + 64 * i, hf', ?_,
    by rw [List.length_map, List.length_range], fun i src l hsrc hl => ?_⟩
  · have hsp : Agree (store s.mem 8 (tf + tfSp) userStackTop) m' (tf + tfSp)
        (tf + tfSp + 8) := by
      intro x hlo hhi
      exact houter x (by simp only [tfSp] at hhi; omega)
    show load m' 8 ((s.procs 0).trapframe + tfSp) = userStackTop
    rw [htfa, load_agree hsp, load_store]
    decide
  · obtain ⟨hi, hget⟩ := List.getElem?_eq_some_iff.mp hl
    have hmem : l ∈ ls := List.mem_of_getElem? hl
    have hl64 := hlen l hmem
    rw [List.getElem?_map, List.getElem?_range hi] at hsrc
    obtain rfl := Option.some.inj hsrc
    refine ⟨stringAt_iff.mpr ⟨hne l hmem, fun k hk => ?_⟩, ?_⟩
    · refine (hinner i k (by omega) (by omega)).trans ?_
      rw [List.getD_eq_getElem _ _ hi, hget]
    · rw [hstack']
      unfold slotPa
      simp only [pgSize] at *
      omega

/-- And one. -/
theorem saved_string {l : List UInt8} (hne : ∀ b ∈ l, b ≠ 0) (hlen : l.length < 64) :
    ∃ cfg s own fl c src, FreshProcess cfg s own fl c ∧
      load s.mem 8 ((s.procs c).trapframe + tfSp) = userStackTop ∧
      Saved s c [src] [l] := by
  obtain ⟨cfg, s, own, fl, c, srcs, hf, hsp, hsaved⟩ := saved_strings [l]
    (fun l' hl' => List.mem_singleton.mp hl' ▸ hne)
    (fun l' hl' => List.mem_singleton.mp hl' ▸ hlen) (by simp)
  obtain ⟨src, rfl⟩ := List.length_eq_one_iff.mp hsaved.length
  exact ⟨cfg, s, own, fl, c, src, hf, hsp, hsaved⟩

/-- Two arguments: `ls`, and one too long by just this string. -/
def nestedArgs : List (List UInt8) :=
  [[0x6c, 0x73], [0x2d, 0x2d, 0x63, 0x6f, 0x6c, 0x6f, 0x72, 0x3d, 0x6c, 0x73]]

theorem exec_delivers_nested :
    ∃ cfg s own fl c srcs, FreshProcess cfg s own fl c ∧
      Saved s c srcs nestedArgs ∧ Delivers c srcs nestedArgs s := by
  obtain ⟨cfg, s, own, fl, c, srcs, hf, hsp, hsaved⟩ :=
    saved_strings nestedArgs (by simp [nestedArgs]) (by decide) (by decide)
  refine ⟨cfg, s, own, fl, c, srcs, hf, hsaved,
    (exec_delivers_iff hf hsp (by decide) hsaved).mpr fun i l hl => ?_⟩
  obtain rfl | rfl | hi : i = 0 ∨ i = 1 ∨ 2 ≤ i := by omega
  · obtain rfl := Option.some.inj hl
    exact Or.inl (by decide)
  · obtain rfl := Option.some.inj hl
    exact Or.inr ⟨0, rfl, rfl⟩
  · rw [List.getElem?_eq_none hi] at hl
    cases hl

/-- The command alone, its name `tutorial`: the string would go on above
the stack page. -/
theorem exec_long_name_undelivered :
    ∃ cfg s own fl c src, FreshProcess cfg s own fl c ∧
      load s.mem 8 ((s.procs c).trapframe + tfSp) = userStackTop ∧
      Saved s c [src] [[0x74, 0x75, 0x74, 0x6f, 0x72, 0x69, 0x61, 0x6c]] ∧
      ¬ Delivers c [src] [[0x74, 0x75, 0x74, 0x6f, 0x72, 0x69, 0x61, 0x6c]] s := by
  obtain ⟨cfg, s, own, fl, c, src, hf, hsp, hsaved⟩ :=
    saved_string (l := [0x74, 0x75, 0x74, 0x6f, 0x72, 0x69, 0x61, 0x6c])
      (by simp) (by decide)
  refine ⟨cfg, s, own, fl, c, src, hf, hsp, hsaved, fun hdel => ?_⟩
  rcases slotsHold_of_delivers hf hsp (by decide) hsaved hdel 0 _ rfl with h | h
  · exact absurd h (by decide)
  · obtain ⟨j, hj, _⟩ := h
    cases hj

-- ==== the array's end

section ArrayEnd

variable {srcs : List Nat} {args : List (List UInt8)}

/-- Exec's collecting loop, run on the array in `a1` of process `c`, finds
the arguments `args`. -/
def Collects (c : Slot) (t : Kernel) (args : List (List UInt8)) : Prop :=
  ∃ es pas, collectArgs (t.procs c).pagetable
      (userPa t.mem (t.procs c).pagetable
        (load t.mem 8 ((t.procs c).trapframe + tfA1))) (2 ^ 31) 0 t
      = (es, .ok pas t) ∧
    pas.length = args.length ∧
    ∀ (i pa : Nat) (l : List UInt8), pas[i]? = some pa → args[i]? = some l →
      StringAt t.mem pa l

theorem getElem_argPas {m : Mem} {root argv i n k : Nat} (hk : k < n) :
    (argPas m root argv i n)[k]? = some (argPa m root argv (i + k)) := by
  induction n generalizing i k with
  | zero => cases hk
  | succ n ih =>
      cases k with
      | zero => rfl
      | succ k =>
          rw [argPas, List.getElem?_cons_succ, ih (Nat.lt_of_succ_lt_succ hk)]
          congr 2
          omega

variable (hf : FreshProcess cfg s own fl c)
  (hsp : load s.mem 8 ((s.procs c).trapframe + tfSp) = userStackTop)
  (hn : args.length ≤ maxArgs) (hsaved : Saved s c srcs args)
  (hshort : ∀ l ∈ args, l.length ≤ 7)
include hf hsp hn hsaved hshort

/-- The array exec builds, as its collecting loop sees it: the slots, the
cleared one among them, and what follows is not mapped. -/
theorem buildStack_array :
    ∃ es t argv, buildStack c srcs s = (es, .ok () t) ∧
      userPa t.mem (t.procs c).pagetable
        (load t.mem 8 ((t.procs c).trapframe + tfA1)) = argv ∧
      (∀ k ≤ args.length, argPa t.mem (t.procs c).pagetable argv k ≠ 0) ∧
      argPa t.mem (t.procs c).pagetable argv (args.length + 1) = 0 ∧
      ∀ (i : Nat) (l : List UInt8), (args ++ [[]])[i]? = some l →
        StringAt t.mem (argPa t.mem (t.procs c).pagetable argv i) l := by
  have hn10 : args.length ≤ 10 := hn
  have hfit : SlotsHold args := fun i l hl =>
    Or.inl (Nat.lt_succ_of_le (hshort l (List.mem_of_getElem? hl)))
  obtain ⟨es, t, _, hrun, -, hlaid, hstr, hclear⟩ :=
    buildStack_fits hf hsp hn hsaved hfit
  have hpage : StackPage t own c (newStack s c) := by
    rw [← hlaid.stack]
    exact hlaid.fresh.stackPage
  generalize newStack s c = frame at *
  -- every element up to the last is the address of a slot
  have harg : ∀ k ≤ args.length, argPa t.mem (t.procs c).pagetable
      (frame + (pgSize - 16 * (args.length + 1))) k = slotPa frame k := by
    intro k hk
    unfold argPa
    rw [hlaid.pointers k hk, slotVa_eq (by omega),
      hpage.translate _ (by simp only [pgSize]; omega), slotPa_eq _ (by omega)]
  refine ⟨es, t, frame + (pgSize - 16 * (args.length + 1)), hrun, ?_, ?_, ?_, ?_⟩
  · rw [hlaid.argv, hpage.translate _ (by simp only [pgSize]; omega)]
  · intro k hk
    have hle := (slotPa_add frame (show k ≤ 31 by omega)).2
    have hpos := hpage.pos
    rw [harg k hk]
    omega
  · -- the cleared slot is what follows the array
    have hnext : frame + (pgSize - 16 * (args.length + 1)) + 8 * (args.length + 1)
        = slotPa frame args.length := by
      rw [← slotPa_eq _ (by omega)]
      simp only [pgSize]
      omega
    have hfr := hlaid.fresh
    unfold argPa userPa
    rw [hnext, hclear, lookupFrame_leaf hfr.pages hfr.space.regions.tables (by decide),
      hfr.space.vacant hfr.pages hfr.ranges hfr.total (by decide)]
    rfl
  · intro i l hl
    have hi : i < args.length + 1 := by
      have h := (List.getElem?_eq_some_iff.mp hl).1
      rwa [List.length_append] at h
    rw [harg i (by omega)]
    rcases Nat.lt_succ_iff_lt_or_eq.mp hi with hi | rfl
    · rw [List.getElem?_append_left hi] at hl
      exact hstr i l hl
    · rw [List.getElem?_concat_length] at hl
      obtain rfl := Option.some.inj hl
      exact stringAt_nil_of_load hclear

/-- For every argument list that the slots hold: the array exec builds is
not one that exec takes back. Its last element is not NULL but the address
of the cleared slot, which makes one more argument, the empty string. -/
theorem exec_argv_never_ends :
    ∃ es t, buildStack c srcs s = (es, .ok () t) ∧
      Collects c t (args ++ [[]]) ∧ ¬ Collects c t args := by
  obtain ⟨es, t, argv, hrun, hargv, hmapped, hend, hstr⟩ :=
    buildStack_array hf hsp hn hsaved hshort
  refine ⟨es, t, hrun, ?_, ?_⟩
  · have hn11 : args.length + 1 ≤ 11 := Nat.succ_le_succ hn
    obtain ⟨es', hcol, -⟩ := collectArgs_list (s := t) (n := args.length + 1)
      (2 ^ 31) 0
      (fun k hk => by rw [Nat.zero_add]; exact hmapped k (Nat.le_of_lt_succ hk))
      (by rw [Nat.zero_add]; exact hend) (Nat.lt_of_le_of_lt hn11 (by decide))
    refine ⟨es', _, by rw [hargv]; exact hcol, ?_, fun i pa l hpa hl => ?_⟩
    · rw [length_argPas, List.length_append]
      rfl
    · have hi : i < args.length + 1 := by
        have h := (List.getElem?_eq_some_iff.mp hpa).1
        rwa [length_argPas] at h
      rw [getElem_argPas hi, Nat.zero_add] at hpa
      obtain rfl := Option.some.inj hpa
      exact hstr i l hl
  · rintro ⟨es', pas, hcol, hlen, -⟩
    rw [hargv] at hcol
    have hzero := (list_of_collectArgs hcol).2
    rw [Nat.zero_add, hlen] at hzero
    exact hmapped _ (Nat.le_refl _) hzero

end ArrayEnd

theorem exec_argv_never_ends_ls :
    ∃ cfg s own fl c src, FreshProcess cfg s own fl c ∧
      Saved s c [src] [[0x6c, 0x73]] ∧
      ∃ es t, buildStack c [src] s = (es, .ok () t) ∧
        Collects c t ([[0x6c, 0x73]] ++ [[]]) ∧ ¬ Collects c t [[0x6c, 0x73]] := by
  obtain ⟨cfg, s, own, fl, c, src, hf, hsp, hsaved⟩ :=
    saved_string (l := [0x6c, 0x73]) (by simp) (by decide)
  exact ⟨cfg, s, own, fl, c, src, hf, hsaved,
    exec_argv_never_ends hf hsp (by decide) hsaved (by decide)⟩

/-- `sh` cannot pass its own arguments on: the array built for it has an
element after the only one. -/
theorem exec_argv_of_sh_goes_on :
    ∃ cfg s own fl c src es t, FreshProcess cfg s own fl c ∧
      Saved s c [src] [[0x73, 0x68]] ∧
      buildStack c [src] s = (es, .ok () t) ∧ ¬ Collects c t [[0x73, 0x68]] := by
  obtain ⟨cfg, s, own, fl, c, src, hf, hsp, hsaved⟩ :=
    saved_string (l := [0x73, 0x68]) (by simp) (by decide)
  obtain ⟨es, t, argv, hrun, hargv, hmapped, -, -⟩ :=
    buildStack_array hf hsp (by decide) hsaved (by decide)
  refine ⟨cfg, s, own, fl, c, src, es, t, hf, hsaved, hrun, ?_⟩
  rintro ⟨es', pas, hcol, hlen, -⟩
  rw [hargv] at hcol
  have hzero := (list_of_collectArgs hcol).2
  rw [Nat.zero_add, hlen] at hzero
  exact hmapped 1 (Nat.le_refl 1) hzero

end Pke
