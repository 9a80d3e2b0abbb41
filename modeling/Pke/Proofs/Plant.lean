/-
Which pages a mapping takes, and in which order.

`Grown` (Vmm.lean) says that the tables a tree got came from the front of
the free list. Exec depends on more than that: it gives pages back and
takes them again at once, so what becomes of a page is decided by its
place in the list. Here the walk is told exactly.

# The list and the tree

`Present m root ps` lists the tables there are, by their paths, and
`wayTo ps va` computes from it the tables a mapping of `va` has to take:
the upper one first. `Planted X root new` is what a walk does: the pages
for the tables `new` come off the list in that order, no other page is
written that is not a table of the tree or in `X`, and the tables keep
their form.

# The form of a table

A table the kernel made from a zeroed page has nothing in it but zeros
and entries of its own (`Tidy`). That is little, but it tells a table from
text: no entry has a byte that could be a letter followed by the end of a
string.
-/
import Pke.Proofs.Build
import Mathlib.Data.List.Forall2

namespace Pke

open ByteMem Traced Radix

variable {bad : Event → Prop} {E : Halt → Kernel → Prop}
variable {cfg : Config} {s s' s₁ s₂ : Kernel} {own : Nat → Owner}
variable {fl fl' fl₁ fl₂ : List Nat} {i root va t : Nat}
variable {ps new : List (List (Fin 512))} {X : Nat → Prop}

-- ==== entries

/-- No entry, or a valid one for a page of memory that is not global. -/
def Tidy (w : Nat) : Prop :=
  w = 0 ∨ ∃ n f, 0x80000 ≤ n ∧ n < 0x100000 ∧ f < 256 ∧ f % 2 = 1 ∧
    f / 32 % 2 = 0 ∧ w = n * 1024 + f

/-- Every table of the tree is zeros and entries. -/
def TidyTables (m : Mem) (root : Nat) : Prop :=
  ∀ q t, q.length < 3 → tableAt m root q = some t → ∀ j, Tidy (row m t j)

/-- A page of memory below 4 GB. -/
structure MemPage (pa : Nat) : Prop where
  aligned : pa % pgSize = 0
  lo : dramBase ≤ pa
  hi : pa + pgSize ≤ 2 ^ 32

/-- Flags the kernel gives out. -/
structure PlainPerm (perm : Nat) : Prop where
  lt : perm ||| pteV < 256
  valid : (perm ||| pteV) % 2 = 1
  notGlobal : (perm ||| pteV) / 32 % 2 = 0

theorem tidy_entry {pa f : Nat} (hpa : MemPage pa) (hf : f < 256)
    (hodd : f % 2 = 1) (hloc : f / 32 % 2 = 0) : Tidy (pa2pte pa ||| f) := by
  have hlo := hpa.lo
  have hhi := hpa.hi
  rw [pa2pte_or (by omega)]
  refine Or.inr ⟨pa / 4096, f, ?_, ?_, hf, hodd, hloc, rfl⟩
  · simp only [dramBase] at hlo
    omega
  · simp only [pgSize] at hhi
    omega

theorem tidy_leaf {pa perm : Nat} (hpa : MemPage pa) (hp : PlainPerm perm) :
    Tidy (pa2pte pa ||| perm ||| pteV) := by
  rw [Nat.or_assoc]
  exact tidy_entry hpa hp.lt hp.valid hp.notGlobal

theorem Ranges.memPage {p : Nat} (hr : Ranges cfg s) (hp : PageIn s p) :
    MemPage p := by
  obtain ⟨hlo, hhi, hal⟩ := hr.frame hp
  have hbase := cfg.trap_base
  simp only [kernBase] at hbase
  refine ⟨hal, ?_, ?_⟩
  · simp only [dramBase]
    omega
  · simp only [pgSize]
    omega

-- ==== presence

/-- The tables of the tree are at the paths `ps`. -/
def Present (m : Mem) (root : Nat) (ps : List (List (Fin 512))) : Prop :=
  ∀ q, q.length < 3 → (q ∈ ps ↔ ∃ t, tableAt m root q = some t)

/-- The table at `q`, if it is missing. -/
def absent (ps : List (List (Fin 512))) (q : List (Fin 512)) :
    List (List (Fin 512)) :=
  if q ∈ ps then [] else [q]

/-- The tables missing on the way to `va`, from the root on. -/
def wayTo (ps : List (List (Fin 512))) (va : Nat) : List (List (Fin 512)) :=
  absent ps [px 2 va] ++ absent ps (vpath va)

/-- The pages `tk` are the tables at the paths `new`, in that order. -/
def TablesAt (m : Mem) (root : Nat) :
    List (List (Fin 512)) → List Nat → Prop :=
  List.Forall₂ fun q t => q.length < 3 ∧ tableAt m root q = some t

theorem TablesAt.of_path {m : Mem} {tk : List Nat} (h : TablesAt m root new tk)
    {q : List (Fin 512)} (hq : q ∈ new) : ∃ t ∈ tk, tableAt m root q = some t := by
  induction h with
  | nil => cases hq
  | cons hqt _ ih =>
      rcases List.mem_cons.mp hq with rfl | hq
      · exact ⟨_, List.mem_cons_self, hqt.2⟩
      · obtain ⟨t, ht, hat⟩ := ih hq
        exact ⟨t, List.mem_cons_of_mem _ ht, hat⟩

theorem TablesAt.of_page {m : Mem} {tk : List Nat} (h : TablesAt m root new tk)
    (ht : t ∈ tk) : ∃ q ∈ new, q.length < 3 ∧ tableAt m root q = some t := by
  induction h with
  | nil => cases ht
  | cons hqt _ ih =>
      rcases List.mem_cons.mp ht with rfl | ht
      · exact ⟨_, List.mem_cons_self, hqt⟩
      · obtain ⟨q, hq, hat⟩ := ih ht
        exact ⟨q, List.mem_cons_of_mem _ hq, hat⟩

/-- The last page is at the last path. -/
theorem TablesAt.last {m : Mem} {tk : List Nat} (h : TablesAt m root new tk)
    {q : List (Fin 512)} (hq : new.getLast? = some q) (ht : tk.getLast? = some t) :
    tableAt m root q = some t := by
  rw [List.getLast?_eq_getElem?] at hq ht
  rw [h.length_eq] at hq
  obtain ⟨hlt, rfl⟩ := List.getElem?_eq_some_iff.mp hq
  obtain ⟨hlt', rfl⟩ := List.getElem?_eq_some_iff.mp ht
  exact (List.Forall₂.get h hlt hlt').2

/-- Tables were taken from the list for the paths `new`, in that order; no
other pages were written, except those in `X`. -/
structure Planted (X : Nat → Prop) (root : Nat) (new : List (List (Fin 512)))
    (s : Kernel) (fl : List Nat) (s' : Kernel) (fl' : List Nat) : Prop where
  taken : ∃ tk, fl = tk ++ fl' ∧ TablesAt s'.mem root new tk
  fresh : ∀ q ∈ new, q.length < 3 ∧ tableAt s.mem root q = none
  nodes : ∀ q, q.length < 3 → q ∉ new →
    tableAt s'.mem root q = tableAt s.mem root q
  others : ∀ p, p % pgSize = 0 → ¬ X p →
    (∀ q, q.length < 3 → tableAt s'.mem root q ≠ some p) →
    Agree s.mem s'.mem p (p + 4096)
  tidy : TidyTables s.mem root → TidyTables s'.mem root

theorem Planted.refl (X : Nat → Prop) (root : Nat) (s : Kernel)
    (fl : List Nat) : Planted X root [] s fl s fl where
  taken := ⟨[], rfl, .nil⟩
  fresh _ hq := absurd hq List.not_mem_nil
  nodes _ _ _ := rfl
  others p _ _ _ := Agree.refl s.mem p _
  tidy h := h

/-- Tables stay where they are. -/
theorem Planted.mono (h : Planted X root new s fl s' fl') {q : List (Fin 512)}
    (hq : q.length < 3) (ht : tableAt s.mem root q = some t) :
    tableAt s'.mem root q = some t := by
  rw [h.nodes q hq, ht]
  intro hnew
  rw [(h.fresh q hnew).2] at ht
  cases ht

theorem Planted.trans {new' : List (List (Fin 512))}
    (h : Planted X root new s fl s₁ fl₁) (h' : Planted X root new' s₁ fl₁ s₂ fl₂) :
    Planted X root (new ++ new') s fl s₂ fl₂ := by
  obtain ⟨tk, rfl, htk⟩ := h.taken
  obtain ⟨tk', rfl, htk'⟩ := h'.taken
  have hkeep : TablesAt s₂.mem root new tk :=
    htk.imp fun _ _ hqt => ⟨hqt.1, h'.mono hqt.1 hqt.2⟩
  constructor
  case taken =>
    refine ⟨tk ++ tk', (List.append_assoc ..).symm, ?_⟩
    exact List.rel_append hkeep htk'
  case fresh =>
    intro q hq
    rcases List.mem_append.mp hq with hq | hq
    · exact h.fresh q hq
    · obtain ⟨hlen, hnone⟩ := h'.fresh q hq
      refine ⟨hlen, ?_⟩
      cases ht : tableAt s.mem root q with
      | none => rfl
      | some t => rw [← hnone, h.mono hlen ht]
  case nodes =>
    intro q hq hnew
    rw [List.mem_append, not_or] at hnew
    rw [h'.nodes q hq hnew.2, h.nodes q hq hnew.1]
  case others =>
    intro p hal hX hp
    refine (h.others p hal hX fun q hq ht => ?_).trans (h'.others p hal hX hp)
    exact hp q hq (h'.mono hq ht)
  case tidy => exact fun ht => h'.tidy (h.tidy ht)

theorem Planted.length (h : Planted X root new s fl s' fl') :
    fl.length = new.length + fl'.length := by
  obtain ⟨tk, rfl, htk⟩ := h.taken
  rw [List.length_append, htk.length_eq]

/-- The paths there are after a walk. -/
theorem Planted.present (h : Planted X root new s fl s' fl')
    (hps : Present s.mem root ps) : Present s'.mem root (ps ++ new) := by
  intro q hq
  rw [List.mem_append, hps q hq]
  by_cases hnew : q ∈ new
  · obtain ⟨tk, -, htk⟩ := h.taken
    obtain ⟨t, -, ht⟩ := htk.of_path hnew
    exact iff_of_true (Or.inr hnew) ⟨t, ht⟩
  · rw [or_iff_left hnew, h.nodes q hq hnew]

-- ==== writes

/-- A page for a missing table. -/
theorem planted_attach {path : List (Fin 512)} {j : Fin 512} {f : Nat}
    (hh : Heap s own (f :: fl)) (hT : Tables s.mem own i root)
    (ht : tableAt s.mem root path = some t) (hlen : path.length < 2)
    (hempty : row s.mem t j &&& pteV = 0) (hf : MemPage f) :
    Planted X root [path ++ [j]] s (f :: fl)
      { s₁ with mem := attachTable s.mem t f j } fl := by
  have htab := hT path t (by omega) ht
  have htal := hh.table_aligned path t htab
  have hfree : own f = .free := (hh.free f).mpr (List.mem_cons_self ..)
  have hfpage := hh.free_page hfree
  have hfal : f % 4096 = 0 := hfpage.aligned
  have hflt : f < 2 ^ 64 := Nat.lt_trans (hfpage.lt hh) (by decide)
  have hlen' : (path ++ [j]).length < 3 := by
    rw [List.length_append, List.length_singleton]
    omega
  have hattach := tableAt_attach hT hh.table_aligned ht hlen hempty hfree hfal hflt
  have hnew : tableAt (attachTable s.mem t f j) root (path ++ [j]) = some f := by
    rw [hattach _ hlen', if_pos rfl]
  have hold : tableAt (attachTable s.mem t f j) root path = some t := by
    rw [hattach _ (by omega), if_neg, ht]
    intro heq
    have := congrArg List.length heq
    rw [List.length_append, List.length_singleton] at this
    omega
  constructor
  case taken => exact ⟨[f], rfl, .cons ⟨hlen', hnew⟩ .nil⟩
  case fresh =>
    intro q hq
    rw [List.mem_singleton.mp hq]
    refine ⟨hlen', ?_⟩
    unfold tableAt at ht ⊢
    rw [node_snoc, ht]
    exact child_eq_none hempty
  case nodes =>
    intro q hq hnot
    exact (hattach q hq).trans (if_neg fun heq => hnot (List.mem_singleton.mpr heq))
  case others =>
    intro p hal _ hp
    apply agree_attach hal hfal htal
    · rintro rfl
      exact hp _ hlen' hnew
    · rintro rfl
      exact hp path (by omega) hold
  case tidy =>
    intro htidy q t' hq ht' k
    have hrow : ∀ hal : t' % 4096 = 0, row (attachTable s.mem t f j) t' k
        = Radix.put (blank (row s.mem) f 0) t j (pa2pte f ||| pteV) t' k :=
      fun hal => row_attach htal hfal hflt hal
    show Tidy (row (attachTable s.mem t f j) t' k)
    have hcase := hattach q hq
    rw [show tableAt (attachTable s.mem t f j) root q = some t' from ht'] at hcase
    by_cases hqp : q = path ++ [j]
    · rw [if_pos hqp] at hcase
      obtain rfl := Option.some.inj hcase
      rw [hrow hfal]
      unfold Radix.put blank
      split
      · exact tidy_entry hf (by decide) (by decide) (by decide)
      · rw [if_pos rfl]
        exact Or.inl rfl
    · rw [if_neg hqp] at hcase
      rw [hrow (hh.table_aligned q t' (hT q t' hq hcase.symm))]
      unfold Radix.put blank
      split
      · exact tidy_entry hf (by decide) (by decide) (by decide)
      · split
        · exact Or.inl rfl
        · exact htidy q t' hq hcase.symm k

/-- The entry of a page. -/
theorem planted_store {w : Nat} (hh : Heap s own fl) (hT : Tables s.mem own i root)
    (ht : tableAt s.mem root (vpath va) = some t) (hw : Tidy w) :
    Planted X root [] s fl
      { s with mem := store s.mem 8 (t + 8 * px 0 va) w } fl := by
  have htal := hh.table_aligned _ t (hT _ t (vpath_lt va) ht)
  have hsame := tableAt_store hT hh.table_aligned ht w
  have hwlt : w < 256 ^ 8 := by
    rcases hw with rfl | ⟨n, f, _, hn, hf, _, _, rfl⟩
    · decide
    · exact Nat.lt_trans (show n * 1024 + f < 2 ^ 31 by omega) (by decide)
  constructor
  case taken => exact ⟨[], rfl, .nil⟩
  case fresh => exact fun _ hq => absurd hq List.not_mem_nil
  case nodes => exact fun q hq _ => hsame q hq
  case others =>
    intro p hal _ hp
    have hk := (px 0 va).isLt
    have hne : p ≠ t := by
      rintro rfl
      exact hp _ (vpath_lt va) ((hsame _ (vpath_lt va)).trans ht)
    exact (within_store (q := t) (by omega) (by omega)).agree hal htal hne
  case tidy =>
    intro htidy q t' hq ht' k
    have hold : tableAt s.mem root q = some t' := (hsame q hq).symm.trans ht'
    show Tidy (row (store s.mem 8 (t + 8 * px 0 va) w) t' k)
    rw [row_store htal (hh.table_aligned q t' (hT q t' hq hold))]
    split
    · rw [Nat.mod_eq_of_lt hwlt]
      exact hw
    · exact htidy q t' hq hold k

-- ==== walks

/-- There are `n` free pages, or the kernel may stop. -/
def Enough (E : Halt → Kernel → Prop) (n : Nat) (fl : List Nat) : Prop :=
  n ≤ fl.length ∨ ∀ h s, E h s

theorem Enough.less {n k : Nat} (h : Enough E n fl)
    (hlen : fl.length + k ≤ fl'.length + n) : Enough E k fl' :=
  h.imp_left fun hn => by omega

theorem Enough.of_short {n : Nat} (h : Enough E n fl) (hlt : fl.length < n) :
    ∀ e s', E e s' :=
  h.resolve_left (Nat.not_le.mpr hlt)

/-- One level of a walk: the table below `t`, taken from the list if it is
missing, or NULL because the list is empty. -/
theorem wp_walkLevel_planted (va level : Nat) {path : List (Fin 512)}
    (hr : Ranges cfg s) (hh : Heap s own fl) (hT : Tables s.mem own i root)
    (ht : tableAt s.mem root path = some t) (hlen : path.length < 2)
    (hps : Present s.mem root ps) :
    Wp bad E (walkLevel true va level t) (fun o s' => ∃ own' fl',
      Grown i root (· = path ++ [px level va]) s own fl s' own' fl' ∧
      (∀ a, leaf s'.mem root a = leaf s.mem root a) ∧
      match o with
      | none => fl' = [] ∧
          fl.length < (absent ps (path ++ [px level va])).length
      | some t' => tableAt s'.mem root (path ++ [px level va]) = some t' ∧
          Planted X root (absent ps (path ++ [px level va])) s fl s' fl')
      s := by
  have hlen' : (path ++ [px level va]).length < 3 := by
    rw [List.length_append, List.length_singleton]
    omega
  have hchild : tableAt s.mem root (path ++ [px level va])
      = child (row s.mem t (px level va)) := by
    unfold tableAt at ht ⊢
    rw [node_snoc, ht, Option.bind_some]
  simp only [walkLevel, wp_bind, ld, wp_get, wp_pure]
  show Wp bad E (if row s.mem t (px level va) &&& pteV ≠ 0 then _ else _) _ s
  by_cases hv : row s.mem t (px level va) &&& pteV ≠ 0
  · rw [if_pos hv, wp_pure]
    rw [child_eq_some hv] at hchild
    have hin : path ++ [px level va] ∈ ps := (hps _ hlen').mpr ⟨_, hchild⟩
    refine ⟨own, fl, Grown.refl hh hT, fun _ => rfl, hchild, ?_⟩
    unfold absent
    rw [if_pos hin]
    exact Planted.refl X root s fl
  · rw [child_eq_none (not_not.mp hv)] at hchild
    have hout : path ++ [px level va] ∉ ps := by
      intro hin
      obtain ⟨t', ht'⟩ := (hps _ hlen').mp hin
      rw [hchild] at ht'
      cases ht'
    unfold absent
    rw [if_neg hout, if_neg hv, if_pos trivial, wp_bind]
    refine wp_alloc hh (fun s₁ hnil _ hr₁ hm hh₁ => ?_)
      (fun f rest s₁ hcons hr₁ hm hh₁ => ?_)
    · subst hnil
      rw [if_neg (not_not.mpr rfl), wp_pure]
      refine ⟨own, [], grown_null hT hr₁ hm hh₁, ?_, rfl, Nat.one_pos⟩
      rw [hm]
      exact fun _ => rfl
    · subst hcons
      have hffree : own f = .free := (hh.free f).mpr (List.mem_cons_self ..)
      have hfpage := hh.free_page hffree
      have hfpos := hfpage.pos hh
      have hfne : f ≠ 0 := by omega
      simp only [if_pos hfne, wp_bind, memset, sd, onMem, wp_modify, wp_pure]
      rw [hm]
      obtain ⟨hgrown, hleaf, hnew⟩ := grown_attach (N := (· = path ++ [px level va]))
        hh hT ht hlen (not_not.mp hv) rfl hr₁ hm hh₁
      exact ⟨_, rest, hgrown, hleaf, hnew,
        planted_attach hh hT ht hlen (not_not.mp hv) (hr.memPage hfpage)⟩

theorem Ranges.of_rest (hr : Ranges cfg s) (h : s'.rest = s.rest) :
    Ranges cfg s' where
  start := by rw [freeMemStartAddr_eq h]; exact hr.start
  stop := by rw [freeMemEndAddr_eq h]; exact hr.stop

/-- The upper table is no reason for the lower one to be there. -/
theorem absent_lower (ps : List (List (Fin 512))) (va : Nat) :
    absent (ps ++ absent ps [px 2 va]) (vpath va) = absent ps (vpath va) := by
  have hne : vpath va ∉ absent ps [px 2 va] := by
    unfold absent
    split
    · exact List.not_mem_nil
    · rw [List.mem_singleton]
      exact fun heq => Nat.succ_ne_self 1 (congrArg List.length heq)
  unfold absent at hne ⊢
  simp only [List.mem_append, hne, or_false]

/-- A whole walk. -/
theorem wp_pageWalk_planted (hr : Ranges cfg s) (hh : Heap s own fl)
    (hT : Tables s.mem own i root) (hps : Present s.mem root ps)
    (hva : va < maxVa ∨ ∀ e s', E e s') :
    Wp bad E (pageWalk root va true) (fun pte s' => va < maxVa ∧ ∃ own' fl',
      Grown i root (onWay va) s own fl s' own' fl' ∧
      (∀ a, leaf s'.mem root a = leaf s.mem root a) ∧
      ((pte = 0 ∧ fl' = [] ∧ fl.length < (wayTo ps va).length) ∨
        ∃ t, pte = t + 8 * px 0 va ∧ tableAt s'.mem root (vpath va) = some t ∧
          Planted X root (wayTo ps va) s fl s' fl')) s := by
  unfold wayTo
  rw [List.length_append]
  unfold pageWalk
  rw [wp_ite]
  refine ⟨fun hbig => ?_, fun hsmall => ?_⟩
  · exact (wp_halt _).mpr (hva.resolve_left (Nat.not_lt.mpr hbig) _ _)
  have hlt : va < maxVa := Nat.not_le.mp hsmall
  rw [wp_bind]
  refine (wp_walkLevel_planted (X := X) va 2 hr hh hT
    (show tableAt s.mem root [] = some root from rfl) (by decide) hps).mono
    fun o s₁ hres => ?_
  rw [List.nil_append] at hres
  obtain ⟨own₁, fl₁, hg₁, hleaf₁, ho⟩ := hres
  cases o with
  | none =>
      rw [wp_pure]
      exact ⟨hlt, own₁, fl₁, hg₁.weaken fun _ h => Or.inl h, hleaf₁,
        Or.inl ⟨rfl, ho.1, Nat.lt_add_right _ ho.2⟩⟩
  | some t₁ =>
      obtain ⟨ht₁, hp₁⟩ := ho
      have hlen₁ := hp₁.length
      rw [wp_bind]
      refine (wp_walkLevel_planted (X := X) va 1 (hr.of_rest hg₁.rest) hg₁.heap
        hg₁.tables ht₁ (Nat.lt_succ_self 1) (hp₁.present hps)).mono
        fun o s₂ hres => ?_
      rw [show [px 2 va] ++ [px 1 va] = vpath va from rfl, absent_lower] at hres
      obtain ⟨own₂, fl₂, hg₂, hleaf₂, ho⟩ := hres
      have hg := (hg₁.weaken fun _ h => Or.inl h).trans
        (hg₂.weaken fun _ h => Or.inr h)
      have hleaf : ∀ a, leaf s₂.mem root a = leaf s.mem root a :=
        fun a => (hleaf₂ a).trans (hleaf₁ a)
      cases o with
      | none =>
          rw [wp_pure]
          exact ⟨hlt, own₂, fl₂, hg, hleaf, Or.inl ⟨rfl, ho.1, by omega⟩⟩
      | some t₂ =>
          rw [wp_pure]
          exact ⟨hlt, own₂, fl₂, hg, hleaf,
            Or.inr ⟨t₂, rfl, ho.1, hp₁.trans ho.2⟩⟩

-- ==== mappings

/-- The tables missing on the ways to the pages, one after another. -/
def waysTo : List (List (Fin 512)) → List Nat → List (List (Fin 512))
  | _, [] => []
  | ps, va :: vas => wayTo ps va ++ waysTo (ps ++ wayTo ps va) vas

theorem PlainPerm.lt_flags {perm : Nat} (h : PlainPerm perm) : perm < 1024 :=
  Nat.lt_of_le_of_lt Nat.left_le_or (Nat.lt_trans h.lt (by decide))

/-- The page was mapped, for the tables missing on the way to it. -/
structure PageMapped (X : Nat → Prop) (root : Nat)
    (ps : List (List (Fin 512))) (va pa perm : Nat) (s : Kernel)
    (fl : List Nat) (s' : Kernel) (fl' : List Nat) : Prop where
  leaves : Mapped va pa perm 1 root s.mem s'.mem
  present : Present s'.mem root (ps ++ wayTo ps va)
  length : fl.length = (wayTo ps va).length + fl'.length
  planted : MemPage pa → PlainPerm perm →
    Planted X root (wayTo ps va) s fl s' fl'

/-- There were too few pages for the tables; no leaf changed. -/
structure RanDry (root : Nat) (ps : List (List (Fin 512))) (va : Nat)
    (s : Kernel) (fl : List Nat) (s' : Kernel) (fl' : List Nat) : Prop where
  list : fl' = []
  short : fl.length < (wayTo ps va).length
  leaves : ∀ a, leaf s'.mem root a = leaf s.mem root a

/-- Mapping one page, whatever the list holds. -/
theorem wp_mapPage_planted {pa perm : Nat} (hal : va % pgSize = 0)
    (hperm : perm < 1024) (hpa : pa + pgSize ≤ 2 ^ 64) (hr : Ranges cfg s)
    (hh : Heap s own fl) (hT : Tables s.mem own i root)
    (hps : Present s.mem root ps)
    (hok : (va < maxVa ∧ leaf s.mem root va = none)
      ∨ (va + pgSize ≤ 2 ^ 64 ∧ ∀ e s', E e s')) :
    Wp bad E (mapPages root va pgSize pa perm) (fun r s' => va < maxVa ∧
      ∃ own' fl', Grown i root (onWay va) s own fl s' own' fl' ∧
        ((r = 0 ∧ PageMapped X root ps va pa perm s fl s' fl') ∨
          (r = -1 ∧ RanDry root ps va s fl s' fl'))) s := by
  have hlt : va + pgSize ≤ 2 ^ 64 := by
    rcases hok with h | h
    · have := h.1
      simp only [maxVa, pgSize] at this ⊢
      omega
    · exact h.1
  have hpage : va / 4096 * 4096 = va := by
    simp only [pgSize] at hal
    omega
  have hone : (va + pgSize - 1) / 4096 - va / 4096 + 1 = 1 := by
    simp only [pgSize] at hal ⊢
    omega
  have hpalt : pa < 2 ^ 64 := by
    simp only [pgSize] at hpa
    omega
  rw [mapPages_eq (by decide) hlt, hpage, hone]
  unfold mapLoop
  rw [wp_bind]
  refine (wp_pageWalk_planted (X := X) hr hh hT hps (hok.imp And.left And.right)).mono
    fun pte s₁ hres => ?_
  obtain ⟨hmax, own₁, fl₁, hg₁, hleaf₁, hpte⟩ := hres
  have h39 : va < 2 ^ 39 := Nat.lt_trans hmax (by decide)
  rcases hpte with ⟨rfl, hnil, hshort⟩ | ⟨t, rfl, ht, hp₁⟩
  · rw [if_pos rfl, wp_pure]
    exact ⟨hmax, own₁, fl₁, hg₁, Or.inr ⟨rfl, hnil, hshort, hleaf₁⟩⟩
  have htab := hg₁.tables _ t (vpath_lt va) ht
  have hpos := (hg₁.heap.table_page htab).pos hg₁.heap
  have hne : t + 8 * (px 0 va : Nat) ≠ 0 := by omega
  rw [if_neg hne]
  simp only [wp_bind, ld, wp_get, wp_pure]
  show Wp bad E (if row s₁.mem t (px 0 va) &&& pteV ≠ 0 then _ else _) _ s₁
  by_cases hv : row s₁.mem t (px 0 va) &&& pteV ≠ 0
  · -- already mapped: the kernel panics
    have hsome : leaf s.mem root va ≠ none := by
      rw [← hleaf₁, leaf_eq ht]
      unfold validEntry
      rw [if_pos hv]
      exact Option.some_ne_none _
    rw [if_pos hv]
    exact (wp_halt _).mpr ((hok.resolve_left fun h => hsome h.2).2 _ _)
  · rw [if_neg hv]
    simp only [wp_bind, sd, onMem, wp_modify]
    unfold mapLoop
    rw [wp_pure]
    have hg₂ := grown_store (N := onWay va) hg₁.heap hg₁.tables ht
      (pa2pte pa ||| perm ||| pteV)
    have hone := mapped_store hg₁.heap hg₁.tables ht h39 hpalt hperm
      (not_not.mp hv)
    have hsame := tableAt_store hg₁.tables hg₁.heap.table_aligned ht
      (pa2pte pa ||| perm ||| pteV)
    refine ⟨hmax, own₁, fl₁, hg₁.trans hg₂, Or.inl ⟨rfl, ?_, ?_, hp₁.length, ?_⟩⟩
    · refine ⟨fun a ha hin => ?_, fun a ha => ?_⟩
      · rw [← hleaf₁]
        exact hone.unmapped a ha hin
      · rw [← hleaf₁]
        exact hone.leaves a ha
    · intro q hq
      rw [hsame q hq]
      exact hp₁.present hps q hq
    · intro hmem hplain
      have hp := hp₁.trans (planted_store (X := X) hg₁.heap hg₁.tables ht
        (tidy_leaf hmem hplain))
      rw [List.append_nil] at hp
      exact hp

/-- Mapping one page for a user application: it needs the pages for the
tables. -/
theorem wp_userVmMap_planted {pa perm : Nat} (hal : va % pgSize = 0)
    (hperm : perm < 1024) (hpa : pa + pgSize ≤ 2 ^ 64) (hr : Ranges cfg s)
    (hh : Heap s own fl) (hT : Tables s.mem own i root)
    (hps : Present s.mem root ps)
    (hok : (va < maxVa ∧ leaf s.mem root va = none)
      ∨ (va + pgSize ≤ 2 ^ 64 ∧ ∀ e s', E e s'))
    (hroom : Enough E (wayTo ps va).length fl) :
    Wp bad E (userVmMap root va pgSize pa perm) (fun _ s' => va < maxVa ∧
      ∃ own' fl', Grown i root (onWay va) s own fl s' own' fl' ∧
        PageMapped X root ps va pa perm s fl s' fl') s := by
  unfold userVmMap
  rw [wp_bind]
  refine (wp_mapPage_planted (X := X) hal hperm hpa hr hh hT hps hok).mono
    fun r s' hres => ?_
  obtain ⟨hmax, own', fl', hg, ⟨rfl, hm⟩ | ⟨rfl, hdry⟩⟩ := hres
  · rw [if_neg (not_not.mpr rfl), wp_pure]
    exact ⟨hmax, own', fl', hg, hm⟩
  · rw [if_pos (by decide)]
    exact (wp_halt _).mpr (hroom.of_short hdry.short _ _)

end Pke
