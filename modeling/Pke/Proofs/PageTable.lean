/-
Page tables in memory.

A table is a page read as 512 doublewords (`row`), and an entry with
the valid bit leads to the next table (`child`); together they make the
page table of a root a radix tree in the sense of Radix.lean. `leaf` is
what the tree is for: the valid bottom-level entry of an address.

# Who owns a page

`Owner` says what a physical page is used for, and a map from pages to
owners is the ghost state of the whole development. `Tables m own i r`
is the well-formedness of the tree at `r`: the table reached along a
path is owned as exactly that node of tree `i`. It is one line, and it
is the separation the radix lemmas ask for, because a page has one
owner. The two edits of a walk and a mapping follow: writing a
bottom-level entry changes the leaf of one page (`leaf_store`),
attaching a zeroed table changes none (`leaf_attach`).
-/
import Pke.Lib.Radix
import Pke.Model.Vmm

namespace Pke

open ByteMem Radix

-- ==== entries

theorem pa2pte_or {pa f : Nat} (hf : f < 1024) :
    pa2pte pa ||| f = pa / 4096 * 1024 + f := by
  unfold pa2pte
  rw [← Nat.shiftLeft_add_eq_or_of_lt (by omega : f < 2 ^ 10),
    Nat.shiftLeft_eq, Nat.shiftRight_eq_div_pow]

theorem pte2pa_or {pa f : Nat} (hal : pa % 4096 = 0) (hlt : pa < 2 ^ 64)
    (hf : f < 1024) : pte2pa (pa2pte pa ||| f) = pa := by
  rw [pa2pte_or hf]
  unfold pte2pa u64
  rw [Nat.shiftLeft_eq, Nat.shiftRight_eq_div_pow]
  omega

theorem pa2pte_or_lt {pa f : Nat} (hlt : pa < 2 ^ 64) (hf : f < 1024) :
    pa2pte pa ||| f < 256 ^ 8 := by
  rw [pa2pte_or hf]
  omega

/-- The flags of an entry are the low ten bits it was made with. -/
theorem pa2pte_or_and {pa f k : Nat} (hf : f < 1024) (hk : k < 1024) :
    (pa2pte pa ||| f) &&& k = f &&& k := by
  have hmask : k = (2 ^ 10 - 1) &&& k := by
    rw [Nat.and_comm, Nat.and_two_pow_sub_one_eq_mod]
    omega
  rw [hmask, ← Nat.and_assoc, ← Nat.and_assoc, Nat.and_two_pow_sub_one_eq_mod,
    Nat.and_two_pow_sub_one_eq_mod, pa2pte_or hf]
  congr 1
  omega

-- ==== virtual addresses

/-- The indices of the two upper levels of the walk to `va`. -/
def vpath (va : Nat) : List (Fin 512) := [px 2 va, px 1 va]

theorem vpath_length (va : Nat) : (vpath va).length = 2 := rfl

theorem vpath_lt (va : Nat) : (vpath va).length < 3 := by
  rw [vpath_length]
  decide

theorem px_val (level va : Nat) :
    (px level va : Nat) = va / 2 ^ (12 + 9 * level) % 512 := by
  unfold px
  have hmask : (0x1FF : Nat) = 2 ^ 9 - 1 := rfl
  simp only [pgShift]
  rw [hmask, Nat.and_two_pow_sub_one_eq_mod, Nat.shiftRight_eq_div_pow]

/-- The indices of the walk determine the page. -/
theorem vpath_inj {va va' : Nat} (h : va < 2 ^ 39) (h' : va' < 2 ^ 39) :
    (vpath va' = vpath va ∧ px 0 va' = px 0 va)
      ↔ va' / 4096 = va / 4096 := by
  have h0 := px_val 0 va
  have h1 := px_val 1 va
  have h2 := px_val 2 va
  have h0' := px_val 0 va'
  have h1' := px_val 1 va'
  have h2' := px_val 2 va'
  simp only [vpath, List.cons.injEq, and_true, Fin.ext_iff]
  omega

-- ==== tables

/-- Entry `i` of the table at `t`. -/
def row (m : Mem) (t : Nat) (i : Fin 512) : Nat := load m 8 (t + 8 * i)

/-- The table an entry points to. -/
def child (w : Nat) : Option Nat :=
  if w &&& pteV ≠ 0 then some (pte2pa w) else none

/-- The table at the end of a path from `root`. -/
abbrev tableAt (m : Mem) (root : Nat) (path : List (Fin 512)) : Option Nat :=
  node child (row m) root path

/-- A bottom-level entry, if it is valid. -/
def validEntry (w : Nat) : Option Nat := if w &&& pteV ≠ 0 then some w else none

/-- The valid bottom-level entry of `va`. -/
def leaf (m : Mem) (root va : Nat) : Option Nat :=
  (slot child (row m) root (vpath va) (px 0 va)).bind validEntry

/-- What a physical page is used for. `held` is everything the page
bookkeeping does not look into. -/
inductive Owner where
  | free
  | held
  | table (i : Nat) (path : List (Fin 512))
  | frame (i vpn : Nat)
  | code
  | kstack (i : Nat)
  | regions (i : Nat)
deriving DecidableEq

/-- The tables reached from `root` are the nodes of tree `i`. -/
def Tables (m : Mem) (own : Nat → Owner) (i root : Nat) : Prop :=
  ∀ path t, path.length < 3 → tableAt m root path = some t →
    own t = .table i path

variable {m m' : Mem} {own own' : Nat → Owner} {i root t f va va' w : Nat}

theorem child_eq_none (h : w &&& pteV = 0) : child w = none := by
  unfold child
  rw [if_neg (not_not.mpr h)]

theorem child_eq_some (h : w &&& pteV ≠ 0) : child w = some (pte2pa w) := by
  unfold child
  rw [if_pos h]

/-- A pointer entry to `f`. -/
theorem child_pa2pte (hal : f % 4096 = 0) (hlt : f < 2 ^ 64) :
    child (pa2pte f ||| pteV) = some f := by
  have hv : (pa2pte f ||| pteV) &&& pteV ≠ 0 := by
    rw [pa2pte_or_and (by decide) (by decide)]
    decide
  rw [child_eq_some hv, pte2pa_or hal hlt (by decide)]

theorem Tables.separate (hT : Tables m own i root) :
    Separate child (row m) root 3 := by
  intro p q a hp hq ha ha'
  have h1 := hT p a hp ha
  rw [hT q a hq ha'] at h1
  injection h1 with _ hpath
  exact hpath.symm

/-- A tree depends only on the pages of its own tables. -/
theorem tableAt_congr (hT : Tables m own i root)
    (hag : ∀ path t, own t = .table i path → Agree m m' t (t + 4096)) :
    ∀ q, q.length ≤ 3 → tableAt m' root q = tableAt m root q := by
  refine node_congr fun p t hp ht j => ?_
  unfold row
  have hj := j.isLt
  exact load_agree ((hag p t (hT p t hp ht)).mono (by omega) (by omega))

theorem Tables.congr (hT : Tables m own i root)
    (hag : ∀ path t, own t = .table i path → Agree m m' t (t + 4096))
    (hown : ∀ path t, own t = .table i path → own' t = .table i path) :
    Tables m' own' i root := by
  intro path t hlen ht
  rw [tableAt_congr hT hag path (by omega)] at ht
  exact hown path t (hT path t hlen ht)

theorem leaf_congr (hT : Tables m own i root)
    (hag : ∀ path t, own t = .table i path → Agree m m' t (t + 4096)) :
    leaf m' root va = leaf m root va := by
  unfold leaf slot
  have hnode := tableAt_congr hT hag (vpath va) (Nat.le_of_lt (vpath_lt va))
  unfold tableAt at hnode
  rw [hnode]
  refine congrArg (fun o => Option.bind o validEntry) ?_
  refine Option.map_congr fun t ht => ?_
  have hj := (px 0 va).isLt
  refine load_agree (Agree.mono (hag _ t (hT _ t (vpath_lt va) ht)) ?_ ?_)
  · omega
  · omega

/-- The addresses of a page share its leaf. -/
theorem leaf_page (hva : va < 2 ^ 39) (hva' : va' < 2 ^ 39)
    (hpage : va' / 4096 = va / 4096) : leaf m root va' = leaf m root va := by
  obtain ⟨hpath, hlast⟩ := (vpath_inj hva hva').mpr hpage
  unfold leaf
  rw [hpath, hlast]

-- ==== a zeroed root

section Zeroed

variable (hz : ∀ x, root ≤ x → x < root + 4096 → m x = 0)
include hz

theorem tableAt_zeroed {path : List (Fin 512)}
    (ht : tableAt m root path = some t) : path = [] ∧ t = root := by
  cases path with
  | nil => exact ⟨rfl, (Option.some.inj ht).symm⟩
  | cons j path =>
      have hj := j.isLt
      have hrow : row m root j = 0 :=
        load_eq_zero fun x hlo hhi => hz x (by omega) (by omega)
      have hnone : child (row m root j) = none := by
        rw [hrow]
        exact child_eq_none (by decide)
      unfold tableAt at ht
      simp only [node, hnone, Option.bind_none] at ht
      cases ht

theorem leaf_zeroed : leaf m root va = none := by
  have hnone : tableAt m root (vpath va) = none := by
    cases ht : tableAt m root (vpath va) with
    | none => rfl
    | some t =>
        have hnil := (tableAt_zeroed hz ht).1
        unfold vpath at hnil
        cases hnil
  unfold leaf slot
  unfold tableAt at hnone
  rw [hnone]
  rfl

theorem Tables.zeroed (hown : own root = .table i []) :
    Tables m own i root := by
  intro path t _ ht
  obtain ⟨rfl, rfl⟩ := tableAt_zeroed hz ht
  exact hown

end Zeroed

-- ==== edits

theorem row_store {j k : Fin 512} (ht : t % 4096 = 0) (hf : f % 4096 = 0) :
    row (store m 8 (t + 8 * j) w) f k
      = if f = t ∧ k = j then w % 256 ^ 8 else row m f k := by
  unfold row
  by_cases hsame : f = t ∧ k = j
  · rw [if_pos hsame, hsame.1, hsame.2, load_store]
  · rw [if_neg hsame]
    refine load_agree (store_agree m ?_)
    have hj := j.isLt
    have hk := k.isLt
    by_cases hft : f = t
    · have hkj : (k : Nat) ≠ j := fun hkj => hsame ⟨hft, Fin.ext hkj⟩
      omega
    · omega

theorem row_fill {k : Fin 512} (ht : t % 4096 = 0) (hf : f % 4096 = 0) :
    row (fill m f 0 pgSize) t k = if t = f then 0 else row m t k := by
  unfold row
  have hk := k.isLt
  simp only [pgSize]
  by_cases htf : t = f
  · rw [if_pos htf, htf, load_fill_zero m (by omega) (by omega)]
  · rw [if_neg htf]
    exact load_agree (fill_agree m (by omega))

section LeafWrite

variable (hT : Tables m own i root)
  (hal : ∀ path t, own t = .table i path → t % 4096 = 0)
  (ht : tableAt m root (vpath va) = some t)
include hT hal ht

/-- Memory after writing the entry of `va`, seen from the tables of the
tree. -/
private theorem row_put (w : Nat) :
    ∀ p t', p.length < 3 → tableAt m root p = some t' →
      ∀ k, row (store m 8 (t + 8 * px 0 va) w) t' k
        = Radix.put (row m) t (px 0 va) (w % 256 ^ 8) t' k := by
  intro p t' hp ht' k
  have htal := hal _ t (hT _ t (vpath_lt va) ht)
  have htal' := hal _ t' (hT _ t' hp ht')
  rw [row_store htal htal']
  rfl

theorem tableAt_store (w : Nat) (q : List (Fin 512)) (hq : q.length < 3) :
    tableAt (store m 8 (t + 8 * px 0 va) w) root q = tableAt m root q := by
  have hput : node child (Radix.put (row m) t (px 0 va) (w % 256 ^ 8)) root q
      = tableAt m root q :=
    node_put_leaf hT.separate ht (by rfl) q hq
  have hnode := node_put_leaf (i := px 0 va) (w := w % 256 ^ 8) hT.separate ht
    (by rfl)
  rw [← hput]
  refine node_congr (n := 2) (fun p t' hp ht' k => ?_) q (by omega)
  rw [hnode p (by omega)] at ht'
  exact row_put hT hal ht w p t' (by omega) ht' k

theorem Tables.store (w : Nat) :
    Tables (store m 8 (t + 8 * px 0 va) w) own i root := by
  intro path t' hlen ht'
  rw [tableAt_store hT hal ht w path hlen] at ht'
  exact hT path t' hlen ht'

/-- Writing the entry of `va` changes the leaf of its page only. -/
theorem leaf_store (w : Nat) (hva : va < 2 ^ 39) (hva' : va' < 2 ^ 39) :
    leaf (ByteMem.store m 8 (t + 8 * px 0 va) w) root va'
      = if va' / 4096 = va / 4096 then validEntry (w % 256 ^ 8)
        else leaf m root va' := by
  have hslot := slot_put_leaf (i := px 0 va) (w := w % 256 ^ 8) hT.separate ht
    (by rfl) (q := vpath va') (by rfl) (px 0 va')
  have hrow : slot child (row (ByteMem.store m 8 (t + 8 * px 0 va) w)) root
      (vpath va') (px 0 va')
      = slot child (Radix.put (row m) t (px 0 va) (w % 256 ^ 8)) root (vpath va')
          (px 0 va') := by
    unfold slot
    have h1 := tableAt_store hT hal ht w (vpath va') (vpath_lt va')
    have h2 := node_put_leaf (i := px 0 va) (w := w % 256 ^ 8) hT.separate ht
      (by rfl) (vpath va') (vpath_lt va')
    unfold tableAt at h1
    rw [h1, h2]
    refine Option.map_congr fun t' ht' => ?_
    exact row_put hT hal ht w _ t' (vpath_lt va') ht' _
  unfold leaf
  rw [hrow, hslot]
  by_cases hpage : va' / 4096 = va / 4096
  · rw [if_pos ((vpath_inj hva hva').mpr hpage), if_pos hpage]
    rfl
  · rw [if_neg fun h => hpage ((vpath_inj hva hva').mp h), if_neg hpage]

end LeafWrite

/-- A free page is no table of the tree. -/
theorem Tables.fresh (hT : Tables m own i root) (hf : own f = .free)
    (q : List (Fin 512)) (hq : q.length < 3) : tableAt m root q ≠ some f := by
  intro hq'
  have hown := hT q f hq hq'
  rw [hf] at hown
  cases hown

/-- Memory after taking `f` for a table and hanging it under entry `j`
of table `t`: zero the page, then store the pointer. -/
def attachTable (m : Mem) (t f : Nat) (j : Fin 512) : Mem :=
  ByteMem.store (fill m f 0 pgSize) 8 (t + 8 * j) (pa2pte f ||| pteV)

theorem row_attach {j k : Fin 512} {t' : Nat} (ht : t % 4096 = 0)
    (hfal : f % 4096 = 0) (hflt : f < 2 ^ 64) (ht' : t' % 4096 = 0) :
    row (attachTable m t f j) t' k
      = Radix.put (blank (row m) f 0) t j (pa2pte f ||| pteV) t' k := by
  unfold attachTable
  rw [row_store ht ht']
  unfold Radix.put blank
  by_cases hsame : t' = t ∧ k = j
  · rw [if_pos hsame, if_pos hsame]
    exact Nat.mod_eq_of_lt (pa2pte_or_lt hflt (by decide))
  · rw [if_neg hsame, if_neg hsame, row_fill ht' hfal]

section Attach

variable {path : List (Fin 512)} {j : Fin 512}
variable (hT : Tables m own i root)
  (hal : ∀ path t, own t = .table i path → t % 4096 = 0)
  (ht : tableAt m root path = some t) (hlen : path.length < 2)
  (hempty : row m t j &&& pteV = 0)
  (hf : own f = .free) (hfal : f % 4096 = 0) (hflt : f < 2 ^ 64)
include hT hal ht hlen hempty hf hfal hflt

/-- Attaching adds one table to the tree. -/
theorem tableAt_attach (q : List (Fin 512)) (hq : q.length < 3) :
    tableAt (attachTable m t f j) root q
      = if q = path ++ [j] then some f else tableAt m root q := by
  have htal := hal _ t (hT path t (by omega) ht)
  have hnode := node_attach (w := pa2pte f ||| pteV) (z := 0) hT.separate ht
    (by omega) (child_eq_none hempty) (child_pa2pte hfal hflt)
    (child_eq_none (by decide)) (hT.fresh hf)
  rw [← hnode q hq]
  refine node_congr (n := 2) (fun p t' hp ht' k => ?_) q (by omega)
  rw [hnode p (by omega)] at ht'
  refine row_attach htal hfal hflt ?_
  split at ht'
  case isTrue => rw [← Option.some.inj ht']; exact hfal
  case isFalse => exact hal p t' (hT p t' (by omega) ht')

theorem Tables.attach :
    Tables (attachTable m t f j)
      (Function.update own f (.table i (path ++ [j]))) i root := by
  intro q t' hq ht'
  rw [tableAt_attach hT hal ht hlen hempty hf hfal hflt q hq] at ht'
  split at ht'
  case isTrue hqp =>
    rw [← Option.some.inj ht', hqp, Function.update_self]
  case isFalse =>
    have hold := hT q t' hq ht'
    have hne : t' ≠ f := fun htf => by rw [htf, hf] at hold; cases hold
    rw [Function.update_of_ne hne]
    exact hold

/-- Attaching changes no leaf. -/
theorem leaf_attach : leaf (attachTable m t f j) root va = leaf m root va := by
  have htal := hal _ t (hT path t (by omega) ht)
  have hnode := tableAt_attach hT hal ht hlen hempty hf hfal hflt (vpath va)
    (vpath_lt va)
  unfold tableAt at hnode ht
  unfold leaf slot
  rw [hnode]
  by_cases hq : vpath va = path ++ [j]
  · -- below the new table: nothing before, a zero entry now
    have hnone : node child (row m) root (vpath va) = none := by
      rw [hq, node_snoc, ht]
      exact child_eq_none hempty
    have hft : ¬ (f = t ∧ px 0 va = j) := by
      intro hsame
      exact hT.fresh hf path (by omega) (hsame.1 ▸ ht)
    rw [if_pos hq, hnone, Option.map_some, Option.map_none, Option.bind_none,
      Option.bind_some, row_attach htal hfal hflt hfal]
    unfold Radix.put blank
    rw [if_neg hft, if_pos rfl]
    rfl
  · rw [if_neg hq]
    refine congrArg (fun o => Option.bind o validEntry) ?_
    refine Option.map_congr fun t' ht' => ?_
    have hown := hT _ t' (vpath_lt va) ht'
    have hne : t' ≠ f := fun htf => hT.fresh hf _ (vpath_lt va) (htf ▸ ht')
    have hnt : t' ≠ t := by
      intro htt
      have hpath := hT.separate (vpath va) path t' (vpath_lt va) (by omega) ht'
        (htt ▸ ht)
      rw [← hpath, vpath_length] at hlen
      omega
    rw [row_attach htal hfal hflt (hal _ t' hown)]
    unfold Radix.put blank
    rw [if_neg fun h => hnt h.1, if_neg hne]

end Attach

end Pke
