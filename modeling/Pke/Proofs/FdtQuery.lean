/-
What `query_htif` and `query_mem` find in a device tree.

Both are visits with callbacks that collect the properties of a node and
judge it when they have seen all of them. What a node is judged by is told
without the visit: `Says` for a property with a certain string, `valueOf`
for the `reg` in force, `counts` for the cell counts. The counts of a node
are those of the properties of the node and of its siblings in front,
since the helper has one variable for all the children of a node.
-/
import Pke.Proofs.FdtScan

namespace Pke.Fdt

open ByteMem Traced
open LastThat (lastThat lastThat_append lastThat_cons lastThat_one)

variable {σ ε : Type} {cb : FdtCb σ ε} {strings : Nat}
  {path : List ScanNode} {node child : ScanNode} {m : Mem}
  {a k n fuel self fdt stop : Nat} {lit : List UInt8} {props seen : List Nat}
  {kids : List NodeAt} {up : Option (Int × Int)}

-- ==== strings

/-- A comparison with a constant is true of that string. -/
theorem isString_iff (lit : List UInt8) (hlit : ∀ b ∈ lit, b ≠ 0) :
    isString m a lit = true ↔ StringAt m a lit := by
  obtain ⟨r, hr, hzero⟩ : ∃ r, strcmp (lit.length + 1) (bytesAt m a) (lit.getD · 0)
      = some r ∧ (r = 0 ↔ Spells (bytesAt m a) lit) :=
    strcmp_spells (spells_list hlit) (Nat.lt_succ_self lit.length)
  unfold isString
  rw [hr, decide_eq_true_iff, Option.some_inj, hzero]
  exact stringAt_iff.symm

theorem isString_eq (lit : List UInt8) (hlit : ∀ b ∈ lit, b ≠ 0) :
    isString m a lit = decide (StringAt m a lit) := by
  rw [Bool.eq_iff_iff, isString_iff lit hlit, decide_eq_true_iff]

theorem says_snoc {value : List UInt8} :
    Says m strings lit value (props ++ [a]) ↔ Says m strings lit value props ∨
      Named m strings lit a ∧ StringAt m (a + 12) value := by
  unfold Says
  simp only [List.mem_append, List.mem_singleton, or_and_right, exists_or,
    exists_eq_left]

-- ==== counts

/-- The path with what properties declare for the node. -/
def declaredPath (m : Mem) (strings : Nat) (props : List Nat) :
    List ScanNode → List ScanNode
  | [] => []
  | node :: up =>
      { node with
        addressCells := declared m strings addressCellsName node.addressCells props
        sizeCells := declared m strings sizeCellsName node.sizeCells props } :: up

theorem setCells_eq :
    setCells m strings a path = declaredPath m strings [a] path := by
  cases path with
  | nil => rfl
  | cons node up =>
      have haddr := isString_eq (m := m) (a := strings + cell m (a + 8))
        addressCellsName (by simp [addressCellsName])
      have hsize := isString_eq (m := m) (a := strings + cell m (a + 8))
        sizeCellsName (by simp [sizeCellsName])
      simp only [setCells, declaredPath, declared, lastThat_one, haddr, hsize, Named]
      by_cases h₁ : StringAt m (strings + cell m (a + 8)) addressCellsName <;>
        by_cases h₂ : StringAt m (strings + cell m (a + 8)) sizeCellsName <;>
        simp [h₁, h₂]

theorem declaredPath_cons :
    declaredPath m strings props (setCells m strings a path)
      = declaredPath m strings (a :: props) path := by
  rw [setCells_eq]
  cases path with
  | nil => rfl
  | cons node up =>
      unfold declaredPath declared
      simp only [lastThat_cons]
      rfl

/-- The counts of a node as its children see them. -/
def ScanNode.cells (node : ScanNode) : Int × Int :=
  (node.addressCells, node.sizeCells)

/-- A node starts from what its siblings in front have declared. -/
theorem declaredPath_cells (h : child.cells = counts m strings seen) (name : Nat) :
    (declaredPath m strings props ({ child with name := name } :: path)).head?.map
        ScanNode.cells
      = some (counts m strings (seen ++ props)) := by
  obtain ⟨h₁, h₂⟩ := Prod.ext_iff.mp h
  simp only [ScanNode.cells, counts] at h₁ h₂
  simp only [declaredPath, List.head?_cons, Option.map_some, ScanNode.cells, counts,
    h₁, h₂, declared, lastThat_append]

-- ==== visits that keep nodes

/-- A node, where nothing is ever deleted. -/
theorem wp_visitNode (hc : cb.closed = none) {bad : ε → Prop}
    {E : Halt → Scan σ → Prop} {Q : ScanNode × List NodeAt → Scan σ → Prop}
    {start : Nat} {s : Scan σ} :
    Wp bad E (visitNode cb strings path child (.mk start stop props kids)) Q s ↔
      Wp bad E (optional cb.opened ({ child with name := start + 4 } :: path))
        (fun _ => Wp bad E
          (visitProps cb strings ({ child with name := start + 4 } :: path) props)
          fun inner => Wp bad E (finish cb false inner) fun _ =>
            Wp bad E (visitKids cb strings inner freshChild kids) fun left =>
              Q (inner.headD { child with name := start + 4 },
                [.mk start stop props left])) s := by
  have hd : ∀ inner, deletes cb inner = pure false := by
    intro inner
    unfold deletes
    rw [hc]
  rw [visitNode]
  simp only [wp_bind, hd, wp_pure, Bool.false_eq_true, if_false]

theorem wp_visitKids {bad : ε → Prop} {E : Halt → Scan σ → Prop}
    {Q : List NodeAt → Scan σ → Prop} {t : NodeAt} {rest : List NodeAt}
    {s : Scan σ} :
    Wp bad E (visitKids cb strings path child (t :: rest)) Q s ↔
      Wp bad E (visitNode cb strings path child t) (fun r => Wp bad E
        (visitKids cb strings path r.1 rest) fun more => Q (r.2 ++ more)) s := by
  rw [visitKids]
  simp only [wp_bind, wp_pure]

theorem wp_optional {bad : ε → Prop} {E : Halt → Scan σ → Prop}
    {f : List ScanNode → Mem → Prog σ ε Halt Unit} {Q : Unit → Scan σ → Prop}
    {s : Scan σ} :
    Wp bad E (optional (some f) path) Q s ↔
      Wp bad (fun e x => E e { s with extra := x }) (f path s.mem)
        (fun u x => Q u { s with extra := x }) s.extra :=
  wp_callback

/-- `done` is called for a node. -/
theorem finish_node (cb : FdtCb σ ε) (node : ScanNode) (up : List ScanNode) :
    finish cb false (node :: up) = optional cb.done (node :: up) := by
  unfold finish
  rw [if_pos ⟨rfl, List.cons_ne_nil node up⟩]

/-- What holds of the properties seen is kept up by the callback for one. -/
theorem visitProps_returns {I : List Nat → σ → Prop} (seen : List Nat)
    (path : List ScanNode)
    (hstep : ∀ seen a path x, I seen x →
      Returns (cb.prop (propAt m strings a path) m) (fun _ => I (seen ++ [a])) x)
    {s : Scan σ} (hm : s.mem = m) (hI : I seen s.extra) :
    Returns (visitProps cb strings path props) (fun inner s' =>
      inner = declaredPath m strings props path ∧ s'.mem = m ∧
        I (seen ++ props) s'.extra) s := by
  induction props generalizing path s seen with
  | nil =>
      rw [visitProps, Returns, wp_pure, List.append_nil]
      refine ⟨?_, hm, hI⟩
      cases path with
      | nil => rfl
      | cons node up => rfl
  | cons a props ih =>
      subst hm
      rw [visitProps, Returns, wp_bind, wp_get, wp_bind, wp_callback]
      refine (hstep seen a _ _ hI).mono fun _ x hx => ?_
      have hrest := ih (seen ++ [a]) (setCells s.mem strings a path)
        (s := { s with extra := x }) rfl hx
      rw [declaredPath_cons, List.append_assoc] at hrest
      exact hrest

-- ==== query_htif

/-- `compat` collects the properties of a node. -/
def HtifScan.Saw (x₀ : HtifScan) (m : Mem) (strings : Nat) (seen : List Nat)
    (x : HtifScan) : Prop :=
  x.htif = x₀.htif ∧ (x.compat = true ↔ x₀.compat = true ∨
    Says m strings compatibleName htifName seen)

theorem visitProps_htif {s : Scan HtifScan} :
    Returns (visitProps htifCb strings path props) (fun inner s' =>
      inner = declaredPath s.mem strings props path ∧ s'.mem = s.mem ∧
      s.extra.Saw s.mem strings props s'.extra) s := by
  refine visitProps_returns (I := s.extra.Saw s.mem strings) [] path ?_ rfl
    ⟨rfl, by simp [Says]⟩
  intro seen a path x ⟨hhtif, hcompat⟩
  unfold Returns htifCb htifProp HtifScan.Saw
  simp only [says_snoc, ← or_assoc, ← hcompat]
  rw [wp_ite, wp_modify, wp_pure,
    isString_iff compatibleName (by simp [compatibleName]),
    isString_iff htifName (by simp [htifName])]
  refine ⟨fun h => ⟨hhtif, ?_⟩, fun h => ⟨hhtif, ?_⟩⟩
  · exact ⟨fun _ => Or.inr h, fun _ => rfl⟩
  · exact ⟨Or.inl, fun h' => h'.resolve_right h⟩

/-- A node found sets `htif`, and nothing clears it. -/
theorem visitKids_htif {s : Scan HtifScan} :
    Returns (visitKids htifCb strings path child kids) (fun _ s' =>
      s'.mem = s.mem ∧
      s'.extra.htif =
        if ∃ props ∈ nodesOf kids, Says s.mem strings compatibleName htifName props
        then 1 else s.extra.htif) s := by
  induction kids using forest_induction generalizing path child s with
  | nil =>
      rw [visitKids, Returns, wp_pure, nodesOf]
      simp
  | cons start stop props kids rest ihk ihr =>
      rw [Returns, wp_visitKids, wp_visitNode rfl]
      refine wp_optional.mpr ((wp_modify _).mpr ?_)
      refine visitProps_htif.mono fun inner s₂ hs₂ => ?_
      obtain ⟨hinner, hmem₂, hhtif₂, hcompat₂⟩ := hs₂
      simp only [Bool.false_eq_true, false_or] at hmem₂ hhtif₂ hcompat₂
      rw [declaredPath] at hinner
      rw [hinner, finish_node]
      have hdone : ∀ path, Returns (htifDone path s₂.mem) (fun _ x => x.htif =
          if Says s.mem strings compatibleName htifName props then 1
          else s.extra.htif) s₂.extra := by
        intro path
        unfold Returns htifDone
        rw [wp_bind, wp_get, wp_ite, wp_pure, wp_modify]
        refine ⟨fun h => ?_, fun h => ?_⟩
        · rw [if_neg (by rw [← hcompat₂, h]; exact Bool.false_ne_true), hhtif₂]
        · rw [if_pos (hcompat₂.mp (eq_true_of_ne_false h))]
      refine wp_optional.mpr ((hdone _).mono fun _ x hx => ?_)
      refine ihk.mono fun left s₃ hs₃ => ?_
      refine ihr.mono fun more s₄ hs₄ => ?_
      obtain ⟨hmem₃, hhtif₃⟩ := hs₃
      obtain ⟨hmem₄, hhtif₄⟩ := hs₄
      simp only [hmem₂] at hmem₃ hhtif₃
      rw [hmem₃] at hmem₄ hhtif₄
      refine ⟨hmem₄, ?_⟩
      rw [hhtif₄, hhtif₃, hx, nodesOf, NodeAt.nodes]
      simp only [List.cons_append, List.mem_cons, List.mem_append, or_and_right,
        exists_or, exists_eq_left]
      split
      · rename_i h
        rw [if_pos (Or.inr (Or.inr h))]
      · rename_i h
        split
        · rename_i h'
          rw [if_pos (Or.inr (Or.inl h'))]
        · rename_i h'
          simp only [h, h', or_false]

/-- `query_htif` reads the whole tree, and sets `htif` if a node of it is
compatible with `ucb,htif0`. -/
theorem queryHtif_finds (fdt fuel : Nat) (s : Scan HtifScan)
    (hu : Understood s.mem fdt)
    (h : LaysBody anyLength s.mem (structAt s.mem fdt) props kids stop n)
    (hfuel : n ≤ fuel) :
    Returns (queryHtif fuel fdt) (fun _ s' => s'.mem = s.mem ∧
      s'.extra.htif =
        if ∃ props ∈ nodesOf kids,
          Says s.mem (stringsAt s.mem fdt) compatibleName htifName props
        then 1 else s.extra.htif) s := by
  refine (wp_fdtScan (Or.inl htifCb_leaves) hu h hfuel).mpr ?_
  refine visitProps_htif.mono fun inner s₁ hs₁ => ?_
  obtain ⟨rfl, hmem₁, hhtif₁, -⟩ := hs₁
  refine (wp_pure ()).mpr (visitKids_htif.mono fun left s₂ hs₂ => ?_)
  rwa [hmem₁, hhtif₁] at hs₂

/-- The tiny tree is compatible, and `htif` is set. -/
theorem queryHtif_tiny :
    Returns (queryHtif 200 0) (fun _ s' => s'.extra.htif = 1) tinyScan := by
  have h := queryHtif_finds 0 200 tinyScan tinyFdt_understood
    (tinyFdt_lays trivial trivial trivial) (by decide)
  refine h.mono fun _ s' hs' => ?_
  rw [hs'.2, if_pos]
  refine ⟨[56, 76, 100], by simp [tinyTree, nodesOf, NodeAt.nodes], ?_⟩
  decide

-- ==== query_mem

theorem getCells_eq (j i value : Nat) :
    getCells m j (value + 4 * i) (number m value i)
      = (value + 4 * (i + j), number m value (i + j)) := by
  induction j generalizing i with
  | zero => rfl
  | succ j ih =>
      have hstep : u64 (u64 (number m value i <<< 32) + cell m (value + 4 * i))
          = number m value (i + 1) := by
        rw [number, Nat.shiftLeft_eq]
        exact Nat.mod_add_mod ..
      rw [getCells, hstep, show value + 4 * i + 4 = value + 4 * (i + 1) by omega, ih,
        show i + 1 + j = i + (j + 1) by omega]

/-- Cells are read as one number. -/
theorem getCells_run (k value : Nat) :
    getCells m k value 0 = (value + 4 * k, number m value k) := by
  have h := getCells_eq (m := m) k 0 value
  rw [Nat.zero_add] at h
  exact h

theorem bankSize_append (given : Nat) (l l' : List (Nat × Nat)) :
    bankSize self given (l ++ l') = bankSize self (bankSize self given l) l' :=
  lastThat_append given l l'

theorem bankSize_cons (given : Nat) (bank : Nat × Nat) (l : List (Nat × Nat)) :
    bankSize self given (bank :: l)
      = bankSize self (if Covers self bank then bank.2 else given) l := by
  unfold bankSize
  rw [lastThat_cons]
  simp only [decide_eq_true_eq]

theorem pairs_succ (ac sc value count : Nat) :
    pairs m ac sc value (count + 1)
      = (number m value ac, number m (value + 4 * ac) sc)
          :: pairs m ac sc (value + 4 * (ac + sc)) count := by
  unfold pairs
  rw [List.range_succ_eq_map, List.map_cons, List.map_map]
  congr 1
  apply List.map_congr_left
  intro i _
  have haddr : value + 4 * (ac + sc) * (i + 1)
      = value + 4 * (ac + sc) + 4 * (ac + sc) * i := by
    rw [Nat.mul_succ]
    omega
  simp only [Function.comp, Nat.succ_eq_add_one, haddr]

/-- The loop of `mem_done` looks at every pair. -/
theorem memRanges_run {parent : ScanNode} {ac sc : Nat}
    (hac : parent.addressCells.toNat = ac) (hsc : parent.sizeCells.toNat = sc)
    (hpos : 0 < ac + sc) {count value : Nat} {stop : Int} {x : MemScan}
    (hstop : stop = (value + 4 * (ac + sc) * count : Nat)) (hfuel : count < fuel) :
    Returns (memRanges m self parent stop fuel value) (fun v x' =>
      stop = v ∧
      x' = { x with
        gMemSize := bankSize self x.gMemSize (pairs m ac sc value count) }) x := by
  induction count generalizing value fuel x with
  | zero =>
      obtain ⟨f, rfl⟩ := Nat.exists_eq_succ_of_ne_zero (Nat.ne_of_gt hfuel)
      have hend : ¬ stop - value > 0 := by
        rw [hstop]
        omega
      rw [Nat.succ_eq_add_one, memRanges, Returns, if_neg hend, wp_pure]
      exact ⟨hstop, rfl⟩
  | succ count ih =>
      obtain ⟨f, rfl⟩ := Nat.exists_eq_succ_of_ne_zero
        (Nat.ne_of_gt (Nat.zero_lt_of_lt hfuel))
      have hgo : stop - value > 0 := by
        rw [hstop, Nat.mul_succ]
        omega
      have hrest : stop = (value + 4 * ac + 4 * sc + 4 * (ac + sc) * count : Nat) := by
        rw [hstop, Nat.mul_succ]
        congr 1
        omega
      rw [Nat.succ_eq_add_one, memRanges, Returns, if_pos hgo]
      simp only [fdtGetAddress, fdtGetSize, hac, hsc, getCells_run]
      rw [wp_bind, wp_modify]
      refine (ih hrest (Nat.lt_of_succ_lt_succ hfuel)).mono fun v x' hx' => ?_
      refine ⟨hx'.1, hx'.2.trans ?_⟩
      rw [pairs_succ, bankSize_cons, show value + 4 * ac + 4 * sc
        = value + 4 * (ac + sc) by omega]
      have hcovers : Covers self (number m value ac, number m (value + 4 * ac) sc) ↔
          number m value ac ≤ self ∧
            self ≤ u64 (number m value ac + number m (value + 4 * ac) sc) := Iff.rfl
      by_cases hc : Covers self (number m value ac, number m (value + 4 * ac) sc)
      · rw [if_pos hc, if_pos (hcovers.mp hc)]
      · rw [if_neg hc, if_neg (mt hcovers.mpr hc)]

/-- What the properties of a node leave in `mem_scan`. -/
def MemScan.Saw (x₀ : MemScan) (m : Mem) (strings : Nat) (seen : List Nat)
    (x : MemScan) : Prop :=
  x.gMemSize = x₀.gMemSize ∧
  (x.memory = true ↔ x₀.memory = true ∨
    Says m strings deviceTypeName memoryName seen) ∧
  (x.regValue, x.regLen) = valueOf m strings regName (x₀.regValue, x₀.regLen) seen

theorem visitProps_mem {s : Scan MemScan} :
    Returns (visitProps (memCb fuel self) strings path props) (fun inner s' =>
      inner = declaredPath s.mem strings props path ∧ s'.mem = s.mem ∧
      s.extra.Saw s.mem strings props s'.extra) s := by
  refine visitProps_returns (I := s.extra.Saw s.mem strings) [] path ?_ rfl
    ⟨rfl, by simp [Says], rfl⟩
  intro seen a path x ⟨hsize, hmemory, hvalue⟩
  unfold Returns memCb memProp MemScan.Saw
  unfold valueOf at hvalue ⊢
  simp only [says_snoc, ← or_assoc, ← hmemory, lastThat_append, ← hvalue, lastThat_one]
  rw [wp_ite, wp_modify, wp_ite, wp_modify, wp_pure,
    isString_iff deviceTypeName (by simp [deviceTypeName]),
    isString_iff memoryName (by simp [memoryName]),
    isString_iff regName (by simp [regName])]
  refine ⟨fun h => ⟨hsize, ?_, ?_⟩, fun h => ⟨fun h' => ⟨hsize, ?_, ?_⟩,
    fun h' => ⟨hsize, ?_, ?_⟩⟩⟩
  · exact ⟨fun _ => Or.inr h, fun _ => rfl⟩
  · have hreg : ¬ Named s.mem strings regName a := fun hreg =>
      absurd (StringAt.unique h.1 hreg) (by decide)
    simp [hreg]
  · exact ⟨Or.inl, fun h' => h'.resolve_right h⟩
  · have hreg : Named s.mem strings regName a := h'
    simp [hreg, propAt]
  · exact ⟨Or.inl, fun h' => h'.resolve_right h⟩
  · have hreg : ¬ Named s.mem strings regName a := h'
    simp [hreg]

/-- A node is judged: a memory node in order has its banks looked at. -/
theorem memDone_run {x : MemScan} (hup : path.head?.map ScanNode.cells = up)
    (hreg : OwnRegular m strings fuel up props)
    (hmemory : x.memory = true ↔ Says m strings deviceTypeName memoryName props)
    (hvalue : (x.regValue, x.regLen) = valueOf m strings regName (0, 0) props) :
    Returns (memDone fuel self (node :: path) m) (fun _ x' =>
      x'.gMemSize
        = bankSize self x.gMemSize (ownBanks m strings up props)) x := by
  unfold Returns memDone
  rw [wp_bind, wp_get]
  by_cases hsays : Says m strings deviceTypeName memoryName props
  · obtain ⟨ac, sc, value, count, rfl, hpos, hval, hcells, hcount⟩ := hreg hsays
    obtain ⟨h₁, h₂⟩ := Prod.ext_iff.mp (hvalue.trans hval)
    simp only at h₁ h₂
    subst h₁
    cases path with
    | nil => cases hup
    | cons parent rest =>
        have hparent : parent.cells = (ac, sc) := Option.some.inj hup
        obtain ⟨hac, hsc⟩ := Prod.ext_iff.mp hparent
        have hac : parent.addressCells = ac := hac
        have hsc : parent.sizeCells = sc := hsc
        have htrue : ¬ x.memory = false := by
          rw [hmemory.mpr hsays]
          exact Bool.noConfusion
        have hlen : x.regLen = 4 * (((ac.toNat + sc.toNat) * count : Nat) : Int) := by
          rw [h₂, Nat.mul_assoc]
          rfl
        have hbad : ¬ (x.regValue = 0 ∨ x.regLen.tmod 4 ≠ 0) := by
          rw [hlen, Int.mul_tmod_right]
          omega
        have hstop : (x.regValue + 4 * x.regLen.tdiv 4 : Int)
            = (x.regValue + 4 * (ac.toNat + sc.toNat) * count : Nat) := by
          rw [hlen, Int.mul_tdiv_cancel_left _ (by decide), Nat.mul_assoc]
          rfl
        simp only [if_neg htrue, if_neg hbad, hstop]
        rw [wp_bind]
        refine (memRanges_run (congrArg _ hac) (congrArg _ hsc) hcells rfl hcount).mono
          fun v x' hx' => ?_
        rw [if_neg (not_not.mpr hx'.1), wp_pure, hx'.2]
        have hdiv : (4 * (ac.toNat + sc.toNat) * count : Nat)
            / (4 * (ac.toNat + sc.toNat)) = count :=
          Nat.mul_div_cancel_left _ (by omega)
        unfold ownBanks
        simp only [hval, if_pos hsays, Int.toNat_natCast, hdiv]
  · have hfalse : x.memory = false := by
      rw [← Bool.not_eq_true, hmemory]
      exact hsays
    rw [if_pos hfalse, wp_pure]
    unfold ownBanks
    cases up with
    | none => rfl
    | some cells =>
        simp only [if_neg hsays]
        rfl

/-- The visit looks at the banks of every memory node. -/
theorem visitKids_mem {s : Scan MemScan}
    (hchild : child.cells = counts s.mem strings seen)
    (hup : path.head?.map ScanNode.cells = up)
    (hreg : RegularAll s.mem strings fuel up seen kids) :
    Returns (visitKids (memCb fuel self) strings path child kids) (fun _ s' =>
      s'.mem = s.mem ∧
      s'.extra.gMemSize
        = bankSize self s.extra.gMemSize (banksOf s.mem strings up seen kids)) s := by
  induction kids using forest_induction
    generalizing path child s up seen with
  | nil =>
      rw [visitKids, Returns, wp_pure, banksOf]
      exact ⟨rfl, rfl⟩
  | cons start stop props kids rest ihk ihr =>
      obtain ⟨⟨hown, hkids⟩, hrest⟩ := hreg
      rw [Returns, wp_visitKids, wp_visitNode rfl]
      refine wp_optional.mpr ((wp_modify _).mpr ?_)
      refine visitProps_mem.mono fun inner s₂ hs₂ => ?_
      obtain ⟨hinner, hmem₂, hsize₂, hmemory₂, hvalue₂⟩ := hs₂
      simp only [Bool.false_eq_true, false_or] at hinner hmem₂ hsize₂ hmemory₂ hvalue₂
      have hcells : (declaredPath s.mem strings props
          ({ child with name := start + 4 } :: path)).head?.map ScanNode.cells
          = some (counts s.mem strings (seen ++ props)) :=
        declaredPath_cells hchild (start + 4)
      rw [← hinner] at hcells
      rw [declaredPath] at hinner
      rw [hinner] at hcells ⊢
      rw [finish_node]
      refine wp_optional.mpr ?_
      refine (memDone_run hup (hmem₂ ▸ hown) (hmem₂ ▸ hmemory₂)
        (hmem₂ ▸ hvalue₂)).mono fun _ x hx => ?_
      have hregular : RegularAll s₂.mem strings fuel
          (some (counts s.mem strings (seen ++ props))) [] kids := by
        rw [hmem₂]
        exact hkids
      refine (ihk (s := { s₂ with extra := x }) rfl hcells hregular).mono
        fun left s₃ hs₃ => ?_
      obtain ⟨hmem₃, hsize₃⟩ := hs₃
      simp only [hmem₂] at hmem₃ hsize₃
      have hnext : (List.headD (declaredPath s.mem strings props
          ({ child with name := start + 4 } :: path))
            { child with name := start + 4 }).cells
          = counts s₃.mem strings (seen ++ props) := by
        rw [hmem₃]
        exact Option.some.inj hcells
      refine (ihr hnext hup (hmem₃ ▸ hrest)).mono fun more s₄ hs₄ => ?_
      obtain ⟨hmem₄, hsize₄⟩ := hs₄
      rw [hmem₃] at hmem₄ hsize₄
      refine ⟨hmem₄, ?_⟩
      rw [hsize₄, hsize₃, hx, hmem₂, hsize₂, banksOf, NodeAt.banks, NodeAt.props,
        bankSize_append, bankSize_append]

/-- `query_mem` finds the size of the last bank, in the order of the tree,
that holds its own code; without one, or with an empty one, it stops. -/
theorem queryMem_finds (fdt fuel self : Nat) (s : Scan MemScan)
    (hu : Understood s.mem fdt)
    (h : LaysBody anyLength s.mem (structAt s.mem fdt) props kids stop n)
    (hfuel : n ≤ fuel)
    (hreg : RegularAll s.mem (stringsAt s.mem fdt) fuel none [] kids) :
    ∃ s', s'.mem = s.mem ∧
      s'.extra.gMemSize
        = bankSize self 0 (banksOf s.mem (stringsAt s.mem fdt) none [] kids) ∧
      queryMem fuel self fdt s
        = ([], if 0 < s'.extra.gMemSize then .ok () s'
            else .halt (.assertFailed "g_mem_size > 0") s') := by
  have hscan : Returns (fdtScan (memCb fuel self) fuel fdt) (fun _ s' =>
      s'.mem = s.mem ∧ s'.extra.gMemSize
        = bankSize self 0 (banksOf s.mem (stringsAt s.mem fdt) none [] kids))
      { s with extra := { s.extra with gMemSize := 0 } } := by
    have hl : (memCb fuel self).Leaves := fun f hf => by cases hf
    refine (wp_fdtScan (s := { s with extra := { s.extra with gMemSize := 0 } })
      (Or.inl hl) hu h hfuel).mpr ?_
    refine visitProps_mem.mono fun inner s₁ hs₁ => ?_
    obtain ⟨rfl, hmem₁, hsize₁, -, -⟩ := hs₁
    have hregular : RegularAll s₁.mem (stringsAt s.mem fdt) fuel none [] kids := by
      rw [hmem₁]
      exact hreg
    refine (wp_pure ()).mpr ((visitKids_mem rfl rfl hregular).mono fun left s₂ hs₂ => ?_)
    rwa [hmem₁, hsize₁] at hs₂
  obtain ⟨es, _, s', hrun, hmem, hsize⟩ := hscan.elim
  obtain rfl : es = [] := by
    cases es with
    | nil => rfl
    | cons e _ => exact e.elim
  refine ⟨s', hmem, hsize, ?_⟩
  unfold queryMem
  rw [bind_modify, bind_of_run hrun, bind_get]
  by_cases hpos : 0 < s'.extra.gMemSize
  · rw [if_pos hpos, if_pos hpos]
    rfl
  · rw [if_neg hpos, if_neg hpos]
    rfl

theorem tinyTree_regular :
    RegularAll tinyFdt (stringsAt tinyFdt 0) 200 none [] tinyTree := by
  refine ⟨⟨fun h => ?_, ⟨fun _ => ?_, trivial⟩, trivial⟩, trivial⟩
  · obtain ⟨a, ha, -⟩ := h
    cases ha
  · exact ⟨2, 1, 88, 1, by decide, by decide, by decide, by decide, by decide⟩

theorem queryMem_tiny : ∃ s', s'.extra.gMemSize = 0x08000000 ∧
    queryMem 200 0x80001000 0 ⟨tinyFdt, ⟨false, 0, 0, 0⟩⟩ = ([], .ok () s') := by
  obtain ⟨s', -, hsize, hrun⟩ := queryMem_finds 0 200 0x80001000
    ⟨tinyFdt, ⟨false, 0, 0, 0⟩⟩ tinyFdt_understood (tinyFdt_lays trivial trivial trivial)
    (by decide) tinyTree_regular
  have hbank : s'.extra.gMemSize = 0x08000000 := by
    rw [hsize]
    decide
  refine ⟨s', hbank, ?_⟩
  rw [hrun, if_pos (by rw [hbank]; decide)]

end Pke.Fdt
