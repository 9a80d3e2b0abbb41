/-
What `fdt_scan` accepts, and what it leaves when nodes are deleted.

A scan that comes back has read a tree: every round of the loop adds its
token in front of the layout that the later rounds have read
(`helper_layout`). Together with the visit this says exactly which
memories are accepted.

Deleting a node turns its words into NOPs, and NOPs are nothing to a
scan. So the memory behind a scan holds the tree that the visit returns:
the nodes whose `close` did not say -1 (`visitKids_left`).
-/
import Pke.Proofs.Fdt

namespace Pke.Fdt

open ByteMem Traced

variable {σ ε α : Type} {cb : FdtCb σ ε} {strings : Nat} {s s' : Scan σ}
  {path : List ScanNode} {child : ScanNode} {last : Bool} {P : Int → Prop}
  {m m' : Mem} {x y z a k n fuel stop fdt : Nat} {props : List Nat}
  {kids : List NodeAt} {es : List ε}

-- ==== words in front of it

theorem nops_zero : Nops m x 0 := fun i hi => absurd hi (Nat.not_lt_zero i)

theorem Nops.cons (hx : cell m x = fdtNop) (h : Nops m (x + 4) k) :
    Nops m x (k + 1) := by
  intro i hi
  cases i with
  | zero => exact hx
  | succ i =>
      rw [show x + 4 * (i + 1) = x + 4 + 4 * i by omega]
      exact h i (Nat.lt_of_succ_lt_succ hi)

theorem Nops.append {j : Nat} (h : Nops m x k) (h' : Nops m (x + 4 * k) j) :
    Nops m x (k + j) := by
  intro i hi
  by_cases hik : i < k
  · exact h i hik
  · rw [show x + 4 * i = x + 4 * k + 4 * (i - k) by omega]
    exact h' (i - k) (by omega)

/-- NOPs in front of an end. -/
theorem Closes.nops {j : Nat} (h : Closes m (x + 4 * j) stop n) (hn : Nops m x j) :
    Closes m x stop (j + n) := by
  obtain ⟨k, hnops, rfl, htok⟩ := h
  refine ⟨j + k, hn.append hnops, (Nat.add_assoc ..).symm, ?_⟩
  rw [show x + 4 * (j + k) = x + 4 * j + 4 * k by omega]
  exact htok

/-- NOPs in front of children. -/
theorem LaysKids.nops {j : Nat} {t : NodeAt}
    (h : LaysKids P m (x + 4 * j) (t :: kids) y n) (hn : Nops m x j) :
    LaysKids P m x (t :: kids) y (j + n) := by
  obtain ⟨k, n₁, n₂, hnops, hstart, hnode, hrest, rfl⟩ := h
  refine ⟨j + k, n₁, n₂, hn.append hnops, ?_, hnode, hrest, by omega⟩
  rw [hstart]
  omega

/-- A NOP in front of a body. -/
theorem LaysBody.nop (h : LaysBody P m (x + 4) props kids stop n)
    (hx : cell m x = fdtNop) : LaysBody P m x props kids stop (n + 1) := by
  have hone : Nops m x 1 := Nops.cons hx nops_zero
  obtain ⟨y, z, n₁, n₂, n₃, hprops, hkids, hclose, rfl⟩ := h
  -- It is in front of the first thing there is.
  cases props with
  | cons a props =>
      obtain ⟨k, n', hnops, rfl, hprop, hlen, hrest, rfl⟩ := hprops
      have haddr : x + 4 + 4 * k = x + 4 * (k + 1) := by omega
      have hprops : LaysProps P m x ((x + 4 + 4 * k) :: props) y (k + 1 + 1 + n') := by
        rw [LaysProps]
        exact ⟨k + 1, n', Nops.cons hx hnops, haddr, hprop, hlen, hrest, rfl⟩
      exact ⟨y, z, _, n₂, n₃, hprops, hkids, hclose, by omega⟩
  | nil =>
      obtain ⟨rfl, rfl⟩ := hprops
      rw [show x + 4 = x + 4 * 1 by rfl] at hkids
      cases kids with
      | cons t kids =>
          exact ⟨x, z, 0, 1 + n₂, n₃, ⟨rfl, rfl⟩, hkids.nops hone, hclose, by omega⟩
      | nil =>
          obtain ⟨rfl, rfl⟩ := hkids
          exact ⟨x, x, 0, 0, 1 + n₃, ⟨rfl, rfl⟩, ⟨rfl, rfl⟩, hclose.nops hone,
            by omega⟩

/-- A property in front of a body. -/
theorem LaysBody.prop (h : LaysBody P m (propEnd m x) props kids stop n)
    (hx : cell m x = fdtProp) (hlen : P (int32 (cell m (x + 4)))) :
    LaysBody P m x (x :: props) kids stop (n + 1) := by
  obtain ⟨y, z, n₁, n₂, n₃, hprops, hkids, hclose, rfl⟩ := h
  exact ⟨y, z, 0 + 1 + n₁, n₂, n₃,
    ⟨0, n₁, nops_zero, rfl, hx, hlen, hprops, rfl⟩, hkids, hclose, by omega⟩

/-- A node in front of what is left of a body. -/
theorem LaysBody.node {name : List UInt8} {kids' : List NodeAt} {next n' : Nat}
    (h : LaysBody P m (x + 8 + 4 * (name.length / 4)) props kids next n)
    (hx : cell m x = fdtBeginNode) (hname : StringAt m (x + 4) name)
    (hbehind : LaysBody P m next [] kids' stop n') :
    LaysBody P m x [] (.mk x next props kids :: kids') stop
      (name.length + n + (next - x) + 2 + n') := by
  obtain ⟨y, z, n₁, n₂, n₃, hprops, hkids, hclose, rfl⟩ := h
  obtain ⟨_, z', i₁, i₂, i₃, ⟨rfl, rfl⟩, hkids', hclose', rfl⟩ := hbehind
  have hnode : Lays P m (.mk x next props kids)
      (name.length + n₁ + n₂ + n₃ + (next - x) + 2) :=
    ⟨hx, name, y, z, n₁, n₂, n₃, hname, hprops, hkids, hclose, rfl⟩
  exact ⟨x, z', 0, _, i₃, ⟨rfl, rfl⟩,
    ⟨0, _, i₂, nops_zero, rfl, hnode, hkids', rfl⟩, hclose', by omega⟩

/-- An end is a body. -/
theorem laysBody_end (h : cell m x = fdtEndNode ∧ stop = x + 4 ∨
    IsEnd (cell m x) ∧ stop = x) : LaysBody P m x [] [] stop 1 :=
  ⟨x, x, 0, 0, 1, ⟨rfl, rfl⟩, ⟨rfl, rfl⟩, ⟨0, nops_zero, rfl, h⟩, rfl⟩

-- ==== acceptance

/-- Any length. -/
abbrev anyLength (_ : Int) : Prop := True

/-- A scan that returns has read a tree, and written nothing. -/
theorem helper_layout (hl : cb.Leaves) {r : Nat × List ScanNode}
    (h : fdtScanHelper cb strings fuel x path child last s = (es, .ok r s')) :
    s'.mem = s.mem ∧ ∃ props kids n,
      LaysBody anyLength s.mem x props kids r.1 n ∧ (last = true → props = []) := by
  induction fuel generalizing x path child last s s' es r with
  | zero => cases h
  | succ fuel ih =>
      rw [fdtScanHelper, bind_get] at h
      by_cases hnop : cell s.mem x = fdtNop
      · rw [if_pos hnop] at h
        obtain ⟨hmem, props, kids, n, hbody, hlast⟩ := ih h
        exact ⟨hmem, props, kids, n + 1, hbody.nop hnop, hlast⟩
      rw [if_neg hnop] at h
      by_cases hprop : cell s.mem x = fdtProp
      · rw [if_pos hprop] at h
        cases last with
        | true => cases h
        | false =>
            rw [if_neg Bool.false_ne_true] at h
            obtain ⟨_, _, s₁, _, hcall, h, -⟩ := bind_ok h
            have hs₁ := (keeps_callback _).of_run hcall
            obtain ⟨hmem, props, kids, n, hbody, -⟩ := ih h
            rw [hs₁] at hbody
            exact ⟨hmem.trans hs₁, x :: props, kids, n + 1, hbody.prop hprop trivial,
              Bool.noConfusion⟩
      rw [if_neg hprop] at h
      by_cases hbegin : cell s.mem x = fdtBeginNode
      · rw [if_pos hbegin] at h
        obtain ⟨_, _, s₁, _, hdone, h, -⟩ := bind_ok h
        obtain ⟨_, _, s₂, _, hopen, h, -⟩ := bind_ok h
        have hs₂ : s₂.mem = s.mem := ((keeps_optional _ _).of_run hopen).trans
          ((keeps_finish last path).of_run hdone)
        cases hlen : Util.strlen s.mem fuel (x + 4) with
        | none =>
            simp only [hlen] at h
            cases h
        | some len =>
            simp only [hlen] at h
            obtain ⟨name, hname, rfl, -⟩ := Util.strlen_stringAt hlen
            obtain ⟨_, ⟨next, inner⟩, s₃, _, hinner, h, -⟩ := bind_ok h
            obtain ⟨_, gone, s₄, _, hgone, h, -⟩ := bind_ok h
            obtain rfl := hl.deletes hgone
            have hs₄ := (keeps_deletes inner).of_run hgone
            simp only [Bool.false_eq_true, if_false] at h
            obtain ⟨hs₃, props, kids, n, hbody, -⟩ := ih hinner
            obtain ⟨hs', rest, kids', n', hbehind, hnone⟩ := ih h
            obtain rfl := hnone rfl
            have hs₄ : s₄.mem = s.mem := hs₄.trans (hs₃.trans hs₂)
            rw [hs₂] at hbody
            rw [hs₄] at hbehind
            exact ⟨hs'.trans hs₄, [], .mk x next props kids :: kids', _,
              hbody.node hbegin hname hbehind, fun _ => rfl⟩
      rw [if_neg hbegin] at h
      by_cases hend : cell s.mem x = fdtEndNode
      · rw [if_pos hend] at h
        obtain ⟨_, _, s₁, _, hdone, hret, -⟩ := bind_ok h
        cases hret
        exact ⟨(keeps_finish last path).of_run hdone, [], [], _,
          laysBody_end (Or.inl ⟨hend, rfl⟩), fun _ => rfl⟩
      · rw [if_neg hend] at h
        obtain ⟨_, _, s₁, _, hdone, hret, -⟩ := bind_ok h
        cases hret
        exact ⟨(keeps_finish last path).of_run hdone, [], [], _,
          laysBody_end (Or.inr ⟨⟨hnop, hprop, hbegin, hend⟩, rfl⟩), fun _ => rfl⟩

@[simp] theorem wp_callback {bad : ε → Prop} {E : Halt → Scan σ → Prop}
    {f : Mem → Prog σ ε Halt α} {Q : α → Scan σ → Prop} :
    Wp bad E (callback f) Q s ↔
      Wp bad (fun e x => E e { s with extra := x }) (f s.mem)
        (fun a x => Q a { s with extra := x }) s.extra := by
  unfold Wp callback
  rcases f s.mem s.extra with ⟨es, r⟩
  cases r with
  | ok a x => exact Iff.rfl
  | halt e x => exact Iff.rfl

/-- A callback returns, if there is one. -/
def ReturnsIfAny (f : Option (List ScanNode → Mem → Prog σ ε Halt α)) : Prop :=
  ∀ g, f = some g → ∀ path m x, Returns (g path m) (fun _ _ => True) x

/-- Every callback returns. -/
structure FdtCb.Total (cb : FdtCb σ ε) : Prop where
  opened : ReturnsIfAny cb.opened
  prop : ∀ p m x, Returns (cb.prop p m) (fun _ _ => True) x
  done : ReturnsIfAny cb.done
  closed : ReturnsIfAny cb.closed

theorem returns_optional {f : Option (List ScanNode → Mem → Prog σ ε Halt Unit)}
    (h : ReturnsIfAny f) : Returns (optional f path) (fun _ _ => True) s := by
  cases f with
  | none => exact wp_pure () |>.mpr trivial
  | some g => exact wp_callback.mpr (h g rfl path s.mem s.extra)

theorem FdtCb.Total.finish (ht : cb.Total) :
    Returns (finish cb last path) (fun _ _ => True) s := by
  unfold Fdt.finish Returns
  rw [wp_ite]
  exact ⟨fun _ => returns_optional ht.done, fun _ => (wp_pure ()).mpr trivial⟩

theorem FdtCb.Total.deletes (ht : cb.Total) :
    Returns (deletes cb path) (fun _ _ => True) s := by
  unfold Fdt.deletes
  cases hc : cb.closed with
  | none => exact (wp_pure _).mpr trivial
  | some f =>
      show Wp _ _ (callback (f path) >>= fun r => pure (decide (r = -1))) _ s
      rw [wp_bind, wp_callback]
      exact (ht.closed f hc path s.mem s.extra).mono fun _ _ _ => (wp_pure _).mpr trivial

theorem FdtCb.Total.visitProps (ht : cb.Total) :
    Returns (visitProps cb strings path props) (fun _ _ => True) s := by
  induction props generalizing path s with
  | nil => exact (wp_pure path).mpr trivial
  | cons a props ih =>
      unfold Returns Fdt.visitProps
      rw [wp_bind, wp_get, wp_bind, wp_callback]
      exact (ht.prop _ s.mem s.extra).mono fun _ _ _ => ih

theorem FdtCb.Total.visitKids (ht : cb.Total) :
    Returns (visitKids cb strings path child kids) (fun _ _ => True) s := by
  induction kids using forest_induction generalizing path child s with
  | nil =>
      rw [Fdt.visitKids]
      exact (wp_pure _).mpr trivial
  | cons start stop props kids rest ihk ihr =>
      rw [Fdt.visitKids, Fdt.visitNode]
      simp only [bind_then]
      rw [Returns, wp_bind]
      refine (returns_optional ht.opened).mono fun _ _ _ => ?_
      rw [wp_bind]
      refine ht.visitProps.mono fun inner _ _ => ?_
      rw [wp_bind]
      refine ht.finish.mono fun _ _ _ => ?_
      rw [wp_bind]
      refine ihk.mono fun left _ _ => ?_
      rw [wp_bind]
      refine ht.deletes.mono fun gone _ _ => ?_
      cases gone with
      | true =>
          simp only [if_true, wp_bind, wp_modify, wp_pure]
          exact ihr
      | false =>
          simp only [Bool.false_eq_true, if_false, wp_bind, wp_pure]
          exact ihr

theorem FdtCb.Total.visitBody (ht : cb.Total) :
    Returns (visitBody cb strings path props kids) (fun _ _ => True) s := by
  unfold Returns Fdt.visitBody
  rw [wp_bind]
  refine ht.visitProps.mono fun inner _ _ => ?_
  rw [wp_bind]
  refine ht.finish.mono fun _ _ _ => ?_
  rw [wp_bind]
  exact ht.visitKids.mono fun _ _ _ => (wp_pure _).mpr trivial

-- ==== fdt_scan

/-- A header that `fdt_scan` goes on from. -/
def Understood (m : Mem) (fdt : Nat) : Prop :=
  cell m fdt = fdtMagic ∧ cell m (fdt + 24) ≤ fdtVersion

instance : Decidable (Understood m fdt) := inferInstanceAs (Decidable (_ ∧ _))

/-- Where the tree begins. -/
def structAt (m : Mem) (fdt : Nat) : Nat := fdt + cell m (fdt + 8)

/-- Where the names of properties are. -/
def stringsAt (m : Mem) (fdt : Nat) : Nat := fdt + cell m (fdt + 12)

theorem fdtScan_run (hu : Understood s.mem fdt) :
    fdtScan cb fuel fdt s
      = (fdtScanHelper cb (stringsAt s.mem fdt) fuel (structAt s.mem fdt) []
          freshChild false >>= fun _ => pure ()) s := by
  unfold fdtScan
  rw [bind_get, if_neg]
  · rfl
  · obtain ⟨h₁, h₂⟩ := hu
    omega

theorem fdtScan_ignores (hu : ¬ Understood s.mem fdt) :
    fdtScan cb fuel fdt s = ([], .ok () s) := by
  unfold fdtScan
  rw [bind_get, if_pos]
  · rfl
  · unfold Understood at hu
    omega

/-- A tree that is laid out is visited. -/
theorem fdtScan_body (hcb : cb.Leaves ∨ Upward P) (hu : Understood s.mem fdt)
    (h : LaysBody P s.mem (structAt s.mem fdt) props kids stop n)
    (hfuel : n ≤ fuel) :
    fdtScan cb fuel fdt s
      = (visitBody cb (stringsAt s.mem fdt) [] props kids >>= fun _ => pure ()) s := by
  rw [fdtScan_run hu, bind_head (helper_body hcb h hfuel), bind_then]
  rfl

theorem wp_fdtScan {bad : ε → Prop} {E : Halt → Scan σ → Prop}
    {Q : Unit → Scan σ → Prop} (hcb : cb.Leaves ∨ Upward P)
    (hu : Understood s.mem fdt)
    (h : LaysBody P s.mem (structAt s.mem fdt) props kids stop n)
    (hfuel : n ≤ fuel) :
    Wp bad E (fdtScan cb fuel fdt) Q s ↔
      Wp bad E (visitProps cb (stringsAt s.mem fdt) [] props) (fun inner =>
        Wp bad E (finish cb false inner) fun _ => Wp bad E
          (visitKids cb (stringsAt s.mem fdt) inner freshChild kids) fun _ => Q ()) s := by
  have hwp : Wp bad E (fdtScan cb fuel fdt) Q s ↔ Wp bad E
      (visitBody cb (stringsAt s.mem fdt) [] props kids >>= fun _ => pure ()) Q s := by
    unfold Wp
    rw [fdtScan_body hcb hu h hfuel]
  rw [hwp, visitBody]
  simp only [wp_bind, wp_pure]

/-- The callbacks of `query_htif` return. -/
theorem htifCb_total : htifCb.Total := by
  constructor
  · intro f hf path m x
    cases hf
    exact (wp_modify _).mpr trivial
  · intro p m x
    unfold Returns htifCb htifProp
    rw [wp_ite]
    exact ⟨fun _ => (wp_modify _).mpr trivial, fun _ => (wp_pure _).mpr trivial⟩
  · intro f hf path m x
    cases hf
    unfold Returns htifDone
    rw [wp_bind, wp_get, wp_ite]
    exact ⟨fun _ => (wp_pure _).mpr trivial, fun _ => (wp_modify _).mpr trivial⟩
  · intro f hf
    cases hf

theorem htifCb_leaves : htifCb.Leaves := by
  intro f hf
  cases hf

/-- Memory that holds these words, most significant byte first. -/
def wordsMem (ws : List Nat) : Mem := fun a =>
  UInt8.ofNat (ws.getD (a / 4) 0 / 256 ^ (3 - a % 4))

/-- A tree with a root and one child, which is memory and an HTIF at once:
the header, the tree from 40 on, the names from 136 on. -/
def tinyFdt : Mem := wordsMem
  [0xd00dfeed, 164, 40, 136, 0, 17, 16, 0, 0, 0,
    1, 0, 1, 0x6d656d00,
    3, 7, 0, 0x6d656d6f, 0x72790000,
    3, 12, 12, 0, 0x80000000, 0x08000000,
    3, 10, 16, 0x7563622c, 0x68746966, 0x30000000,
    2, 2, 9,
    0x64657669, 0x63655f74, 0x79706500, 0x72656700,
    0x636f6d70, 0x61746962, 0x6c650000]

def tinyTree : List NodeAt := [.mk 40 132 [] [.mk 48 128 [56, 76, 100] []]]

/-- Before a scan of it. -/
def tinyScan : Scan HtifScan := ⟨tinyFdt, ⟨false, 0⟩⟩

theorem tinyFdt_child (h₁ : P 7) (h₂ : P 12) (h₃ : P 10) :
    Lays P tinyFdt (.mk 48 128 [56, 76, 100] []) 89 := by
  have hlen₁ : int32 (cell tinyFdt (56 + 4)) = 7 := by decide
  have hlen₂ : int32 (cell tinyFdt (76 + 4)) = 12 := by decide
  have hlen₃ : int32 (cell tinyFdt (100 + 4)) = 10 := by decide
  refine ⟨by decide, [0x6d, 0x65, 0x6d], 124, 124, 3, 0, 1, by decide, ?_, ⟨rfl, rfl⟩,
    ⟨0, nops_zero, rfl, Or.inl ⟨by decide, rfl⟩⟩, rfl⟩
  refine ⟨0, 2, nops_zero, rfl, by decide, hlen₁ ▸ h₁, ?_, rfl⟩
  rw [show propEnd tinyFdt 56 = 76 by decide]
  refine ⟨0, 1, nops_zero, rfl, by decide, hlen₂ ▸ h₂, ?_, rfl⟩
  rw [show propEnd tinyFdt 76 = 100 by decide]
  refine ⟨0, 0, nops_zero, rfl, by decide, hlen₃ ▸ h₃, ?_, rfl⟩
  rw [show propEnd tinyFdt 100 = 124 by decide]
  exact ⟨rfl, rfl⟩

theorem tinyFdt_lays (h₁ : P 7) (h₂ : P 12) (h₃ : P 10) :
    LaysBody P tinyFdt (structAt tinyFdt 0) [] tinyTree 132 185 := by
  have hroot : Lays P tinyFdt (.mk 40 132 [] [.mk 48 128 [56, 76, 100] []]) 184 :=
    ⟨by decide, [], 48, 128, 0, 89, 1, by decide, ⟨rfl, rfl⟩,
      ⟨0, 89, 0, nops_zero, rfl, tinyFdt_child h₁ h₂ h₃, ⟨rfl, rfl⟩, rfl⟩,
      ⟨0, nops_zero, rfl, Or.inl ⟨by decide, rfl⟩⟩, rfl⟩
  have hend : IsEnd (cell tinyFdt (132 + 4 * 0)) := by
    unfold IsEnd
    decide
  rw [show structAt tinyFdt 0 = 40 by decide]
  exact ⟨40, 132, 0, 184, 1, ⟨rfl, rfl⟩,
    ⟨0, 184, 0, nops_zero, rfl, hroot, ⟨rfl, rfl⟩, rfl⟩,
    ⟨0, nops_zero, rfl, Or.inr ⟨hend, rfl⟩⟩, rfl⟩

theorem tinyFdt_understood : Understood tinyFdt 0 := by decide

/-- With callbacks that return and delete nothing, `fdt_scan` comes back
exactly from a header it does not understand and from a tree. -/
theorem fdtScan_returns_iff (hl : cb.Leaves) (ht : cb.Total) (fdt : Nat)
    (s : Scan σ) :
    (∃ fuel es s', fdtScan cb fuel fdt s = (es, .ok () s')) ↔
      (Understood s.mem fdt → ∃ props kids stop n,
        LaysBody anyLength s.mem (structAt s.mem fdt) props kids stop n) := by
  constructor
  · intro hrun hu
    obtain ⟨fuel, es, s', hrun⟩ := hrun
    rw [fdtScan_run hu] at hrun
    obtain ⟨_, r, _, _, hhelper, -, -⟩ := bind_ok hrun
    obtain ⟨-, props, kids, n, hbody, -⟩ := helper_layout hl hhelper
    exact ⟨props, kids, r.1, n, hbody⟩
  · intro h
    by_cases hu : Understood s.mem fdt
    · obtain ⟨props, kids, stop, n, hbody⟩ := h hu
      obtain ⟨es, r, s', hrun, -⟩ := (ht.visitBody (s := s)).elim
      refine ⟨n, es ++ [], s', ?_⟩
      rw [fdtScan_body (Or.inl hl) hu hbody (Nat.le_refl n)]
      exact bind_run hrun rfl
    · exact ⟨0, [], s, fdtScan_ignores hu⟩

theorem fdtScan_returns_tiny : ∃ fuel es s',
    fdtScan htifCb fuel 0 tinyScan = (es, .ok () s') :=
  (fdtScan_returns_iff htifCb_leaves htifCb_total 0 tinyScan).mpr fun _ =>
    ⟨[], tinyTree, 132, 185, tinyFdt_lays trivial trivial trivial⟩

-- ==== pruning

/-- Children with NOPs behind them. -/
def LaysPadded (P : Int → Prop) (m : Mem) (x : Nat) (kids : List NodeAt)
    (z : Nat) : Prop :=
  ∃ y j n, LaysKids P m x kids y n ∧ Nops m y j ∧ z = y + 4 * j

theorem LaysPadded.nops (hn : Nops m x k) (h : LaysPadded P m (x + 4 * k) kids z) :
    LaysPadded P m x kids z := by
  obtain ⟨y, j, n, hkids, hnops, rfl⟩ := h
  cases kids with
  | nil =>
      obtain ⟨rfl, rfl⟩ := hkids
      exact ⟨x, k + j, 0, ⟨rfl, rfl⟩, hn.append hnops, by omega⟩
  | cons t kids => exact ⟨y, j, k + n, hkids.nops hn, hnops, rfl⟩

theorem LaysPadded.node {t : NodeAt} (h : LaysPadded P m t.stop kids z)
    (hl : Lays P m t n) : LaysPadded P m t.start (t :: kids) z := by
  obtain ⟨y, j, n', hkids, hnops, rfl⟩ := h
  exact ⟨y, j, _, ⟨0, n, n', nops_zero, rfl, hl, hkids, rfl⟩, hnops, rfl⟩

theorem Frame.nops {hi : Nat} (h : Frame P m m' x hi) (hy : y + 4 * k ≤ x)
    (hn : Nops m y k) : Nops m' y k := by
  rcases h with rfl | ⟨-, hoff⟩
  · exact hn
  · intro i hi
    have hcell : cell m' (y + 4 * i) = cell m (y + 4 * i) := by
      unfold cell
      rw [load_agree fun b _ hb => hoff b (Or.inl (by omega))]
    rw [hcell]
    exact hn i hi

/-- A node is a list of one. -/
theorem Lays.single {t : NodeAt} (hl : Lays P m t n) :
    LaysKids P m t.start [t] t.stop n :=
  ⟨0, n, 0, nops_zero, rfl, hl, ⟨rfl, rfl⟩, by omega⟩

/-- A node is told by the memory it lies in. -/
theorem Around.lays (hP : Upward P) {t : NodeAt} (h : Around m m' t.start t.stop)
    (hl : Lays P m t n) : Lays P m' t n := by
  obtain ⟨k, n₁, n₂, -, hstart, hl', ⟨-, rfl⟩, hn⟩ := h.laysKids hP hl.single
  obtain rfl : n = n₁ := by omega
  exact hl'

/-- A visit of a node changes no memory but its own. -/
theorem frame_visitNode (hP : Upward P) {t : NodeAt} {r : ScanNode × List NodeAt}
    (hl : Lays P s.mem t n)
    (h : visitNode cb strings path child t s = (es, .ok r s')) :
    Frame P s.mem s'.mem t.start t.stop := by
  have hrun : visitKids cb strings path child [t] s
      = (es ++ [], .ok (r.2 ++ []) s') := by
    rw [visitKids]
    exact bind_run h (by simp only [visitKids]; rfl)
  exact frame_visitKids (Or.inr hP) hl.single hrun

/-- Where a child begins the tree does not end. -/
theorem LaysKids.not_end {t : NodeAt} (h : LaysKids P m x (t :: kids) y n) :
    ¬ IsEnd (cell m x) := by
  obtain ⟨k, n₁, n₂, hnops, hstart, hnode, -, -⟩ := h
  intro hend
  cases k with
  | succ k => exact hend.1 (hnops 0 (Nat.succ_pos k))
  | zero =>
      cases t with
      | mk start stop props kids =>
          have hstart : start = x := hstart
          exact hend.2.2.1 (hstart ▸ hnode.1)

/-- What is in front of a visit of children keeps its layout. -/
theorem around_visitKids (hP : Upward P) {left : List NodeAt}
    (hl : LaysKids P s.mem x kids y n)
    (h : visitKids cb strings path child kids s = (es, .ok left s')) (a : Nat) :
    Around s.mem s'.mem a x := by
  have hoff : ∀ b, b < x → s'.mem b = s.mem b := by
    intro b hb
    rcases frame_visitKids (Or.inr hP) hl h with heq | ⟨-, hoff⟩
    · rw [heq]
    · exact hoff b (Or.inl hb)
  refine ⟨fun b _ hb => hoff b hb, fun hend => ?_⟩
  cases kids with
  | nil =>
      cases h
      exact hend
  | cons t rest => exact absurd hend hl.not_end

/-- The node of a visit, in the memory its children have left. -/
theorem Lays.inner (hP : Upward P) {start : Nat} {left : List NodeAt}
    (hl : Lays P s.mem (.mk start stop props kids) n)
    (hleft : ∀ y z n, LaysKids P s.mem y kids z n → LaysPadded P s'.mem y left z)
    (h : visitKids cb strings path child kids s = (es, .ok left s')) :
    ∃ n', Lays P s'.mem (.mk start stop props left) n' := by
  obtain ⟨hbegin, name, v, w, n₁, n₂, n₃, hname, hprops, hkids, hclose, -⟩ := hl
  have hv := hprops.le hP
  have hw := hkids.le hP
  have hs := hclose.le
  have hfront := around_visitKids hP hkids h start
  have hclose : Closes s'.mem w stop n₃ :=
    (frame_visitKids (Or.inr hP) hkids h).closes (fun _ => Nat.le_refl w) hclose
  obtain ⟨w', j, i, hkids', hnops, rfl⟩ := hleft v w n₂ hkids
  refine ⟨_, ?_, name, v, w', n₁, i, _, ?_, ?_, hkids', hclose.nops hnops, rfl⟩
  · rw [hfront.cell (Nat.le_refl _) (by omega)]
    exact hbegin
  · exact hname.agree fun b hb hb' => hfront.agree b (by omega) (by omega)
  · exact (hfront.part (by omega) (by omega) (Nat.le_refl v) rfl).laysProps hP hprops

/-- The memory behind a visit holds the tree the visit returns. -/
theorem visitKids_left (hP : Upward P) {left : List NodeAt}
    (hl : LaysKids P s.mem x kids y n)
    (h : visitKids cb strings path child kids s = (es, .ok left s')) :
    LaysPadded P s'.mem x left y := by
  induction kids using forest_induction
    generalizing x y n path child s s' es left with
  | nil =>
      cases h
      obtain ⟨rfl, rfl⟩ := hl
      exact ⟨x, 0, 0, ⟨rfl, rfl⟩, nops_zero, rfl⟩
  | cons start stop props kids rest ihk ihr =>
      obtain ⟨k, n₁, n₂, hnops, hstart, hnode, hrest, -⟩ := hl
      obtain ⟨es₁, child', left₁, sn, es₂, left₂, hrun, hrun', rfl⟩ := visitKids_run h
      have hle := hnode.le hP
      simp only [NodeAt.start, NodeAt.stop] at hstart hrest hle
      obtain ⟨inner, s₁, _, left, s₂, gone, hs₁, hvisit, -, hmem, hleft⟩ :=
        visitNode_run hrun
      have hframe : Frame P s.mem sn.mem start stop := frame_visitNode hP hnode hrun
      have hrest := hframe.laysKids hrest
      have hbehind := ihr hrest hrun'
      have hfront := around_visitKids hP hrest hrun' x
      have hnops : Nops s'.mem x k :=
        hfront.nops (Nat.le_refl x) (by omega) (hframe.nops (by omega) hnops)
      apply LaysPadded.nops hnops
      rw [← hstart]
      cases gone with
      | false =>
          obtain rfl : left₁ = [.mk start stop props left] := hleft
          obtain ⟨n', hin⟩ := Lays.inner hP (hs₁ ▸ hnode) (fun _ _ _ hk => ihk hk hvisit)
            hvisit
          have hpart : Around sn.mem s'.mem start stop :=
            hfront.part (by omega) (by omega) (Nat.le_refl stop) rfl
          rw [show sn.mem = s₂.mem from hmem] at hpart
          exact LaysPadded.node (t := .mk start stop props left) hbehind
            (Around.lays hP hpart hin)
      | true =>
          obtain rfl : left₁ = [] := hleft
          have hgone : Nops sn.mem start ((stop - start) / 4) := by
            rw [hmem]
            exact nops_erase
          apply LaysPadded.nops (hfront.nops (by omega) (by omega) hgone)
          rw [show start + 4 * ((stop - start) / 4) = stop by omega]
          exact hbehind

/-- Over a tree without negative lengths, `fdt_scan` is the visit of the
tree, and the memory behind it holds the tree without the nodes that were
deleted; nothing else is written. -/
theorem fdtScan_prunes (hP : Upward P) (hu : Understood s.mem fdt)
    (h : LaysBody P s.mem (structAt s.mem fdt) props kids stop n)
    (hfuel : n ≤ fuel) :
    fdtScan cb fuel fdt s
        = (visitBody cb (stringsAt s.mem fdt) [] props kids >>= fun _ => pure ()) s ∧
      ∀ es r s', visitBody cb (stringsAt s.mem fdt) [] props kids s
          = (es, .ok r s') →
        (∃ n', LaysBody P s'.mem (structAt s.mem fdt) props r.2 stop n') ∧
        ∀ a, a < structAt s.mem fdt ∨ stop ≤ a → s'.mem a = s.mem a := by
  refine ⟨fdtScan_body (Or.inr hP) hu h hfuel, fun es r s' hrun => ?_⟩
  generalize structAt s.mem fdt = x at h ⊢
  obtain ⟨_, inner, s₁, _, hvprops, hrun, -⟩ := bind_ok hrun
  obtain ⟨_, _, s₂, _, hdone, hrun, -⟩ := bind_ok hrun
  obtain ⟨_, left, _, _, hvisit, hret, -⟩ := bind_ok hrun
  cases hret
  have hs₂ : s₂.mem = s.mem := ((keeps_finish false inner).of_run hdone).trans
    ((keeps_visitProps []).of_run hvprops)
  obtain ⟨y, z, n₁, n₂, n₃, hprops, hkids, hclose, -⟩ := h
  rw [← hs₂] at hprops hkids hclose
  have hy := hprops.le hP
  have hz := hkids.le hP
  have hstop := hclose.le
  have hframe := frame_visitKids (Or.inr hP) hkids hvisit
  have hprops' := (around_visitKids hP hkids hvisit _).laysProps hP hprops
  have hclose' := hframe.closes (fun _ => Nat.le_refl z) hclose
  obtain ⟨w, j, i, hkids', hnops, rfl⟩ := visitKids_left hP hkids hvisit
  constructor
  · exact ⟨_, y, w, n₁, i, _, hprops', hkids', hclose'.nops hnops, rfl⟩
  · intro a ha
    rw [← hs₂]
    rcases hframe with heq | ⟨-, hoff⟩
    · rw [heq]
    · exact hoff a (by omega)

/-- Callbacks that delete the children of the root. -/
def dropKids : FdtCb HtifScan Empty :=
  { htifCb with
    closed := some fun path _ => pure (if path.length = 2 then -1 else 0) }

/-- The child of the only node is deleted, and nothing outside the tree is
written. -/
theorem fdtScan_prunes_tiny :
    ∃ s', fdtScan dropKids 200 0 tinyScan = ([], .ok () s') ∧
      (∃ n, LaysBody (fun len => 0 ≤ len) s'.mem 40 [] [.mk 40 132 [] []] 132 n) ∧
      ∀ a, a < 40 ∨ 132 ≤ a → s'.mem a = tinyFdt a := by
  have hvalue : (visitBody dropKids (stringsAt tinyFdt 0) [] [] tinyTree
      tinyScan).2.value = some ([], [.mk 40 132 [] []]) := by
    rfl
  have hrun := run_eq_of_value hvalue
  obtain ⟨hscan, hleft⟩ : _ ∧ ∀ es r s', visitBody dropKids _ _ _ _ tinyScan
      = (es, .ok r s') → _ := fdtScan_prunes (P := fun len => 0 ≤ len)
    (fun _ h => h) tinyFdt_understood
    (tinyFdt_lays (by decide) (by decide) (by decide)) (by decide : 185 ≤ 200)
  obtain ⟨htree, hframe⟩ := hleft _ _ _ hrun
  refine ⟨_, hscan.trans (bind_run hrun rfl), htree, hframe⟩

end Pke.Fdt
