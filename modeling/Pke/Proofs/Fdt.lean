/-
`fdt_scan_helper` visits the tree that lies in memory.

One lemma per token says what a round of the loop does. The loop over a
body is then cut at its parts: NOPs are passed (`helper_nops`), the
properties are visited (`helper_props`), `done` is called once, before
the first child or the end (`helper_done`), and the children are visited
(`helper_kids`), where the call for a child is the same statement about a
smaller tree.

Callbacks do not write memory. A deleted child does: it becomes NOPs. The
rest of the tree lies behind it, unless a negative length has led
backwards, so either no node is deleted or lengths are not negative.
-/
import Pke.Lib.TracedEq
import Pke.Spec.DeviceTree
import Pke.Proofs.Strings
import Pke.Proofs.Vfs

namespace Pke.Fdt

open ByteMem Traced

variable {σ ε α : Type} {cb : FdtCb σ ε} {strings : Nat} {s : Scan σ}
  {path : List ScanNode} {child : ScanNode} {last : Bool} {P : Int → Prop}
  {m m' : Mem} {x y z a k n fuel stop : Nat} {props : List Nat}
  {kids : List NodeAt}

-- ==== callbacks

theorem keeps_callback (f : Mem → Prog σ ε Halt α) :
    Keeps (fun _ => True) Scan.mem (callback f) := by
  refine ⟨fun s => ?_⟩
  unfold callback
  rcases f s.mem s.extra with ⟨es, r⟩
  cases r with
  | ok a x => rfl
  | halt e x => exact ⟨trivial, rfl⟩

theorem keeps_optional (f : Option (List ScanNode → Mem → Prog σ ε Halt Unit))
    (path : List ScanNode) : Keeps (fun _ => True) Scan.mem (optional f path) := by
  cases f with
  | none => exact keeps_pure ()
  | some f => exact keeps_callback (f path)

theorem keeps_finish (last : Bool) (path : List ScanNode) :
    Keeps (fun _ => True) Scan.mem (finish cb last path) :=
  keeps_ite (keeps_optional cb.done path) (keeps_pure ())

theorem finish_last : finish cb true path = pure () := by
  unfold finish
  rw [if_neg (by simp)]

theorem keeps_deletes (path : List ScanNode) :
    Keeps (fun _ => True) Scan.mem (deletes cb path) := by
  unfold deletes
  cases cb.closed with
  | none => exact keeps_pure false
  | some f => exact keeps_bind (keeps_callback (f path)) fun _ => keeps_pure _

theorem keeps_visitProps (path : List ScanNode) :
    Keeps (fun _ => True) Scan.mem (visitProps cb strings path props) := by
  induction props generalizing path with
  | nil => exact keeps_pure path
  | cons a props ih =>
      exact keeps_bind keeps_get fun s => keeps_bind (keeps_callback _) fun _ => ih _

/-- No node is deleted. -/
def FdtCb.Leaves (cb : FdtCb σ ε) : Prop :=
  ∀ f, cb.closed = some f → ∀ path m x es r x',
    f path m x = (es, .ok r x') → r ≠ -1

theorem FdtCb.Leaves.deletes (h : cb.Leaves) {es : List ε} {b : Bool}
    {s' : Scan σ} (hrun : deletes cb path s = (es, .ok b s')) : b = false := by
  unfold Fdt.deletes at hrun
  cases hc : cb.closed with
  | none =>
      rw [hc] at hrun
      cases hrun
      rfl
  | some f =>
      rw [hc] at hrun
      obtain ⟨es₁, r, s₁, es₂, hf, hret, -⟩ := bind_ok hrun
      cases hret
      unfold callback at hf
      rcases hx : f path s.mem s.extra with ⟨es', o⟩
      rw [hx] at hf
      cases o with
      | ok r' x' =>
          cases hf
          exact decide_eq_false (h f hc _ _ _ _ _ _ hx)
      | halt e x' => cases hf

-- ==== rounds of the loop

/-- NOPs are passed. -/
theorem helper_nops (h : Nops s.mem x k) :
    fdtScanHelper cb strings (fuel + k) x path child last s
      = fdtScanHelper cb strings fuel (x + 4 * k) path child last s := by
  induction k generalizing x with
  | zero => rfl
  | succ k ih =>
      have hhead : cell s.mem x = fdtNop := h 0 (Nat.succ_pos k)
      have hrest : Nops s.mem (x + 4) k := by
        intro i hi
        rw [show x + 4 + 4 * i = x + 4 * (i + 1) by omega]
        exact h (i + 1) (Nat.succ_lt_succ hi)
      rw [← Nat.add_assoc, fdtScanHelper, bind_get, if_pos hhead, ih hrest,
        show x + 4 + 4 * k = x + 4 * (k + 1) by omega]

theorem helper_prop (h : cell s.mem a = fdtProp) :
    fdtScanHelper cb strings (fuel + 1) a path child false s
      = (do
          let path := setCells s.mem strings a path
          callback (cb.prop (propAt s.mem strings a path))
          fdtScanHelper cb strings fuel (propEnd s.mem a) path child false) s := by
  rw [fdtScanHelper, bind_get, if_neg (by rw [h]; decide), if_pos h]
  rfl

theorem helper_begin {name : List UInt8} (h : cell s.mem a = fdtBeginNode)
    (hname : StringAt s.mem (a + 4) name) (hfuel : name.length < fuel) :
    fdtScanHelper cb strings (fuel + 1) a path child last s
      = (do
          finish cb last path
          let child := { child with name := a + 4 }
          optional cb.opened (child :: path)
          let r ← fdtScanHelper cb strings fuel (a + 8 + 4 * (name.length / 4))
            (child :: path) freshChild false
          if ← deletes cb r.2 then
            nopOut fuel a r.1
          fdtScanHelper cb strings fuel r.1 path (r.2.headD child) true) s := by
  rw [fdtScanHelper, bind_get, if_neg (by rw [h]; decide),
    if_neg (by rw [h]; decide), if_pos h]
  simp only [Util.strlen_run hname hfuel]

theorem helper_end (h : cell s.mem a = fdtEndNode) :
    fdtScanHelper cb strings (fuel + 1) a path child last s
      = (do finish cb last path; return (a + 4, path)) s := by
  rw [fdtScanHelper, bind_get, if_neg (by rw [h]; decide),
    if_neg (by rw [h]; decide), if_neg (by rw [h]; decide), if_pos h]

theorem helper_other (h : IsEnd (cell s.mem a)) :
    fdtScanHelper cb strings (fuel + 1) a path child last s
      = (do finish cb last path; return (a, path)) s := by
  obtain ⟨hnop, hprop, hbegin, hend⟩ := h
  rw [fdtScanHelper, bind_get, if_neg hnop, if_neg hprop, if_neg hbegin,
    if_neg hend]

/-- The end of a body. -/
theorem helper_closes (h : Closes s.mem x stop n) (hfuel : n ≤ fuel) :
    fdtScanHelper cb strings fuel x path child true s
      = ([], .ok (stop, path) s) := by
  obtain ⟨k, hnops, rfl, htok⟩ := h
  obtain ⟨f, rfl⟩ : ∃ f, fuel = f + 1 + k := ⟨fuel - (k + 1), by omega⟩
  rw [helper_nops hnops]
  rcases htok with ⟨hend, rfl⟩ | ⟨hother, rfl⟩
  · rw [helper_end hend, finish_last, pure_then]
    rfl
  · rw [helper_other hother, finish_last, pure_then]
    rfl

/-- `done` comes before the first token that is not a property. -/
theorem helper_done (hnops : Nops s.mem x k) (hk : k < fuel)
    (hnop : cell s.mem (x + 4 * k) ≠ fdtNop)
    (hprop : cell s.mem (x + 4 * k) ≠ fdtProp) :
    fdtScanHelper cb strings fuel x path child false s
      = (finish cb false path >>= fun _ =>
          fdtScanHelper cb strings fuel x path child true) s := by
  obtain ⟨f, rfl⟩ : ∃ f, fuel = f + 1 + k := ⟨fuel - (k + 1), by omega⟩
  rw [helper_nops hnops, fdtScanHelper, bind_get, if_neg hnop, if_neg hprop]
  have hrest : ∀ s' : Scan σ, s'.mem = s.mem →
      fdtScanHelper cb strings (f + 1 + k) x path child true s'
        = fdtScanHelper cb strings (f + 1) (x + 4 * k) path child true s' :=
    fun s' hs' => helper_nops (hs' ▸ hnops)
  -- With `last` set, the same round without its call of `done`.
  by_cases hbegin : cell s.mem (x + 4 * k) = fdtBeginNode
  · rw [if_pos hbegin]
    apply (keeps_finish false path).bind_eq
    intro _ s' hs'
    rw [hrest s' hs', fdtScanHelper, bind_get, hs', if_neg hnop, if_neg hprop,
      if_pos hbegin, finish_last, pure_then]
  · rw [if_neg hbegin]
    by_cases hend : cell s.mem (x + 4 * k) = fdtEndNode
    · rw [if_pos hend]
      apply (keeps_finish false path).bind_eq
      intro _ s' hs'
      rw [hrest s' hs', helper_end (hs' ▸ hend), finish_last, pure_then]
    · rw [if_neg hend]
      apply (keeps_finish false path).bind_eq
      intro _ s' hs'
      rw [hrest s' hs', helper_other ⟨hs' ▸ hnop, hs' ▸ hprop, hs' ▸ hbegin,
        hs' ▸ hend⟩, finish_last, pure_then]

/-- The properties are visited, and the loop goes on behind them. -/
theorem helper_props (h : LaysProps P s.mem x props y n) :
    fdtScanHelper cb strings (fuel + n) x path child false s
      = (visitProps cb strings path props >>= fun path =>
          fdtScanHelper cb strings fuel y path child false) s := by
  induction props generalizing x n path s with
  | nil =>
      obtain ⟨rfl, rfl⟩ := h
      rw [visitProps, pure_then]
      rfl
  | cons a props ih =>
      obtain ⟨k, n', hnops, rfl, hprop, -, hrest, rfl⟩ := h
      rw [show fuel + (k + 1 + n') = fuel + n' + 1 + k by omega,
        helper_nops hnops, helper_prop hprop, visitProps, bind_then, bind_get,
        bind_then]
      apply (keeps_callback _).bind_eq
      intro _ s' hs'
      exact ih (hs' ▸ hrest)

-- ==== upwards

/-- Induction over the trees of a list. -/
@[elab_as_elim]
theorem forest_induction {motive : List NodeAt → Prop} (nil : motive [])
    (cons : ∀ start stop props kids rest, motive kids → motive rest →
      motive (.mk start stop props kids :: rest)) : ∀ kids, motive kids
  | [] => nil
  | .mk start stop props kids :: rest =>
      cons start stop props kids rest (forest_induction nil cons kids)
        (forest_induction nil cons rest)

/-- Lengths are not negative. -/
def Upward (P : Int → Prop) : Prop := ∀ n, P n → 0 ≤ n

theorem propEnd_eq (h : 0 ≤ int32 (cell m (a + 4))) :
    propEnd m a = a + 12 + 4 * ((int32 (cell m (a + 4)) + 3).toNat / 4) := by
  unfold propEnd
  generalize int32 (cell m (a + 4)) = len at h ⊢
  obtain ⟨l, rfl⟩ := Int.eq_ofNat_of_zero_le h
  rw [Int.tdiv_eq_ediv_of_nonneg (by omega)]
  omega

theorem LaysProps.le (hP : Upward P) (h : LaysProps P m x props y n) :
    x ≤ y ∧ x % 4 = y % 4 := by
  induction props generalizing x n with
  | nil =>
      obtain ⟨rfl, -⟩ := h
      exact ⟨Nat.le_refl _, rfl⟩
  | cons a props ih =>
      obtain ⟨k, n', -, rfl, -, hlen, hrest, -⟩ := h
      have hend := propEnd_eq (hP _ hlen)
      obtain ⟨hle, hmod⟩ := ih hrest
      omega

theorem Closes.le (h : Closes m x stop n) : x ≤ stop ∧ x % 4 = stop % 4 := by
  obtain ⟨k, -, -, ⟨-, rfl⟩ | ⟨-, rfl⟩⟩ := h
  · omega
  · omega

/-- The children of a list lie one behind the other. -/
theorem LaysKids.le (hP : Upward P) (h : LaysKids P m x kids y n) :
    x ≤ y ∧ x % 4 = y % 4 := by
  induction kids using forest_induction generalizing x y n with
  | nil =>
      obtain ⟨rfl, -⟩ := h
      exact ⟨Nat.le_refl _, rfl⟩
  | cons start stop props kids rest ihk ihr =>
      obtain ⟨k, n₁, n₂, -, hstart, hnode, hrest, -⟩ := h
      obtain ⟨-, name, v, w, _, _, _, -, hprops, hkids, hclose, -⟩ := hnode
      have hstart : start = x + 4 * k := hstart
      have hprops := hprops.le hP
      have hkids := ihk hkids
      have hclose := hclose.le
      have hrest := ihr hrest
      simp only [NodeAt.stop] at hrest
      omega

theorem Lays.le (hP : Upward P) {t : NodeAt} (h : Lays P m t n) :
    t.start + 8 ≤ t.stop ∧ t.start % 4 = t.stop % 4 := by
  cases t with
  | mk start stop props kids =>
      obtain ⟨-, name, v, w, _, _, _, -, hprops, hkids, hclose, -⟩ := h
      have hprops := hprops.le hP
      have hkids := hkids.le hP
      have hclose := hclose.le
      simp only [NodeAt.start, NodeAt.stop]
      omega

-- ==== the memory it lies in

/-- The memories agree from `lo` to `hi`, and at `hi` on where a tree
ends: a body may end there without a token of its own. -/
structure Around (m m' : Mem) (lo hi : Nat) : Prop where
  agree : ∀ b, lo ≤ b → b < hi → m' b = m b
  ends : IsEnd (cell m hi) → IsEnd (cell m' hi)

theorem Around.cell {lo hi : Nat} (h : Around m m' lo hi) (hlo : lo ≤ a)
    (hhi : a + 4 ≤ hi) : cell m' a = cell m a := by
  unfold Fdt.cell
  rw [load_agree fun b hb hb' => h.agree b (by omega) (by omega)]

/-- A part that ends at a word of the whole. -/
theorem Around.part {lo hi lo' hi' : Nat} (h : Around m m' lo hi)
    (hlo : lo ≤ lo') (hle : lo ≤ hi') (hhi : hi' ≤ hi)
    (hmod : hi' % 4 = hi % 4) : Around m m' lo' hi' := by
  refine ⟨fun b hb hb' => h.agree b (by omega) (by omega), fun hend => ?_⟩
  by_cases heq : hi' = hi
  · rw [heq] at hend ⊢
    exact h.ends hend
  · rw [h.cell hle (by omega)]
    exact hend

theorem around_of_from (h : ∀ b, x ≤ b → m' b = m b) (hle : x ≤ y) :
    Around m m' x y := by
  refine ⟨fun b hb _ => h b hb, fun hend => ?_⟩
  have hcell : Fdt.cell m' y = Fdt.cell m y := by
    unfold Fdt.cell
    rw [load_agree fun b hb _ => h b (Nat.le_trans hle hb)]
  rw [hcell]
  exact hend

theorem Around.nops {lo hi : Nat} (h : Around m m' lo hi) (hlo : lo ≤ x)
    (hhi : x + 4 * k ≤ hi) (hn : Nops m x k) : Nops m' x k := by
  intro i hi
  rw [h.cell (by omega) (by omega)]
  exact hn i hi

theorem Around.closes (h : Around m m' x stop) (hc : Closes m x stop n) :
    Closes m' x stop n := by
  obtain ⟨k, hnops, hn, ⟨hend, rfl⟩ | ⟨hother, rfl⟩⟩ := hc
  · refine ⟨k, h.nops (Nat.le_refl x) (by omega) hnops, hn, Or.inl ⟨?_, rfl⟩⟩
    rw [h.cell (by omega) (by omega)]
    exact hend
  · exact ⟨k, h.nops (Nat.le_refl x) (Nat.le_refl _) hnops, hn,
      Or.inr ⟨h.ends hother, rfl⟩⟩

theorem Around.laysProps (hP : Upward P) (h : Around m m' x y)
    (hl : LaysProps P m x props y n) : LaysProps P m' x props y n := by
  induction props generalizing x n with
  | nil => exact hl
  | cons a props ih =>
      obtain ⟨k, n', hnops, rfl, hprop, hlen, hrest, hn⟩ := hl
      have hbehind := propEnd_eq (hP _ hlen)
      have hle := hrest.le hP
      have hcell : Fdt.cell m' (x + 4 * k + 4) = Fdt.cell m (x + 4 * k + 4) :=
        h.cell (by omega) (by omega)
      have hpe : propEnd m' (x + 4 * k) = propEnd m (x + 4 * k) := by
        unfold propEnd
        rw [hcell]
      refine ⟨k, n', h.nops (Nat.le_refl x) (by omega) hnops, rfl, ?_, ?_, ?_, hn⟩
      · rw [h.cell (by omega) (by omega)]
        exact hprop
      · rw [hcell]
        exact hlen
      · rw [hpe]
        exact ih (h.part (by omega) (by omega) (Nat.le_refl y) rfl) hrest

/-- A tree is told by the memory it lies in. -/
theorem Around.laysKids (hP : Upward P) (h : Around m m' x y)
    (hl : LaysKids P m x kids y n) : LaysKids P m' x kids y n := by
  induction kids using forest_induction generalizing x y n with
  | nil => exact hl
  | cons start stop props kids rest ihk ihr =>
      obtain ⟨k, n₁, n₂, hnops, hstart, hnode, hrest, hn⟩ := hl
      have hbounds := hnode.le hP
      have hy := hrest.le hP
      obtain ⟨hbegin, name, v, w, _, _, _, hname, hprops, hkids, hclose, hn₁⟩ := hnode
      simp only [NodeAt.start, NodeAt.stop] at hstart hbounds hrest hy
      have hv := hprops.le hP
      have hw := hkids.le hP
      have hs := hclose.le
      refine ⟨k, n₁, n₂, h.nops (Nat.le_refl x) (by omega) hnops, hstart, ⟨?_, name,
        v, w, _, _, _, ?_, ?_, ?_, ?_, hn₁⟩, ?_, hn⟩
      · rw [h.cell (by omega) (by omega)]
        exact hbegin
      · exact hname.agree fun b hb hb' => h.agree b (by omega) (by omega)
      · exact (h.part (by omega) (by omega) (by omega) (by omega)).laysProps hP hprops
      · exact ihk (h.part (by omega) (by omega) (by omega) (by omega)) hkids
      · exact (h.part (by omega) (by omega) (by omega) (by omega)).closes hclose
      · refine ihr (h.part ?_ ?_ (Nat.le_refl y) rfl) hrest
        · simp only [NodeAt.stop]
          omega
        · omega

-- ==== deletion

theorem erase_off (h : a < x ∨ x + 4 * k ≤ a) : erase m x k a = m a := by
  induction k generalizing m x with
  | zero => rfl
  | succ k ih =>
      rw [erase, ih (by omega), store_off _ (by omega)]

theorem nops_erase : Nops (erase m x k) x k := by
  induction k generalizing m x with
  | zero => exact fun i hi => absurd hi (Nat.not_lt_zero i)
  | succ k ih =>
      intro i hi
      cases i with
      | succ i =>
          rw [erase, show x + 4 * (i + 1) = x + 4 + 4 * i by omega]
          exact ih i (Nat.lt_of_succ_lt_succ hi)
      | zero =>
          have hhead : load (erase m x (k + 1)) 4 x
              = (bswap (BitVec.ofNat 32 fdtNop)).toNat := by
            rw [erase, load_agree (fun b _ hb => erase_off (by omega)), load_store]
            decide
          show (bswap (BitVec.ofNat 32 (load (erase m x (k + 1)) 4 x))).toNat = fdtNop
          rw [hhead]
          decide

theorem nopOut_run (hk : k < fuel) :
    (nopOut fuel x (x + 4 * k) : D σ ε Unit) s
      = ([], .ok () { s with mem := erase s.mem x k }) := by
  induction k generalizing x fuel s with
  | zero =>
      obtain ⟨f, rfl⟩ := Nat.exists_eq_succ_of_ne_zero (Nat.ne_of_gt hk)
      rw [Nat.succ_eq_add_one, nopOut, if_neg (by simp)]
      rfl
  | succ k ih =>
      obtain ⟨f, rfl⟩ := Nat.exists_eq_succ_of_ne_zero
        (Nat.ne_of_gt (Nat.zero_lt_of_lt hk))
      rw [Nat.succ_eq_add_one, nopOut, if_pos (by omega), bind_modify,
        show x + 4 * (k + 1) = x + 4 + 4 * k by omega,
        ih (Nat.lt_of_succ_lt_succ hk)]
      rfl

-- ==== runs of the visit

/-- What a visited node leaves: the memory its children left, the node in
it or NOPs. -/
theorem visitNode_run {start : Nat} {es : List ε} {r : ScanNode × List NodeAt}
    {s' : Scan σ}
    (h : visitNode cb strings path child (.mk start stop props kids) s
      = (es, .ok r s')) :
    ∃ inner s₁ es₁ left s₂ gone, s₁.mem = s.mem ∧
      visitKids cb strings inner freshChild kids s₁ = (es₁, .ok left s₂) ∧
      (cb.Leaves → gone = false) ∧
      s'.mem = (if gone then erase s₂.mem start ((stop - start) / 4) else s₂.mem) ∧
      r.2 = if gone then [] else [.mk start stop props left] := by
  rw [visitNode] at h
  obtain ⟨_, _, sa, _, hopen, h, -⟩ := bind_ok h
  obtain ⟨_, inner, sb, _, hprops, h, -⟩ := bind_ok h
  obtain ⟨_, _, sc, _, hdone, h, -⟩ := bind_ok h
  obtain ⟨es₁, left, s₂, _, hkids, h, -⟩ := bind_ok h
  obtain ⟨_, gone, sd, _, hclose, h, -⟩ := bind_ok h
  have hmem : sc.mem = s.mem :=
    ((keeps_finish false inner).of_run hdone).trans
      (((keeps_visitProps _).of_run hprops).trans
        ((keeps_optional _ _).of_run hopen))
  have hsd := (keeps_deletes inner).of_run hclose
  refine ⟨inner, sc, es₁, left, s₂, gone, hmem, hkids,
    fun hl => hl.deletes hclose, ?_⟩
  cases gone with
  | true =>
      obtain ⟨_, _, _, _, hmod, hret, -⟩ := bind_ok h
      cases hmod
      cases hret
      exact ⟨by rw [if_pos rfl, ← hsd], rfl⟩
  | false =>
      cases h
      exact ⟨hsd, rfl⟩

theorem visitKids_run {t : NodeAt} {rest left : List NodeAt} {es : List ε}
    {s' : Scan σ}
    (h : visitKids cb strings path child (t :: rest) s = (es, .ok left s')) :
    ∃ es₁ child' left₁ s₁ es₂ left₂,
      visitNode cb strings path child t s = (es₁, .ok (child', left₁) s₁) ∧
      visitKids cb strings path child' rest s₁ = (es₂, .ok left₂ s') ∧
      left = left₁ ++ left₂ := by
  rw [visitKids] at h
  obtain ⟨es₁, ⟨child', left₁⟩, s₁, _, hnode, h, -⟩ := bind_ok h
  obtain ⟨es₂, left₂, _, _, hrest, hret, -⟩ := bind_ok h
  cases hret
  exact ⟨es₁, child', left₁, s₁, es₂, left₂, hnode, hrest, rfl⟩

/-- What a visit of the tree between `lo` and `hi` may do to memory. -/
def Frame (P : Int → Prop) (m m' : Mem) (lo hi : Nat) : Prop :=
  m' = m ∨ Upward P ∧ ∀ a, a < lo ∨ hi ≤ a → m' a = m a

theorem Frame.widen {lo lo' hi hi' : Nat} (h : Frame P m m' lo hi)
    (hle : Upward P → lo' ≤ lo ∧ hi ≤ hi') : Frame P m m' lo' hi' := by
  rcases h with heq | ⟨hP, h⟩
  · exact Or.inl heq
  · obtain ⟨h₁, h₂⟩ := hle hP
    exact Or.inr ⟨hP, fun a ha => h a (by omega)⟩

theorem Frame.trans {m'' : Mem} {lo hi : Nat} (h : Frame P m m' lo hi)
    (h' : Frame P m' m'' lo hi) : Frame P m m'' lo hi := by
  rcases h with rfl | ⟨hP, h⟩
  · exact h'
  · rcases h' with rfl | ⟨-, h'⟩
    · exact Or.inr ⟨hP, h⟩
    · exact Or.inr ⟨hP, fun a ha => (h' a ha).trans (h a ha)⟩

theorem frame_erase {lo hi : Nat} (hP : Upward P) (hle : lo ≤ hi) :
    Frame P m (erase m lo ((hi - lo) / 4)) lo hi :=
  Or.inr ⟨hP, fun a ha => erase_off (by omega)⟩

/-- What lies behind is untouched. -/
theorem Frame.behind {lo : Nat} (h : Frame P m m' lo x) :
    m' = m ∨ Upward P ∧ ∀ y, x ≤ y → Around m m' x y :=
  h.imp id fun h => ⟨h.1, fun _ hle =>
    around_of_from (fun b hb => h.2 b (Or.inr hb)) hle⟩

theorem Frame.laysKids {lo : Nat} (h : Frame P m m' lo x)
    (hl : LaysKids P m x kids y n) : LaysKids P m' x kids y n := by
  rcases h.behind with rfl | ⟨hP, hag⟩
  · exact hl
  · exact (hag y (hl.le hP).1).laysKids hP hl

theorem Frame.closes {lo : Nat} (h : Frame P m m' lo x)
    (hle : Upward P → x ≤ y) (hc : Closes m y stop n) : Closes m' y stop n := by
  rcases h.behind with rfl | ⟨hP, hag⟩
  · exact hc
  · have hxy := hle hP
    have hys := hc.le
    exact ((hag stop (by omega)).part hxy (by omega) (Nat.le_refl _) rfl).closes hc

/-- A visit of children changes no memory but theirs. -/
theorem frame_visitKids (hcb : cb.Leaves ∨ Upward P) {es : List ε}
    {left : List NodeAt} {s' : Scan σ} (hl : LaysKids P s.mem x kids y n)
    (h : visitKids cb strings path child kids s = (es, .ok left s')) :
    Frame P s.mem s'.mem x y := by
  induction kids using forest_induction
    generalizing x y n path child s s' es left with
  | nil =>
      cases h
      exact Or.inl rfl
  | cons start stop props kids rest ihk ihr =>
      obtain ⟨k, n₁, n₂, -, hstart, hnode, hrest, -⟩ := hl
      obtain ⟨es₁, child', left₁, sn, es₂, left₂, hrun, hrun', -⟩ := visitKids_run h
      obtain ⟨inner, s₁, _, _, s₂, gone, hs₁, hvisit, hgone, hmem, -⟩ :=
        visitNode_run hrun
      have hle := fun hP : Upward P => hnode.le hP
      obtain ⟨-, name, v, w, _, _, _, -, hprops, hkids, hclose, -⟩ := hnode
      simp only [NodeAt.start, NodeAt.stop] at hstart hrest hle
      have hin : Frame P s.mem s₂.mem x stop := by
        rw [← hs₁]
        refine (ihk (hs₁ ▸ hkids) hvisit).widen fun hP => ?_
        have h₁ := hprops.le hP
        have h₂ := hclose.le
        omega
      have hnode : Frame P s.mem sn.mem x stop := by
        cases gone with
        | false =>
            rw [hmem]
            exact hin
        | true =>
            -- Only where nodes are deleted does the layout have to go up.
            rcases hcb with hleaves | hP
            · cases hgone hleaves
            · rw [hmem]
              have := hle hP
              exact hin.trans ((frame_erase hP (by omega)).widen fun _ => by omega)
      have hbehind := ihr (hnode.laysKids hrest) hrun'
      refine (hnode.widen fun hP => ?_).trans (hbehind.widen fun hP => ?_)
      · have := hrest.le hP
        omega
      · have := hle hP
        omega

-- ==== loop and visit

/-- Behind the properties stands a token that is not one. -/
theorem LaysKids.next {n' : Nat} (h : LaysKids P m x kids y n)
    (hclose : Closes m y stop n') : ∃ k < n + n', Nops m x k ∧
      cell m (x + 4 * k) ≠ fdtNop ∧ cell m (x + 4 * k) ≠ fdtProp := by
  cases kids with
  | nil =>
      obtain ⟨rfl, rfl⟩ := h
      obtain ⟨k, hnops, rfl, htok⟩ := hclose
      refine ⟨k, by omega, hnops, ?_⟩
      rcases htok with ⟨hend, -⟩ | ⟨hother, -⟩
      · rw [hend]
        decide
      · exact ⟨hother.1, hother.2.1⟩
  | cons t rest =>
      obtain ⟨k, n₁, n₂, hnops, hstart, hnode, -, rfl⟩ := h
      cases t with
      | mk start stop props kids =>
          obtain ⟨hbegin, _, _, _, _, _, _, -, -, -, -, rfl⟩ := hnode
          have hstart : start = x + 4 * k := hstart
          refine ⟨k, by omega, hnops, ?_⟩
          rw [← hstart, hbegin]
          decide

/-- A body is visited, if its children are. -/
theorem helper_of_kids {n₁ n₂ n₃ : Nat} (hprops : LaysProps P s.mem x props y n₁)
    (hkids : LaysKids P s.mem y kids z n₂) (hclose : Closes s.mem z stop n₃)
    (hfuel : n₁ + n₂ + n₃ ≤ fuel)
    (hvisit : ∀ f path s', n₂ + n₃ ≤ f → s'.mem = s.mem →
      fdtScanHelper cb strings f y path freshChild true s'
        = (visitKids cb strings path freshChild kids >>= fun _ =>
            pure (stop, path)) s') :
    fdtScanHelper cb strings fuel x path freshChild false s
      = (visitBody cb strings path props kids >>= fun r => pure (stop, r.1)) s := by
  obtain ⟨k, hk, hnops, hnop, hprop⟩ := hkids.next hclose
  obtain ⟨f, rfl⟩ : ∃ f, fuel = f + n₁ := ⟨fuel - n₁, by omega⟩
  rw [helper_props hprops]
  unfold visitBody
  simp only [bind_then, pure_then]
  apply (keeps_visitProps path).bind_eq
  intro inner s₁ hs₁
  rw [helper_done (hs₁ ▸ hnops) (by omega) (hs₁ ▸ hnop) (hs₁ ▸ hprop)]
  apply (keeps_finish false inner).bind_eq
  intro _ s₂ hs₂
  exact hvisit f inner s₂ (by omega) (hs₂.trans hs₁)

/-- The children are visited, and the body ends. -/
theorem helper_kids (hcb : cb.Leaves ∨ Upward P) {n' : Nat}
    (h : LaysKids P s.mem x kids y n) (hclose : Closes s.mem y stop n')
    (hfuel : n + n' ≤ fuel) :
    fdtScanHelper cb strings fuel x path child true s
      = (visitKids cb strings path child kids >>= fun _ => pure (stop, path)) s := by
  induction kids using forest_induction
    generalizing x y n n' path child s fuel stop with
  | nil =>
      obtain ⟨rfl, rfl⟩ := h
      rw [helper_closes hclose (by omega), visitKids, pure_then]
      rfl
  | cons start stop' props kids rest ihk ihr =>
      obtain ⟨k, n₁, n₂, hnops, hstart, hnode, hrest, rfl⟩ := h
      have hle := fun hP : Upward P => hnode.le hP
      obtain ⟨hbegin, name, v, w, i₁, i₂, i₃, hname, hprops, hkids, hend, rfl⟩ := hnode
      simp only [NodeAt.start, NodeAt.stop] at hstart hrest hle
      obtain ⟨f, rfl⟩ : ∃ f, fuel = f + 1 + k := ⟨fuel - (k + 1), by omega⟩
      subst hstart
      rw [helper_nops hnops, helper_begin hbegin hname (by omega), finish_last,
        pure_then, visitKids, visitNode]
      simp only [bind_then]
      apply (keeps_optional _ _).bind_eq
      intro _ s₁ hs₁
      have hbody : ∀ path, fdtScanHelper cb strings f
          (x + 4 * k + 8 + 4 * (name.length / 4)) path freshChild false s₁ = _ :=
        fun path => helper_of_kids (hs₁ ▸ hprops) (hs₁ ▸ hkids) (hs₁ ▸ hend)
          (by omega) fun f path s' hf hs' =>
            ihk (hs' ▸ hs₁ ▸ hkids) (hs' ▸ hs₁ ▸ hend) hf
      rw [bind_head (hbody _)]
      unfold visitBody
      simp only [bind_then, pure_then]
      apply (keeps_visitProps _).bind_eq
      intro inner s₂ hs₂
      apply (keeps_finish false inner).bind_eq
      intro _ s₃ hs₃
      have hs₃ : s₃.mem = s.mem := hs₃.trans (hs₂.trans hs₁)
      apply Traced.bind_eq
      intro es left s₄ hrun
      have hframe := frame_visitKids hcb (hs₃ ▸ hkids) hrun
      apply Traced.bind_eq
      intro es' gone s₅ hclosed
      have hs₅ := (keeps_deletes inner).of_run hclosed
      have hin : Frame P s.mem s₅.mem x stop' := by
        rw [hs₅, ← hs₃]
        refine hframe.widen fun hP => ?_
        have h₁ := hprops.le hP
        have h₂ := hend.le
        omega
      -- What is left of the loop finds the rest of the children untouched.
      have hgoes : ∀ s', Frame P s.mem s'.mem x stop' →
          fdtScanHelper cb strings f stop' path
              (inner.headD { child with name := x + 4 * k + 4 }) true s'
            = (visitKids cb strings path
                (inner.headD { child with name := x + 4 * k + 4 }) rest
                  >>= fun _ => pure (stop, path)) s' :=
        fun s' hs' => ihr (hs'.laysKids hrest)
          (hs'.closes (fun hP => (hrest.le hP).1) hclose) (by omega)
      cases gone with
      | false =>
          simp only [Bool.false_eq_true, if_false, pure_then]
          exact hgoes s₅ hin
      | true =>
          rcases hcb with hleaves | hP
          · cases hleaves.deletes hclosed
          · have hb := hle hP
            obtain ⟨j, rfl⟩ : ∃ j, stop' = x + 4 * k + 4 * j :=
              ⟨(stop' - (x + 4 * k)) / 4, by omega⟩
            have hj : (x + 4 * k + 4 * j - (x + 4 * k)) / 4 = j := by omega
            have hout : (nopOut f (x + 4 * k) (x + 4 * k + 4 * j) : D σ ε Unit) s₅
                = ([], .ok () { s₅ with mem := erase s₅.mem (x + 4 * k) j }) :=
              nopOut_run (by omega)
            simp only [if_true, bind_then, pure_then, hj]
            rw [bind_of_run hout, bind_modify]
            apply hgoes
            have herase := frame_erase (m := s₅.mem) hP (Nat.le_add_right (x + 4 * k)
              (4 * j))
            rw [hj] at herase
            exact hin.trans (herase.widen fun _ => by omega)

/-- The body of a node, or of no node at the top, is visited. -/
theorem helper_body (hcb : cb.Leaves ∨ Upward P)
    (h : LaysBody P s.mem x props kids stop n) (hfuel : n ≤ fuel) :
    fdtScanHelper cb strings fuel x path freshChild false s
      = (visitBody cb strings path props kids >>= fun r => pure (stop, r.1)) s := by
  obtain ⟨y, z, n₁, n₂, n₃, hprops, hkids, hclose, rfl⟩ := h
  exact helper_of_kids hprops hkids hclose hfuel fun f path s' hf hs' =>
    helper_kids hcb (hs' ▸ hkids) (hs' ▸ hclose) hf

end Pke.Fdt
