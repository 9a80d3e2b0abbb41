/-
Which device a path is taken to be on.

The search of `vdev_list` stops the kernel at the first empty entry it
comes to, and at the end of a list without one its cursor is at the last
device. So a name is found when it is registered with no empty entry in
front of it (`Listed`), and in no other case does the search come to what
the callers expect: an unknown name never ends in their panic, but in a
dereference of NULL or on somebody else's device.
-/
import Pke.Lib.CString
import Pke.Model.Vfs
import Mathlib.Data.List.FinRange

namespace Pke

open ByteMem Traced

-- ==== strcmp

/-- Against a string, `strcmp` comes to an end, and to 0 exactly for the
same string. -/
theorem strcmpFrom_spells {s1 s2 : Nat → UInt8} {l : List UInt8}
    (h : Spells s2 l) :
    ∀ fuel k, k ≤ l.length → l.length < k + fuel →
      (∀ j < k, s1 j = l.getD j 0) →
      ∃ r, strcmpFrom s1 s2 fuel k = some r ∧ (r = 0 ↔ Spells s1 l) := by
  intro fuel
  induction fuel with
  | zero => intro k hk hlt; omega
  | succ fuel ih =>
      intro k hk hlt hsame
      unfold strcmpFrom
      by_cases hgo : s1 k ≠ 0 ∧ s1 k = s2 k
      · rw [if_pos hgo]
        have hne : s2 k ≠ 0 := hgo.2 ▸ hgo.1
        apply ih (k + 1) (h.lt hk hne) (by omega)
        intro j hj
        rcases Nat.lt_succ_iff_lt_or_eq.mp hj with hj | rfl
        · exact hsame j hj
        · exact hgo.2.trans (h.2 j hk)
      · rw [if_neg hgo]
        refine ⟨_, rfl, ?_⟩
        constructor
        · intro hzero
          have heq : s1 k = s2 k := by
            apply UInt8.toNat_inj.mp
            omega
          -- equal and not gone on: both strings end here
          have hz : s1 k = 0 := by
            by_contra hne
            exact hgo ⟨hne, heq⟩
          have hend : k = l.length := h.eq_length hk (heq ▸ hz)
          refine ⟨h.1, fun j hj => ?_⟩
          rcases Nat.lt_or_eq_of_le hj with hj | rfl
          · exact hsame j (hend ▸ hj)
          · rw [← hend, heq]
            exact h.2 k hk
        · intro hs
          rw [hs.2 k hk, ← h.2 k hk]
          omega

theorem strcmp_spells {s1 s2 : Nat → UInt8} {l : List UInt8} {fuel : Nat}
    (h : Spells s2 l) (hfuel : l.length < fuel) :
    ∃ r, strcmp fuel s1 s2 = some r ∧ (r = 0 ↔ Spells s1 l) := by
  apply strcmpFrom_spells h fuel 0 (Nat.zero_le _) (by omega)
  intro j hj
  exact absurd hj (Nat.not_lt_zero j)

namespace Vfs

variable {vdev : VdevList} {m : Mem} {fuel name path : Nat} {l : List UInt8}

theorem VfsDev.spells_iff (d : VfsDev) :
    Spells (d.devname.getD · 0) l ↔ d.devname = l := by
  constructor
  · intro h
    exact (spells_list d.devname_nonzero).unique h
  · rintro rfl
    exact spells_list d.devname_nonzero

-- ==== search

/-- The device is on the list, under this name. -/
def OnList (vdev : VdevList) (l : List UInt8) (d : VfsDev) : Prop :=
  (∃ i, vdev i = some d) ∧ d.devname = l

/-- The name is registered, and no entry in front of it is empty. -/
def Listed (vdev : VdevList) (l : List UInt8) : Prop :=
  ∃ i d, vdev i = some d ∧ d.devname = l ∧ ∀ j < i, vdev j ≠ none

/-- The search comes to the name. -/
def Reached (vdev : VdevList) (l : List UInt8) : List (Fin maxDev) → Prop
  | [] => False
  | i :: rest => ∃ d, vdev i = some d ∧ (d.devname = l ∨ Reached vdev l rest)

theorem reached_iff : ∀ {is : List (Fin maxDev)}, is.Pairwise (· < ·) →
    (Reached vdev l is ↔ ∃ i ∈ is, ∃ d, vdev i = some d ∧ d.devname = l ∧
      ∀ j ∈ is, j < i → vdev j ≠ none) := by
  intro is hs
  induction is with
  | nil =>
      constructor
      · exact False.elim
      · rintro ⟨i, hi, -⟩
        cases hi
  | cons i₀ rest ih =>
      obtain ⟨hlt, hrest⟩ := List.pairwise_cons.mp hs
      constructor
      · rintro ⟨d, hd, hname | hreach⟩
        · refine ⟨i₀, List.mem_cons_self, d, hd, hname, fun j hj hji => ?_⟩
          rcases List.mem_cons.mp hj with rfl | hj
          · exact absurd hji (lt_irrefl j)
          · exact absurd hji (lt_asymm (hlt j hj))
        · obtain ⟨i, hi, d', hd', hname, hfull⟩ := (ih hrest).mp hreach
          refine ⟨i, List.mem_cons_of_mem _ hi, d', hd', hname, fun j hj hji => ?_⟩
          rcases List.mem_cons.mp hj with rfl | hj
          · rw [hd]
            exact Option.some_ne_none d
          · exact hfull j hj hji
      · rintro ⟨i, hi, d, hd, hname, hfull⟩
        rcases List.mem_cons.mp hi with rfl | hi
        · exact ⟨d, hd, Or.inl hname⟩
        · obtain ⟨d₀, hd₀⟩ := Option.ne_none_iff_exists'.mp
            (hfull i₀ List.mem_cons_self (hlt i hi))
          refine ⟨d₀, hd₀, Or.inr ((ih hrest).mpr ⟨i, hi, d, hd, hname, ?_⟩)⟩
          exact fun j hj => hfull j (List.mem_cons_of_mem _ hj)

theorem reached_all : Reached vdev l (List.finRange maxDev) ↔ Listed vdev l := by
  rw [reached_iff (by decide)]
  unfold Listed
  simp only [List.mem_finRange, true_and, forall_true_left]

theorem searchDevice_empty {i : Fin maxDev} {rest : List (Fin maxDev)}
    {cursor : Option VfsDev} (hd : vdev i = none) :
    searchDevice vdev fuel name (i :: rest) cursor m
      = ([], .halt .nullDeref m) := by
  unfold searchDevice
  rw [hd]
  rfl

/-- One round of the search. -/
theorem searchDevice_round {i : Fin maxDev} {rest : List (Fin maxDev)}
    {cursor : Option VfsDev} {d : VfsDev} (hname : StringAt m name l)
    (hfuel : l.length < fuel) (hd : vdev i = some d) :
    searchDevice vdev fuel name (i :: rest) cursor m
      = if d.devname = l then ([], .ok (some d) m)
        else searchDevice vdev fuel name rest (some d) m := by
  obtain ⟨r, hr, hzero⟩ : ∃ r, strcmp fuel (d.devname.getD · 0) (bytesAt m name)
      = some r ∧ (r = 0 ↔ _) := strcmp_spells hname.spells hfuel
  rw [d.spells_iff] at hzero
  rw [searchDevice, hd]
  show (get >>= _) m = _
  rw [bind_get, hr]
  by_cases hz : r = 0
  · rw [if_pos (hzero.mp hz)]
    simp only [if_pos hz]
    rfl
  · rw [if_neg fun h => hz (hzero.mpr h)]
    simp only [if_neg hz]

/-- The search, where the name is reached. -/
theorem searchDevice_reached (hname : StringAt m name l) (hfuel : l.length < fuel) :
    ∀ is cursor, Reached vdev l is →
      ∃ d, OnList vdev l d ∧
        searchDevice vdev fuel name is cursor m = ([], .ok (some d) m) := by
  intro is
  induction is with
  | nil => exact fun _ h => h.elim
  | cons i rest ih =>
      rintro cursor ⟨d, hd, hreach⟩
      rw [searchDevice_round hname hfuel hd]
      by_cases hl : d.devname = l
      · exact ⟨d, ⟨⟨i, hd⟩, hl⟩, if_pos hl⟩
      · rw [if_neg hl]
        exact ih (some d) (hreach.resolve_left hl)

/-- The search, where it is not: NULL, or the wrong device. -/
theorem searchDevice_lost (hname : StringAt m name l) (hfuel : l.length < fuel) :
    ∀ is cursor, ¬ Reached vdev l is →
      (∀ d, cursor = some d → d.devname ≠ l) → (is = [] → cursor ≠ none) →
      searchDevice vdev fuel name is cursor m = ([], .halt .nullDeref m) ∨
      ∃ d, d.devname ≠ l ∧
        searchDevice vdev fuel name is cursor m = ([], .ok (some d) m) := by
  intro is
  induction is with
  | nil =>
      intro cursor _ hother hsome
      obtain ⟨d, rfl⟩ := Option.ne_none_iff_exists'.mp (hsome rfl)
      exact Or.inr ⟨d, hother d rfl, rfl⟩
  | cons i rest ih =>
      intro cursor hlost _ _
      cases hd : vdev i with
      | none => exact Or.inl (searchDevice_empty hd)
      | some d =>
          have hne : d.devname ≠ l := fun h => hlost ⟨d, hd, Or.inl h⟩
          rw [searchDevice_round hname hfuel hd, if_neg hne]
          apply ih (some d) (fun h => hlost ⟨d, hd, Or.inr h⟩)
          · rintro d' hd'
            obtain rfl := Option.some.inj hd'
            exact hne
          · exact fun _ => Option.some_ne_none d

-- ==== outcomes

/-- What a caller of the search expects for a name: a device of that name
or, if there is none, a panic. -/
def Expected (vdev : VdevList) (l : List UInt8) (out : Out Mem Halt VfsDev) :
    Prop :=
  (∃ d m', OnList vdev l d ∧ out = .ok d m') ∨
    ((∀ d, ¬ OnList vdev l d) ∧ ∃ msg m', out = .halt (.panic msg) m')

theorem namedDevice_listed (msg : String) (hname : StringAt m name l)
    (hfuel : l.length < fuel) (hl : Listed vdev l) :
    ∃ d, OnList vdev l d ∧ namedDevice msg vdev fuel name m = ([], .ok d m) := by
  obtain ⟨d, hon, hrun⟩ :=
    searchDevice_reached hname hfuel (List.finRange maxDev) none (reached_all.mpr hl)
  exact ⟨d, hon, bind_run hrun rfl⟩

theorem namedDevice_lost (msg : String) (hname : StringAt m name l)
    (hfuel : l.length < fuel) (hl : ¬ Listed vdev l) :
    namedDevice msg vdev fuel name m = ([], .halt .nullDeref m) ∨
      ∃ d, d.devname ≠ l ∧ namedDevice msg vdev fuel name m = ([], .ok d m) := by
  have hlost : ¬ Reached vdev l (List.finRange maxDev) := fun h =>
    hl (reached_all.mp h)
  rcases searchDevice_lost hname hfuel (List.finRange maxDev) none hlost nofun
    (fun h => absurd h (by decide)) with hrun | ⟨d, hne, hrun⟩
  · exact Or.inl (bind_halt hrun)
  · exact Or.inr ⟨d, hne, bind_run hrun rfl⟩

/-- The callers get what they expect exactly for listed names. -/
theorem namedDevice_expected_iff (msg : String) (hname : StringAt m name l)
    (hfuel : l.length < fuel) :
    Expected vdev l (namedDevice msg vdev fuel name m).2 ↔ Listed vdev l := by
  constructor
  · intro h
    by_contra hl
    rcases namedDevice_lost msg hname hfuel hl with hrun | ⟨d, hne, hrun⟩
    · rw [hrun] at h
      rcases h with ⟨d, m', -, hout⟩ | ⟨-, msg', m', hout⟩
      · cases hout
      · cases hout
    · rw [hrun] at h
      rcases h with ⟨d', m', hon, hout⟩ | ⟨-, msg', m', hout⟩
      · cases hout
        exact hne hon.2
      · cases hout
  · intro hl
    obtain ⟨d, hon, hrun⟩ := namedDevice_listed msg hname hfuel hl
    rw [hrun]
    exact Or.inl ⟨d, m, hon, rfl⟩

-- ==== the colon

theorem findColon_none (hpath : StringAt m path l) (hno : colonByte ∉ l) :
    ∀ fuel, l.length < fuel → findColon fuel path m = ([], .ok none m) := by
  intro fuel hfuel
  induction l generalizing path fuel with
  | nil =>
      obtain ⟨n, rfl⟩ := Nat.exists_eq_succ_of_ne_zero (Nat.ne_of_gt hfuel)
      unfold findColon
      rw [bind_get]
      have hz : m path = 0 := hpath
      rw [if_pos hz]
      rfl
  | cons b l ih =>
      obtain ⟨hb, hm, hrest⟩ := hpath
      obtain ⟨n, rfl⟩ := Nat.exists_eq_succ_of_ne_zero (Nat.ne_of_gt
        (Nat.lt_of_le_of_lt (Nat.zero_le _) hfuel))
      have hc : b ≠ colonByte := fun h => hno (h ▸ List.mem_cons_self)
      unfold findColon
      rw [bind_get, hm, if_neg hb, if_neg hc]
      exact ih hrest (fun h => hno (List.mem_cons_of_mem _ h)) n
        (Nat.lt_of_succ_lt_succ hfuel)

theorem findColon_some {pre sub : List UInt8}
    (hpath : StringAt m path (pre ++ colonByte :: sub)) (hno : colonByte ∉ pre) :
    ∀ fuel, pre.length < fuel →
      findColon fuel path m = ([], .ok (some (path + pre.length)) m) := by
  intro fuel hfuel
  induction pre generalizing path fuel with
  | nil =>
      obtain ⟨n, rfl⟩ := Nat.exists_eq_succ_of_ne_zero (Nat.ne_of_gt hfuel)
      unfold findColon
      rw [bind_get, hpath.2.1, if_neg (by decide), if_pos rfl]
      rfl
  | cons b pre ih =>
      obtain ⟨hb, hm, hrest⟩ := hpath
      obtain ⟨n, rfl⟩ := Nat.exists_eq_succ_of_ne_zero (Nat.ne_of_gt
        (Nat.lt_of_le_of_lt (Nat.zero_le _) hfuel))
      have hc : b ≠ colonByte := fun h => hno (h ▸ List.mem_cons_self)
      unfold findColon
      rw [bind_get, hm, if_neg hb, if_neg hc, ih hrest
        (fun h => hno (List.mem_cons_of_mem _ h)) n (Nat.lt_of_succ_lt_succ hfuel),
        List.length_cons, Nat.add_assoc, Nat.add_comm 1]

/-- The NUL in the place of the colon splits the string. -/
theorem split_string {pre sub : List UInt8}
    (hpath : StringAt m path (pre ++ colonByte :: sub)) :
    StringAt (store m 1 (path + pre.length) 0) path pre ∧
      StringAt (store m 1 (path + pre.length) 0) (path + pre.length + 1) sub := by
  constructor
  · obtain ⟨hne, hbytes⟩ := stringAt_iff.mp hpath
    refine stringAt_iff.mpr ⟨fun b hb => hne b (List.mem_append_left _ hb), ?_⟩
    intro k hk
    rcases Nat.lt_or_eq_of_le hk with hk | rfl
    · have hold := hbytes k (by rw [List.length_append]; omega)
      rw [List.getD_append _ _ _ _ hk] at hold
      rw [← hold]
      exact store_agree m (Or.inr (Nat.le_refl _)) _ (Nat.le_add_right path k)
        (Nat.add_lt_add_left hk path)
    · rw [List.getD_eq_default _ _ (Nat.le_refl _)]
      unfold store
      rw [if_pos (by omega), Nat.zero_div]
      rfl
  · have hdrop := hpath.drop (k := pre.length + 1)
      (by rw [List.length_append, List.length_cons]; omega)
    rw [List.drop_append, List.drop_of_length_le (Nat.le_succ _), List.nil_append,
      Nat.add_sub_cancel_left, List.drop_succ_cons, List.drop_zero,
      ← Nat.add_assoc] at hdrop
    exact hdrop.agree (store_agree m (Or.inl (Nat.le_refl _)))

-- ==== resolution

/-- `get_device` resolves the path as it should: a path without a colon
is the host's, and any other is on the device named in front of the first
colon, with what is behind it as sub-path, or, if there is no such device,
the call fails. -/
def Resolved (vdev : VdevList) (fuel : Nat) (m : Mem) (path : Nat)
    (l : List UInt8) : Prop :=
  (colonByte ∉ l → getDevice vdev fuel path m = ([], .ok (none, path) m)) ∧
  ∀ pre sub, l = pre ++ colonByte :: sub → colonByte ∉ pre →
    (∃ d m', OnList vdev pre d ∧ StringAt m' (path + pre.length + 1) sub ∧
      getDevice vdev fuel path m
        = ([], .ok (some d, path + pre.length + 1) m')) ∨
    ((∀ d, ¬ OnList vdev pre d) ∧
      ∃ msg m', getDevice vdev fuel path m = ([], .halt (.panic msg) m'))

theorem getDevice_host (hpath : StringAt m path l) (hno : colonByte ∉ l)
    (hfuel : l.length < fuel) :
    getDevice vdev fuel path m = ([], .ok (none, path) m) :=
  bind_run (findColon_none hpath hno fuel hfuel) rfl

/-- Behind the colon it is the search that decides. -/
theorem getDevice_device {pre sub : List UInt8}
    (hpath : StringAt m path (pre ++ colonByte :: sub)) (hno : colonByte ∉ pre)
    (hfuel : pre.length < fuel) :
    getDevice vdev fuel path m
      = (vfsGetRoot vdev fuel path >>= fun d =>
          pure (some d, path + pre.length + 1))
        (store m 1 (path + pre.length) 0) := by
  have hrun := findColon_some hpath hno fuel hfuel
  unfold getDevice
  rw [bind_run hrun rfl]
  rfl

theorem resolved_iff (hpath : StringAt m path l) (hfuel : l.length < fuel) :
    Resolved vdev fuel m path l ↔
      ∀ pre sub, l = pre ++ colonByte :: sub → colonByte ∉ pre →
        Listed vdev pre := by
  constructor
  · rintro ⟨-, hdev⟩ pre sub rfl hno
    have hlen : pre.length < fuel := by
      rw [List.length_append] at hfuel
      omega
    obtain ⟨hname, -⟩ := split_string hpath
    by_contra hl
    have hout := hdev pre sub rfl hno
    rw [getDevice_device hpath hno hlen] at hout
    rcases namedDevice_lost _ hname hlen hl with hrun | ⟨d, hne, hrun⟩
    · rw [bind_halt (show vfsGetRoot vdev fuel path _ = _ from hrun)] at hout
      rcases hout with ⟨d, m', -, -, heq⟩ | ⟨-, msg, m', heq⟩
      · cases heq
      · cases heq
    · rw [bind_run (show vfsGetRoot vdev fuel path _ = _ from hrun) rfl] at hout
      rcases hout with ⟨d', m', hon, -, heq⟩ | ⟨-, msg, m', heq⟩
      · cases heq
        exact hne hon.2
      · cases heq
  · intro hlisted
    refine ⟨fun hno => getDevice_host hpath hno hfuel, ?_⟩
    rintro pre sub rfl hno
    have hlen : pre.length < fuel := by
      rw [List.length_append] at hfuel
      omega
    obtain ⟨hname, hsub⟩ := split_string hpath
    obtain ⟨d, hon, hrun⟩ := namedDevice_listed _ hname hlen (hlisted pre sub rfl hno)
    refine Or.inl ⟨d, _, hon, hsub, ?_⟩
    rw [getDevice_device hpath hno hlen]
    exact bind_run (show vfsGetRoot vdev fuel path _ = _ from hrun) rfl

/-- For every list of devices, every path and every name to mount on. -/
theorem device_resolution_iff (vdev : VdevList) {devname : Nat} {n : List UInt8}
    (hpath : StringAt m path l) (hfuel : l.length < fuel)
    (hname : StringAt m devname n) (hfuel' : n.length < fuel) :
    (Resolved vdev fuel m path l ↔
      ∀ pre sub, l = pre ++ colonByte :: sub → colonByte ∉ pre →
        Listed vdev pre) ∧
    (Expected vdev n (vfsMount vdev fuel devname m).2 ↔ Listed vdev n) :=
  ⟨resolved_iff hpath hfuel, namedDevice_expected_iff _ hname hfuel'⟩

/-- The list as `dev_init_ramdisk0` leaves it: one entry, the first. -/
def bootList (dev fs : Nat) : VdevList := fun i =>
  if i = 0 then
    some { devname := [0x72, 0x61, 0x6d, 0x64, 0x69, 0x73, 0x6b, 0x30]
           devname_nonzero := by simp, dev := dev, fs := fs }
  else none

theorem bootList_some {dev fs : Nat} {i : Fin maxDev} {d : VfsDev}
    (h : bootList dev fs i = some d) : i = 0 ∧
      d.devname = [0x72, 0x61, 0x6d, 0x64, 0x69, 0x73, 0x6b, 0x30] := by
  unfold bootList at h
  split at h
  case isTrue hi =>
    cases h
    exact ⟨hi, rfl⟩
  case isFalse => cases h

/-- The text in front of the first colon. -/
theorem before_colon {pre sub : List UInt8} (hno : colonByte ∉ pre)
    (h : l = pre ++ colonByte :: sub) : pre = l.takeWhile (· ≠ colonByte) := by
  rw [h, List.takeWhile_append_of_pos, List.takeWhile_cons_of_neg (by simp),
    List.append_nil]
  intro b hb
  exact decide_eq_true fun heq => hno (heq ▸ hb)

/-- A string at address 0. -/
def onlyString (l : List UInt8) : Mem := fun a => l.getD a 0

/-- `ramdisk0:/a`. -/
def ramdiskPath : List UInt8 :=
  [0x72, 0x61, 0x6d, 0x64, 0x69, 0x73, 0x6b, 0x30, 0x3a, 0x2f, 0x61]

/-- At boot a path on the RAM disk is resolved, and there is no `a` to
mount on. -/
theorem device_resolution_ramdisk :
    Resolved (bootList 0 0) 12 (onlyString ramdiskPath) 0 ramdiskPath ∧
      ¬ Expected (bootList 0 0) [0x61]
        (vfsMount (bootList 0 0) 12 10 (onlyString ramdiskPath)).2 := by
  have h := device_resolution_iff (bootList 0 0)
    (show StringAt (onlyString ramdiskPath) 0 ramdiskPath by decide)
    (show ramdiskPath.length < 12 by decide)
    (show StringAt (onlyString ramdiskPath) 10 [0x61] by decide) (by decide)
  refine ⟨h.1.mpr fun pre sub heq hno => ?_, fun hexp => ?_⟩
  · obtain rfl := before_colon hno heq
    exact ⟨0, _, rfl, rfl, fun j hj => absurd hj (Fin.not_lt_zero j)⟩
  · obtain ⟨i, d, hd, hname, -⟩ := h.2.mp hexp
    rw [(bootList_some hd).2] at hname
    exact absurd hname (by decide)

/-- `a:b` on the list at boot dereferences NULL. -/
theorem device_unknown_dereferences_null :
    (getDevice (bootList 0 0) 4 0 (onlyString [0x61, 0x3a, 0x62])).2
        = .halt .nullDeref (store (onlyString [0x61, 0x3a, 0x62]) 1 1 0) ∧
      ¬ Resolved (bootList 0 0) 4 (onlyString [0x61, 0x3a, 0x62]) 0
        [0x61, 0x3a, 0x62] := by
  have hrun : getDevice (bootList 0 0) 4 0 (onlyString [0x61, 0x3a, 0x62])
      = ([], .halt .nullDeref (store (onlyString [0x61, 0x3a, 0x62]) 1 1 0)) := rfl
  refine ⟨by rw [hrun], fun h => ?_⟩
  rcases h.2 [0x61] [0x62] rfl (by decide) with ⟨d, m', -, -, heq⟩ | ⟨-, msg, m', heq⟩
  · rw [hrun] at heq
    cases heq
  · rw [hrun] at heq
    cases heq

end Vfs

end Pke
