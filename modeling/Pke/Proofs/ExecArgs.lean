/-
The buffers of exec.

`load_shell_bincode_from_host_elf` copies the command's name behind
`"./obj/"` into thirty bytes and the translated arguments into eleven
pointers. Neither loop looks at the size of its buffer: both go where the
caller's memory leads them. `exec_stays_inside_iff` says which callers
keep them inside.
-/
import Pke.Lib.CString
import Pke.Model.Exec
import Pke.Proofs.Boot
import Pke.Proofs.UserIo

namespace Pke

open ByteMem Traced

variable {s t : Kernel} {c : Slot} {root va argv src : Nat} {m : Mem}

-- ==== translation

/-- What `user_va_to_pa` computes, over any memory. -/
def userPa (m : Mem) (root va : Nat) : Nat :=
  if lookupFrame m root va = 0 then 0 else lookupFrame m root va + va % pgSize

theorem userVaToPa_run :
    (userVaToPa root va s).2 = .ok (userPa s.mem root va) s := by
  unfold userPa
  by_cases hmap : lookupFrame s.mem root va = 0
  · have hrun : Returns (userVaToPa root va) (fun pa s' => pa = 0 ∧ s' = s) s := by
      unfold userVaToPa
      rw [Returns, wp_bind]
      refine returns_lookupPa.mono fun pa s' hpa => ?_
      obtain ⟨rfl, rfl⟩ := hpa
      rw [if_pos hmap, wp_pure]
      exact ⟨rfl, rfl⟩
    obtain ⟨es, pa, s', hrun, rfl, rfl⟩ := hrun.elim
    rw [hrun, if_pos hmap]
  · obtain ⟨es, pa, s', hrun, rfl, rfl⟩ := (returns_userVaToPa hmap).elim
    rw [hrun, if_neg hmap]

/-- The caller's argument `k`, translated. -/
def argPa (m : Mem) (root argv k : Nat) : Nat :=
  userPa m root (load m 8 (argv + 8 * k))

-- ==== the buffers

/-- The write is inside its buffer. -/
def ExecWrite.Inside : ExecWrite → Prop
  | .path k => k < pathSize
  | .oldargv k => k ≤ maxArgs
  | .store _ _ => True

instance : DecidablePred ExecWrite.Inside
  | .path k => inferInstanceAs (Decidable (k < pathSize))
  | .oldargv k => inferInstanceAs (Decidable (k ≤ maxArgs))
  | .store _ _ => inferInstanceAs (Decidable True)

/-- One round of the copy to `path`. -/
theorem pathCopy_succ (fuel k src : Nat) (s : Kernel) :
    pathCopy (fuel + 1) k src s = (.path k ::
      ((if s.mem src = 0 then pure []
        else pathCopy fuel (k + 1) (src + 1) >>= fun l =>
          pure (s.mem src :: l)) s).1,
      ((if s.mem src = 0 then pure []
        else pathCopy fuel (k + 1) (src + 1) >>= fun l =>
          pure (s.mem src :: l) : X (List UInt8)) s).2) := by
  rw [pathCopy, bind_get, bind_emit]

/-- A string is copied to `path`. -/
theorem pathCopy_string {l : List UInt8} {src : Nat} (fuel k : Nat)
    (h : StringAt s.mem src l) (hfuel : l.length < fuel) :
    ∃ es, pathCopy fuel k src s = (es, .ok l s) ∧
      ∀ e ∈ es, ∃ j ≤ l.length, e = .path (k + j) := by
  induction l generalizing fuel k src with
  | nil =>
      cases fuel with
      | zero => cases hfuel
      | succ fuel =>
          refine ⟨[.path k], ?_, ?_⟩
          · rw [pathCopy_succ, if_pos (show s.mem src = 0 from h)]
            rfl
          · intro e he
            exact ⟨0, Nat.le_refl _, List.mem_singleton.mp he⟩
  | cons b l ih =>
      obtain ⟨hb, rfl, hl⟩ := h
      cases fuel with
      | zero => cases hfuel
      | succ fuel =>
          obtain ⟨es, hrun, hes⟩ := ih fuel (k + 1) hl
            (Nat.lt_of_succ_lt_succ hfuel)
          refine ⟨.path k :: es, ?_, ?_⟩
          · rw [pathCopy_succ, if_neg hb, bind_run hrun rfl, List.append_nil]
          · intro e he
            cases he with
            | head => exact ⟨0, Nat.zero_le _, rfl⟩
            | tail _ he =>
                obtain ⟨j, hj, rfl⟩ := hes e he
                refine ⟨j + 1, Nat.succ_le_succ hj, ?_⟩
                rw [Nat.add_assoc, Nat.add_comm 1]

/-- A copy that stays inside `path` found a string that fits. -/
theorem string_of_pathCopy {n fuel k src : Nat} (hn : k + n = pathSize)
    (hfuel : n < fuel) (hin : ∀ e ∈ (pathCopy fuel k src s).1, e.Inside) :
    ∃ l, StringAt s.mem src l ∧ k + l.length < pathSize := by
  induction n generalizing fuel k src with
  | zero =>
      cases fuel with
      | zero => cases hfuel
      | succ fuel =>
          -- the next write is the first one outside
          rw [pathCopy_succ] at hin
          have hk : k < pathSize := hin _ List.mem_cons_self
          omega
  | succ n ih =>
      cases fuel with
      | zero => cases hfuel
      | succ fuel =>
          rw [pathCopy_succ] at hin
          by_cases hz : s.mem src = 0
          · refine ⟨[], hz, ?_⟩
            rw [List.length_nil]
            omega
          · rw [if_neg hz] at hin
            have hrest : ∀ e ∈ (pathCopy fuel (k + 1) (src + 1) s).1, e.Inside := by
              intro e he
              exact hin e (List.mem_cons_of_mem _ (mem_bind_left he))
            obtain ⟨l, hl, hlen⟩ := ih (by omega) (by omega) hrest
            refine ⟨s.mem src :: l, ⟨hz, rfl, hl⟩, ?_⟩
            rw [List.length_cons]
            omega

/-- The translated arguments from `i` on, `n` of them. -/
def argPas (m : Mem) (root argv : Nat) : Nat → Nat → List Nat
  | _, 0 => []
  | i, n + 1 => argPa m root argv i :: argPas m root argv (i + 1) n

theorem length_argPas (m : Mem) (root argv i n : Nat) :
    (argPas m root argv i n).length = n := by
  induction n generalizing i with
  | zero => rfl
  | succ n ih => rw [argPas, List.length_cons, ih]

/-- One round of the collecting loop. -/
theorem collectArgs_succ (root argv fuel i : Nat) (s : Kernel) :
    collectArgs root argv (fuel + 1) i s =
      (if argPa s.mem root argv i = 0 then pure []
        else emit (.oldargv i) >>= fun _ =>
          collectArgs root argv fuel (i + 1) >>= fun rest =>
          pure (argPa s.mem root argv i :: rest) : X (List Nat)) s := by
  have hload : (ld (argv + 8 * i) s).2 = .ok (load s.mem 8 (argv + 8 * i)) s := rfl
  rw [collectArgs, bind_silent hload, bind_silent userVaToPa_run]
  rfl

/-- A list that ends is collected. -/
theorem collectArgs_list {n : Nat} (fuel i : Nat)
    (hmap : ∀ k < n, argPa s.mem root argv (i + k) ≠ 0)
    (hend : argPa s.mem root argv (i + n) = 0) (hfuel : n < fuel) :
    ∃ es, collectArgs root argv fuel i s
        = (es, .ok (argPas s.mem root argv i n) s) ∧
      ∀ e ∈ es, ∃ k < n, e = .oldargv (i + k) := by
  induction n generalizing fuel i with
  | zero =>
      cases fuel with
      | zero => cases hfuel
      | succ fuel =>
          refine ⟨[], ?_, nofun⟩
          rw [collectArgs_succ, if_pos (show argPa s.mem root argv i = 0 from hend)]
          rfl
  | succ n ih =>
      cases fuel with
      | zero => cases hfuel
      | succ fuel =>
          have hnext : ∀ k, i + 1 + k = i + (k + 1) := fun k => by omega
          obtain ⟨es, hrun, hes⟩ := ih fuel (i + 1)
            (fun k hk => by
              rw [hnext]
              exact hmap (k + 1) (Nat.succ_lt_succ hk))
            (by rw [hnext]; exact hend) (Nat.lt_of_succ_lt_succ hfuel)
          refine ⟨.oldargv i :: es, ?_, ?_⟩
          · have hfirst : argPa s.mem root argv i ≠ 0 := hmap 0 (Nat.succ_pos n)
            rw [collectArgs_succ, if_neg hfirst, bind_emit, bind_run hrun rfl,
              List.append_nil, argPas]
          · intro e he
            cases he with
            | head => exact ⟨0, Nat.succ_pos n, rfl⟩
            | tail _ he =>
                obtain ⟨k, hk, rfl⟩ := hes e he
                exact ⟨k + 1, Nat.succ_lt_succ hk, by rw [hnext]⟩

/-- A loop that stopped collected a list that ends. -/
theorem list_of_collectArgs {fuel i : Nat} {es : List ExecWrite} {l : List Nat}
    (hrun : collectArgs root argv fuel i s = (es, .ok l t)) :
    (∀ k < l.length, argPa s.mem root argv (i + k) ≠ 0) ∧
      argPa s.mem root argv (i + l.length) = 0 := by
  induction fuel generalizing i es l with
  | zero => cases hrun
  | succ fuel ih =>
      rw [collectArgs_succ] at hrun
      by_cases hend : argPa s.mem root argv i = 0
      · rw [if_pos hend] at hrun
        cases hrun
        exact ⟨nofun, hend⟩
      · rw [if_neg hend] at hrun
        obtain ⟨_, _, s₁, _, hemit, hrun, -⟩ := bind_ok hrun
        obtain ⟨-, rfl⟩ : _ ∧ s = s₁ := by
          cases hemit
          exact ⟨trivial, rfl⟩
        obtain ⟨_, rest, s₂, _, hrest, hpure, -⟩ := bind_ok hrun
        cases hpure
        obtain ⟨hmap, hlast⟩ := ih hrest
        refine ⟨fun k hk => ?_, ?_⟩
        · cases k with
          | zero => exact hend
          | succ k =>
              have h := hmap k (Nat.lt_of_succ_lt_succ hk)
              rwa [Nat.add_assoc, Nat.add_comm 1] at h
        · rwa [Nat.add_assoc, Nat.add_comm 1] at hlast

-- ==== exec

/-- The command's name fits behind `"./obj/"`, and the arguments end
within `MAXARGS`. -/
structure ArgsFit (m : Mem) (root argv : Nat) : Prop where
  name : ∃ l, StringAt m (argPa m root argv 0) l ∧
    objDir.length + l.length < pathSize
  list : ∃ n ≤ maxArgs, (∀ k < n, argPa m root argv k ≠ 0) ∧
    argPa m root argv n = 0

/-- Exec writes inside its buffers, the loop that collects the arguments
stops, and arguments that do not fit are refused: exec returns and has
changed nothing. -/
structure StaysInside (cfg : Config) (host : List UInt8 → Option HostFile)
    (argv : Nat) (c : Slot) (s : Kernel) : Prop where
  inside : ∀ e ∈ (loadShellBincode cfg host argv s).1, e.Inside
  stops : ∃ es l, collectArgs (s.procs c).pagetable argv (2 ^ 31) 0 s
    = (es, .ok l s)
  refused : ¬ ArgsFit s.mem (s.procs c).pagetable argv →
    ∃ es, loadShellBincode cfg host argv s = (es, .ok () s)

/-- The argument-saving part of exec, up to the end of the name. -/
theorem saveArgs_eq (c : Slot) (argv : Nat) (s : Kernel) :
    saveArgs c argv s =
      (pathCopy (2 ^ 64) objDir.length (argPa s.mem (s.procs c).pagetable argv 0)
        >>= fun name => collectArgs (s.procs c).pagetable argv (2 ^ 31) 0
        >>= fun oldargv => emit (.oldargv oldargv.length)
        >>= fun _ => pure (objDir ++ name, oldargv) : X (List UInt8 × List Nat)) s := by
  have hproc : (proc c s).2 = .ok (s.procs c) s := rfl
  have hload : (ld argv s).2 = .ok (load s.mem 8 argv) s := rfl
  unfold saveArgs
  rw [bind_silent hproc, bind_silent hload, bind_silent userVaToPa_run]
  rfl

/-- What fits is saved, inside the buffers. -/
theorem saveArgs_fits (hfit : ArgsFit s.mem (s.procs c).pagetable argv) :
    ∃ es r, saveArgs c argv s = (es, .ok r s) ∧ r.2.length ≤ maxArgs ∧
      ∀ e ∈ es, e.Inside := by
  obtain ⟨⟨l, hl, hlen⟩, n, hn, hmap, hend⟩ := hfit
  obtain ⟨es₁, hrun₁, hes₁⟩ := pathCopy_string (2 ^ 64) objDir.length hl
    (Nat.lt_trans (Nat.lt_of_le_of_lt (Nat.le_add_left ..) hlen)
      (by decide))
  obtain ⟨es₂, hrun₂, hes₂⟩ := collectArgs_list (2 ^ 31) 0
    (fun k hk => by rw [Nat.zero_add]; exact hmap k hk)
    (by rw [Nat.zero_add]; exact hend) (Nat.lt_of_le_of_lt hn (by decide))
  have hcount := length_argPas s.mem (s.procs c).pagetable argv 0 n
  generalize argPas s.mem (s.procs c).pagetable argv 0 n = oldargv at hrun₂ hcount
  have hlast : (emit (.oldargv oldargv.length) >>= fun _ =>
      pure (objDir ++ l, oldargv) : X (List UInt8 × List Nat)) s
        = ([.oldargv n], .ok (objDir ++ l, oldargv) s) := by
    rw [bind_emit, hcount]
    rfl
  refine ⟨es₁ ++ (es₂ ++ [.oldargv n]), (objDir ++ l, oldargv), ?_, ?_, ?_⟩
  · rw [saveArgs_eq]
    exact bind_run hrun₁ (bind_run hrun₂ hlast)
  · exact hcount ▸ hn
  · intro e he
    simp only [List.mem_append, List.mem_singleton] at he
    rcases he with he | he | rfl
    · obtain ⟨j, hj, rfl⟩ := hes₁ e he
      exact Nat.lt_of_le_of_lt (Nat.add_le_add_left hj _) hlen
    · obtain ⟨k, hk, rfl⟩ := hes₂ e he
      show 0 + k ≤ maxArgs
      omega
    · exact hn

/-- The stack-building loops write to `oldargv` what the collecting loop
wrote to. -/
theorem emits_pushStrings (root : Nat) :
    ∀ (l : List Nat) (i sp : Nat), i + l.length ≤ maxArgs →
      Emits ExecWrite.Inside (pushStrings root l i sp) := by
  intro l
  induction l with
  | nil =>
      intro i sp hi
      unfold pushStrings
      refine emits_bind (emits_silent _) fun pa => ?_
      refine emits_bind ?_ fun _ => ?_
      · exact emits_bind (emits_emit trivial) fun _ => emits_modify _
      · exact emits_bind (emits_emit hi) fun _ => emits_pure _
  | cons src l ih =>
      intro i sp hi
      rw [List.length_cons] at hi
      have hcopy : ∀ fuel dst src, Emits ExecWrite.Inside (strcpy fuel dst src) := by
        intro fuel
        induction fuel with
        | zero => exact fun _ _ => emits_halt _
        | succ fuel ih =>
            intro dst src
            unfold strcpy
            refine emits_bind emits_get fun s => emits_bind ?_ fun _ =>
              emits_ite (emits_pure _) (ih _ _)
            exact emits_bind (emits_emit trivial) fun _ => emits_modify _
      unfold pushStrings
      refine emits_bind (emits_silent _) fun pa => emits_bind (hcopy _ _ _) fun _ =>
        emits_bind (emits_emit ?_) fun _ => emits_bind (ih _ _ ?_) fun r =>
        emits_pure _
      · show i ≤ maxArgs
        omega
      · omega

theorem emits_pushPointers (root : Nat) :
    ∀ (l : List Nat) (sp : Nat), Emits ExecWrite.Inside (pushPointers root l sp) := by
  intro l
  induction l with
  | nil => exact fun sp => emits_pure sp
  | cons slot l ih =>
      intro sp
      unfold pushPointers
      refine emits_bind (emits_silent _) fun pa => emits_bind ?_ fun _ => ih _
      exact emits_bind (emits_emit trivial) fun _ => emits_modify _

theorem emits_buildStack {oldargv : List Nat} (hlen : oldargv.length ≤ maxArgs) :
    Emits ExecWrite.Inside (buildStack c oldargv) := by
  unfold buildStack
  refine emits_bind (emits_silent _) fun p => emits_bind (emits_silent _) fun sp =>
    emits_bind (emits_pushStrings _ _ _ _ (by omega)) fun r =>
    emits_bind (emits_pushPointers _ _ _) fun sp =>
    emits_bind (emits_silent _) fun _ => emits_bind (emits_silent _) fun _ =>
    emits_silent _

/-- Exec, once it knows the caller. -/
theorem loadShellBincode_eq {cfg : Config} {host : List UInt8 → Option HostFile}
    (hcur : s.current = some c) :
    loadShellBincode cfg host argv s =
      (saveArgs c argv >>= fun r => silent (reallocProcess cfg c) >>= fun _ =>
        buildStack c r.2 >>= fun _ => match host r.1 with
        | none =>
            silent (panic "Fail on openning the input application program.\n")
        | some f => silent (loadBincode f c) : X Unit) s := by
  have hthe : (theCurrent s).2 = .ok c s := by
    unfold theCurrent
    rw [bind_get, hcur]
    rfl
  unfold loadShellBincode
  exact bind_silent hthe

/-- For every caller: exec stays inside its buffers, stops collecting and
refuses what does not fit, exactly when the name has at most 23
characters and the list at most ten arguments. -/
theorem exec_stays_inside_iff {cfg : Config} {host : List UInt8 → Option HostFile}
    (hcur : s.current = some c) :
    StaysInside cfg host argv c s
      ↔ ArgsFit s.mem (s.procs c).pagetable argv := by
  constructor
  · rintro ⟨hin, ⟨es, l, hstop⟩, -⟩
    rw [loadShellBincode_eq hcur] at hin
    have hsave : ∀ e ∈ (saveArgs c argv s).1, e.Inside := fun e he =>
      hin e (mem_bind_left he)
    rw [saveArgs_eq] at hsave
    obtain ⟨name, hname, hlen⟩ := string_of_pathCopy (n := 24) rfl (by decide)
      fun e he => hsave e (mem_bind_left he)
    refine ⟨⟨name, hname, hlen⟩, l.length, ?_, ?_⟩
    · -- the entry written behind the last argument
      obtain ⟨es', hcopy, -⟩ := pathCopy_string (2 ^ 64) objDir.length
        hname
        (Nat.lt_trans (Nat.lt_of_le_of_lt (Nat.le_add_left ..) hlen) (by decide))
      have hmem : ExecWrite.oldargv l.length ∈ _ :=
        mem_bind_right (f := fun name => collectArgs (s.procs c).pagetable argv
          (2 ^ 31) 0 >>= fun oldargv => emit (.oldargv oldargv.length)
          >>= fun _ => pure (objDir ++ name, oldargv)) hcopy
          (mem_bind_right hstop List.mem_cons_self)
      exact hsave _ hmem
    · have h := list_of_collectArgs hstop
      simp only [Nat.zero_add] at h
      exact h
  · intro hfit
    obtain ⟨es, r, hrun, hlen, hes⟩ := saveArgs_fits hfit
    refine ⟨?_, ?_, fun hnot => absurd hfit hnot⟩
    · rw [loadShellBincode_eq hcur, bind_run hrun rfl]
      intro e he
      rcases List.mem_append.mp he with he | he
      · exact hes e he
      · have hrest : Emits ExecWrite.Inside (silent (reallocProcess cfg c) >>= fun _ =>
            buildStack c r.2 >>= fun _ => match host r.1 with
            | none =>
                silent (panic "Fail on openning the input application program.\n")
            | some f => silent (loadBincode f c)) := by
          refine emits_bind (emits_silent _) fun _ =>
            emits_bind (emits_buildStack hlen) fun _ => ?_
          cases host r.1 with
          | none => exact emits_silent _
          | some f => exact emits_silent _
        exact hrest s e he
    · obtain ⟨n, hn, hmap, hend⟩ := hfit.list
      obtain ⟨es, hrun, -⟩ := collectArgs_list (2 ^ 31) 0
        (fun k hk => by rw [Nat.zero_add]; exact hmap k hk)
        (by rw [Nat.zero_add]; exact hend) (Nat.lt_of_le_of_lt hn (by decide))
      exact ⟨es, _, hrun⟩

/-- A process that calls exec with `name` and nothing else: the array is
in its first page, the name in its second. -/
def caller (name : List UInt8) : Kernel :=
  { twoPages with
    mem := fun x =>
      if 0x8000 ≤ x ∧ x < 0x8000 + name.length then name.getD (x - 0x8000) 0
      else store (store twoPages.mem 8 0x5000 0x1000) 8 0x5008 0x2000 x }

/-- A call of `ls`. -/
theorem exec_stays_inside_iff_ls :
    StaysInside (tinyMachine 0x10000) (fun _ => none) 0x5000 0
      (caller [0x6c, 0x73]) := by
  refine (exec_stays_inside_iff (c := 0) rfl).mpr ⟨⟨[0x6c, 0x73], ?_, ?_⟩, 1, ?_, ?_⟩
  · decide +kernel
  · decide
  · decide
  · decide +kernel

/-- A name of 24 characters: byte 30 of `path` is written. -/
theorem long_name_overflows :
    ExecWrite.path 30 ∈ (loadShellBincode (tinyMachine 0x10000) (fun _ => none)
        0x5000 (caller (List.replicate 24 0x61))).1 ∧
      ¬ (ExecWrite.path 30).Inside := by
  have hcopy : ExecWrite.path 30 ∈ (pathCopy (2 ^ 64) objDir.length 0x8000
      (caller (List.replicate 24 0x61))).1 := by decide +kernel
  have hsrc : argPa (caller (List.replicate 24 0x61)).mem
      ((caller (List.replicate 24 0x61)).procs 0).pagetable 0x5000 0
      = 0x8000 := by decide +kernel
  refine ⟨?_, by decide⟩
  rw [loadShellBincode_eq (c := 0) rfl]
  apply mem_bind_left
  rw [saveArgs_eq]
  apply mem_bind_left
  rw [hsrc]
  exact hcopy

end Pke
