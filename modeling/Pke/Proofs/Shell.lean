/-
What the shell's parser accepts, and what it makes of it.

A pointer into the line is known by the text that is left from it on
(`Cursor`), and `peek` and `gettoken` are told by that text: what they do
depends on its first character behind the white space, and there are three
cases, the end, a symbol and a word.

The words found are kept as pairs of addresses (`Span`). The byte behind a
word is white space or the NUL of the line, and the bytes of words are
neither, so `nulterminate` writes its terminators beside the words however
these lie: no terminator is a byte of a word.
-/
import Pke.Lib.CString
import Pke.Lib.Words
import Pke.Model.Shell
import Mathlib.Data.List.Forall2
import Mathlib.Data.List.TakeWhile

namespace Pke.Sh

open ByteMem Traced Words

variable {m m' m₀ : Mem} {s es q cmd lo fuel : Nat}
variable {l w rest line : List UInt8} {c : UInt8}
variable {done : List (Nat × Nat)}

-- ==== characters

theorem strchr_isSome (l : List UInt8) (c : UInt8) :
    (strchr l c).isSome = true ↔ c ∈ l := by
  induction l with
  | nil => simp [strchr]
  | cons b l ih =>
      unfold strchr
      by_cases hb : b = c
      · simp [hb]
      · rw [if_neg hb, Option.isSome_map, ih, List.mem_cons]
        exact (or_iff_right fun h => hb h.symm).symm

theorem isSymbol_iff : isSymbol c = true ↔ c ∈ symbols := strchr_isSome _ _

theorem isSpace_eq : isSpace = fun c => decide (c ∈ whitespace) := by
  funext c
  rw [Bool.eq_iff_iff, decide_eq_true_iff]
  exact strchr_isSome _ _

/-- A symbol is no white space, and not the kind of a word. -/
theorem symbol_plain (h : isSymbol c = true) :
    isSpace c = false ∧ c ≠ ch 'a' := by
  have hall : (symbols.all fun c => !isSpace c && c != ch 'a') = true := by decide
  have hc := List.all_eq_true.mp hall c (isSymbol_iff.mp h)
  simp only [Bool.and_eq_true, Bool.not_eq_true', bne_iff_ne] at hc
  exact hc

theorem not_isSymbol_of_isSpace (h : isSpace c = true) : isSymbol c = false := by
  by_contra hsym
  have hspace := (symbol_plain (eq_true_of_ne_false hsym)).1
  exact Bool.noConfusion (hspace.symm.trans h)

/-- What a word is made of. -/
def wordChar (c : UInt8) : Bool := !isSpace c && !isSymbol c

theorem wordChar_iff : wordChar c = true ↔ isSpace c = false ∧ isSymbol c = false := by
  unfold wordChar
  rw [Bool.and_eq_true, Bool.not_eq_true', Bool.not_eq_true']

/-- What ends a word and is no symbol is white space. -/
theorem isSpace_behind (hout : wordChar c = false) (hsym : isSymbol c = false) :
    isSpace c = true := by
  by_contra hspace
  have hin := wordChar_iff.mpr ⟨eq_false_of_ne_true hspace, hsym⟩
  exact Bool.noConfusion (hout.symm.trans hin)

/-- No symbol among the characters. -/
def Clean (l : List UInt8) : Prop := ∀ c ∈ l, isSymbol c = false

theorem clean_dropWhile {p : UInt8 → Bool}
    (hp : ∀ c, p c = true → isSymbol c = false) :
    Clean (l.dropWhile p) ↔ Clean l := by
  have hsplit : l.takeWhile p ++ l.dropWhile p = l := List.takeWhile_append_dropWhile
  constructor
  · intro hclean c hc
    rw [← hsplit] at hc
    rcases List.mem_append.mp hc with hc | hc
    · exact hp c (List.mem_takeWhile_imp hc)
    · exact hclean c hc
  · intro hclean c hc
    exact hclean c ((List.dropWhile_suffix p).subset hc)

/-- The word in front of a line without symbols. -/
theorem words_front (hc : wordChar c = true) (hclean : Clean (c :: l)) :
    words isSpace (c :: l) = (c :: l).takeWhile wordChar
      :: words isSpace ((c :: l).dropWhile wordChar) := by
  have hsplit : (c :: l).takeWhile wordChar ++ (c :: l).dropWhile wordChar = c :: l :=
    List.takeWhile_append_dropWhile
  have hne : (c :: l).takeWhile wordChar ≠ [] := by
    rw [List.takeWhile_cons, if_pos hc]
    exact List.cons_ne_nil _ _
  have hin : ∀ a ∈ (c :: l).takeWhile wordChar, isSpace a = false :=
    fun a ha => (wordChar_iff.mp (List.mem_takeWhile_imp ha)).1
  have hout : ∀ a ∈ ((c :: l).dropWhile wordChar).head?, isSpace a = true :=
    fun a ha => isSpace_behind (head_dropWhile ha) (hclean a
      ((List.dropWhile_suffix wordChar).subset (List.mem_of_mem_head? ha)))
  have hword := words_word hne hin hout
  rw [hsplit] at hword
  exact hword

-- ==== cursors

/-- From `s` on the line reads `l`, up to its NUL at `es`. -/
structure Cursor (m : Mem) (es s : Nat) (l : List UInt8) : Prop where
  text : StringAt m s l
  stop : s + l.length = es

theorem Cursor.nil (h : Cursor m es s []) : m s = 0 ∧ s = es :=
  ⟨h.text, h.stop⟩

theorem Cursor.cons (h : Cursor m es s (c :: l)) : m s = c ∧ c ≠ 0 ∧ s < es := by
  have hstop := h.stop
  rw [List.length_cons] at hstop
  exact ⟨h.text.2.1, h.text.1, by omega⟩

theorem Cursor.agree (h : Cursor m es s l) (hag : Agree m m' s (es + 1)) :
    Cursor m' es s l where
  text := by
    apply h.text.agree
    rw [h.stop]
    exact hag
  stop := h.stop

/-- Behind the run in front. -/
theorem Cursor.after (h : Cursor m es s l) (p : UInt8 → Bool) :
    Cursor m es (s + (l.takeWhile p).length) (l.dropWhile p) where
  text := by
    rw [← drop_takeWhile]
    exact h.text.drop (List.takeWhile_prefix p).length_le
  stop := by
    have hlen : (l.takeWhile p ++ l.dropWhile p).length = l.length := by
      rw [List.takeWhile_append_dropWhile]
    have hstop := h.stop
    rw [List.length_append] at hlen
    omega

theorem scan_string (p : UInt8 → Bool) (h : StringAt m s l) :
    scan p m l.length s = s + (l.takeWhile p).length := by
  induction l generalizing s with
  | nil => rfl
  | cons b l ih =>
      obtain ⟨_, hb, hl⟩ := h
      rw [List.length_cons, scan, hb, List.takeWhile_cons]
      by_cases hp : p b = true
      · rw [if_pos hp, if_pos hp, ih hl, List.length_cons]
        omega
      · rw [if_neg hp, if_neg hp]
        rfl

/-- A scan from a cursor goes over the run in front. -/
theorem Cursor.scan (h : Cursor m es s l) (p : UInt8 → Bool) :
    Sh.scan p m (es - s) s = s + (l.takeWhile p).length := by
  have hleft : es - s = l.length := by
    have hstop := h.stop
    omega
  rw [hleft]
  exact scan_string p h.text

theorem Cursor.skip (h : Cursor m es s l) :
    skipSpace m es s = s + (l.takeWhile isSpace).length :=
  h.scan isSpace

/-- There is nothing to skip in front of a character. -/
theorem Cursor.skip_self (h : Cursor m es s l)
    (hl : ∀ c ∈ l.head?, isSpace c = false) : skipSpace m es s = s := by
  rw [h.skip]
  cases l with
  | nil => rfl
  | cons c l =>
      rw [List.takeWhile_cons, if_neg (Bool.eq_false_iff.mp (hl c rfl))]
      rfl

-- ==== tokens

theorem Cursor.peek_eq (h : Cursor m es s l) (toks : List UInt8) :
    peek m es s toks
      = (((l.dropWhile isSpace).head?.any fun c => (strchr toks c).isSome),
          s + (l.takeWhile isSpace).length) := by
  have hnext := h.after isSpace
  unfold peek
  rw [h.skip]
  cases hl : l.dropWhile isSpace with
  | nil =>
      rw [hl] at hnext
      simp [hnext.nil.1]
  | cons c rest =>
      rw [hl] at hnext
      simp [hnext.cons.1, hnext.cons.2.1]

/-- At the end there is no token. -/
theorem Cursor.token_end (h : Cursor m es s []) :
    (gettoken m es s).ret = 0 ∧ (gettoken m es s).ps = s := by
  have hskip : skipSpace m es s = s := h.skip
  have htok : tokenAt m es s = (0, s) := by
    unfold tokenAt
    rw [h.nil.1, if_pos rfl]
  unfold gettoken
  simp only [hskip, htok]
  trivial

/-- A symbol is a token of its own kind. -/
theorem Cursor.token_symbol (h : Cursor m es s (c :: l))
    (hc : isSymbol c = true) :
    (gettoken m es s).ret ≠ 0 ∧ (gettoken m es s).ret ≠ ch 'a' := by
  obtain ⟨hm, hne, _⟩ := h.cons
  have hskip : skipSpace m es s = s :=
    h.skip_self fun b hb => by
      obtain rfl : c = b := Option.some.inj hb
      exact (symbol_plain hc).1
  have hplain := (symbol_plain hc).2
  have hmem := isSymbol_iff.mp hc
  show (tokenAt m es (skipSpace m es s)).1 ≠ 0 ∧
    (tokenAt m es (skipSpace m es s)).1 ≠ ch 'a'
  rw [hskip]
  unfold tokenAt
  simp only [hm, if_neg hne]
  split
  · exact ⟨hne, hplain⟩
  · split
    · split
      · show ch '+' ≠ 0 ∧ ch '+' ≠ ch 'a'
        decide
      · exact ⟨hne, hplain⟩
    · rename_i hone htwo
      simp only [symbols, List.map_cons, List.map_nil, List.mem_cons,
        List.not_mem_nil, or_false] at hmem
      exfalso
      tauto

/-- A word runs to the next symbol, white space or the end. -/
theorem Cursor.token_word (h : Cursor m es s (c :: l)) (hc : wordChar c = true) :
    gettoken m es s =
      { ret := ch 'a', q := s, eq := s + ((c :: l).takeWhile wordChar).length
        ps := s + ((c :: l).takeWhile wordChar).length
          + (((c :: l).dropWhile wordChar).takeWhile isSpace).length } := by
  obtain ⟨hm, hne, _⟩ := h.cons
  obtain ⟨hspace, hsym⟩ := wordChar_iff.mp hc
  have hskip : skipSpace m es s = s :=
    h.skip_self fun b hb => by
      obtain rfl : c = b := Option.some.inj hb
      exact hspace
  have hend : wordEnd m es s = s + ((c :: l).takeWhile wordChar).length :=
    h.scan wordChar
  have hmem : c ∉ symbols := fun hin =>
    Bool.noConfusion (hsym.symm.trans (isSymbol_iff.mpr hin))
  simp only [symbols, List.map_cons, List.map_nil, List.mem_cons,
    List.not_mem_nil, or_false, not_or] at hmem
  have htok : tokenAt m es s
      = (ch 'a', s + ((c :: l).takeWhile wordChar).length) := by
    unfold tokenAt
    rw [hm, if_neg hne, if_neg (by tauto), if_neg (by tauto), hend]
  unfold gettoken
  simp only [hskip, htok, (h.after wordChar).skip]

-- ==== spans

/-- The word `w` lies at `x`, within the line. -/
structure Span (m : Mem) (lo es : Nat) (x : Nat × Nat) (w : List UInt8) : Prop where
  stop : x.2 = x.1 + w.length
  bytes : ∀ k < w.length, m (x.1 + k) = w.getD k 0
  inner : ∀ c ∈ w, c ≠ 0 ∧ isSpace c = false
  behind : m x.2 = 0 ∨ isSpace (m x.2) = true
  within : lo ≤ x.1 ∧ x.2 ≤ es

/-- The word at a cursor, on a line without further symbols. -/
theorem Cursor.span (h : Cursor m es s (c :: l)) (hlo : lo ≤ s)
    (hclean : Clean (c :: l)) :
    Span m lo es (s, s + ((c :: l).takeWhile wordChar).length)
      ((c :: l).takeWhile wordChar) := by
  have hnext := h.after wordChar
  obtain ⟨hne, hbytes⟩ := stringAt_iff.mp h.text
  have hpre := List.takeWhile_prefix (l := c :: l) wordChar
  constructor
  case stop => rfl
  case bytes =>
    intro k hk
    have hk' := Nat.lt_of_lt_of_le hk hpre.length_le
    rw [hbytes k (Nat.le_of_lt hk'), List.getD_eq_getElem _ _ hk,
      List.getD_eq_getElem _ _ hk', hpre.getElem hk]
  case inner =>
    intro b hb
    exact ⟨hne b (hpre.subset hb), (wordChar_iff.mp (List.mem_takeWhile_imp hb)).1⟩
  case behind =>
    show m (s + _) = 0 ∨ isSpace (m (s + _)) = true
    cases hrest : (c :: l).dropWhile wordChar with
    | nil =>
        rw [hrest] at hnext
        exact Or.inl hnext.nil.1
    | cons b rest =>
        have hout : wordChar b = false := by
          apply head_dropWhile (l := c :: l)
          rw [hrest]
          rfl
        have hb : b ∈ c :: l := by
          apply (List.dropWhile_suffix (l := c :: l) wordChar).subset
          rw [hrest]
          exact List.mem_cons_self
        rw [hrest] at hnext
        rw [hnext.cons.1]
        exact Or.inr (isSpace_behind hout (hclean b hb))
  case within =>
    have hstop := hnext.stop
    exact ⟨hlo, by omega⟩

-- ==== the struct

/-- The entries of the two arrays from index `i` on. -/
def Entries (m : Mem) (cmd i : Nat) (xs : List (Nat × Nat)) : Prop :=
  ∀ k x, xs[k]? = some x → argvAt m cmd (i + k) = x.1 ∧ eargvAt m cmd (i + k) = x.2

/-- The memory `m₀` with an `execcmd` at `cmd` whose arrays begin with
`done`. -/
structure Parsed (m₀ : Mem) (cmd : Nat) (done : List (Nat × Nat)) (m : Mem) :
    Prop where
  off : ∀ a, a < cmd ∨ cmd + execcmdSize ≤ a → m a = m₀ a
  kind : load m 4 cmd = execType
  entries : Entries m cmd 0 done

/-- A store into the arrays, at the entry behind `done`. -/
theorem Parsed.store {a v : Nat} (h : Parsed m₀ cmd done m)
    (ha : a = cmd + argvOff + 8 * done.length ∨
      a = cmd + eargvOff + 8 * done.length)
    (hlen : done.length < maxArgs) : Parsed m₀ cmd done (store m 8 a v) where
  off := by
    intro b hb
    rw [← h.off b hb]
    simp only [execcmdSize, eargvOff, argvOff, maxArgs] at *
    have hag : Agree m (ByteMem.store m 8 a v) b (b + 1) := store_agree m (by omega)
    exact hag b (Nat.le_refl b) (Nat.lt_succ_self b)
  kind := by
    rw [← h.kind]
    simp only [eargvOff, argvOff] at ha
    exact load_agree (store_agree m (by omega))
  entries := by
    intro k x hk
    have hlt : k < done.length := (List.getElem?_eq_some_iff.mp hk).1
    have hold := h.entries k x hk
    unfold argvAt eargvAt at hold ⊢
    simp only [eargvOff, argvOff, maxArgs] at *
    rw [load_agree (store_agree m (by omega)), load_agree (store_agree m (by omega))]
    exact hold

/-- The next word is entered. -/
theorem Parsed.push {q e : Nat} (h : Parsed m₀ cmd done m)
    (hlen : done.length < maxArgs) (hq : q < 2 ^ 64) (he : e < 2 ^ 64) :
    Parsed m₀ cmd (done ++ [(q, e)])
      (ByteMem.store (ByteMem.store m 8 (cmd + argvOff + 8 * done.length) q) 8
        (cmd + eargvOff + 8 * done.length) e) := by
  have hone : Parsed m₀ cmd done _ := h.store (v := q) (Or.inl rfl) hlen
  have hboth : Parsed m₀ cmd done _ := hone.store (v := e) (Or.inr rfl) hlen
  refine ⟨hboth.off, hboth.kind, fun k x hk => ?_⟩
  rcases Nat.lt_trichotomy k done.length with hlt | rfl | hgt
  · rw [List.getElem?_append_left hlt] at hk
    exact hboth.entries k x hk
  · rw [List.getElem?_concat_length] at hk
    obtain rfl := Option.some.inj hk
    unfold argvAt eargvAt
    simp only [Nat.zero_add, load_store, eargvOff, argvOff, maxArgs]
    rw [load_agree (store_agree _ (by omega)), load_store]
    exact ⟨Nat.mod_eq_of_lt hq, Nat.mod_eq_of_lt he⟩
  · rw [List.getElem?_eq_none (by simp; omega)] at hk
    cases hk

/-- Off the struct memory is as it was. -/
theorem Parsed.agree (h : Parsed m₀ cmd done m)
    (hsep : cmd + execcmdSize ≤ lo ∨ es < cmd) : Agree m₀ m lo (es + 1) := by
  intro a hlo hhi
  apply h.off
  omega

theorem wpOn_setArgv {good bad : ArgWrite → Prop} {E : ShHalt → Mem → Prop}
    {i v : Nat} {Q : Unit → Mem → Prop} (hgood : good (.argv i))
    (hQ : Q () (store m 8 (cmd + argvOff + 8 * i) v)) :
    WpOn good bad E (setArgv cmd i v) Q m := by
  unfold setArgv
  apply WpOn.bind
  exact wpOn_emit (Or.inr ⟨hgood, wpOn_modify hQ⟩)

theorem wpOn_setEargv {good bad : ArgWrite → Prop} {E : ShHalt → Mem → Prop}
    {i v : Nat} {Q : Unit → Mem → Prop} (hgood : good (.eargv i))
    (hQ : Q () (store m 8 (cmd + eargvOff + 8 * i) v)) :
    WpOn good bad E (setEargv cmd i v) Q m := by
  unfold setEargv
  apply WpOn.bind
  exact wpOn_emit (Or.inr ⟨hgood, wpOn_modify hQ⟩)

-- ==== the loop

/-- What the loop of `parseexec` has found when `l` is left of `line`. -/
structure Progress (m₀ : Mem) (lo es cmd : Nat) (line : List UInt8)
    (done : List (Nat × Nat)) (s : Nat) (l : List UInt8) (m : Mem) : Prop where
  parsed : Parsed m₀ cmd done m
  cursor : Cursor m₀ es s l
  above : lo ≤ s
  clean : Clean l ↔ Clean line
  spans : Clean line → ∃ ws, List.Forall₂ (Span m₀ lo es) done ws ∧
    ws ++ words isSpace l = words isSpace line

/-- The lines the parser accepts. -/
def Legal (line : List UInt8) : Prop :=
  Clean line ∧ (words isSpace line).length < maxArgs

/-- Skipping white space. -/
theorem Progress.skip (h : Progress m₀ lo es cmd line done s l m) :
    Progress m₀ lo es cmd line done (s + (l.takeWhile isSpace).length)
      (l.dropWhile isSpace) m where
  parsed := h.parsed
  cursor := h.cursor.after isSpace
  above := Nat.le_trans h.above (Nat.le_add_right ..)
  clean := (clean_dropWhile fun _ => not_isSymbol_of_isSpace).trans h.clean
  spans := by
    rw [words_dropWhile]
    exact h.spans

/-- The next word is found. -/
theorem Progress.word (h : Progress m₀ lo es cmd line done s (c :: l) m)
    (hc : wordChar c = true) (hp : Parsed m₀ cmd
      (done ++ [(s, s + ((c :: l).takeWhile wordChar).length)]) m') :
    Progress m₀ lo es cmd line
      (done ++ [(s, s + ((c :: l).takeWhile wordChar).length)])
      (s + ((c :: l).takeWhile wordChar).length)
      ((c :: l).dropWhile wordChar) m' where
  parsed := hp
  cursor := h.cursor.after wordChar
  above := Nat.le_trans h.above (Nat.le_add_right ..)
  clean := (clean_dropWhile fun _ hw => (wordChar_iff.mp hw).2).trans h.clean
  spans := by
    intro hclean
    obtain ⟨ws, hws, hall⟩ := h.spans hclean
    have hrest := h.clean.mpr hclean
    refine ⟨ws ++ [(c :: l).takeWhile wordChar], ?_, ?_⟩
    · exact List.rel_append hws
        (List.Forall₂.cons (h.cursor.span h.above hrest) List.Forall₂.nil)
    · rw [← hall, words_front hc hrest, List.append_assoc]
      rfl

/-- With a word more than fit the line is not accepted. -/
theorem Progress.not_legal (h : Progress m₀ lo es cmd line done s l m)
    (hlen : maxArgs ≤ done.length) : ¬ Legal line := by
  rintro ⟨hclean, hfew⟩
  obtain ⟨ws, hws, hall⟩ := h.spans hclean
  rw [← hall, List.length_append, ← hws.length_eq] at hfew
  omega

/-- The loop ends at the end of the line or at a symbol. -/
def AtStop (l : List UInt8) : Prop := ∀ c ∈ l.head?, isSymbol c = true

/-- The characters that end a command. -/
abbrev stops : List UInt8 := [ch '|', ch ')', ch '&', ch ';']

theorem isSymbol_of_stop (h : (strchr stops c).isSome = true) :
    isSymbol c = true := by
  have hall : stops.all isSymbol = true := by decide
  exact List.all_eq_true.mp hall c ((strchr_isSome _ _).mp h)

theorem wpOn_parseArgs (hsep : cmd + execcmdSize ≤ lo ∨ es < cmd)
    (hes : es < 2 ^ 64) :
    ∀ {fuel done s l m}, done.length + fuel = maxArgs → 0 < fuel →
      Progress m₀ lo es cmd line done s l m →
      WpOn (·.index < maxArgs) (fun _ => False)
        (fun e _ => ¬ Legal line ∧ ∃ msg, e = .panic msg)
        (parseArgs cmd es fuel done.length s)
        (fun r m' => ∃ done' l', Progress m₀ lo es cmd line done' r.2 l' m' ∧
          r.1 = done'.length ∧ done'.length < maxArgs ∧ AtStop l') m := by
  intro fuel
  induction fuel with
  | zero => intro done s l m _ hpos; exact absurd hpos (Nat.lt_irrefl 0)
  | succ fuel ih =>
      intro done s l m hfuel _ hprog
      have hlen : done.length < maxArgs := by omega
      have hag := hprog.parsed.agree hsep
      have hcur : Cursor m es s l := hprog.cursor.agree (hag.mono hprog.above le_rfl)
      have hskip := hprog.skip
      have hnext := hcur.after isSpace
      unfold parseArgs
      apply WpOn.bind
      apply wpOn_get
      rw [hcur.peek_eq]
      generalize s + (l.takeWhile isSpace).length = s₁ at *
      generalize hl : l.dropWhile isSpace = l₁ at *
      cases l₁ with
      | nil =>
          obtain ⟨hret, hps⟩ := hnext.token_end
          show WpOn _ _ _ (if (gettoken m es s₁).ret = 0 then _ else _) _ m
          rw [if_pos hret]
          apply wpOn_pure
          rw [hps]
          exact ⟨done, [], hskip, rfl, hlen, fun c hc => by cases hc⟩
      | cons c rest =>
          show WpOn _ _ _ (if (strchr stops c).isSome = true then _ else _) _ m
          by_cases hsym : isSymbol c = true
          · obtain ⟨hret, hkind⟩ := hnext.token_symbol hsym
            by_cases hfour : (strchr stops c).isSome = true
            · rw [if_pos hfour]
              refine wpOn_pure ⟨done, c :: rest, hskip, rfl, hlen, fun b hb => ?_⟩
              obtain rfl : c = b := Option.some.inj hb
              exact hsym
            · rw [if_neg hfour, if_neg hret, if_pos hkind]
              refine wpOn_halt ⟨fun hlegal => ?_, _, rfl⟩
              have hclean := hskip.clean.mpr hlegal.1 c List.mem_cons_self
              exact Bool.noConfusion (hclean.symm.trans hsym)
          · have hspace : isSpace c = false := by
              apply head_dropWhile (l := l)
              rw [hl]
              rfl
            have hchar := wordChar_iff.mpr ⟨hspace, eq_false_of_ne_true hsym⟩
            have hfour : ¬ (strchr stops c).isSome = true :=
              fun h => hsym (isSymbol_of_stop h)
            have htok := hnext.token_word hchar
            have hend := (hnext.after wordChar).stop
            rw [if_neg hfour]
            simp only [htok]
            rw [if_neg (by decide), if_neg (by decide)]
            apply WpOn.bind
            apply wpOn_setArgv hlen
            apply WpOn.bind
            apply wpOn_setEargv hlen
            have hfound := hskip.word hchar
              (hskip.parsed.push hlen (by omega) (by omega))
            by_cases hfull : done.length + 1 ≥ maxArgs
            · rw [if_pos hfull]
              refine wpOn_halt ⟨hfound.not_legal ?_, _, rfl⟩
              rw [List.length_append]
              exact hfull
            · rw [if_neg hfull]
              have hround := ih (by rw [List.length_append, List.length_singleton]; omega)
                (by omega) hfound.skip
              rw [List.length_append] at hround
              exact hround

-- ==== terminators

/-- Memory with a NUL at the end of each span. -/
def cut (m : Mem) : List (Nat × Nat) → Mem
  | [] => m
  | x :: xs => cut (store m 1 x.2 0) xs

theorem cut_at {xs : List (Nat × Nat)} {a : Nat} :
    cut m xs a = if a ∈ xs.map Prod.snd then 0 else m a := by
  induction xs generalizing m with
  | nil => rfl
  | cons x xs ih =>
      rw [cut, ih, store_zero, List.map_cons]
      by_cases hxs : a ∈ xs.map Prod.snd
      · rw [if_pos hxs, if_pos (List.mem_cons_of_mem _ hxs)]
      · rw [if_neg hxs]
        simp only [List.mem_cons, hxs, or_false]

theorem Entries.agree {i : Nat} {xs : List (Nat × Nat)} (h : Entries m cmd i xs)
    (hag : Agree m m' cmd (cmd + execcmdSize)) (hlen : i + xs.length ≤ maxArgs) :
    Entries m' cmd i xs := by
  intro k x hk
  have hlt : k < xs.length := (List.getElem?_eq_some_iff.mp hk).1
  have hold := h k x hk
  unfold argvAt eargvAt at hold ⊢
  simp only [execcmdSize, eargvOff, argvOff, maxArgs] at *
  rw [load_agree (hag.mono (by omega) (by omega)),
    load_agree (hag.mono (by omega) (by omega))]
  exact hold

/-- The loop of `nulterminate` goes over the spans up to the 0 entry. -/
theorem terminate_run {xs : List (Nat × Nat)} : ∀ {i fuel m}, xs.length < fuel →
    i + xs.length < maxArgs → Entries m cmd i (xs ++ [(0, 0)]) →
    (∀ x ∈ xs, 0 < x.1 ∧ (x.2 < cmd ∨ cmd + execcmdSize ≤ x.2)) →
    terminate cmd fuel i m = ([], .ok () (cut m xs)) := by
  induction xs with
  | nil =>
      intro i fuel m hfuel _ hent _
      obtain ⟨n, rfl⟩ : ∃ n, fuel = n + 1 := ⟨fuel - 1, by simp at hfuel; omega⟩
      have hzero : argvAt m cmd i = 0 := (hent 0 (0, 0) rfl).1
      unfold terminate
      rw [bind_get, if_neg (not_not.mpr hzero)]
      rfl
  | cons x xs ih =>
      intro i fuel m hfuel hlen hent hxs
      obtain ⟨n, rfl⟩ : ∃ n, fuel = n + 1 := ⟨fuel - 1, by simp at hfuel; omega⟩
      rw [List.length_cons] at hfuel hlen
      obtain ⟨hq, he⟩ := hent 0 x rfl
      obtain ⟨hpos, hout⟩ := hxs x List.mem_cons_self
      have hag : Agree m (store m 1 x.2 0) cmd (cmd + execcmdSize) :=
        store_agree m (by omega)
      have hrest : Entries m cmd (i + 1) (xs ++ [(0, 0)]) := by
        intro k y hk
        have hy := hent (k + 1) y hk
        rw [Nat.add_comm k 1, ← Nat.add_assoc] at hy
        exact hy
      unfold terminate
      rw [Nat.add_zero] at hq he
      rw [bind_get, if_pos (by omega), bind_modify, he]
      apply ih (by omega) (by omega)
      · apply hrest.agree hag
        rw [List.length_append, List.length_singleton]
        omega
      · exact fun y hy => hxs y (List.mem_cons_of_mem x hy)

theorem Span.agree {x : Nat × Nat} (h : Span m lo es x w)
    (hag : Agree m m' lo (es + 1)) : Span m' lo es x w := by
  obtain ⟨hlo, hhi⟩ := h.within
  have hstop := h.stop
  refine ⟨hstop, fun k hk => ?_, h.inner, ?_, h.within⟩
  · rw [hag _ (by omega) (by omega)]
    exact h.bytes k hk
  · rw [hag _ (by omega) (by omega)]
    exact h.behind

/-- A word is a string once the ends are cut: no end is inside a word. -/
theorem Span.string {xs : List (Nat × Nat)} {x : Nat × Nat}
    (h : Span m lo es x w) (hx : x ∈ xs)
    (hxs : ∀ y ∈ xs, m y.2 = 0 ∨ isSpace (m y.2) = true) :
    StringAt (cut m xs) x.1 w := by
  refine stringAt_iff.mpr ⟨fun c hc => (h.inner c hc).1, fun k hk => ?_⟩
  rw [cut_at]
  rcases Nat.lt_or_eq_of_le hk with hlt | rfl
  · have hbyte := h.bytes k hlt
    have hmem : w.getD k 0 ∈ w := by
      rw [List.getD_eq_getElem _ _ hlt]
      exact List.getElem_mem hlt
    obtain ⟨hne, hspace⟩ := h.inner _ hmem
    rw [if_neg, hbyte]
    intro hend
    obtain ⟨y, hy, heq⟩ := List.mem_map.mp hend
    have hy := hxs y hy
    rw [heq, hbyte] at hy
    rcases hy with hzero | hin
    · exact hne hzero
    · exact Bool.noConfusion (hspace.symm.trans hin)
  · rw [← h.stop, if_pos (List.mem_map_of_mem hx),
      List.getD_eq_default _ _ (Nat.le_refl _)]

/-- `argv` leads to the strings `ws`, and a 0 follows. -/
structure Argv (m : Mem) (cmd : Nat) (ws : List (List UInt8)) : Prop where
  strings : ∀ i (h : i < ws.length), StringAt m (argvAt m cmd i) ws[i]
  stop : argvAt m cmd ws.length = 0

/-- The strings of a command whose words are `ws`. -/
theorem nulterminate_run {ws : List (List UInt8)} (hcmd : 0 < cmd) (hlo : 0 < lo)
    (hsep : cmd + execcmdSize ≤ lo ∨ es < cmd) (hlen : done.length < maxArgs)
    (hp : Parsed m₀ cmd (done ++ [(0, 0)]) m)
    (hws : List.Forall₂ (Span m₀ lo es) done ws) :
    nulterminate cmd m = ([], .ok cmd (cut m done)) ∧
      Argv (cut m done) cmd ws := by
  obtain ⟨hcount, hget⟩ := List.forall₂_iff_get.mp hws
  have hspan : ∀ i (h : i < done.length) (h' : i < ws.length),
      Span m lo es done[i] ws[i] :=
    fun i h h' => (hget i h h').agree (hp.agree hsep)
  have hall : ∀ x ∈ done, ∃ w, Span m lo es x w := by
    intro x hx
    obtain ⟨i, hi, rfl⟩ := List.mem_iff_getElem.mp hx
    exact ⟨_, hspan i hi (hcount ▸ hi)⟩
  have hout : ∀ x ∈ done, 0 < x.1 ∧ (x.2 < cmd ∨ cmd + execcmdSize ≤ x.2) := by
    intro x hx
    obtain ⟨w, hw⟩ := hall x hx
    have hwithin := hw.within
    have hstop := hw.stop
    omega
  have hag : Agree m (cut m done) cmd (cmd + execcmdSize) := by
    intro a hlo hhi
    rw [cut_at, if_neg]
    intro hend
    obtain ⟨x, hx, rfl⟩ := List.mem_map.mp hend
    have hx := (hout x hx).2
    omega
  have hent : Entries (cut m done) cmd 0 (done ++ [(0, 0)]) := by
    apply hp.entries.agree hag
    rw [List.length_append, List.length_singleton]
    omega
  constructor
  · have hrun : terminate cmd maxArgs 0 m = ([], .ok () (cut m done)) :=
      terminate_run hlen (by omega) hp.entries hout
    unfold nulterminate
    rw [if_neg (by omega), bind_get, if_pos hp.kind]
    exact bind_run hrun rfl
  · constructor
    case strings =>
      intro i hi
      have hi' : i < done.length := hcount ▸ hi
      have hentry := (hent i done[i] (by
        rw [List.getElem?_append_left hi', List.getElem?_eq_getElem hi'])).1
      rw [Nat.zero_add] at hentry
      rw [hentry]
      refine (hspan i hi' hi).string (List.getElem_mem hi') fun y hy => ?_
      obtain ⟨w, hw⟩ := hall y hy
      exact hw.behind
    case stop =>
      have hentry := (hent done.length (0, 0) (by
        rw [List.getElem?_concat_length])).1
      rw [Nat.zero_add, hcount] at hentry
      exact hentry

-- ==== the line

theorem strlen_run : ∀ {l : List UInt8} {s n fuel : Nat}, StringAt m s l →
    l.length < fuel → strlen fuel s n m = ([], .ok (n + l.length) m) := by
  intro l
  induction l with
  | nil =>
      intro s n fuel hl hfuel
      obtain ⟨f, rfl⟩ : ∃ f, fuel = f + 1 := ⟨fuel - 1, by simp at hfuel; omega⟩
      have hzero : m s = 0 := hl
      unfold strlen
      rw [bind_get, if_pos hzero]
      rfl
  | cons c l ih =>
      intro s n fuel hl hfuel
      obtain ⟨f, rfl⟩ : ∃ f, fuel = f + 1 := ⟨fuel - 1, by simp at hfuel; omega⟩
      obtain ⟨hne, hc, hrest⟩ := hl
      rw [List.length_cons] at hfuel
      unfold strlen
      rw [bind_get, if_neg (by rw [hc]; exact hne), ih hrest (by omega),
        List.length_cons, Nat.add_assoc, Nat.add_comm 1]

/-- The command that `execcmd` makes has no words. -/
theorem execcmd_run (m : Mem) (cmd : Nat) :
    ∃ m', execcmd cmd m = ([], .ok cmd m') ∧ Parsed m cmd [] m' := by
  refine ⟨_, rfl, ?_, ?_, fun k x hk => by cases hk⟩
  · intro a ha
    simp only [execcmdSize, eargvOff, argvOff, maxArgs] at *
    have hfill : Agree m (fill m cmd 0 168) a (a + 1) := fill_agree m (by omega)
    have hstore : Agree (fill m cmd 0 168)
        (store (fill m cmd 0 168) 4 cmd execType) a (a + 1) :=
      store_agree _ (by omega)
    exact (hstore a (Nat.le_refl a) (Nat.lt_succ_self a)).trans
      (hfill a (Nat.le_refl a) (Nat.lt_succ_self a))
  · exact load_store _ 4 cmd execType

/-- What `parseexec` makes of a line: it has entered the words, with a 0
behind them, and stopped at the end or at a symbol. -/
theorem wpOn_parseexec (hline : StringAt m lo line) (hes : lo + line.length = es)
    (hsep : cmd + execcmdSize ≤ lo ∨ es < cmd) (hword : es < 2 ^ 64) :
    WpOn (·.index < maxArgs) (fun _ => False)
      (fun e _ => ¬ Legal line ∧ ∃ msg, e = .panic msg)
      (parseexec cmd lo es)
      (fun r m' => r.1 = cmd ∧ ∃ done l m₁, Progress m lo es cmd line done r.2 l m₁ ∧
        done.length < maxArgs ∧ AtStop l ∧
        Parsed m cmd (done ++ [(0, 0)]) m') m := by
  obtain ⟨m₁, hnew, hparsed⟩ := execcmd_run m cmd
  have hstart : Progress m lo es cmd line [] lo line m₁ := by
    refine ⟨hparsed, ⟨hline, hes⟩, Nat.le_refl lo, Iff.rfl, fun _ => ?_⟩
    exact ⟨[], List.Forall₂.nil, rfl⟩
  unfold parseexec
  apply WpOn.bind
  apply wpOn_run hnew
  apply WpOn.bind
  apply (wpOn_parseArgs hsep hword (by rfl) (by decide) hstart).mono
  intro r m₂ hloop
  obtain ⟨argc, s⟩ := r
  obtain ⟨done, l, hprog, rfl, hlen, hstop⟩ := hloop
  apply WpOn.bind
  apply wpOn_setArgv hlen
  apply WpOn.bind
  apply wpOn_setEargv hlen
  apply wpOn_pure
  exact ⟨rfl, done, l, m₂, hprog, hlen, hstop,
    hprog.parsed.push hlen (by decide) (by decide)⟩

theorem wpOn_parsecmd (hline : StringAt m s line) (hs : 0 < s)
    (hword : s + line.length < 2 ^ 64) (hcmd : 0 < cmd)
    (hsep : cmd + execcmdSize ≤ s ∨ s + line.length < cmd)
    (hfuel : line.length < fuel) :
    WpOn (·.index < maxArgs) (fun _ => False)
      (fun e _ => ¬ Legal line ∧ ∃ msg, e = .panic msg)
      (parsecmd fuel cmd s)
      (fun r m' => Legal line ∧ r = cmd ∧ Argv m' cmd (words isSpace line)) m := by
  unfold parsecmd
  apply WpOn.bind
  apply wpOn_run (strlen_run hline hfuel)
  rw [Nat.zero_add]
  apply WpOn.bind
  show WpOn _ _ _ (parseexec cmd s (s + line.length)) _ m
  apply (wpOn_parseexec hline rfl hsep hword).mono
  intro r m' hexec
  obtain ⟨cmd', s'⟩ := r
  obtain ⟨rfl, done, l, m₁, hprog, hlen, hstop, hp⟩ := hexec
  have hcur : Cursor m' (s + line.length) s' l :=
    hprog.cursor.agree ((hp.agree hsep).mono hprog.above le_rfl)
  apply WpOn.bind
  apply wpOn_get
  rw [hcur.peek_eq]
  cases l with
  | nil =>
      obtain ⟨_, rfl⟩ := hcur.nil
      have hclean : Clean line := hprog.clean.mp fun c hc => by cases hc
      obtain ⟨ws, hws, hall⟩ := hprog.spans hclean
      rw [words_nil, List.append_nil] at hall
      subst hall
      obtain ⟨hrun, hargv⟩ := nulterminate_run hcmd hs hsep hlen hp hws
      show WpOn _ _ _ (if s + line.length ≠ s + line.length then _ else _) _ m'
      rw [if_neg (not_not.mpr rfl)]
      apply WpOn.bind
      apply wpOn_run hrun
      apply wpOn_pure
      exact ⟨⟨hclean, hws.length_eq ▸ hlen⟩, rfl, hargv⟩
  | cons c rest =>
      have hsym : isSymbol c = true := hstop c rfl
      have hskip : ((c :: rest).takeWhile isSpace).length = 0 := by
        rw [List.takeWhile_cons, (symbol_plain hsym).1]
        rfl
      have hne : s' ≠ s + line.length := Nat.ne_of_lt hcur.cons.2.2
      show WpOn _ _ _ (if s' + ((c :: rest).takeWhile isSpace).length
        ≠ s + line.length then _ else _) _ m'
      rw [hskip, Nat.add_zero, if_pos hne]
      refine wpOn_halt ⟨fun hlegal => ?_, _, rfl⟩
      have hclean := hprog.clean.mpr hlegal.1 c List.mem_cons_self
      exact Bool.noConfusion (hclean.symm.trans hsym)

-- ==== acceptance

/-- The words of a line, its runs of characters that are no white space. -/
def lineWords (line : List UInt8) : List (List UInt8) :=
  words (fun c => decide (c ∈ whitespace)) line

/-- The shell's grammar: words only, and fewer than `MAXARGS`. -/
def Accepted (line : List UInt8) : Prop :=
  (∀ c ∈ line, c ∉ symbols) ∧ (lineWords line).length ≤ maxArgs - 1

theorem legal_iff : Legal line ↔ Accepted line := by
  unfold Legal Accepted lineWords Clean
  rw [isSpace_eq]
  refine and_congr (forall₂_congr fun c _ => ?_) (Nat.lt_iff_le_pred (by decide))
  rw [← isSymbol_iff, Bool.not_eq_true]

/-- `parsecmd` returns on the lines of the grammar and panics on all others;
its command leads to the words; and it writes no entry beyond the arrays. -/
theorem parsecmd_accepts_grammar {m : Mem} {fuel cmd s : Nat} {line : List UInt8}
    (hline : StringAt m s line) (hs : 0 < s) (hword : s + line.length < 2 ^ 64)
    (hcmd : 0 < cmd) (hsep : cmd + execcmdSize ≤ s ∨ s + line.length < cmd)
    (hfuel : line.length < fuel) :
    ((∃ trace r m', parsecmd fuel cmd s m = (trace, .ok r m')) ↔ Accepted line) ∧
    ((∃ trace msg m', parsecmd fuel cmd s m = (trace, .halt (.panic msg) m')) ↔
      ¬ Accepted line) ∧
    (∀ trace r m', parsecmd fuel cmd s m = (trace, .ok r m') →
      r = cmd ∧ Argv m' cmd (lineWords line)) ∧
    ∀ w ∈ (parsecmd fuel cmd s m).1, w.index < maxArgs := by
  have hparse := wpOn_parsecmd hline hs hword hcmd hsep hfuel
  rw [legal_iff, isSpace_eq] at hparse
  unfold WpOn at hparse
  rcases hrun : parsecmd fuel cmd s m with ⟨trace, out⟩
  rw [hrun] at hparse
  rcases hparse with ⟨_, _, hbad⟩ | ⟨hgood, hout⟩
  · exact hbad.elim
  · cases out with
    | ok r m' =>
        obtain ⟨hacc, rfl, hargv⟩ := hout
        refine ⟨⟨fun _ => hacc, fun _ => ⟨trace, r, m', rfl⟩⟩, ⟨?_, ?_⟩, ?_, hgood⟩
        · rintro ⟨_, _, _, heq⟩
          cases heq
        · exact fun hnot => absurd hacc hnot
        · intro _ _ _ heq
          cases heq
          exact ⟨rfl, hargv⟩
    | halt e m' =>
        obtain ⟨hnot, msg, rfl⟩ := hout
        refine ⟨⟨?_, fun hacc => absurd hacc hnot⟩, ?_, ?_, hgood⟩
        · rintro ⟨_, _, _, heq⟩
          cases heq
        · exact ⟨fun _ => hnot, fun _ => ⟨trace, msg, m', rfl⟩⟩
        · intro _ _ _ heq
          cases heq

/-- `" ls  -l\n"`. -/
def lsLine : List UInt8 := [' ', 'l', 's', ' ', ' ', '-', 'l', '\n'].map ch

/-- A memory with a line at an address. -/
def lineMem (s : Nat) (line : List UInt8) : Mem :=
  fun a => if s ≤ a then line.getD (a - s) 0 else 0

/-- The words of a line with white space around them. -/
theorem parsecmd_accepts_grammar_ls : ∃ trace r m',
    parsecmd 257 0x400000 0x1000 (lineMem 0x1000 lsLine) = (trace, .ok r m') ∧
      Argv m' 0x400000 [['l', 's'].map ch, ['-', 'l'].map ch] := by
  have hline : StringAt (lineMem 0x1000 lsLine) 0x1000 lsLine := by decide
  have hacc : Accepted lsLine := by
    constructor
    · have hall : (lsLine.all fun c => !symbols.contains c) = true := by decide
      intro c hc
      have := List.all_eq_true.mp hall c hc
      simpa using this
    · decide
  obtain ⟨hret, _, hargv, _⟩ := parsecmd_accepts_grammar hline (by decide)
    (by decide) (by decide : 0 < 0x400000) (Or.inr (by decide))
    (by decide : lsLine.length < 257)
  obtain ⟨trace, r, m', hrun⟩ := hret.mpr hacc
  exact ⟨trace, r, m', hrun, (hargv trace r m' hrun).2⟩

end Pke.Sh
