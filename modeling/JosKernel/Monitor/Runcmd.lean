import JosKernel.Lib.Traced
import JosKernel.Machine.Strings
import JosKernel.Monitor.Commands

/-!
# Splitting a command line

`runcmd` of `kern/monitor.c` with its pointer into the line. Memory is given by the distance from
the first byte of the line, and `argv` holds such distances. `splitGap` and `splitWord` say what
becomes of the line; here they are shown to do so, and the arguments are shown to be its words.
-/
namespace JosKernel

open Lib

/-- An access to memory, or to an entry of `argv`. Repeated reads of one byte count once. -/
inductive CmdEvent where
  | read (i : ℤ)
  | write (i : ℤ)
  | argv (i : ℕ)

def readByte (m : ℤ → Byte) (p : ℤ) : Traced CmdEvent Byte := ⟨[.read p], some (m p)⟩

/-- `strchr`, on a string constant. -/
def strchr : List Byte → Byte → Option (List Byte)
  | [], _ => none
  | d :: s, c => if d = c then some (d :: s) else strchr s c

/-- `strcmp`; the second string is a constant. -/
def strcmp (m : ℤ → Byte) : ℤ → List Byte → Traced CmdEvent Int
  | p, [] => do
    let c ← readByte m p
    pure c.toNat
  | p, d :: q => do
    let c ← readByte m p
    if c ≠ 0 ∧ c = d then strcmp m (p + 1) q else pure (c.toNat - d.toNat)

def whitespace : List Byte := str "\t\r\n "

/-- `while (*buf && strchr(WHITESPACE, *buf)) *buf++ = 0;` -/
def gobble : Nat → (ℤ → Byte) → ℤ → Traced CmdEvent ((ℤ → Byte) × ℤ)
  | 0, _, _ => .stuck
  | fuel + 1, m, buf => do
    let c ← readByte m buf
    if c ≠ 0 ∧ (strchr whitespace c).isSome then do
      Traced.emit (.write buf)
      gobble fuel (Function.update m buf 0) (buf + 1)
    else pure (m, buf)

/-- `while (*buf && !strchr(WHITESPACE, *buf)) buf++;` -/
def scanPast (m : ℤ → Byte) : Nat → ℤ → Traced CmdEvent ℤ
  | 0, _ => .stuck
  | fuel + 1, buf => do
    let c ← readByte m buf
    if c ≠ 0 ∧ ¬(strchr whitespace c).isSome then scanPast m fuel (buf + 1) else pure buf

/-- Memory and arguments when a line has been split. -/
structure CmdLine where
  mem : ℤ → Byte
  argc : Nat
  argv : Nat → Option ℤ

/-- The loop over the arguments, which ends without a result when there are too many of them. -/
def saveArgs : Nat → (ℤ → Byte) → (Nat → Option ℤ) → Nat → ℤ → Traced CmdEvent (Option CmdLine)
  | 0, _, _, _, _ => .stuck
  | fuel + 1, m, argv, argc, buf => do
    let (m, buf) ← gobble fuel m buf
    let c ← readByte m buf
    if c = 0 then do
      Traced.emit (.argv argc)
      pure (some ⟨m, argc, Function.update argv argc none⟩)
    else if argc = maxargs - 1 then pure none
    else do
      Traced.emit (.argv argc)
      let argv := Function.update argv argc (some buf)
      let buf ← scanPast m fuel buf
      saveArgs fuel m argv (argc + 1) buf

/-- The names in `commands`. -/
def commands : List (List Byte) :=
  [str "help", str "kerninfo", str "backtrace", str "showmappings", str "setperm"]

/-- The loop over `commands`. -/
def lookupCommand (m : ℤ → Byte) (argv : Nat → Option ℤ) :
    List (List Byte) → Traced CmdEvent (Option (List Byte))
  | [] => pure none
  | name :: names => do
    Traced.emit (.argv 0)
    match argv 0 with
    | none => .stuck
    | some p => do
      let r ← strcmp m p name
      if r = 0 then pure (some name) else lookupCommand m argv names

/-- `runcmd`: the arguments, unless there are too many, and the command that is run. `argv` is not
initialised. -/
def runcmd (fuel : Nat) (m : ℤ → Byte) (argv : Nat → Option ℤ) :
    Traced CmdEvent (Option (CmdLine × Option (List Byte))) := do
  Traced.emit (.argv 0)
  match ← saveArgs fuel m (Function.update argv 0 none) 0 0 with
  | none => pure none
  | some line =>
    if line.argc = 0 then pure (some (line, none))
    else do
      let cmd ← lookupCommand line.mem line.argv commands
      pure (some (line, cmd))

/-! ## The words of a line -/

/-- Maximal runs of characters that are not blank. -/
def words (line : List Byte) : List (List Byte) := (line.splitOnP isBlank).filter (· ≠ [])

/-- The bytes of an argument begin with the word, and a zero byte follows. -/
def StartsWith (word arg : List Byte) : Prop := 0 ∉ word ∧ ∃ t, arg = word ++ 0 :: t

theorem StartsWith.nil (t : List Byte) : StartsWith [] (0 :: t) := ⟨List.not_mem_nil, t, rfl⟩

theorem StartsWith.cons {word arg : List Byte} {c : Byte} (h : StartsWith word arg) (hc : c ≠ 0) :
    StartsWith (c :: word) (c :: arg) := by
  obtain ⟨hword, t, rfl⟩ := h
  refine ⟨?_, t, rfl⟩
  rw [List.mem_cons, not_or]
  exact ⟨hc.symm, hword⟩

/-- What becomes of the rest of a line: nothing when there are too many words. -/
def SplitsInto (argc : Nat) (P : List Byte → Prop) (ws : List (List Byte))
    (r : Option (List Byte × List (List Byte))) : Prop :=
  if argc + ws.length < maxargs then
    ∃ b args, r = some (b, args) ∧ P b ∧ List.Forall₂ StartsWith ws args
  else r = none

section
variable {argc : Nat} {P P' : List Byte → Prop} {w : List Byte} {ws : List (List Byte)}
  {r : Option (List Byte × List (List Byte))} {c : Byte} {line : List Byte}

theorem SplitsInto.map (h : SplitsInto argc P ws r) (hP : ∀ b, P b → P' (c :: b)) :
    SplitsInto argc P' ws (r.map fun (b, args) => (c :: b, args)) := by
  unfold SplitsInto at h ⊢
  split_ifs at h ⊢
  · obtain ⟨b, args, rfl, hb, hargs⟩ := h
    exact ⟨c :: b, args, rfl, hP b hb, hargs⟩
  · rw [h]
    rfl

/-- A word starts. -/
theorem SplitsInto.save (h : SplitsInto (argc + 1) (StartsWith w) ws r) (hc : c ≠ 0) :
    SplitsInto argc (fun _ => True) ((c :: w) :: ws)
      (r.map fun (b, args) => (c :: b, (c :: b) :: args)) := by
  have hcount : argc + ((c :: w) :: ws).length = argc + 1 + ws.length := by
    rw [List.length_cons]
    omega
  unfold SplitsInto at h ⊢
  rw [hcount]
  split_ifs at h ⊢
  · obtain ⟨b, args, rfl, hb, hargs⟩ := h
    exact ⟨_, _, rfl, trivial, .cons (hb.cons hc) hargs⟩
  · rw [h]
    rfl

/-- The arguments are the words of the line, and within a word its rest comes first. -/
theorem splitsInto_words (hline : 0 ∉ line) (hargc : argc < maxargs) :
    SplitsInto argc (fun _ => True) (words line) (splitGap argc (line ++ [0])) ∧
      ∀ w ps, line.splitOnP isBlank = w :: ps →
        SplitsInto argc (StartsWith w) (ps.filter (· ≠ [])) (splitWord argc (line ++ [0])) := by
  induction line generalizing argc with
  | nil =>
    have hzero : SplitsInto argc (StartsWith []) [] (some ([0], [])) := by
      unfold SplitsInto
      rw [List.length_nil, add_zero, if_pos hargc]
      exact ⟨_, _, rfl, .nil [], .nil⟩
    refine ⟨?_, ?_⟩
    · simp [splitGap, words, SplitsInto, hargc]
    · intro w ps hsplit
      rw [List.splitOnP_nil] at hsplit
      cases hsplit
      exact hzero
  | cons c line ih =>
    obtain ⟨hc, hline⟩ := not_or.mp (mt List.mem_cons.mpr hline)
    have hc : c ≠ 0 := Ne.symm hc
    obtain ⟨w, ps, hsplit⟩ : ∃ w ps, line.splitOnP isBlank = w :: ps :=
      List.exists_cons_of_ne_nil (List.splitOnP_ne_nil _ _)
    have hword : words line = (w :: ps).filter (· ≠ []) := by rw [words, hsplit]
    unfold words
    rw [List.cons_append, splitGap, splitWord, if_neg hc, if_neg hc,
      List.splitOnP_cons_eq_if_modifyHead, hsplit]
    split_ifs with hb hmax
    · -- a blank
      have hgap := (ih hline hargc).1
      rw [hword] at hgap
      refine ⟨hgap.map fun _ _ => trivial, fun w' ps' h => ?_⟩
      cases h
      exact hgap.map fun b _ => .nil b
    · -- a word too many
      refine ⟨?_, fun w' ps' h => ?_⟩
      · unfold SplitsInto
        rw [if_neg]
        simp [maxargs] at hmax ⊢
        omega
      · cases h
        exact ((ih hline hargc).2 w ps hsplit).map fun b h => h.cons hc
    · -- a word, or the next character of one
      have hlt : argc + 1 < maxargs := by
        unfold maxargs at hargc hmax ⊢
        omega
      refine ⟨?_, fun w' ps' h => ?_⟩
      · have hfilter : ((c :: w) :: ps).filter (· ≠ []) = (c :: w) :: ps.filter (· ≠ []) :=
          List.filter_cons_of_pos (by simp)
        rw [List.modifyHead_cons, hfilter]
        exact ((ih hline hlt).2 w ps hsplit).save hc
      · cases h
        exact ((ih hline hargc).2 w ps hsplit).map fun b h => h.cons hc

end

/-! ## What the loop does -/

/-- In the line, with its terminating byte, or in `argv`. -/
def CmdEvent.InBounds (n : Nat) : CmdEvent → Prop
  | .read i => 0 ≤ i ∧ i ≤ n
  | .write i => 0 ≤ i ∧ i ≤ n
  | .argv i => i < maxargs

/-- Of a line from `k` on, with `argc` arguments saved, `b` is left in memory, and `argv` points to
the arguments `args`. -/
structure CmdLine.Holds (p : CmdLine) (m : ℤ → Byte) (k : ℤ) (argc : Nat) (argv : Nat → Option ℤ)
    (b : List Byte) (args : List (List Byte)) : Prop where
  argc_eq : p.argc = argc + args.length
  before : ∀ j < k, p.mem j = m j
  bytes : Bytes p.mem k b
  saved : ∀ i < argc, p.argv i = argv i
  null : p.argv p.argc = none
  arg : ∀ i a, args[i]? = some a → ∃ q, p.argv (argc + i) = some q ∧ k ≤ q ∧
    q + a.length = k + b.length ∧ Bytes p.mem q a

/-- The loop does to memory and `argv` what becomes of the line. -/
inductive Saves (m : ℤ → Byte) (k : ℤ) (argc : Nat) (argv : Nat → Option ℤ) :
    Option (List Byte × List (List Byte)) → Option CmdLine → Prop
  | tooMany : Saves m k argc argv none none
  | split {p : CmdLine} {b : List Byte} {args : List (List Byte)} :
    p.Holds m k argc argv b args → Saves m k argc argv (some (b, args)) (some p)

section
variable {m m' : ℤ → Byte} {k : ℤ} {argc n fuel : Nat} {argv : Nat → Option ℤ} {c : Byte}
  {r : Option (List Byte × List (List Byte))} {x : Option CmdLine} {line : List Byte}

/-- One byte has been passed. -/
theorem Saves.cons (h : Saves m' (k + 1) argc argv r x) (hbefore : ∀ j < k, m' j = m j)
    (hc : m' k = c) : Saves m k argc argv (r.map fun (b, args) => (c :: b, args)) x := by
  cases h with
  | tooMany => exact .tooMany
  | split h =>
    refine .split ⟨h.argc_eq, fun j hj => ?_, ⟨?_, h.bytes⟩, h.saved, h.null, fun i a ha => ?_⟩
    · rw [h.before j (by omega), hbefore j hj]
    · rw [h.before k (by omega), hc]
    · obtain ⟨q, hq, hk, hlen, hbytes⟩ := h.arg i a ha
      exact ⟨q, hq, by omega, by rw [length_behind, hlen], hbytes⟩

/-- An argument has been saved. -/
theorem Saves.save (h : Saves m k (argc + 1) (Function.update argv argc (some k)) r x) :
    Saves m k argc argv (r.map fun (b, args) => (b, b :: args)) x := by
  cases h with
  | tooMany => exact .tooMany
  | @split p b args h =>
    refine .split ⟨?_, h.before, h.bytes, fun i hi => ?_, h.null, fun i a ha => ?_⟩
    · rw [h.argc_eq, List.length_cons]
      omega
    · rw [h.saved i (by omega), Function.update_of_ne (by omega)]
    · cases i with
      | zero =>
        obtain rfl : b = a := by simpa using ha
        refine ⟨k, ?_, le_rfl, rfl, h.bytes⟩
        rw [add_zero, h.saved argc (Nat.lt_succ_self _), Function.update_self]
      | succ i =>
        rw [← add_assoc, add_right_comm]
        exact h.arg i a (by simpa using ha)

theorem isSome_strchr (c : Byte) : (strchr whitespace c).isSome = isBlank c := by
  have hw : whitespace = [9, 13, 10, 32] := by decide
  rw [hw, isBlank]
  simp only [strchr]
  grind

/-- The loop has got to the end of a gap. -/
structure GapEnd (n : Nat) (m : ℤ → Byte) (k : ℤ) (line : List Byte) (m' : ℤ → Byte) (k' : ℤ)
    (line' : List Byte) : Prop where
  holds : HoldsAt m' k' line'
  nonneg : 0 ≤ k'
  length_eq : k' + line'.length = n
  le : line'.length ≤ line.length
  head : ∀ c l, line' = c :: l → isBlank c = false
  saves : ∀ argc argv x, Saves m' k' argc argv (splitGap argc (line' ++ [0])) x →
    Saves m k argc argv (splitGap argc (line ++ [0])) x

theorem readByte_meets {p : ℤ} (h : 0 ≤ p) (hp : p ≤ n) :
    (readByte m p).Meets (CmdEvent.InBounds n) (· = m p) := by
  refine ⟨fun e he => ?_, _, rfl, rfl⟩
  obtain rfl := List.mem_singleton.mp he
  exact ⟨h, hp⟩

theorem emit_meets {e : CmdEvent} (h : e.InBounds n) :
    (Traced.emit e).Meets (CmdEvent.InBounds n) fun _ => True :=
  ⟨fun _ he => List.mem_singleton.mp he ▸ h, _, rfl, trivial⟩

theorem gobble_gapEnd (h : HoldsAt m k line) (hk : 0 ≤ k) (hlen : k + line.length = n)
    (hf : line.length < fuel) : ∃ m' k' line', GapEnd n m k line m' k' line' ∧
      (gobble fuel m k).Meets (CmdEvent.InBounds n) (· = (m', k')) := by
  induction line generalizing m k fuel with
  | nil =>
    obtain ⟨fuel, rfl⟩ : ∃ f, fuel = f + 1 := ⟨fuel - 1, by omega⟩
    refine ⟨m, k, [], ⟨h, hk, hlen, le_rfl, nofun, fun _ _ _ => id⟩, ?_⟩
    apply (readByte_meets hk (by omega)).bind
    rintro _ rfl
    have hzero : m k = 0 := h
    rw [if_neg fun hc => hc.1 hzero]
    exact .pure rfl
  | cons c line ih =>
    obtain ⟨fuel, rfl⟩ : ∃ f, fuel = f + 1 := ⟨fuel - 1, by omega⟩
    obtain ⟨hc, hne, htail⟩ := h
    cases hb : isBlank c with
    | true =>
      rw [length_behind] at hlen
      rw [List.length_cons] at hf
      have hheld : HoldsAt (Function.update m k 0) (k + 1) line :=
        htail.congr fun j hj => Function.update_of_ne (by omega) _ _
      obtain ⟨m', k', line', hend, hmeets⟩ := ih hheld (by omega) hlen (Nat.lt_of_succ_lt_succ hf)
      refine ⟨m', k', line', ⟨hend.holds, hend.nonneg, hend.length_eq,
        hend.le.trans (Nat.le_succ _), hend.head, fun argc argv x hx => ?_⟩, ?_⟩
      · rw [List.cons_append, splitGap, if_neg hne, if_pos hb]
        apply (hend.saves argc argv x hx).cons
        · exact fun j hj => Function.update_of_ne hj.ne _ _
        · exact Function.update_self ..
      · apply (readByte_meets hk (by omega)).bind
        rintro _ rfl
        rw [if_pos ⟨hc.trans_ne hne, by rw [hc, isSome_strchr, hb]⟩]
        have hwrite : (CmdEvent.write k).InBounds n := ⟨hk, by omega⟩
        apply (emit_meets hwrite).bind
        intro _ _
        exact hmeets
    | false =>
      refine ⟨m, k, c :: line, ⟨⟨hc, hne, htail⟩, hk, hlen, le_rfl, ?_, fun _ _ _ => id⟩, ?_⟩
      · rintro _ _ ⟨⟩
        exact hb
      · apply (readByte_meets hk (by omega)).bind
        rintro _ rfl
        rw [if_neg (by rw [hc, isSome_strchr, hb]; simp)]
        exact .pure rfl

/-- The loop has got to the end of a word. -/
structure WordEnd (n : Nat) (m : ℤ → Byte) (k : ℤ) (line : List Byte) (k' : ℤ)
    (line' : List Byte) : Prop where
  holds : HoldsAt m k' line'
  nonneg : 0 ≤ k'
  length_eq : k' + line'.length = n
  le : line'.length ≤ line.length
  lt : ∀ c l, line = c :: l → isBlank c = false → line'.length < line.length
  saves : ∀ argc argv x, Saves m k' argc argv (splitGap argc (line' ++ [0])) x →
    Saves m k argc argv (splitWord argc (line ++ [0])) x

theorem scanPast_wordEnd (h : HoldsAt m k line) (hk : 0 ≤ k) (hlen : k + line.length = n)
    (hf : line.length < fuel) : ∃ k' line', WordEnd n m k line k' line' ∧
      (scanPast m fuel k).Meets (CmdEvent.InBounds n) (· = k') := by
  induction line generalizing k fuel with
  | nil =>
    obtain ⟨fuel, rfl⟩ : ∃ f, fuel = f + 1 := ⟨fuel - 1, by omega⟩
    refine ⟨k, [], ⟨h, hk, hlen, le_rfl, nofun, fun _ _ _ => id⟩, ?_⟩
    apply (readByte_meets hk (by omega)).bind
    rintro _ rfl
    have hzero : m k = 0 := h
    rw [if_neg fun hc => hc.1 hzero]
    exact .pure rfl
  | cons c line ih =>
    obtain ⟨fuel, rfl⟩ : ∃ f, fuel = f + 1 := ⟨fuel - 1, by omega⟩
    obtain ⟨hc, hne, htail⟩ := h
    cases hb : isBlank c with
    | true =>
      refine ⟨k, c :: line, ⟨⟨hc, hne, htail⟩, hk, hlen, le_rfl, ?_, fun argc argv x hx => ?_⟩, ?_⟩
      · rintro _ _ ⟨⟩ hnot
        exact absurd (hb.symm.trans hnot) (by decide)
      · rw [List.cons_append, splitGap, if_neg hne, if_pos hb] at hx
        rw [List.cons_append, splitWord, if_neg hne, if_pos hb]
        exact hx
      · apply (readByte_meets hk (by omega)).bind
        rintro _ rfl
        rw [if_neg (by rw [hc, isSome_strchr, hb]; simp)]
        exact .pure rfl
    | false =>
      rw [length_behind] at hlen
      rw [List.length_cons] at hf
      obtain ⟨k', line', hend, hmeets⟩ := ih htail (by omega) hlen (Nat.lt_of_succ_lt_succ hf)
      refine ⟨k', line', ⟨hend.holds, hend.nonneg, hend.length_eq, hend.le.trans (Nat.le_succ _),
        fun _ _ _ _ => Nat.lt_succ_of_le hend.le, fun argc argv x hx => ?_⟩, ?_⟩
      · rw [List.cons_append, splitWord, if_neg hne, if_neg (by rw [hb]; decide)]
        exact (hend.saves argc argv x hx).cons (fun _ _ => rfl) hc
      · apply (readByte_meets hk (by omega)).bind
        rintro _ rfl
        rw [if_pos ⟨hc.trans_ne hne, by rw [hc, isSome_strchr, hb]; decide⟩]
        exact hmeets

/-- At the start of a word, the rest of it and of the line is an argument. -/
theorem splitGap_word (hne : c ≠ 0) (hb : isBlank c = false) (hmax : argc ≠ maxargs - 1) :
    splitGap argc (c :: line) =
      (splitWord (argc + 1) (c :: line)).map fun (b, args) => (b, b :: args) := by
  have hb : ¬isBlank c = true := by simp [hb]
  rw [splitGap, splitWord, if_neg hne, if_neg hne, if_neg hb, if_neg hb, if_neg hmax,
    Option.map_map]
  rfl

/-- The loop carries out what becomes of the line. -/
theorem saveArgs_saves (h : HoldsAt m k line) (hk : 0 ≤ k) (hlen : k + line.length = n)
    (hf : line.length + 1 < fuel) (hargc : argc < maxargs) :
    (saveArgs fuel m argv argc k).Meets (CmdEvent.InBounds n)
      (Saves m k argc argv (splitGap argc (line ++ [0]))) := by
  induction fuel generalizing m k argc argv line with
  | zero => omega
  | succ fuel ih =>
    have hargv : (CmdEvent.argv argc).InBounds n := hargc
    obtain ⟨m₁, k₁, line₁, hgap, hgobble⟩ := gobble_gapEnd h hk hlen (by omega : line.length < fuel)
    have hk₁ := hgap.nonneg
    have hlen₁ := hgap.length_eq
    have hle := hgap.le
    apply hgobble.bind
    rintro _ rfl
    refine Traced.Meets.mono ?_ (fun _ he => he) fun x hx => hgap.saves argc argv x hx
    apply (readByte_meets hk₁ (by omega)).bind
    rintro _ rfl
    cases line₁ with
    | nil =>
      have hzero : m₁ k₁ = 0 := hgap.holds
      rw [if_pos hzero]
      apply (emit_meets hargv).bind
      intro _ _
      have hend : splitGap argc [0] = some ([0], []) := by rw [splitGap, if_pos rfl]
      rw [List.nil_append, hend]
      refine .pure (.split ⟨rfl, fun _ _ => rfl, ⟨hzero, trivial⟩, fun i hi => ?_, ?_, ?_⟩)
      · exact Function.update_of_ne hi.ne _ _
      · exact Function.update_self ..
      · intro i w hw
        cases hw
    | cons c line₁ =>
      obtain ⟨hc, hne, -⟩ := hgap.holds
      have hb := hgap.head c line₁ rfl
      rw [if_neg (hc.trans_ne hne), List.cons_append]
      by_cases hmax : argc = maxargs - 1
      · have hnone : splitGap argc (c :: (line₁ ++ [0])) = none := by
          rw [splitGap, if_neg hne, if_neg (by simp [hb]), if_pos hmax]
        rw [if_pos hmax, hnone]
        exact .pure .tooMany
      · rw [if_neg hmax, splitGap_word hne hb hmax]
        apply (emit_meets hargv).bind
        intro _ _
        obtain ⟨k₂, line₂, hword, hscan⟩ := scanPast_wordEnd hgap.holds hk₁ hlen₁
          (by omega : (c :: line₁).length < fuel)
        apply hscan.bind
        intro _ hk₂
        rw [hk₂]
        have hlt := hword.lt c line₁ rfl hb
        have hargc' : argc + 1 < maxargs := by
          unfold maxargs at hargc hmax ⊢
          omega
        have hnext : (saveArgs fuel m₁ (Function.update argv argc (some k₁)) (argc + 1) k₂).Meets
            (CmdEvent.InBounds n) (Saves m₁ k₂ (argc + 1) (Function.update argv argc (some k₁))
              (splitGap (argc + 1) (line₂ ++ [0]))) :=
          ih hword.holds hword.nonneg hword.length_eq (by omega) hargc'
        exact hnext.mono (fun _ he => he) fun x hx => (hword.saves _ _ x hx).save

/-! ## The command -/

theorem sub_toNat_eq_zero (c d : Byte) : (c.toNat : ℤ) - d.toNat = 0 ↔ c = d := by
  rw [sub_eq_zero, Nat.cast_inj, BitVec.toNat_inj]

/-- `strcmp` returns 0 for equal strings only. -/
theorem strcmp_meets {p : ℤ} {w q : List Byte} (h : HoldsAt m p w) (hp : 0 ≤ p)
    (hlen : p + w.length ≤ n) (hq : 0 ∉ q) :
    (strcmp m p q).Meets (CmdEvent.InBounds n) (fun r => r = 0 ↔ w = q) := by
  induction q generalizing p w with
  | nil =>
    apply (readByte_meets hp (by omega)).bind
    rintro _ rfl
    apply Traced.Meets.pure
    cases w with
    | nil =>
      have hzero : m p = 0 := h
      simp [hzero]
    | cons c w =>
      obtain ⟨hc, hne, -⟩ := h
      simpa [hc, BitVec.toNat_eq] using hne
  | cons d q ih =>
    obtain ⟨hd, hq⟩ := not_or.mp (mt List.mem_cons.mpr hq)
    apply (readByte_meets hp (by omega)).bind
    rintro _ rfl
    cases w with
    | nil =>
      have hzero : m p = 0 := h
      rw [if_neg fun hc => hc.1 hzero]
      apply Traced.Meets.pure
      rw [sub_toNat_eq_zero, hzero]
      exact iff_of_false hd nofun
    | cons c w =>
      obtain ⟨hc, hne, htail⟩ := h
      rw [length_behind] at hlen
      by_cases heq : c = d
      · rw [if_pos ⟨hc.trans_ne hne, hc.trans heq⟩]
        refine (ih htail (by omega) hlen hq).mono (fun _ he => he) fun r hr => ?_
        rw [hr, heq, List.cons_inj_right]
      · rw [if_neg fun hboth => heq (hc.symm.trans hboth.2)]
        apply Traced.Meets.pure
        rw [sub_toNat_eq_zero, hc]
        simp [heq]

/-- The first of the names that is equal to the word is found. -/
theorem lookupCommand_meets {p : ℤ} {w : List Byte} {names : List (List Byte)}
    (hargv : argv 0 = some p) (h : HoldsAt m p w) (hp : 0 ≤ p) (hlen : p + w.length ≤ n)
    (hnames : ∀ name ∈ names, 0 ∉ name) :
    (lookupCommand m argv names).Meets (CmdEvent.InBounds n) (· = names.find? (· = w)) := by
  induction names with
  | nil => exact .pure rfl
  | cons name names ih =>
    have hread : (CmdEvent.argv 0).InBounds n := (by decide : 0 < maxargs)
    rw [lookupCommand]
    apply (emit_meets hread).bind
    intro _ _
    rw [hargv]
    apply (strcmp_meets h hp hlen (hnames name List.mem_cons_self)).bind
    intro r hr
    by_cases heq : name = w
    · rw [if_pos (hr.mpr heq.symm), List.find?_cons_of_pos (by simpa using heq)]
      exact .pure rfl
    · rw [if_neg fun hzero => heq (hr.mp hzero).symm, List.find?_cons_of_neg (by simpa using heq)]
      exact ih fun name hmem => hnames name (List.mem_cons_of_mem _ hmem)

/-- `argv` points to the words of the line, followed by a null pointer, and the command with the
name of the first word is run. Nothing is run when there are too many words. -/
def RunsWords (line : List Byte) (r : Option (CmdLine × Option (List Byte))) : Prop :=
  if (words line).length < maxargs then
    ∃ p, r = some (p, (words line).head?.bind fun w => commands.find? (· = w)) ∧
      p.argc = (words line).length ∧ p.argv p.argc = none ∧
      ∀ i w, (words line)[i]? = some w → ∃ q, p.argv i = some q ∧ HoldsAt p.mem q w
  else r = none

theorem splitGap_length (buf : List Byte) : ∀ argc b args,
    (splitGap argc buf = some (b, args) → b.length = buf.length) ∧
      (splitWord argc buf = some (b, args) → b.length = buf.length) := by
  induction buf with
  | nil => exact fun _ _ _ => ⟨nofun, nofun⟩
  | cons c buf ih =>
    intro argc b args
    constructor
    · intro h
      rw [splitGap] at h
      split_ifs at h
      · cases h
        rfl
      all_goals
        obtain ⟨⟨b', args'⟩, hb, heq⟩ := Option.map_eq_some_iff.mp h
        cases heq
      · exact congrArg (· + 1) ((ih _ _ _).1 hb)
      · exact congrArg (· + 1) ((ih _ _ _).2 hb)
    · intro h
      rw [splitWord] at h
      split_ifs at h
      · cases h
        rfl
      all_goals
        obtain ⟨⟨b', args'⟩, hb, heq⟩ := Option.map_eq_some_iff.mp h
        cases heq
      · exact congrArg (· + 1) ((ih _ _ _).1 hb)
      · exact congrArg (· + 1) ((ih _ _ _).2 hb)

/-- Every word is where `argv` says. -/
theorem CmdLine.Holds.word {p : CmdLine} {b : List Byte} {ws args : List (List Byte)}
    (h : p.Holds m 0 0 argv b args) (hargs : List.Forall₂ StartsWith ws args)
    (hb : b.length = n + 1) {i : Nat} {w : List Byte} (hw : ws[i]? = some w) :
    ∃ q, p.argv i = some q ∧ 0 ≤ q ∧ q + w.length ≤ n ∧ HoldsAt p.mem q w := by
  obtain ⟨hlen, hstarts⟩ := List.forall₂_iff_get.mp hargs
  obtain ⟨hi, rfl⟩ := List.getElem?_eq_some_iff.mp hw
  have hi' : i < args.length := hlen ▸ hi
  obtain ⟨hzero, t, ht⟩ := hstarts i hi hi'
  obtain ⟨q, hq, h0, hend, hbytes⟩ := h.arg i args[i] (List.getElem?_eq_getElem hi')
  have ht : args[i] = ws[i] ++ 0 :: t := ht
  rw [ht] at hend hbytes
  rw [zero_add] at hq
  refine ⟨q, hq, h0, ?_, hbytes.holdsAt hzero⟩
  rw [List.length_append, List.length_cons] at hend
  omega

/-- What `runcmd` makes of a line that has been split. -/
theorem CmdLine.Holds.runsWords {p : CmdLine} {b : List Byte} {args : List (List Byte)}
    (h : p.Holds m 0 0 argv b args) (hargs : List.Forall₂ StartsWith (words line) args)
    (hb : b.length = line.length + 1) (hcount : (words line).length < maxargs) :
    RunsWords line (some (p, (words line).head?.bind fun w => commands.find? (· = w))) := by
  unfold RunsWords
  rw [if_pos hcount]
  refine ⟨p, rfl, ?_, h.null, fun i w hw => ?_⟩
  · rw [h.argc_eq, zero_add, hargs.length_eq]
  · obtain ⟨q, hq, -, -, hheld⟩ := h.word hargs hb hw
    exact ⟨q, hq, hheld⟩

/-- `runcmd` keeps to the line and to `argv`. It splits the line as `splitGap` does, and runs the
command that the first word names. -/
theorem runcmd_saves (h : HoldsAt m 0 line) (hf : line.length + 1 < fuel) (argv : Nat → Option ℤ) :
    (runcmd fuel m argv).Meets (CmdEvent.InBounds line.length) fun r => RunsWords line r ∧
      Saves m 0 0 (Function.update argv 0 none) (splitGap 0 (line ++ [0])) (r.map Prod.fst) := by
  have hfirst : (CmdEvent.argv 0).InBounds line.length := (by decide : 0 < maxargs)
  have hwords := (splitsInto_words h.zero_not_mem (by decide : 0 < maxargs)).1
  apply (emit_meets hfirst).bind
  intro _ _
  apply (saveArgs_saves h le_rfl (zero_add _) hf (by decide)).bind
  intro x hx
  unfold SplitsInto at hwords
  rw [zero_add] at hwords
  split_ifs at hwords with hcount
  · obtain ⟨b, args, hr, -, hargs⟩ := hwords
    have hb : b.length = line.length + 1 := by
      rw [(splitGap_length _ 0 b args).1 hr, List.length_append, List.length_singleton]
    rw [hr] at hx ⊢
    cases hx with
    | @split p _ _ hp =>
      have hargc : p.argc = (words line).length := by
        rw [hp.argc_eq, zero_add, hargs.length_eq]
      have hruns := hp.runsWords hargs hb hcount
      dsimp only
      split_ifs with hzero
      · have hnil : words line = [] := List.length_eq_zero_iff.mp (hargc.symm.trans hzero)
        rw [hnil] at hruns
        exact .pure ⟨hruns, .split hp⟩
      · obtain ⟨w, ws, hws⟩ : ∃ w ws, words line = w :: ws := by
          apply List.exists_cons_of_ne_nil
          intro hnil
          rw [hargc, hnil] at hzero
          exact hzero rfl
        have hw : (words line)[0]? = some w := by
          rw [hws]
          rfl
        obtain ⟨q, hq, h0, hend, hheld⟩ := hp.word hargs hb hw
        rw [hws] at hruns
        apply (lookupCommand_meets hq hheld h0 hend (by decide)).bind
        rintro _ rfl
        exact .pure ⟨hruns, .split hp⟩
  · rw [hwords] at hx ⊢
    cases hx
    refine .pure ⟨?_, .tooMany⟩
    unfold RunsWords
    rw [if_neg hcount]

/-- `runcmd` splits a line into its words and runs the command that the first one names. -/
theorem runcmd_runsWords (h : HoldsAt m 0 line) (hf : line.length + 1 < fuel)
    (argv : Nat → Option ℤ) :
    (runcmd fuel m argv).Meets (CmdEvent.InBounds line.length) (RunsWords line) :=
  (runcmd_saves h hf argv).mono (fun _ he => he) fun _ hr => hr.1

theorem runcmd_runsWords_help : (runcmd 20 (fun i => (str " help\tme\n").getD i.toNat 0)
    fun _ => some 99).Meets (CmdEvent.InBounds 9) (RunsWords (str " help\tme\n")) := by
  have hheld : HoldsAt (fun i => (str " help\tme\n").getD i.toNat 0) 0 (str " help\tme\n") := by
    decide
  exact runcmd_runsWords hheld (by decide) _

/-- The arguments that are passed to a command are those of `Passed`. -/
theorem runcmd_passed (h : HoldsAt m 0 line) (hf : line.length + 1 < fuel) {p : CmdLine}
    {cmd : Option (List Byte)} (hres : (runcmd fuel m argv).result = some (some (p, cmd)))
    (hpos : 0 < p.argc) : ∃ args : Argv, Passed p.argc args ∧
      ∀ i < p.argc, ∃ q, p.argv i = some q ∧ Bytes p.mem q (args i) := by
  obtain ⟨-, r, hr, -, hsaves⟩ := runcmd_saves h hf argv
  obtain rfl : some (p, cmd) = r := Option.some.inj (hres.symm.trans hr)
  rcases hsplit : splitGap 0 (line ++ [0]) with _ | ⟨b, args⟩
  · rw [hsplit] at hsaves
    cases hsaves
  · rw [hsplit] at hsaves
    cases hsaves with
    | split hp =>
      have hargc : p.argc = args.length := by rw [hp.argc_eq, zero_add]
      refine ⟨fun i => args.getD i [], ⟨_, b, args, hsplit, hpos, hargc, fun i hi => ?_⟩,
        fun i hi => ?_⟩
      · exact List.getD_eq_getElem _ _ hi
      · have hi' : i < args.length := hargc ▸ hi
        obtain ⟨q, hq, -, -, hbytes⟩ := hp.arg i args[i] (List.getElem?_eq_getElem hi')
        rw [zero_add] at hq
        refine ⟨q, hq, ?_⟩
        dsimp only
        rwa [List.getD_eq_getElem _ _ hi']

end

end JosKernel
