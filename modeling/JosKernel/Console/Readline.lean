import JosKernel.Machine.Mmu

/-!
# Reading a line

`readline` of `lib/readline.c`. The results of `getchar` come as a list; a negative one is an error.
The buffer is static, so it starts with what the last line has left there.

`edit` is what a key is to do to the line, `press` is what it does. They differ for a delete key on
an empty line, which is stored like any other character.
-/
namespace JosKernel

def buflen : Nat := 1024

/-- What is printed on the console. -/
inductive Echo where
  | prompt (s : List Byte)
  | cputchar (c : Int)
  | readError (c : Int)

/-- How far `readline` gets. -/
inductive Readline where
  /-- It returns the buffer, with these contents. -/
  | line (buf : Fin 1024 → Byte) (out : List Echo)
  | null (out : List Echo)
  | waiting
  | outOfBounds

/-- `buf[i] = c`. -/
def storeChar (buf : Fin 1024 → Byte) (i : Nat) (c : Int) : Option (Fin 1024 → Byte) :=
  if h : i < 1024 then some (Function.update buf ⟨i, h⟩ (BitVec.ofInt 8 c)) else none

def echo (echoing : Bool) (c : Int) : List Echo := if echoing then [.cputchar c] else []

/-- The loop, with `i` characters in the buffer. -/
def readlineLoop (echoing : Bool) : List Int → (Fin 1024 → Byte) → Nat → List Echo → Readline
  | [], _, _, _ => .waiting
  | c :: cs, buf, i, out =>
    if c < 0 then .null (out ++ [.readError c])
    else if (c = 8 ∨ c = 127) ∧ i > 0 then
      readlineLoop echoing cs buf (i - 1) (out ++ echo echoing 8)
    else if c ≥ 32 ∧ i < buflen - 1 then
      match storeChar buf i c with
      | some buf => readlineLoop echoing cs buf (i + 1) (out ++ echo echoing c)
      | none => .outOfBounds
    else if c = 10 ∨ c = 13 then
      match storeChar buf i 0 with
      | some buf => .line buf (out ++ echo echoing 10)
      | none => .outOfBounds
    else readlineLoop echoing cs buf i out

/-- `readline`; `echoing` is `iscons(0)`. -/
def readline (prompt : Option (List Byte)) (echoing : Bool) (cs : List Int)
    (buf : Fin 1024 → Byte) : Readline :=
  readlineLoop echoing cs buf 0 (prompt.toList.map .prompt)

/-! ## Lines -/

/-- The buffer holds the string `s`. -/
structure HoldsString (buf : Fin 1024 → Byte) (s : List Byte) : Prop where
  char : ∀ i (h : i < s.length), ∃ h' : i < 1024, buf ⟨i, h'⟩ = s[i] ∧ s[i] ≠ 0
  zero : ∃ h : s.length < 1024, buf ⟨s.length, h⟩ = 0

/-- What a key is to do to the line. -/
def edit (l : List Byte) (c : Int) : List Byte :=
  if c = 8 ∨ c = 127 then l.dropLast
  else if c ≥ 32 ∧ l.length < buflen - 1 then l ++ [BitVec.ofInt 8 c]
  else l

/-- What a key does to the line. -/
def press (l : List Byte) (c : Int) : List Byte :=
  if (c = 8 ∨ c = 127) ∧ l ≠ [] then l.dropLast
  else if c ≥ 32 ∧ l.length < buflen - 1 then l ++ [BitVec.ofInt 8 c]
  else l

/-- The codes of characters none of which ends the line. -/
def Typed (cs : List Int) : Prop := ∀ c ∈ cs, 0 ≤ c ∧ c < 256 ∧ c ≠ 10 ∧ c ≠ 13

instance (cs : List Int) : Decidable (Typed cs) := inferInstanceAs (Decidable (∀ c ∈ cs, _))

/-- `readline` returns the line that the keys in `cs` are to make. -/
def EditsLine (prompt : Option (List Byte)) (echoing : Bool) (cs : List Int) (nl : Int)
    (rest : List Int) (buf : Fin 1024 → Byte) : Prop :=
  ∃ buf' out, readline prompt echoing (cs ++ nl :: rest) buf = .line buf' out ∧
    HoldsString buf' (cs.foldl edit [])

/-- The length of a line after a key. A delete key on an empty line counts as a character. -/
def grow (n : Nat) (c : Int) : Nat :=
  if (c = 8 ∨ c = 127) ∧ n > 0 then n - 1
  else if c ≥ 32 ∧ n < buflen - 1 then n + 1
  else n

/-- A delete key comes on an empty line and is not deleted again. -/
def Strays (cs : List Int) : Prop :=
  ∃ u v, cs = u ++ 127 :: v ∧ u.foldl grow 0 = 0 ∧ ∀ w, w <+: v → w.foldl grow 1 ≠ 0

variable {cs rest : List Int} {nl c : Int} {l : List Byte} {buf : Fin 1024 → Byte}
  {out : List Echo} {echoing : Bool} {prompt : Option (List Byte)}

/-! ## The loop -/

/-- The characters of a line are in the buffer. -/
structure Stored (buf : Fin 1024 → Byte) (l : List Byte) : Prop where
  length : l.length < buflen
  char : ∀ i (h : i < l.length) (h' : i < 1024), buf ⟨i, h'⟩ = l[i]
  nonzero : ∀ b ∈ l, b ≠ 0

theorem storeChar_eq (h : l.length < buflen) (c : Int) :
    storeChar buf l.length c =
      some (Function.update buf ⟨l.length, h⟩ (BitVec.ofInt 8 c)) :=
  dif_pos h

namespace Stored

theorem nil : Stored buf [] := ⟨by decide, nofun, nofun⟩

theorem dropLast (h : Stored buf l) : Stored buf l.dropLast where
  length := by
    have := h.length
    rw [List.length_dropLast]
    omega
  char i hi hi' := by
    rw [List.getElem_dropLast]
    exact h.char i _ hi'
  nonzero b hb := h.nonzero b (List.dropLast_subset _ hb)

theorem push {b : Byte} (h : Stored buf l) (hlt : l.length < buflen - 1) (hb : b ≠ 0) :
    Stored (Function.update buf ⟨l.length, h.length⟩ b) (l ++ [b]) where
  length := by
    rw [List.length_append, List.length_singleton]
    omega
  char i hi hi' := by
    rw [List.length_append, List.length_singleton] at hi
    by_cases heq : i = l.length
    · subst heq
      simp
    · have hlt : i < l.length := by omega
      rw [Function.update_of_ne (fun h => heq (Fin.ext_iff.mp h)), List.getElem_append_left hlt]
      exact h.char i hlt hi'
  nonzero b' hb' := by
    rcases List.mem_append.mp hb' with hb' | hb'
    · exact h.nonzero b' hb'
    · exact List.mem_singleton.mp hb' ▸ hb

/-- A zero ends the string. -/
theorem holdsString (h : Stored buf l) :
    HoldsString (Function.update buf ⟨l.length, h.length⟩ 0) l where
  char i hi := by
    have hi' : i < 1024 := hi.trans h.length
    refine ⟨hi', ?_, h.nonzero _ (List.getElem_mem hi)⟩
    rw [Function.update_of_ne (fun h => hi.ne (Fin.ext_iff.mp h))]
    exact h.char i hi hi'
  zero := ⟨h.length, Function.update_self ..⟩

end Stored

theorem ofInt_ne_zero (h : 32 ≤ c) (h' : c < 256) : BitVec.ofInt 8 c ≠ 0 := by
  intro h0
  have hnat := congrArg BitVec.toNat h0
  rw [BitVec.toNat_ofInt] at hnat
  simp at hnat
  omega

theorem readlineLoop_line (hcs : Typed cs) (hnl : nl = 10 ∨ nl = 13) (h : Stored buf l)
    (rest : List Int) (out : List Echo) :
    ∃ buf' out', readlineLoop echoing (cs ++ nl :: rest) buf l.length out = .line buf' out' ∧
      HoldsString buf' (cs.foldl press l) := by
  induction cs generalizing l buf out with
  | nil =>
    refine ⟨_, out ++ echo echoing 10, ?_, h.holdsString⟩
    have h32 : ¬nl ≥ 32 := by omega
    have h0 : ¬nl < 0 := by omega
    have h8 : ¬(nl = 8 ∨ nl = 127) := by omega
    simp only [List.nil_append, readlineLoop, h0, h8, h32, false_and, if_false, if_pos hnl,
      storeChar_eq h.length]
    rfl
  | cons c cs ih =>
    obtain ⟨h0, h256, h10, h13⟩ := hcs c List.mem_cons_self
    have htyped : Typed cs := fun c' hc' => hcs c' (List.mem_cons_of_mem c hc')
    rw [List.cons_append, List.foldl_cons, readlineLoop, if_neg (not_lt.mpr h0), press]
    have hempty : l.length > 0 ↔ l ≠ [] := List.length_pos_iff
    simp only [hempty]
    split_ifs with herase hstore
    · rw [← List.length_dropLast]
      exact ih htyped h.dropLast _
    · rw [storeChar_eq h.length]
      have hpush := ih htyped (h.push hstore.2 (ofInt_ne_zero hstore.1 h256))
        (out ++ echo echoing c)
      rwa [List.length_append, List.length_singleton] at hpush
    · omega
    · exact ih htyped h _

/-- A buffer holds one string. -/
theorem HoldsString.unique {l' : List Byte} (h : HoldsString buf l) (h' : HoldsString buf l') :
    l = l' := by
  have hle : ∀ {l l' : List Byte}, HoldsString buf l → HoldsString buf l' →
      l.length ≤ l'.length := by
    intro l l' h h'
    obtain ⟨hlen, hzero⟩ := h'.zero
    by_contra hlt
    obtain ⟨_, hchar, hne⟩ := h.char l'.length (not_le.mp hlt)
    exact hne (hchar.symm.trans hzero)
  apply List.ext_getElem (le_antisymm (hle h h') (hle h' h))
  intro i hi hi'
  obtain ⟨_, hchar, -⟩ := h.char i hi
  obtain ⟨_, hchar', -⟩ := h'.char i hi'
  exact hchar.symm.trans hchar'

/-! ## Stray characters -/

theorem ofInt_eq_iff (h : 0 ≤ c) (h' : c < 256) : BitVec.ofInt 8 c = 127 ↔ c = 127 := by
  constructor
  · intro heq
    have hnat := congrArg BitVec.toNat heq
    rw [BitVec.toNat_ofInt] at hnat
    simp at hnat
    omega
  · rintro rfl
    rfl

/-- The line as it is, compared with the line as it should be. -/
inductive Drifts (l e : List Byte) : Prop
  | same (h : l = e) (clean : 127 ∉ e)
  | stray {t : List Byte} (h : l = 127 :: t) (clean : 127 ∉ e) (le : e.length ≤ l.length)
    (ge : l.length ≤ e.length + 1)

theorem Typed.append {u v : List Int} (h : Typed (u ++ v)) : Typed u ∧ Typed v :=
  ⟨fun c hc => h c (List.mem_append_left v hc), fun c hc => h c (List.mem_append_right u hc)⟩

theorem edit_clean {e : List Byte} (h0 : 0 ≤ c) (h1 : c < 256) (h : 127 ∉ e) : 127 ∉ edit e c := by
  unfold edit
  split_ifs with herase hstore
  · exact fun hm => h (List.dropLast_subset _ hm)
  · rw [List.mem_append, List.mem_singleton, not_or]
    refine ⟨h, fun heq => ?_⟩
    exact herase (.inr ((ofInt_eq_iff h0 h1).mp heq.symm))
  · exact h

theorem press_eq_edit (h : ¬(c = 127 ∧ l = [])) : press l c = edit l c := by
  unfold press edit
  by_cases hl : l = []
  · subst hl
    have hc : c ≠ 127 := fun hc => h ⟨hc, rfl⟩
    by_cases h8 : c = 8
    · subst h8
      rfl
    · simp [hc, h8]
  · simp only [ne_eq, hl, not_false_eq_true, and_true]

theorem length_edit (e : List Byte) (hc : ¬(c = 8 ∨ c = 127)) :
    (edit e c).length = if c ≥ 32 ∧ e.length < buflen - 1 then e.length + 1 else e.length := by
  unfold edit
  rw [if_neg hc]
  split_ifs
  · rw [List.length_append, List.length_singleton]
  · rfl

theorem edit_cons (b : Byte) (e : List Byte) (hc : ¬(c = 8 ∨ c = 127)) :
    ∃ t, edit (b :: e) c = b :: t := by
  unfold edit
  rw [if_neg hc]
  split_ifs
  · exact ⟨_, rfl⟩
  · exact ⟨_, rfl⟩

theorem Drifts.press {e : List Byte} (h : Drifts l e) (h0 : 0 ≤ c) (h1 : c < 256) :
    Drifts (press l c) (edit e c) := by
  cases h with
  | same h clean =>
    subst h
    by_cases hstray : c = 127 ∧ l = []
    · obtain ⟨rfl, rfl⟩ := hstray
      exact .stray rfl (edit_clean h0 h1 clean) (by decide) (by decide)
    · exact .same (press_eq_edit hstray) (edit_clean h0 h1 clean)
  | @stray t h clean le ge =>
    subst h
    have hclean := edit_clean h0 h1 clean
    rw [press_eq_edit (by simp)]
    by_cases herase : c = 8 ∨ c = 127
    · have hedit : ∀ e, edit e c = e.dropLast := fun e => if_pos herase
      rw [hedit] at hclean
      rw [hedit, hedit]
      rw [List.length_cons] at le ge
      cases t with
      | nil =>
        -- the line is empty, and so is the one that it should be
        refine .same ?_ hclean
        rw [List.dropLast_singleton, eq_comm, ← List.length_eq_zero_iff, List.length_dropLast]
        rw [List.length_nil] at le
        omega
      | cons b t =>
        rw [List.length_cons] at le ge
        refine .stray (List.dropLast_cons_cons ..) hclean ?_ ?_ <;>
        · simp only [List.length_dropLast, List.length_cons]
          omega
    · obtain ⟨t', ht'⟩ := edit_cons 127 t herase
      refine .stray ht' hclean ?_ ?_ <;>
      · rw [length_edit _ herase, length_edit _ herase]
        split_ifs <;> omega

theorem Drifts.foldl {e : List Byte} (hcs : Typed cs) (h : Drifts l e) :
    Drifts (cs.foldl JosKernel.press l) (cs.foldl edit e) := by
  induction cs generalizing l e with
  | nil => exact h
  | cons c cs ih =>
    obtain ⟨h0, h1, -⟩ := hcs c List.mem_cons_self
    exact ih (fun c' hc' => hcs c' (List.mem_cons_of_mem c hc')) (h.press h0 h1)

/-- The lines differ when a stray character is at the front. -/
theorem Drifts.eq_iff {e : List Byte} (h : Drifts l e) : l = e ↔ l.head? ≠ some 127 := by
  cases h with
  | same h clean =>
    refine iff_of_true h fun hhead => ?_
    exact clean (h ▸ List.mem_of_head? hhead)
  | stray h clean _ _ =>
    subst h
    refine iff_of_false (fun heq => ?_) (by simp)
    exact clean (heq ▸ List.mem_cons_self)

theorem length_press (l : List Byte) (c : Int) : (press l c).length = grow l.length c := by
  unfold press grow
  have hempty : l.length > 0 ↔ l ≠ [] := List.length_pos_iff
  simp only [hempty]
  split_ifs
  · exact List.length_dropLast
  · rw [List.length_append, List.length_singleton]
  · rfl

theorem length_foldl_press (l : List Byte) (cs : List Int) :
    (cs.foldl press l).length = cs.foldl grow l.length := by
  induction cs generalizing l with
  | nil => rfl
  | cons c cs ih => rw [List.foldl_cons, ih, length_press, List.foldl_cons]

/-- A key leaves the first character alone unless it empties the line. -/
theorem head?_press {b : Byte} (h : l.head? = some b) (hne : press l c ≠ []) :
    (press l c).head? = some b := by
  obtain ⟨t, rfl⟩ : ∃ t, l = b :: t := by
    cases l with
    | nil => cases h
    | cons b' t => exact ⟨t, by rw [Option.some.inj h]⟩
  unfold press at hne ⊢
  split_ifs at hne ⊢
  · cases t with
    | nil => exact absurd rfl hne
    | cons => rfl
  · rfl
  · rfl

theorem head?_foldl_press {b : Byte} {v : List Int} (h : l.head? = some b)
    (hne : ∀ w, w <+: v → w.foldl grow l.length ≠ 0) : (v.foldl press l).head? = some b := by
  induction v generalizing l with
  | nil => exact h
  | cons c v ih =>
    have hone : press l c ≠ [] := by
      intro hnil
      apply hne [c] (List.prefix_append [c] v)
      rw [List.foldl_cons, List.foldl_nil, ← length_press, hnil, List.length_nil]
    refine ih (head?_press h hone) fun w hw => ?_
    rw [length_press]
    exact hne (c :: w) (List.cons_prefix_cons.mpr ⟨rfl, hw⟩)

/-- A line that starts with a stray character. -/
theorem strays_iff (hcs : Typed cs) : Strays cs ↔ (cs.foldl press []).head? = some 127 := by
  constructor
  · rintro ⟨u, v, rfl, hu, hv⟩
    have hnil : u.foldl press [] = [] := by
      rw [← List.length_eq_zero_iff, length_foldl_press]
      exact hu
    rw [List.foldl_append, List.foldl_cons, hnil]
    exact head?_foldl_press (l := press [] 127) rfl hv
  · induction cs using List.reverseRecOn with
    | nil => intro h; cases h
    | append_singleton cs c ih =>
      intro h
      obtain ⟨htyped, hc⟩ := hcs.append
      obtain ⟨h0, h1, -⟩ := hc c (List.mem_singleton_self c)
      rw [List.foldl_append, List.foldl_cons, List.foldl_nil] at h
      by_cases hnil : cs.foldl press [] = []
      · -- the key is the one that strays
        rw [hnil] at h
        have hc : c = 127 := by
          by_contra hne
          rw [press_eq_edit (fun h => hne h.1)] at h
          exact edit_clean h0 h1 (by simp) (List.mem_of_head? h)
        subst hc
        refine ⟨cs, [], rfl, ?_, fun w hw => ?_⟩
        · rw [← @List.length_nil Byte, ← length_foldl_press, hnil]
        · rw [List.prefix_nil.mp hw]
          decide
      · obtain ⟨b, hb⟩ := Option.ne_none_iff_exists'.mp (mt List.head?_eq_none_iff.mp hnil)
        have hne : press (cs.foldl press []) c ≠ [] := by
          intro he
          rw [he] at h
          cases h
        have hb127 := h.symm.trans (head?_press hb hne)
        obtain ⟨u, v, rfl, hu, hv⟩ := ih htyped (hb.trans hb127.symm)
        refine ⟨u, v ++ [c], by simp, hu, fun w hw => ?_⟩
        rcases List.prefix_concat_iff.mp hw with rfl | hw
        · have hlen := length_foldl_press [] (u ++ 127 :: v ++ [c])
          simp only [List.foldl_append, List.foldl_cons, List.foldl_nil, List.length_nil,
            hu] at hlen hne
          have hone : grow 0 127 = 1 := by decide
          rw [hone] at hlen
          rw [List.foldl_append, List.foldl_cons, List.foldl_nil, ← hlen]
          exact fun hzero => hne (List.length_eq_zero_iff.mp hzero)
        · exact hv w hw

/-- `readline` returns the line that the keys are to make, unless a delete key has left a character
at its front. -/
theorem editsLine_iff (hcs : Typed cs) (hnl : nl = 10 ∨ nl = 13) :
    EditsLine prompt echoing cs nl rest buf ↔ ¬Strays cs := by
  have hnil : Stored buf [] := .nil
  obtain ⟨buf', out, hres, hheld⟩ : ∃ buf' out, readline prompt echoing (cs ++ nl :: rest) buf =
      .line buf' out ∧ HoldsString buf' (cs.foldl press []) :=
    readlineLoop_line hcs hnl hnil rest (prompt.toList.map .prompt)
  have hdrift : Drifts (cs.foldl press []) (cs.foldl edit []) :=
    Drifts.foldl hcs (.same rfl (by simp))
  rw [strays_iff hcs, ← ne_eq, ← hdrift.eq_iff]
  constructor
  · rintro ⟨buf'', out', hres', hheld'⟩
    have heq : Readline.line buf' out = .line buf'' out' := hres.symm.trans hres'
    cases heq
    exact hheld.unique hheld'
  · intro heq
    exact ⟨buf', out, hres, heq ▸ hheld⟩

theorem editsLine_iff_deleted :
    EditsLine none true [97, 127] 10 [] (fun _ => 0) ↔ ¬Strays [97, 127] :=
  editsLine_iff (by decide) (.inl rfl)

/-- A delete key on an empty line becomes the line. -/
theorem not_editsLine_delete : ¬EditsLine none true [127] 10 [] fun _ => 0 := by
  rintro ⟨buf, out, hres, hheld⟩
  let stored : Fin 1024 → Byte := Function.update (Function.update (fun _ => 0) 0 127) 1 0
  have hreads : readline none true [127, 10] (fun _ => 0) =
      .line stored [.cputchar 127, .cputchar 10] := rfl
  have heq : stored = buf := (Readline.line.inj (hreads.symm.trans hres)).1
  obtain ⟨_, hzero⟩ := (heq ▸ hheld : HoldsString stored []).zero
  have hchar : stored 0 = 127 := rfl
  exact absurd (hchar.symm.trans hzero) (by decide)

end JosKernel
