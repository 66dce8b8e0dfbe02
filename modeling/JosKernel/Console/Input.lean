import JosKernel.Lib.Ring
import JosKernel.Machine.Mmu

/-!
# Console input

The input buffer of `kern/console.c`. Interrupts and polls store what the serial port and the
keyboard have to offer, and `cons_getc` takes one character out. A procedure of a device returns
characters until it has no more data and returns `-1`; here this is the list of the characters,
where `0` stands for data that makes no character.
-/
namespace JosKernel

open Lib

def consbufsize : Word := 512

structure Cons where
  buf : Fin 512 → Byte
  rpos : Word
  wpos : Word

/-- The position after `pos`. -/
def nextPos (pos : Word) : Word := if pos + 1 = consbufsize then 0 else pos + 1

/-- `cons.buf[cons.wpos++] = c`; `none` when this is outside of the buffer. -/
def Cons.put (s : Cons) (c : Byte) : Option Cons :=
  if h : s.wpos.toNat < 512 then
    some { s with buf := Function.update s.buf ⟨_, h⟩ c, wpos := nextPos s.wpos }
  else none

/-- `cons_intr`, for a procedure that returns the given characters and then `-1`. -/
def consIntr (s : Cons) : List Byte → Option Cons
  | [] => some s
  | c :: cs => if c = 0 then consIntr s cs else (s.put c).bind fun s => consIntr s cs

/-- `serial_intr`. -/
def serialIntr (serialExists : Bool) (s : Cons) (cs : List Byte) : Option Cons :=
  if serialExists then consIntr s cs else some s

/-- `kbd_intr`. -/
def kbdIntr (s : Cons) (cs : List Byte) : Option Cons := consIntr s cs

/-- `cons_getc`, with what the devices have to offer. -/
def consGetc (serialExists : Bool) (s : Cons) (serial kbd : List Byte) : Option (Byte × Cons) := do
  let s ← serialIntr serialExists s serial
  let s ← kbdIntr s kbd
  if s.rpos ≠ s.wpos then
    if h : s.rpos.toNat < 512 then
      some (s.buf ⟨_, h⟩, { s with rpos := nextPos s.rpos })
    else none
  else some (0, s)

inductive ConsEvent where
  | serial (cs : List Byte)
  | kbd (cs : List Byte)
  | getc (serial kbd : List Byte)

/-- The buffer after some events, and the values that `cons_getc` has returned. -/
def consRun (serialExists : Bool) (s : Cons) : List ConsEvent → Option (Cons × List Byte)
  | [] => some (s, [])
  | .serial cs :: evs => do
    let s ← serialIntr serialExists s cs
    consRun serialExists s evs
  | .kbd cs :: evs => do
    let s ← kbdIntr s cs
    consRun serialExists s evs
  | .getc serial kbd :: evs => do
    let (c, s) ← consGetc serialExists s serial kbd
    let (s, out) ← consRun serialExists s evs
    some (s, c :: out)

/-- The buffer at boot. -/
def Cons.empty : Cons := ⟨fun _ => 0, 0, 0⟩

/-! ## The queue -/

/-- The characters among the results of a procedure. -/
def chars (cs : List Byte) : List Byte := cs.filter (· ≠ 0)

/-- The characters that an event brings in. -/
def ConsEvent.received (serialExists : Bool) : ConsEvent → List Byte
  | .serial cs => if serialExists then chars cs else []
  | .kbd cs => chars cs
  | .getc cs cs' => (if serialExists then chars cs else []) ++ chars cs'

/-- Starting with `q` unread characters, there are never more than `CONSBUFSIZE - 1`. -/
def Fits (serialExists : Bool) (q : List Byte) : List ConsEvent → Prop
  | [] => True
  | ev :: evs => (q ++ ev.received serialExists).length ≤ 511 ∧
    Fits serialExists (match ev with
      | .getc _ _ => (q ++ ev.received serialExists).tail
      | _ => q ++ ev.received serialExists) evs

/-- Both positions are in the buffer. -/
structure Cons.Ok (s : Cons) : Prop where
  rpos : s.rpos < consbufsize
  wpos : s.wpos < consbufsize

/-- The unread characters, oldest first. -/
def Cons.unread (s : Cons) : List Byte :=
  ring s.buf (Fin.ofNat 512 s.rpos.toNat) (Fin.ofNat 512 s.wpos.toNat)

variable {s s' : Cons} {c : Byte} {cs : List Byte} {serialExists : Bool}

theorem toNat_lt_of_lt {pos : Word} (h : pos < consbufsize) : pos.toNat < 512 := h

theorem toNat_nextPos {pos : Word} (h : pos < consbufsize) :
    (nextPos pos).toNat = (pos.toNat + 1) % 512 := by
  have hlt := toNat_lt_of_lt h
  have hsum : (pos + 1).toNat = pos.toNat + 1 := by
    simp only [BitVec.toNat_add]
    simp
    omega
  unfold nextPos
  split_ifs with heq
  · have := congrArg BitVec.toNat heq
    rw [hsum] at this
    simp [this, consbufsize]
  · have hne : pos.toNat + 1 ≠ 512 := fun hc => heq (BitVec.eq_of_toNat_eq (hsum.trans hc))
    rw [hsum]
    omega

theorem nextPos_lt {pos : Word} (h : pos < consbufsize) : nextPos pos < consbufsize := by
  rw [BitVec.lt_def, toNat_nextPos h]
  exact Nat.mod_lt _ (by decide)

theorem ofNat_nextPos {pos : Word} (h : pos < consbufsize) :
    Fin.ofNat 512 (nextPos pos).toNat = Fin.ofNat 512 pos.toNat + 1 := by
  rw [toNat_nextPos h]
  refine Fin.ext ?_
  simp [Fin.val_add]

namespace Cons.Ok

theorem put_ok (ok : s.Ok) (c : Byte) : ∃ s', s.put c = some s' ∧ s'.Ok := by
  unfold Cons.put
  rw [dif_pos (toNat_lt_of_lt ok.wpos)]
  exact ⟨_, rfl, ok.rpos, nextPos_lt ok.wpos⟩

/-- A character joins the unread ones at the end, if there is room. -/
theorem put_unread (ok : s.Ok) (room : s.unread.length < 511) (h : s.put c = some s') :
    s'.unread = s.unread ++ [c] := by
  have hlt := toNat_lt_of_lt ok.wpos
  unfold Cons.put at h
  rw [dif_pos hlt] at h
  cases h
  have hw : (⟨s.wpos.toNat, hlt⟩ : Fin 512) = Fin.ofNat 512 s.wpos.toNat :=
    Fin.ext (Nat.mod_eq_of_lt hlt).symm
  have hroom : Fin.ofNat 512 s.wpos.toNat + 1 ≠ Fin.ofNat 512 s.rpos.toNat := by
    intro heq
    rw [Cons.unread, length_ring, ← heq] at room
    have hlast : Fin.ofNat 512 s.wpos.toNat - (Fin.ofNat 512 s.wpos.toNat + 1) =
        (511 : Fin 512) := by
      rw [sub_add_eq_sub_sub, sub_self]
      rfl
    rw [hlast] at room
    exact absurd room (by decide)
  unfold Cons.unread
  simp only [hw, ofNat_nextPos ok.wpos]
  exact ring_push hroom c

theorem unread_eq_nil_iff (ok : s.Ok) : s.unread = [] ↔ s.rpos = s.wpos := by
  have hr := toNat_lt_of_lt ok.rpos
  have hw := toNat_lt_of_lt ok.wpos
  rw [← List.length_eq_zero_iff, Cons.unread, length_ring, Fin.val_eq_zero_iff, sub_eq_zero,
    Fin.ext_iff, Fin.val_ofNat, Fin.val_ofNat, Nat.mod_eq_of_lt hr, Nat.mod_eq_of_lt hw, eq_comm]
  exact BitVec.toNat_inj

/-- Reading takes the first of the unread characters. -/
theorem read_unread (ok : s.Ok) (hne : s.rpos ≠ s.wpos) :
    s.unread = s.buf ⟨_, toNat_lt_of_lt ok.rpos⟩ :: { s with rpos := nextPos s.rpos }.unread := by
  have hlt := toNat_lt_of_lt ok.rpos
  have hr : (⟨s.rpos.toNat, hlt⟩ : Fin 512) = Fin.ofNat 512 s.rpos.toNat :=
    Fin.ext (Nat.mod_eq_of_lt hlt).symm
  have hne' : Fin.ofNat 512 s.rpos.toNat ≠ Fin.ofNat 512 s.wpos.toNat := by
    intro heq
    apply hne
    rw [← ok.unread_eq_nil_iff, Cons.unread, heq, ring_self]
  rw [hr]
  unfold Cons.unread
  simp only [ofNat_nextPos ok.rpos]
  exact ring_pop hne'

end Cons.Ok

/-! ## Events -/

/-- The state after an interrupt or a poll: all characters have joined the queue. -/
theorem Cons.Ok.consIntr (ok : s.Ok) (cs : List Byte) : ∃ s', consIntr s cs = some s' ∧ s'.Ok ∧
    ((s.unread ++ chars cs).length ≤ 511 → s'.unread = s.unread ++ chars cs) := by
  induction cs generalizing s with
  | nil => exact ⟨s, rfl, ok, fun _ => (List.append_nil _).symm⟩
  | cons c cs ih =>
    by_cases hc : c = 0
    · obtain ⟨s', hs', ok', hq⟩ := ih ok
      refine ⟨s', ?_, ok', ?_⟩
      · rw [JosKernel.consIntr, if_pos hc, hs']
      · simpa [chars, hc] using hq
    · obtain ⟨s₁, hput, ok₁⟩ := ok.put_ok c
      obtain ⟨s', hs', ok', hq⟩ := ih ok₁
      refine ⟨s', ?_, ok', ?_⟩
      · rw [JosKernel.consIntr, if_neg hc, hput, Option.bind_some, hs']
      · intro hfits
        have hchars : chars (c :: cs) = c :: chars cs := List.filter_cons_of_pos (by simpa using hc)
        rw [hchars, List.length_append, List.length_cons] at hfits
        have hq₁ := ok.put_unread (by omega) hput
        rw [hq, hq₁, hchars, List.append_assoc, List.singleton_append]
        rw [hq₁, List.append_assoc, List.singleton_append, List.length_append, List.length_cons]
        exact hfits

theorem Cons.Ok.serialIntr (ok : s.Ok) (serialExists : Bool) (cs : List Byte) : ∃ s',
    serialIntr serialExists s cs = some s' ∧ s'.Ok ∧
      ((s.unread ++ ConsEvent.received serialExists (.serial cs)).length ≤ 511 →
        s'.unread = s.unread ++ ConsEvent.received serialExists (.serial cs)) := by
  cases serialExists with
  | true => exact ok.consIntr cs
  | false => exact ⟨s, rfl, ok, fun _ => (List.append_nil _).symm⟩

theorem ne_zero_of_mem_received {ev : ConsEvent} (h : c ∈ ev.received serialExists) : c ≠ 0 := by
  cases ev <;> cases serialExists <;> simp_all [ConsEvent.received, chars]
  rcases h with h | h <;> exact h.2

/-- `cons_getc` returns the first unread character, or zero if there is none. -/
theorem Cons.Ok.consGetc (ok : s.Ok) (serialExists : Bool) (ser kbd : List Byte) : ∃ c s',
    consGetc serialExists s ser kbd = some (c, s') ∧ s'.Ok ∧
      ((s.unread ++ ConsEvent.received serialExists (.getc ser kbd)).length ≤ 511 →
        c = (s.unread ++ ConsEvent.received serialExists (.getc ser kbd)).headD 0 ∧
        s'.unread = (s.unread ++ ConsEvent.received serialExists (.getc ser kbd)).tail) := by
  obtain ⟨s₁, hser, ok₁, hq₁⟩ := ok.serialIntr serialExists ser
  obtain ⟨s₂, hkbd, ok₂, hq₂⟩ := ok₁.consIntr kbd
  have hq : (s.unread ++ ConsEvent.received serialExists (.getc ser kbd)).length ≤ 511 →
      s₂.unread = s.unread ++ ConsEvent.received serialExists (.getc ser kbd) := by
    intro hfits
    have hrec : ConsEvent.received serialExists (.getc ser kbd) =
        ConsEvent.received serialExists (.serial ser) ++ chars kbd := rfl
    rw [hrec, ← List.append_assoc] at hfits ⊢
    have h₁ := hq₁ (by rw [List.length_append] at hfits; omega)
    rw [← h₁] at hfits ⊢
    exact hq₂ hfits
  unfold JosKernel.consGetc kbdIntr
  simp only [hser, hkbd, Option.bind_eq_bind, Option.bind_some]
  by_cases hne : s₂.rpos ≠ s₂.wpos
  · rw [if_pos hne, dif_pos (toNat_lt_of_lt ok₂.rpos)]
    refine ⟨_, _, rfl, ⟨nextPos_lt ok₂.rpos, ok₂.wpos⟩, fun hfits => ?_⟩
    rw [← hq hfits, ok₂.read_unread hne]
    exact ⟨rfl, rfl⟩
  · rw [if_neg hne]
    refine ⟨0, s₂, rfl, ok₂, fun hfits => ?_⟩
    have hnil := ok₂.unread_eq_nil_iff.mpr (not_not.mp hne)
    rw [← hq hfits, hnil]
    exact ⟨rfl, rfl⟩

/-! ## Runs -/

theorem Cons.Ok.consRun (ok : s.Ok) (serialExists : Bool) (evs : List ConsEvent) : ∃ s' out,
    consRun serialExists s evs = some (s', out) ∧ s'.Ok ∧
      ((∀ c ∈ s.unread, c ≠ 0) → Fits serialExists s.unread evs →
        out.filter (· ≠ 0) ++ s'.unread =
          s.unread ++ evs.flatMap (ConsEvent.received serialExists)) := by
  induction evs generalizing s with
  | nil => exact ⟨s, [], rfl, ok, fun _ _ => by simp⟩
  | cons ev evs ih =>
    have hnz : ∀ q : List Byte, (∀ c ∈ q, c ≠ 0) →
        ∀ c ∈ q ++ ev.received serialExists, c ≠ 0 := by
      intro q hq c hc
      rcases List.mem_append.mp hc with hc | hc
      · exact hq c hc
      · exact ne_zero_of_mem_received hc
    rw [List.flatMap_cons, ← List.append_assoc]
    cases ev with
    | serial cs =>
      obtain ⟨s₁, h₁, ok₁, hq₁⟩ := ok.serialIntr serialExists cs
      obtain ⟨s', out, hrun, ok', hq⟩ := ih ok₁
      refine ⟨s', out, by rw [JosKernel.consRun, h₁]; exact hrun, ok', fun hz hfits => ?_⟩
      have h := hq₁ hfits.1
      rw [← h]
      refine hq ?_ (h ▸ hfits.2)
      rw [h]
      exact hnz _ hz
    | kbd cs =>
      obtain ⟨s₁, h₁, ok₁, hq₁⟩ := ok.consIntr cs
      obtain ⟨s', out, hrun, ok', hq⟩ := ih ok₁
      refine ⟨s', out, by rw [JosKernel.consRun, kbdIntr, h₁]; exact hrun, ok', fun hz hfits => ?_⟩
      have h := hq₁ hfits.1
      have hrec : ConsEvent.received serialExists (.kbd cs) = chars cs := rfl
      rw [hrec, ← h]
      refine hq ?_ (h ▸ hfits.2)
      rw [h]
      exact hnz _ hz
    | getc ser kbd =>
      obtain ⟨c, s₁, h₁, ok₁, hq₁⟩ := ok.consGetc serialExists ser kbd
      obtain ⟨s', out, hrun, ok', hq⟩ := ih ok₁
      refine ⟨s', c :: out, ?_, ok', fun hz hfits => ?_⟩
      · rw [JosKernel.consRun, h₁]
        simp [hrun]
      · obtain ⟨hc, hunread⟩ := hq₁ hfits.1
        have hall := hnz _ hz
        have hfits' := hfits.2
        rw [← hunread] at hfits'
        cases hl : s.unread ++ ConsEvent.received serialExists (.getc ser kbd) with
        | nil =>
          rw [hl] at hc hunread
          have h := hq (by rw [hunread]; simp) hfits'
          rw [hunread] at h
          rw [hc, List.headD_nil, List.filter_cons_of_neg (by simp), h]
          rfl
        | cons c' q =>
          rw [hl] at hc hunread hall
          have h := hq (fun b hb => hall b (by rw [hunread] at hb; exact List.mem_cons_of_mem _ hb))
            hfits'
          have hc' : c = c' := hc
          have hne : c ≠ 0 := hc' ▸ hall c' List.mem_cons_self
          rw [List.filter_cons_of_pos (by simpa using hne), List.cons_append, h, hunread, hc']
          rfl

/-- The positions stay in the buffer, and the values other than zero that `cons_getc` returns are
the characters received, in order; what is missing at the end is still in the buffer. -/
theorem consRun_fifo (serialExists : Bool) (evs : List ConsEvent) : ∃ s out,
    consRun serialExists .empty evs = some (s, out) ∧ s.rpos < consbufsize ∧
      s.wpos < consbufsize ∧
      (Fits serialExists [] evs →
        out.filter (· ≠ 0) ++ s.unread = evs.flatMap (ConsEvent.received serialExists)) := by
  have ok : Cons.empty.Ok := ⟨by decide, by decide⟩
  have hnil : Cons.empty.unread = [] := ok.unread_eq_nil_iff.mpr rfl
  obtain ⟨s, out, hrun, ok', hq⟩ := ok.consRun serialExists evs
  rw [hnil] at hq
  exact ⟨s, out, hrun, ok'.rpos, ok'.wpos, hq (by simp)⟩

/-- Two keys, data without a character between them, and a byte of the serial port. -/
theorem consRun_fifo_keys : ∃ s out,
    consRun true .empty [.kbd [0x61, 0, 0x62], .getc [0x63] [], .getc [] []] = some (s, out) ∧
      out.filter (· ≠ 0) ++ s.unread = [0x61, 0x62, 0x63] := by
  obtain ⟨s, out, hrun, -, -, hfifo⟩ :=
    consRun_fifo true [.kbd [0x61, 0, 0x62], .getc [0x63] [], .getc [] []]
  exact ⟨s, out, hrun, hfifo (by simp [Fits, ConsEvent.received, chars])⟩

end JosKernel
