import Mathlib.Data.List.Basic

/-!
# Traced computations

A computation that leaves a list of events, and has a result unless it gets stuck.
-/
namespace JosKernel.Lib

variable {ε α β : Type}

@[ext]
structure Traced (ε α : Type) where
  trace : List ε
  result : Option α

namespace Traced

def bind (x : Traced ε α) (f : α → Traced ε β) : Traced ε β :=
  match x with
  | ⟨t, none⟩ => ⟨t, none⟩
  | ⟨t, some a⟩ => ⟨t ++ (f a).trace, (f a).result⟩

instance : Monad (Traced ε) where
  pure a := ⟨[], some a⟩
  bind := bind

/-- An event. -/
def emit (e : ε) : Traced ε Unit := ⟨[e], some ()⟩

/-- No result. -/
def stuck : Traced ε α := ⟨[], none⟩

variable {x : Traced ε α} {f : α → Traced ε β} {a : α} {b : β} {e : ε}

@[simp] theorem bind_none (t : List ε) (f : α → Traced ε β) :
    (Traced.mk t none >>= f) = ⟨t, none⟩ := rfl

@[simp] theorem bind_some (t : List ε) (a : α) (f : α → Traced ε β) :
    (Traced.mk t (some a) >>= f) = ⟨t ++ (f a).trace, (f a).result⟩ := rfl

@[simp] theorem result_pure (a : α) : (pure a : Traced ε α).result = some a := rfl

@[simp] theorem trace_pure (a : α) : (pure a : Traced ε α).trace = [] := rfl

@[simp] theorem result_emit (e : ε) : (emit e).result = some () := rfl

@[simp] theorem trace_emit (e : ε) : (emit e).trace = [e] := rfl

theorem result_bind (x : Traced ε α) (f : α → Traced ε β) :
    (x >>= f).result = x.result.bind fun a => (f a).result := by
  obtain ⟨t, r⟩ := x
  cases r <;> rfl

theorem result_bind_of_some (h : x.result = some a) : (x >>= f).result = (f a).result := by
  rw [result_bind, h, Option.bind_some]

theorem trace_bind_of_some (h : x.result = some a) :
    (x >>= f).trace = x.trace ++ (f a).trace := by
  obtain ⟨t, r⟩ := x
  cases h
  rfl

/-- What is done with a known result. -/
theorem bind_congr_of_some {g : α → Traced ε β} (h : x.result = some a) (hfg : f a = g a) :
    (x >>= f) = x >>= g := by
  obtain ⟨t, r⟩ := x
  cases h
  rw [bind_some, bind_some, hfg]

theorem mem_bind_left (h : e ∈ x.trace) : e ∈ (x >>= f).trace := by
  obtain ⟨t, r⟩ := x
  cases r with
  | none => exact h
  | some a => exact List.mem_append_left _ h

theorem mem_bind_right (hx : x.result = some a) (h : e ∈ (f a).trace) : e ∈ (x >>= f).trace := by
  rw [trace_bind_of_some hx]
  exact List.mem_append_right _ h

/-! ## Specifications -/

/-- All events satisfy `P`, and there is a result, which satisfies `Q`. -/
def Meets (x : Traced ε α) (P : ε → Prop) (Q : α → Prop) : Prop :=
  (∀ e ∈ x.trace, P e) ∧ ∃ a, x.result = some a ∧ Q a

variable {P P' : ε → Prop} {Q Q' : α → Prop} {R : β → Prop}

namespace Meets

theorem pure (h : Q a) : (pure a : Traced ε α).Meets P Q :=
  ⟨by simp, a, rfl, h⟩

theorem bind (hx : x.Meets P Q) (hf : ∀ a, Q a → (f a).Meets P R) : (x >>= f).Meets P R := by
  obtain ⟨hP, a, ha, hQ⟩ := hx
  obtain ⟨hP', b, hb, hR⟩ := hf a hQ
  refine ⟨fun e he => ?_, b, by rw [result_bind_of_some ha, hb], hR⟩
  rw [trace_bind_of_some ha] at he
  rcases List.mem_append.mp he with h | h
  · exact hP e h
  · exact hP' e h

theorem mono (h : x.Meets P Q) (hP : ∀ e, P e → P' e) (hQ : ∀ a, Q a → Q' a) :
    x.Meets P' Q' := by
  obtain ⟨hall, a, ha, hq⟩ := h
  exact ⟨fun e he => hP e (hall e he), a, ha, hQ a hq⟩

end Meets

end Traced

end JosKernel.Lib
