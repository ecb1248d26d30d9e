import HotSwap.Json.Fault
/-!
# Self-delimiting codes

A reader takes a value off the front of its input. `Spells r xs a` says that the input `xs` stands
for the value `a`: whatever follows it is left alone, and no part of it that breaks off early will
do. So codes that are read one after the other can be written one after the other.
-/

namespace HotSwap

class Shortage (m : Type → Type) [Monad m] where
  short : m α
  short_bind (f : α → m β) : short >>= f = short

instance : Shortage Option := ⟨none, fun _ => rfl⟩

instance : Shortage (Except Json.Fault) := ⟨.error .unfinished, fun _ => rfl⟩

open Shortage

variable {m : Type → Type} {τ α β : Type} {p xs ys : List τ}

theorem prefix_append_cases (h : p <+: xs ++ ys) :
    (p <+: xs ∧ p ≠ xs) ∨ ∃ q, p = xs ++ q ∧ q <+: ys := by
  obtain ⟨rest, hr⟩ := h
  rcases List.append_eq_append_iff.1 hr with ⟨q, hxs, -⟩ | ⟨q, hp, hys⟩
  · by_cases he : p = xs
    · exact .inr ⟨[], by rw [he, List.append_nil], List.nil_prefix⟩
    · exact .inl ⟨⟨q, hxs.symm⟩, he⟩
  · exact .inr ⟨q, hp, ⟨rest, hys.symm⟩⟩

structure Spells [Monad m] [Shortage m] (r : StateT (List τ) m α) (xs : List τ) (a : α) : Prop where
  whole : ∀ rest, r (xs ++ rest) = pure (a, rest)
  broken : ∀ p, p <+: xs → p ≠ xs → r p = short

namespace Spells

variable [Monad m] [Shortage m] {r : StateT (List τ) m α} {f : α → StateT (List τ) m β} {a : α}
  {b : β}

theorem pure (a : α) : Spells (Pure.pure a : StateT (List τ) m α) [] a where
  whole _ := rfl
  broken _ hp hne := (hne (List.prefix_nil.1 hp)).elim

variable [LawfulMonad m]

theorem bind (h : Spells r xs a) (h' : Spells (f a) ys b) : Spells (r >>= f) (xs ++ ys) b where
  whole rest := by
    calc (r >>= f) (xs ++ ys ++ rest)
        = r (xs ++ (ys ++ rest)) >>= fun q => f q.1 q.2 := by rw [List.append_assoc]; rfl
      _ = Pure.pure (b, rest) := by rw [h.whole, pure_bind, h'.whole]
  broken p hp hne := by
    change (r p >>= fun q => f q.1 q.2) = short
    rcases prefix_append_cases hp with ⟨hp, hne⟩ | ⟨q, rfl, hq⟩
    · rw [h.broken p hp hne, short_bind]
    · rw [h.whole, pure_bind]
      exact h'.broken q hq fun e => hne (e ▸ rfl)

theorem ends (h : Spells r xs a) (hf : f a = Pure.pure b) : Spells (r >>= f) xs b :=
  List.append_nil xs ▸ h.bind (hf ▸ .pure b)

theorem map (h : Spells r xs a) (g : α → β) : Spells (r >>= fun a => Pure.pure (g a)) xs (g a) :=
  h.ends rfl

end Spells

end HotSwap
