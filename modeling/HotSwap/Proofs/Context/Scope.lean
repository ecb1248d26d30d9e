import HotSwap.Proofs.Context.Spared
/-!
# Reading inside providers

A read looks up the present token of its handle, and a provider answers to the token that it serves.
Whatever providers are nested around a read, the innermost one that serves this token answers.
-/

namespace HotSwap

open Machine

/-- Handles that provide values, the outermost first. -/
abbrev Providers := List (ContextId × Json)

def Expr.inside (ps : Providers) (body : LinkedExpr) : LinkedExpr :=
  ps.foldr (fun p e => .provide p.1 (.literal p.2) e) body

namespace Store

def inScope (s : Store) (scope : Scope) : Store := { s with provided := scope }

@[simp] theorem contextAt_inScope (s : Store) (scope : Scope) (c : ContextId) :
    (s.inScope scope).contextAt c = s.contextAt c := rfl

@[simp] theorem provides_inScope (s : Store) (scope : Scope) (c : ContextId) :
    (s.inScope scope).provides c = s.provides c := rfl

@[simp] theorem provided_inScope (s : Store) (scope : Scope) : (s.inScope scope).provided = scope :=
  rfl

def pushed (s : Store) (ps : Providers) : Scope :=
  (ps.map fun p => (s.provides p.1, p.2)).reverse ++ s.provided

def reading (s : Store) (ps : Providers) (c : ContextId) : Json :=
  ((s.pushed ps).lookup (s.contextAt c).token).getD (s.contextAt c).fallback

variable {s : Store} {ps : Providers} {t : Token}

theorem pushed_cons (p : ContextId × Json) : s.pushed (p :: ps) =
    (s.inScope ((s.provides p.1, p.2) :: s.provided)).pushed ps := by
  simp only [pushed, List.map_cons, List.reverse_cons, List.append_assoc, List.singleton_append]
  rfl

theorem lookup_pushed (s : Store) (ps : Providers) (t : Token) : (s.pushed ps).lookup t =
    ((ps.reverse.find? fun p => s.provides p.1 = t).map Prod.snd).or (s.provided.lookup t) := by
  rw [pushed, ← List.map_reverse]
  generalize ps.reverse = qs
  induction qs with
  | nil => rfl
  | cons q qs ih =>
    rw [List.map_cons, List.cons_append, List.lookup_cons, List.find?_cons, ih]
    by_cases h : s.provides q.1 = t
    · simp [h]
    · have hb : (t == s.provides q.1) = false := beq_false_of_ne (Ne.symm h)
      simp [h, hb]

theorem lookup_pushed_of_ne (h : ∀ p ∈ ps, s.provides p.1 ≠ t) :
    (s.pushed ps).lookup t = s.provided.lookup t := by
  rw [lookup_pushed, List.find?_eq_none.2 (by simpa using h), Option.map_none, Option.none_or]

end Store

namespace Machine

theorem providing_of_pure {t : Token} {v : Json} {m : Machine α} {s : Store} {a : α}
    (h : m { s with provided := (t, v) :: s.provided } =
      some (a, { s with provided := (t, v) :: s.provided })) :
    providing t v m s = some (a, s) :=
  providing_eq_some.2 ⟨_, h, rfl⟩

end Machine

theorem Expr.eval_inside_use (calls : Calls) (env : Env) (ps : Providers) (c : ContextId)
    (s : Store) : (Expr.inside ps (.use c)).eval calls env s = some (s.reading ps c, s) := by
  induction ps generalizing s with
  | nil => rfl
  | cons p ps ih =>
    rw [Store.reading, Store.pushed_cons]
    exact providing_of_pure (ih _)

end HotSwap
