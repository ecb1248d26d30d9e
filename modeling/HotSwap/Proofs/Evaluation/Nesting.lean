import HotSwap.Proofs.Evaluation.Within
/-!
# Nesting

The depth to which calls may nest bounds what ends, not what comes out: `calls_le` says that deeper
calls give every answer that less deep ones give.

It is proved together with what an evaluation leaves alone. A relation that is `Indifferent` looks
neither at subscriptions nor at cached values, and every call is within it.
-/

namespace HotSwap

open Machine

/-- An admissible relation that does not look at subscriptions and cached values. -/
structure Indifferent (R : Store → Store → Prop) : Prop extends Admissible R where
  edges : ∀ (s : Store) es, R s { s with edges := es }
  settle : ∀ {s : Store} {n m} v, s.nodes[n]? = some (.memo m) →
    R s { s with nodes := s.nodes.set n (.memo { m with value := some v, freshness := .clean }) }

variable {R : Store → Store → Prop} {c c' : Calls}

theorem Machine.settleMemo_within (hR : Indifferent R) (n : NodeId) (v : Content) :
    Within R (settleMemo n v) (settleMemo n v) := by
  intro s
  refine .bind_of_eq (memo?_apply n s) ?_
  cases hm : s.memoAt n with
  | none => exact .of_eq rfl rfl (hR.refl s)
  | some m =>
    refine .bind hR.trans (.of_eq rfl rfl (hR.settle v (Store.memoAt_eq_some.1 hm))) fun _ t _ => ?_
    split
    · exact collect_within hR.toAdmissible t
    · exact .of_eq rfl rfl (hR.refl t)

theorem Machine.recompute_within (hR : Indifferent R) (hc : c.Within R c') (n : NodeId) (m : Memo) :
    Within R (recompute c n m) (recompute c' n m) :=
  .bind hR.trans (fun s => .of_eq rfl rfl (hR.edges s _)) fun _ =>
    .bind hR.trans (inFrame_within hR.toAdmissible _ (runRecipe_within hR.toAdmissible hc n _))
      fun p => .bind hR.trans (settleMemo_within hR n p.1) fun _ => .of_pure hR.refl _

/-- Deeper calls answer whatever less deep ones answer, and an indifferent relation allows it. -/
theorem Indifferent.calls_within (hR : Indifferent R) :
    ∀ d k : Nat, (calls d).Within R (calls (d + k))
  | 0, _ => Calls.none_within R _
  | d + 1, k => by
    have ih := hR.calls_within d k
    rw [Nat.add_right_comm, calls_succ, calls_succ]
    exact Calls.next_within hR.toAdmissible ih fun s n m _ _ => recompute_within hR ih n m s

theorem Indifferent.calls_self (hR : Indifferent R) (d : Nat) : (calls d).Within R (calls d) :=
  hR.calls_within d 0

theorem indifferent_true : Indifferent fun _ _ => True := by
  constructor
  · constructor <;> (intros; trivial)
  all_goals (intros; trivial)

theorem calls_le {d e : Nat} (h : d ≤ e) : (calls d).Within (fun _ _ => True) (calls e) := by
  obtain ⟨k, rfl⟩ := Nat.exists_eq_add_of_le h
  exact indifferent_true.calls_within d k

end HotSwap
