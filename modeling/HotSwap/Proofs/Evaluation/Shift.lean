import HotSwap.Proofs.Evaluation.Nesting
/-!
# One more node

A node that nobody reads makes no difference to what is rendered: it only moves the numbers of the
nodes that are created after it. `Shifted` relates a store to one with such a node at `N`, as far as
an evaluation that writes nothing looks: subscriptions, lifetimes and traces may differ.
-/

namespace HotSwap

open Machine

mutual

def Expr.writes : LinkedExpr → Bool
  | .set _ _ => true
  | .untrack e | .log e | .render _ e => e.writes
  | .add es | .mul es | .concat es | .list es | .seq es => Expr.writesAny es
  | .less a b | .provide _ a b => a.writes || b.writes
  | .cond t a b => t.writes || a.writes || b.writes
  | .literal _ | .props | .current | .member _ | .get _ | .peek _ | .use _ | .text _ | .tracking
  | .dispose _ | .release _ => false

def Expr.writesAny : List LinkedExpr → Bool
  | [] => false
  | e :: rest => e.writes || Expr.writesAny rest

end

mutual

def Template.writes : LinkedTemplate → Bool
  | .empty | .use _ => false
  | .text e | .child _ e => e.writes
  | .fragment children => Template.writesAny children
  | .dynamic _ body => body.writes
  | .provide _ v body => v.writes || body.writes
  | .cond t a b => t.writes || a.writes || b.writes

def Template.writesAny : List LinkedTemplate → Bool
  | [] => false
  | t :: rest => t.writes || Template.writesAny rest

end

def Recipe.writes : Recipe → Bool
  | .value _ body => body.writes
  | .template _ body _ => body.writes
  | .mount _ _ _ => false

/-- A body that writes nothing and holds only what is in `H`. -/
structure Expr.Fits (H : Handle → Prop) (e : LinkedExpr) : Prop where
  writes : e.writes = false
  handles : ∀ h ∈ e.handles, H h

structure Template.Fits (H : Handle → Prop) (t : LinkedTemplate) : Prop where
  writes : t.writes = false
  handles : ∀ h ∈ t.handles, H h

structure Recipe.Fits (H : Handle → Prop) (r : Recipe) : Prop where
  writes : r.writes = false
  handles : ∀ h ∈ r.handles, H h

def Expr.FitAll (H : Handle → Prop) (es : List LinkedExpr) : Prop :=
  Expr.writesAny es = false ∧ ∀ h ∈ Expr.handlesAll es, H h

def Template.FitAll (H : Handle → Prop) (ts : List LinkedTemplate) : Prop :=
  Template.writesAny ts = false ∧ ∀ h ∈ Template.handlesAll ts, H h

section Fits

variable {H : Handle → Prop}

theorem Expr.FitAll.cons {e : LinkedExpr} {es : List LinkedExpr} (h : Expr.FitAll H (e :: es)) :
    e.Fits H ∧ Expr.FitAll H es := by
  obtain ⟨hw, hh⟩ := h
  simp only [Expr.writesAny, Bool.or_eq_false_iff, Expr.handlesAll, List.mem_append, or_imp,
    forall_and] at hw hh
  exact ⟨⟨hw.1, hh.1⟩, hw.2, hh.2⟩

theorem Template.FitAll.cons {t : LinkedTemplate} {ts : List LinkedTemplate}
    (h : Template.FitAll H (t :: ts)) : t.Fits H ∧ Template.FitAll H ts := by
  obtain ⟨hw, hh⟩ := h
  simp only [Template.writesAny, Bool.or_eq_false_iff, Template.handlesAll, List.mem_append, or_imp,
    forall_and] at hw hh
  exact ⟨⟨hw.1, hh.1⟩, hw.2, hh.2⟩

theorem Expr.Fits.less {a b : LinkedExpr} (h : Expr.Fits H (.less a b)) : a.Fits H ∧ b.Fits H := by
  obtain ⟨hw, hh⟩ := h
  simp only [Expr.writes, Bool.or_eq_false_iff, Expr.handles, List.mem_append, or_imp,
    forall_and] at hw hh
  exact ⟨⟨hw.1, hh.1⟩, hw.2, hh.2⟩

theorem Expr.Fits.provide {c : ContextId} {a b : LinkedExpr} (h : Expr.Fits H (.provide c a b)) :
    a.Fits H ∧ b.Fits H := by
  obtain ⟨hw, hh⟩ := h
  simp only [Expr.writes, Bool.or_eq_false_iff, Expr.handles, List.mem_append, or_imp,
    forall_and] at hw hh
  exact ⟨⟨hw.1, hh.1⟩, hw.2, hh.2⟩

theorem Expr.Fits.cond {t a b : LinkedExpr} (h : Expr.Fits H (.cond t a b)) :
    t.Fits H ∧ a.Fits H ∧ b.Fits H := by
  obtain ⟨hw, hh⟩ := h
  simp only [Expr.writes, Bool.or_eq_false_iff, Expr.handles, List.mem_append, or_imp,
    forall_and] at hw hh
  exact ⟨⟨hw.1.1, hh.1.1⟩, ⟨hw.1.2, hh.1.2⟩, hw.2, hh.2⟩

theorem Expr.Fits.render {k : ComponentId} {e : LinkedExpr} (h : Expr.Fits H (.render k e)) :
    H (.component k) ∧ e.Fits H := by
  obtain ⟨hw, hh⟩ := h
  rw [Expr.handles, List.forall_mem_cons] at hh
  exact ⟨hh.1, hw, hh.2⟩

theorem Template.Fits.child {k : ComponentId} {e : LinkedExpr} (h : Template.Fits H (.child k e)) :
    H (.component k) ∧ e.Fits H := by
  obtain ⟨hw, hh⟩ := h
  rw [Template.handles, List.forall_mem_cons] at hh
  exact ⟨hh.1, hw, hh.2⟩

theorem Template.Fits.provide {c : ContextId} {v : LinkedExpr} {body : LinkedTemplate}
    (h : Template.Fits H (.provide c v body)) : v.Fits H ∧ body.Fits H := by
  obtain ⟨hw, hh⟩ := h
  simp only [Template.writes, Bool.or_eq_false_iff, Template.handles, List.mem_append, or_imp,
    forall_and] at hw hh
  exact ⟨⟨hw.1, hh.1⟩, hw.2, hh.2⟩

theorem Template.Fits.cond {t : LinkedExpr} {a b : LinkedTemplate}
    (h : Template.Fits H (.cond t a b)) : t.Fits H ∧ a.Fits H ∧ b.Fits H := by
  obtain ⟨hw, hh⟩ := h
  simp only [Template.writes, Bool.or_eq_false_iff, Template.handles, List.mem_append, or_imp,
    forall_and] at hw hh
  exact ⟨⟨hw.1.1, hh.1.1⟩, ⟨hw.1.2, hh.1.2⟩, hw.2, hh.2⟩

end Fits

def lift (N n : Nat) : Nat := if n < N then n else n + 1

theorem lift_of_lt {N n : Nat} (h : n < N) : lift N n = n := if_pos h

theorem lift_of_le {N n : Nat} (h : N ≤ n) : lift N n = n + 1 := if_neg (Nat.not_lt.2 h)

theorem lift_ne (N n : Nat) : lift N n ≠ N := by
  unfold lift
  split <;> omega

theorem lift_inj {N n m : Nat} : lift N n = lift N m ↔ n = m := by
  unfold lift
  split <;> split <;> omega

mutual

def View.lift (N : NodeId) : View → View
  | .empty => .empty
  | .text s => .text s
  | .fragment children => .fragment (View.liftAll N children)
  | .dynamic n => .dynamic (HotSwap.lift N n)

def View.liftAll (N : NodeId) : List View → List View
  | [] => []
  | v :: rest => v.lift N :: View.liftAll N rest

end

def Content.lift (N : NodeId) : Content → Content
  | .view v => .view (v.lift N)
  | x => x

def Node.lift (N : NodeId) : Node → Node
  | .memo m => .memo { m with value := m.value.map (Content.lift N) }
  | x => x

mutual

theorem View.lift_of_lt {N : NodeId} : ∀ {v : View}, (∀ n ∈ v.nodes, n < N) → v.lift N = v
  | .empty, _ => rfl
  | .text _, _ => rfl
  | .fragment _, h => congrArg View.fragment (View.liftAll_of_lt h)
  | .dynamic n, h => congrArg View.dynamic (HotSwap.lift_of_lt (h n (List.mem_singleton_self n)))

theorem View.liftAll_of_lt {N : NodeId} :
    ∀ {vs : List View}, (∀ n ∈ View.nodesAll vs, n < N) → View.liftAll N vs = vs
  | [], _ => rfl
  | v :: rest, h => by
    rw [View.nodesAll] at h
    rw [View.liftAll, View.lift_of_lt fun n hn => h n (List.mem_append_left _ hn),
      View.liftAll_of_lt fun n hn => h n (List.mem_append_right _ hn)]

end

end HotSwap
