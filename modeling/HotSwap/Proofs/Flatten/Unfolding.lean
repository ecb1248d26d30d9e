import HotSwap.Proofs.Mount.Text
import HotSwap.Proofs.Redraw.Static
/-!
# Unfolded views

The unfolding of a view has under each of its reactive nodes the unfolding of what the node held
when it was read. A view resolves if it has a finite unfolding, and then to what is left of that
without its nodes. What it is resolved to is not read again.
-/

namespace HotSwap

open Machine

inductive Unfolding
  | empty
  | text (content : String)
  | fragment (children : List Unfolding)
  | dynamic (node : NodeId) (under : Unfolding)

namespace Unfolding

mutual

def view : Unfolding → View
  | .empty => .empty
  | .text x => .text x
  | .fragment children => .fragment (viewAll children)
  | .dynamic n _ => .dynamic n

def viewAll : List Unfolding → List View
  | [] => []
  | u :: rest => u.view :: viewAll rest

end

mutual

def resolved : Unfolding → View
  | .empty => .empty
  | .text x => .text x
  | .fragment children => .fragment (resolvedAll children)
  | .dynamic _ under => under.resolved

def resolvedAll : List Unfolding → List View
  | [] => []
  | u :: rest => u.resolved :: resolvedAll rest

end

mutual

/-- The nodes where they occur: each before what stands under it, and from left to right. -/
def reads : Unfolding → List NodeId
  | .empty | .text _ => []
  | .fragment children => readsAll children
  | .dynamic n under => n :: under.reads

def readsAll : List Unfolding → List NodeId
  | [] => []
  | u :: rest => u.reads ++ readsAll rest

end

mutual

def height : Unfolding → Nat
  | .empty | .text _ => 0
  | .fragment children => heightAll children
  | .dynamic _ under => under.height + 1

def heightAll : List Unfolding → Nat
  | [] => 0
  | u :: rest => max u.height (heightAll rest)

end

mutual

/-- From `s` to `t` the nodes are read one after the other, and each holds what stands under it.
That is held in turn until it is unfolded. -/
def Runs (c : Calls) : Unfolding → Store → Store → Prop
  | .empty, s, t | .text _, s, t => t = s
  | .fragment children, s, t => RunsAll c children s t
  | .dynamic n under, s, t => ∃ x s₁ s₂, c.read n s = some (x, s₁) ∧ x.toView = under.view ∧
      under.Runs c { s₁ with pinned := under.view.handles ++ s₁.pinned } s₂ ∧
      t = Store.collect { s₂ with pinned := s₁.pinned }

def RunsAll (c : Calls) : List Unfolding → Store → Store → Prop
  | [], s, t => t = s
  | u :: rest, s, t => ∃ s', u.Runs c s s' ∧ RunsAll c rest s' t

end

mutual

theorem nodes_resolved : ∀ u : Unfolding, u.resolved.nodes = []
  | .empty | .text _ => rfl
  | .fragment children => nodes_resolvedAll children
  | .dynamic _ under => nodes_resolved under

theorem nodes_resolvedAll : ∀ us : List Unfolding, View.nodesAll (resolvedAll us) = []
  | [] => rfl
  | u :: rest => by
    rw [resolvedAll, View.nodesAll, nodes_resolved u, nodes_resolvedAll rest]
    rfl

end

variable {c : Calls} {d e : Nat}

theorem dynamic_apply {s s₁ s₂ : Store} {n : NodeId} {x : Content} {under : Unfolding}
    (hr : c.read n s = some (x, s₁)) (hx : x.toView = under.view)
    (h : c.resolve under.view { s₁ with pinned := under.view.handles ++ s₁.pinned } =
      some (under.resolved, s₂)) :
    resolveView c (.dynamic n) s =
      some (under.resolved, Store.collect { s₂ with pinned := s₁.pinned }) := by
  simp [resolveView, hr, hx, borrowing, keeping_apply, h, collect_apply]

mutual

/-- For each node that stands under another one calls have to nest deeper. -/
theorem resolveView_of_runs : ∀ (u : Unfolding) {e : Nat} {s t : Store}, u.Runs (calls d) s t →
    d + u.height ≤ e → resolveView (calls e) u.view s = some (u.resolved, t)
  | .empty, _, _, _, h, _ | .text _, _, _, _, h, _ => by
    cases h
    rfl
  | .fragment children, _, _, _, h, he => by
    simp [view, resolved, resolveView, resolveViews_of_runs children h he]
  | .dynamic n under, e, s, _, ⟨x, s₁, s₂, hr, hx, hu, ht⟩, he => by
    rw [height] at he
    obtain ⟨e, rfl⟩ : ∃ k, e = k + 1 := ⟨e - 1, by omega⟩
    have hread := ((calls_le (show d ≤ e + 1 by omega)).read n s hr).1
    have hunder := resolveView_of_runs under hu (e := e) (by omega)
    rw [ht, view, resolved]
    exact dynamic_apply hread hx hunder

theorem resolveViews_of_runs : ∀ (us : List Unfolding) {e : Nat} {s t : Store},
    RunsAll (calls d) us s t → d + heightAll us ≤ e →
      resolveViews (calls e) (viewAll us) s = some (resolvedAll us, t)
  | [], _, _, _, h, _ => by
    cases h
    rfl
  | u :: rest, e, _, _, ⟨_, hu, hrest⟩, he => by
    rw [heightAll] at he
    have hview := resolveView_of_runs u hu (e := e) (by omega)
    have hviews := resolveViews_of_runs rest hrest (e := e) (by omega)
    simp [viewAll, resolvedAll, resolveViews, hview, hviews]

end

mutual

theorem Runs.le (hde : d ≤ e) : ∀ (u : Unfolding) {s t : Store}, u.Runs (calls d) s t →
    u.Runs (calls e) s t
  | .empty, _, _, h | .text _, _, _, h => h
  | .fragment children, _, _, h => RunsAll.le hde children h
  | .dynamic n under, s, _, ⟨x, s₁, s₂, hr, hx, hu, ht⟩ =>
    ⟨x, s₁, s₂, ((calls_le hde).read n s hr).1, hx, Runs.le hde under hu, ht⟩

theorem RunsAll.le (hde : d ≤ e) : ∀ (us : List Unfolding) {s t : Store},
    RunsAll (calls d) us s t → RunsAll (calls e) us s t
  | [], _, _, h => h
  | u :: rest, _, _, ⟨s', hu, hrest⟩ => ⟨s', Runs.le hde u hu, RunsAll.le hde rest hrest⟩

end

mutual

theorem runs_of_resolveView
    (hc : ∀ {v w : View} {s t : Store}, (calls d).resolve v s = some (w, t) →
      ∃ u : Unfolding, u.view = v ∧ u.resolved = w ∧ u.Runs (calls d) s t) :
    ∀ (v : View) {w : View} {s t : Store}, resolveView (calls d) v s = some (w, t) →
      ∃ u : Unfolding, u.view = v ∧ u.resolved = w ∧ u.Runs (calls d) s t
  | .empty, _, _, _, h => by
    cases h
    exact ⟨.empty, rfl, rfl, rfl⟩
  | .text x, _, _, _, h => by
    cases h
    exact ⟨.text x, rfl, rfl, rfl⟩
  | .fragment children, w, s, t, h => by
    rw [resolveView] at h
    obtain ⟨ws, t', hws, h⟩ := bind_eq_some.1 h
    cases h
    obtain ⟨us, rfl, rfl, hus⟩ := runs_of_resolveViews hc children hws
    exact ⟨.fragment us, rfl, rfl, hus⟩
  | .dynamic n, w, s, t, h => by
    rw [resolveView] at h
    obtain ⟨x, s₁, hr, h⟩ := bind_eq_some.1 h
    simp only [borrowing, bind_apply, keeping_apply, collect_apply, pure_apply] at h
    obtain ⟨⟨w', s₂⟩, hkeep, h⟩ := Option.bind_eq_some_iff.1 h
    obtain ⟨⟨w'', s₃⟩, hres, he⟩ := Option.map_eq_some_iff.1 hkeep
    cases he
    cases h
    obtain ⟨u, hu, rfl, hruns⟩ := hc hres
    rw [← hu] at hruns
    exact ⟨.dynamic n u, rfl, rfl, x, s₁, s₃, hr, hu.symm, hruns, rfl⟩

theorem runs_of_resolveViews
    (hc : ∀ {v w : View} {s t : Store}, (calls d).resolve v s = some (w, t) →
      ∃ u : Unfolding, u.view = v ∧ u.resolved = w ∧ u.Runs (calls d) s t) :
    ∀ (vs : List View) {ws : List View} {s t : Store}, resolveViews (calls d) vs s = some (ws, t) →
      ∃ us : List Unfolding, viewAll us = vs ∧ resolvedAll us = ws ∧ RunsAll (calls d) us s t
  | [], _, _, _, h => by
    cases h
    exact ⟨[], rfl, rfl, rfl⟩
  | v :: rest, ws, s, t, h => by
    rw [resolveViews] at h
    obtain ⟨w, s', hw, h⟩ := bind_eq_some.1 h
    obtain ⟨ws', t', hws, h⟩ := bind_eq_some.1 h
    cases h
    obtain ⟨u, rfl, rfl, hu⟩ := runs_of_resolveView hc v hw
    obtain ⟨us, rfl, rfl, hus⟩ := runs_of_resolveViews hc rest hws
    exact ⟨u :: us, rfl, rfl, s', hu, hus⟩

end

theorem runs_of_calls (d : Nat) {v w : View} {s t : Store}
    (h : (calls d).resolve v s = some (w, t)) :
    ∃ u : Unfolding, u.view = v ∧ u.resolved = w ∧ u.Runs (calls d) s t := by
  induction d generalizing v w s t with
  | zero => cases h
  | succ d ih =>
    obtain ⟨u, hv, hw, hu⟩ := runs_of_resolveView ih v h
    exact ⟨u, hv, hw, hu.le (Nat.le_succ d)⟩

end Unfolding

end HotSwap
