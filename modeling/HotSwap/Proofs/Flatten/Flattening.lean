import HotSwap.Proofs.Flatten.Evaluation
import HotSwap.Proofs.Flatten.Text
/-!
# Flattening views

A view with a finite unfolding is resolved by reading its nodes as they occur, each once. Nothing is
read a second time to resolve what came out, or to put its text together. Whoever resolves the view
subscribes to the nodes of the unfolding and to nothing else.
-/

namespace HotSwap

open Machine

/-- What a view leads to writes nothing, and does not lead to `r`. -/
def Store.Apart (s : Store) (v : View) (r : NodeId) : Prop :=
  r < s.nodes.length ∧ ∃ H : Handle → Prop,
    s.Closed s.nodes.length H ∧ (∀ h ∈ v.handles, H h) ∧ ¬ H (.node r)

namespace Unfolding

/-- What comes of flattening a view with this unfolding. -/
structure Flattens (d : Nat) (u : Unfolding) (s t : Store) : Prop where
  resolve : ∀ e, d + u.height < e → (calls e).resolve u.view s = some (u.resolved, t)
  nodeless : u.resolved.nodes = []
  /-- What is resolved is resolved to itself, and nothing happens. -/
  again : ∀ e (s' : Store), (calls (e + 1)).resolve u.resolved s' = some (u.resolved, s')
  /-- The text costs no more reads than resolving the view does. -/
  text : ∀ e fuel, d + u.height < e → u.resolved.depth < fuel →
    textByParts (calls e) fuel u.view s = some (String.join u.resolved.leaves, t)
  textAgain : ∀ e fuel (s' : Store), u.resolved.depth < fuel →
    textByParts (calls (e + 1)) fuel u.resolved s' = some (String.join u.resolved.leaves, s')
  /-- The text of a view that is held while it is resolved, and then let go. -/
  textOf : ∀ e (s' : Store), d + u.height < e →
    s = { s' with pinned := u.view.handles ++ s'.pinned } →
      textOf (calls e) u.view s' =
        some (String.join u.resolved.leaves, Store.collect { t with pinned := s'.pinned })
  /-- Whoever resolves the view reads each node where it occurs, and subscribes to just these. -/
  reads : ∀ r xs rest, s.frames = ⟨some r, xs⟩ :: rest → s.Apart u.view r → s.ReadBy r u.reads t

variable {N : Nat} {H : Handle → Prop} {r n : NodeId} {d : Nat} {s t : Store} {x : Content}

theorem handles_toView (hx : AllKnown N H x.handles) : AllKnown N H x.toView.handles := by
  cases x with
  | view v => exact hx
  | _ => exact .nil

theorem allKnown_cons {v : View} {vs : List View} :
    AllKnown N H (View.fragment (v :: vs)).handles ↔
      AllKnown N H v.handles ∧ AllKnown N H (View.fragment vs).handles := by
  simp only [AllKnown, View.handles, View.nodes, View.nodesAll, List.map_append,
    List.forall_mem_append]

theorem mem_readers_tracked {m : NodeId} (hs : s.reader? = some r) :
    r ∈ Edges.readers (s.tracked n).edges m ↔ r ∈ Edges.readers s.edges m ∨ m = n := by
  rcases s.tracked_cases n with ⟨hnone, _⟩ | ⟨k, xs, rest, hf, ht⟩
  · rw [hs] at hnone
    cases hnone
  · obtain rfl : k = r := by simpa [Store.reader?, hf] using hs
    rw [ht, Edges.mem_readers_subscribe_iff, and_iff_left rfl]

theorem live_tracked (s : Store) (n : NodeId) : (s.tracked n).live = s.live := by
  unfold Store.tracked
  split <;> rfl

theorem closed_tracked (hc : s.Closed N H) (n : NodeId) : (s.tracked n).Closed N H := by
  refine hc.congr (s.nodes_tracked n) ?_
  unfold Store.tracked
  split <;> rfl

/-- Whoever reads a source subscribes to it and to nothing else, whatever its memo goes through. -/
theorem read_reads (hr : ¬ Known N H (.node r)) (hn : Known N H (.node n)) (hc : s.Closed N H)
    (hb : N ≤ s.nodes.length) (hs : s.reader? = some r) (h : (calls d).read n s = some (x, t)) :
    AllKnown N H x.handles ∧ s.Reads N H r [n] t := by
  cases d with
  | zero => cases h
  | succ d =>
    obtain ⟨_, _, htrack, h⟩ := bind_eq_some.1 h
    cases htrack
    change (content (calls d) n >>= _) (s.tracked n) = _ at h
    obtain ⟨y, u, hu, h⟩ := bind_eq_some.1 h
    obtain ⟨hy, hsu⟩ := content_sparing hr (calls_sparing hr d) hn (F := fun _ => True)
      (closed_tracked hc n) (by rwa [s.nodes_tracked n]) trivial hu
    have hru : u.reader? = some r := by rw [hsu.reader, s.reader?_tracked, hs]
    cases h
    refine ⟨hy, { hsu with
      trace := ?_
      live := fun hl => by simpa [live_tracked] using hsu.live hl
      readers := fun hl m => ?_
      closed := hsu.closed.congr rfl rfl
      frames := hsu.frames.trans (s.readers_tracked n) }⟩
    · obtain ⟨es, he, hes⟩ := hsu.trace
      refine ⟨.read (some r) n x :: es, ?_, by rw [readsOf_read_self, hes]; rfl⟩
      change Event.read u.reader? n x :: u.trace = _
      rw [hru, he, s.trace_tracked, List.cons_append]
    · rw [List.mem_singleton, ← mem_readers_tracked hs]
      simpa using hsu.readers hl m

mutual

theorem Runs.reads (hr : ¬ Known N H (.node r)) : ∀ (u : Unfolding) {s t : Store},
    u.Runs (calls d) s t → AllKnown N H u.view.handles → s.Closed N H → N ≤ s.nodes.length →
      s.reader? = some r → s.Reads N H r u.reads t
  | .empty, _, _, h, _, hc, hb, _ | .text _, _, _, h, _, hc, hb, _ => by
    cases h
    exact .refl hc hb
  | .fragment children, _, _, h, hv, hc, hb, hs => RunsAll.reads hr children h hv hc hb hs
  | .dynamic n under, s, t, ⟨x, s₁, s₂, hread, hx, hu, ht⟩, hv, hc, hb, hs => by
    obtain ⟨hk, h₁⟩ := read_reads hr (hv _ (List.mem_singleton_self _)) hc hb hs hread
    have hunder : AllKnown N H under.view.handles := hx ▸ handles_toView hk
    have hpin := Store.Reads.pinned (r := r) h₁.closed h₁.bound (under.view.handles ++ s₁.pinned)
    have h₂ := Runs.reads hr under hu hunder hpin.closed hpin.bound (h₁.reader.trans hs)
    have hunpin := Store.Reads.pinned (r := r) h₂.closed h₂.bound s₁.pinned
    have hend : s₂.Reads N H r [] t := ht ▸ hunpin.trans (.collect hunpin.closed hunpin.bound)
    simpa [reads] using ((h₁.trans hpin).trans h₂).trans hend

theorem RunsAll.reads (hr : ¬ Known N H (.node r)) : ∀ (us : List Unfolding) {s t : Store},
    RunsAll (calls d) us s t → AllKnown N H (View.fragment (viewAll us)).handles →
      s.Closed N H → N ≤ s.nodes.length → s.reader? = some r → s.Reads N H r (readsAll us) t
  | [], _, _, h, _, hc, hb, _ => by
    cases h
    exact .refl hc hb
  | u :: rest, _, _, ⟨_, hu, hrest⟩, hv, hc, hb, hs => by
    obtain ⟨hv, hvs⟩ := allKnown_cons.1 hv
    have h₁ := Runs.reads hr u hu hv hc hb hs
    exact h₁.trans (RunsAll.reads hr rest hrest hvs h₁.closed h₁.bound (h₁.reader.trans hs))

end

theorem Runs.flattens {u : Unfolding} (h : u.Runs (calls d) s t) : u.Flattens d s t := by
  have hresolve : ∀ e, d + u.height < e → (calls e).resolve u.view s = some (u.resolved, t) := by
    intro e he
    obtain ⟨e, rfl⟩ : ∃ k, e = k + 1 := ⟨e - 1, by omega⟩
    exact resolveView_of_runs u h (by omega)
  have hnodes := nodes_resolved u
  refine ⟨hresolve, hnodes, ?_, ?_, ?_, ?_, ?_⟩
  · intro e s'
    exact calls_resolve_of_nodeless e u.resolved s' hnodes
  · intro e fuel he hf
    obtain ⟨e, rfl⟩ : ∃ k, e = k + 1 := ⟨e - 1, by omega⟩
    rw [View.join_leaves]
    exact textByParts_of_resolve (calls_resolve_of_nodeless e) (hresolve _ he) hnodes hf
  · intro e fuel s' hf
    rw [View.join_leaves]
    exact textByParts_of_nodeless (calls_resolve_of_nodeless e) hnodes hf
  · intro e s' he hs
    have hfirst := hresolve e he
    rw [hs] at hfirst
    simp [Machine.textOf, Machine.borrowing, keeping_apply, hfirst, collect_apply,
      View.join_leaves]
  · rintro r xs rest hf ⟨hlt, H, hc, hv, hr⟩
    have hknown : ¬ Known s.nodes.length H (.node r) := not_or.2 ⟨Nat.not_le.2 hlt, hr⟩
    have hs : s.reader? = some r := by simp [Store.reader?, hf]
    exact (Runs.reads hknown u h (AllKnown.of_mem hv) hc (Nat.le_refl _) hs).toReadBy

end Unfolding

/-- A view resolves exactly if it has a finite unfolding, and is flattened then. -/
theorem View.resolves_by_unfolding (v : View) (s : Store) :
    ((∃ e w t, (calls e).resolve v s = some (w, t)) ↔
      ∃ d u t, u.view = v ∧ Unfolding.Runs (calls d) u s t) ∧
    ∀ d u t, u.view = v → Unfolding.Runs (calls d) u s t → u.Flattens d s t := by
  refine ⟨⟨?_, ?_⟩, fun d u t _ h => h.flattens⟩
  · rintro ⟨e, w, t, h⟩
    obtain ⟨u, hv, -, hu⟩ := Unfolding.runs_of_calls e h
    exact ⟨e, u, t, hv, hu⟩
  · rintro ⟨d, u, t, rfl, h⟩
    exact ⟨_, _, _, h.flattens.resolve _ (Nat.lt_succ_self _)⟩

namespace Store

/-- A node that shows a text and another node, and an effect that runs. -/
def panel : Store where
  nodes := [
    .memo ⟨.template "name" (.text (.literal (.string "y"))) .null, none, .dirty⟩,
    .memo ⟨.template "row" (.fragment [.text (.literal (.string "x")), .use (.dynamic 0)]) .null,
      none, .dirty⟩,
    .effect ⟨"show", .text (.fragment [.dynamic 1, .text "z", .dynamic 0]), false, 0, 0⟩]
  frames := [⟨some 2, []⟩]
  live := [.node 2, .node 1, .node 0]
  roots := [.node 2]

def panelView : Unfolding :=
  .fragment [.dynamic 1 (.fragment [.text "x", .dynamic 0 (.text "y")]), .text "z",
    .dynamic 0 (.text "y")]

theorem panel_runs : ∃ t, panelView.Runs (calls 1) panel t := by
  refine ⟨_, _, ⟨_, _, _, rfl, rfl, ⟨_, rfl, _, ⟨_, _, _, rfl, rfl, rfl, rfl⟩, rfl⟩, rfl⟩, _, rfl,
    _, ⟨_, _, _, rfl, rfl, rfl, rfl⟩, rfl⟩

theorem panel_memo {n : NodeId} {m : Memo} (h : panel.nodes[n]? = some (.memo m)) :
    m.value = none ∧ m.recipe.Fits fun a => a = .node 0 ∨ a = .node 1 := by
  match n with
  | 0 =>
    cases h
    exact ⟨rfl, rfl, nofun⟩
  | 1 =>
    cases h
    exact ⟨rfl, rfl, fun a ha => .inl (List.mem_singleton.1 ha)⟩
  | 2 => cases h
  | _ + 3 => cases h

theorem panel_apart : panel.Apart panelView.view 2 := by
  refine ⟨by decide, fun a => a = .node 0 ∨ a = .node 1, ⟨nofun, nofun, ?_, ?_, ?_⟩, ?_, by decide⟩
  · intro n k _ h
    match n with
    | 0 | 1 | 2 | _ + 3 => cases h
  · exact fun n m _ h => (panel_memo h).2
  · intro n m x _ h hx
    rw [(panel_memo h).1] at hx
    cases hx
  · decide

theorem panel_flattened : ∃ t,
    (calls 9).resolve panelView.view panel =
      some (.fragment [.fragment [.text "x", .text "y"], .text "z", .text "y"], t) ∧
    textByParts (calls 9) 9 panelView.view panel = some ("xyzy", t) ∧
    panel.ReadBy 2 [1, 0, 0] t := by
  obtain ⟨t, ht⟩ := panel_runs
  have h := (View.resolves_by_unfolding panelView.view panel).2 1 panelView t rfl ht
  exact ⟨t, h.resolve 9 (by decide), h.text 9 9 (by decide) (by decide),
    h.reads 2 [] [] rfl panel_apart⟩

end Store

end HotSwap
