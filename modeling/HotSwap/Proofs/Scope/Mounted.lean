import HotSwap.Proofs.Context.Scope
import HotSwap.Proofs.Scope.Faithful
import HotSwap.Proofs.Scope.Moves
/-!
# A node sees the providers that it was made under

When a mounted node is computed, what surrounds the reader does not matter: the node shows what the
body in its cell shows now where the providers stand that surrounded the proxy when it was rendered.
-/

namespace HotSwap

open Machine

namespace Store

/-- The node, which was made in `u`, is going to be computed when it is read in `s`. -/
inductive Awaits (u : Store) (n cell : NodeId) (s : Store) : Prop
  /-- It has never been read. -/
  | made (hs : u.Moves s) (unread : s.reads n = u.reads n)
  /-- It lives, and its cell was redirected since it was last read. -/
  | redirected {v w : Store} {k : Option ComponentId} (hv : u.Moves v)
    (h : setCell cell k v = some ((), w)) (hs : w.Moves s) (live : .node n ∈ s.live)
    (unread : s.reads n = v.reads n)
  /-- It was marked since it was last read; the redirection that marked it may still be under way. -/
  | marked {v : Store} {m : Memo} (hv : u.Moves v) (hm : v.nodes[n]? = some (.memo m))
    (hf : m.freshness ≠ .clean) (hs : v.Moves s) (unread : s.reads n = v.reads n)

variable {u s : Store} {n cell : NodeId}

theorem Awaits.stale {m : Memo} {props : Json} {scope : Scope} (h : Awaits u n cell s)
    (hn : u.nodes[n]? = some (.memo m)) (hr : m.recipe = .mount cell props scope) (due : m.Due)
    (hne : cell ≠ n) :
    ∃ m', s.nodes[n]? = some (.memo m') ∧ m'.recipe = .mount cell props scope ∧ m'.Due := by
  suffices hs : u.Guards n s ∧ s.Stale n by
    obtain ⟨m', hm', due'⟩ := hs.2
    obtain ⟨m'', hm'', er⟩ := hs.1.memo hn
    obtain rfl : m' = m'' := by simpa [hm'] using hm''
    exact ⟨m', hm', er.trans hr, due'⟩
  cases h with
  | made hs unread => exact ⟨hs.guards n, (hs.guards n).stale unread ⟨m, hn, due⟩⟩
  | @redirected v w k hv h hs live unread =>
    have hguards := hv.guards n
    obtain ⟨m₁, hm₁, er⟩ := hguards.memo hn
    have hheeds : v.Heeds n cell := hguards.heeds hn hr (.inl ⟨m, hn, due⟩)
    obtain ⟨hredirect, htold⟩ := stale_of_redirect hne hm₁ (er.trans hr) hheeds h
    have h₁ := reads_le hredirect.trace n
    have h₂ := reads_le (hs.guards n).trace n
    obtain ⟨m₂, hm₂, -⟩ := hredirect.memo hm₁
    have hlive := (hs.guards n).live (List.getElem?_eq_some_iff.1 hm₂).1 live
    exact ⟨(hguards.trans hredirect).trans (hs.guards n),
      (hs.guards n).stale (by omega) (htold hlive (by omega))⟩
  | marked hv hm hf hs unread =>
    exact ⟨(hv.guards n).trans (hs.guards n),
      (hs.guards n).stale unread ⟨_, hm, fun e => absurd e hf⟩⟩

end Store

open Store

theorem Machine.renderComponent_mounts {s : Store} {q : ComponentId} {p : Proxy}
    {k : Option ComponentId} (hq : s.components[q]? = some (.proxy p))
    (hp : s.nodes[p.cell]? = some (.cell k)) (hk : ∀ j, k = some j → s.dev j = true) (c : Calls)
    (props : Json) :
    renderComponent c q props s = some (.dynamic s.nodes.length, s.mounted p.cell props) := by
  cases k with
  | none =>
    have hheld : s.held p.cell = none := by simp [held, hp]
    simp only [renderComponent, bind_apply, component?_apply, hq, Option.bind_some, renderProxy,
      cellContent_apply, hheld]
    rfl
  | some j =>
    rw [render_delegate c hq hp, if_pos]
    exact hk j rfl

section

variable {K : ComponentId → Prop} {s : Store}

/-- What is rendered from a component and resolved, wherever it is made. -/
theorem render_resolve_eq (hK : s.Contextual K) {k : ComponentId} (hk : K k) (props : Json)
    (scope : Scope) (d e : Nat) :
    (((calls d).render k props >>= (calls e).resolve) (s.inScope scope)).map Prod.fst =
      ((s.lexical d).render scope k props).bind (s.lexical e).resolve := by
  have hs : s.Same (s.inScope scope) := ⟨rfl, rfl, rfl, id⟩
  have hanswers : Answers [] (s.inScope scope) ((calls d).render k props >>= (calls e).resolve)
      ((s.lexical d).render scope k props >>= (s.lexical e).resolve) fun w w' _ => w = w' :=
    .bind ((calls_faithful hK d).render props hs hk) (fun _ => .inl) fun v draft t ht hv =>
      ⟨v.nodes, fun n hn => .inr (hv.young n hn),
        (calls_faithful hK e).resolve (hs.trans ht.toSame) hv.drafts hv.nodup⟩
  exact hanswers.map_eq

theorem resolve_mount_eq (hK : s.Contextual K) {n cell : NodeId} {props : Json} {scope : Scope}
    (hv : (View.dynamic n).Drafts (s.Occupied K) s.nodes (.mount cell props scope)) (surroundings : Scope)
    (d : Nat) :
    ((calls d).resolve (.dynamic n) (s.inScope surroundings)).map Prod.fst =
      (s.lexical d).resolve (.mount cell props scope) :=
  ((calls_faithful hK d).resolve (s := s.inScope surroundings) ⟨rfl, rfl, rfl, id⟩ hv
    (by simp [View.nodes])).map_eq

end

/-- A node that is read for the first time, or again after its cell was redirected, shows the live
body with the providers that surrounded the proxy, whoever reads it. The body's own providers stand
in front of these for what it makes inside them. -/
theorem mounted_node_lexical {u u' s : Store} {q k : ComponentId} {p : Proxy}
    {j : Option ComponentId} {f : FunctionComponent} {n : NodeId} {props : Json} {depth : Nat}
    {K : ComponentId → Prop} (hq : u.components[q]? = some (.proxy p))
    (hp : u.nodes[p.cell]? = some (.cell j)) (hj : ∀ i, j = some i → u.dev i = true)
    (hu : (calls depth).render q props u = some (.dynamic n, u')) (hs : Awaits u' n p.cell s)
    (hk : s.nodes[p.cell]? = some (.cell (some k))) (hf : s.components[k]? = some (.function f))
    (hK : s.Contextual K) (hkK : K k) (d : Nat) :
    let shown := (f.body.under s (s.lexical d) { props } u.provided).bind (s.lexical (d + 2)).resolve
    (∀ surroundings, ((calls (d + 3)).resolve (.dynamic n) (s.inScope surroundings)).map Prod.fst =
      shown) ∧
    (((calls (d + 1)).render k props >>= (calls (d + 2)).resolve) (s.inScope u.provided)).map
      Prod.fst = shown := by
  have hbody : (s.lexical (d + 1)).render u.provided k props =
      f.body.under s (s.lexical d) { props } u.provided := by
    simp only [lexical, rendered, hf]
  have hheld : s.held p.cell = some k := by simp [held, hk]
  refine ⟨fun surroundings => ?_, ?_⟩
  · cases depth with
    | zero => cases hu
    | succ depth =>
      obtain ⟨rfl, rfl⟩ : u.nodes.length = n ∧ u.mounted p.cell props = u' := by
        have hmount := renderComponent_mounts hq hp hj (calls depth) props
        cases hmount.symm.trans hu
        exact ⟨rfl, rfl⟩
      have hne : p.cell ≠ u.nodes.length := Nat.ne_of_lt (List.getElem?_eq_some_iff.1 hp).1
      obtain ⟨m, hm, hr, due⟩ := hs.stale (m := { recipe := .mount p.cell props u.provided })
        List.getElem?_concat_length rfl (by rintro ⟨⟩) hne
      have hcell : s.Occupied K p.cell := ⟨some k, hk, by rintro _ ⟨⟩; exact hkK⟩
      rw [resolve_mount_eq hK ⟨hcell, m, hm, hr, due⟩, ← hbody]
      simp [lexical, Draft.resolved, Lexical.mounted, hheld]
  · rw [render_resolve_eq hK hkK, hbody]

namespace Store

/-- A greeting of what surrounds it, and inside a provider another one, by a proxy of its own. -/
def greeting : Store where
  nodes := [.cell (some 0), .cell (some 1)]
  components := [
    .function ⟨"greeting", "greeting", true, .empty,
      .fragment [.text (.use 0), .provide 0 (.literal (.string "inner")) (.child 3 .props)]⟩,
    .function ⟨"name", "name", true, .empty, .text (.use 0)⟩,
    .proxy ⟨"greeting", none, 0⟩,
    .proxy ⟨"name", none, 1⟩]
  contexts := [⟨0, 0, .string "nobody"⟩]
  providers := [0]
  tokens := 1
  provided := [(0, .string "outer")]

theorem greeting_contextual : (greeting.mounted 0 .null).Contextual (· ∈ [0, 1, 2, 3]) where
  function k f hk hf := by
    obtain rfl | rfl | rfl | rfl : k = 0 ∨ k = 1 ∨ k = 2 ∨ k = 3 := by simpa using hk
    · cases hf
      simp [Template.Contextual, Template.ContextualAll, Expr.Contextual]
    · cases hf
      simp [Template.Contextual, Expr.Contextual]
    · cases hf
    · cases hf
  proxy k p hk hp := by
    obtain rfl | rfl | rfl | rfl : k = 0 ∨ k = 1 ∨ k = 2 ∨ k = 3 := by simpa using hk
    · cases hp
    · cases hp
    · cases hp
      exact ⟨some 0, rfl, by simp⟩
    · cases hp
      exact ⟨some 1, rfl, by simp⟩

/-- Read where something else is provided, it still greets what surrounded it. -/
theorem greeting_in_reader :
    ((calls 4).resolve (.dynamic 2)
      ((greeting.mounted 0 .null).inScope [(0, .string "reader")])).map Prod.fst =
        some (.fragment [.text "outer", .text "inner"]) :=
  have hrender : (calls 1).render 2 .null greeting = some (.dynamic 2, greeting.mounted 0 .null) := rfl
  ((mounted_node_lexical (j := some 0) rfl rfl (by rintro _ ⟨⟩; rfl) hrender (.made .refl rfl) rfl rfl
    greeting_contextual (by decide) 1).1 _).trans rfl

end Store

end HotSwap
