import HotSwap.Proofs.Evaluation.Showing
import HotSwap.Proofs.Mount.Preserves
/-!
# What is rendered

A function renders to a view that is worth its output. A proxy over a plain component renders what
that renders; any other proxy mounts a node.
-/

namespace HotSwap

open Machine

variable {out : ComponentId → Json → String} {stood : Store.Stood}
  {pending : NodeId → Prop} {past : Store → Prop} {s t : Store} {d : Nat}

namespace Store

theorem Worth.known {v : View} {x : String} {n : NodeId} (h : Worth past s v x)
    (hv : v = .dynamic n) :
    ∃ m label body props, s.nodes[n]? = some (.memo m) ∧ m.recipe = .template label body props := by
  subst hv
  cases h with
  | dynamic _ _ hn hr _ _ => exact ⟨_, _, _, _, hn, hr⟩

/-- The view that a proxy or function in a cell was just rendered to. -/
structure Rendered (out : ComponentId → Json → String) (stood : Stood) (past : Store → Prop)
    (s : Store) (props : Json) (k : ComponentId) (v : View) : Prop where
  fits : ∀ l, Matches out stood past s l props k v
  known : ∀ ⦃n : NodeId⦄, v = .dynamic n → ∃ m, s.nodes[n]? = some (.memo m)
  held : ∀ ⦃n : NodeId⦄ ⦃m : Memo⦄ {cell props' scope}, v = .dynamic n →
    s.nodes[n]? = some (.memo m) → m.recipe = .mount cell props' scope →
      .node n ∈ s.live ∧ m.value = none

theorem Rendered.of_worth {k : ComponentId} {props : Json} {v : View} {x : String}
    (h : ∀ l, Matches out stood past s l props k v) (hv : Worth past s v x) :
    Rendered out stood past s props k v where
  fits := h
  known n e := by
    obtain ⟨m, -, -, -, hm, -⟩ := hv.known e
    exact ⟨m, hm⟩
  held n m _ _ _ e hn hr := by
    obtain ⟨m', _, _, _, hm', hr'⟩ := hv.known e
    obtain rfl : m = m' := by simpa [hn] using hm'
    rw [hr] at hr'
    cases hr'

theorem Coherent.content (h : Coherent out stood pending past s) {k : ComponentId} {p : Proxy}
    (hp : s.components[k]? = some (.proxy p)) :
    ∃ j, s.nodes[p.cell]? = some (.cell (some j)) ∧ Occupies out stood s p.cell j := by
  obtain ⟨x, hx⟩ := h.proxied hp
  obtain ⟨j, rfl, hj⟩ := h.standing hx
  exact ⟨j, hx, hj⟩

theorem mild_mounted {k : ComponentId} {p : Proxy} (hp : s.components[k]? = some (.proxy p))
    (props : Json) : s.Mild (s.mounted p.cell props) := by
  have hmount : s.Mountable (.mount p.cell props s.provided) := by
    rintro _ _ _ ⟨⟩
    exact ⟨k, p, hp, rfl⟩
  refine .add_node (indifferent_steady.addMemo hmount) (by simp) ?_
  rintro m ⟨⟩
  exact ⟨rfl, hmount⟩

variable (hc : (calls d).Within (Preserves out) (calls d))

include hc

theorem Coherent.render_function (h : Coherent out stood pending past s) {k : ComponentId}
    {f : FunctionComponent} (hf : s.components[k]? = some (.function f))
    (hd : Depends s f.body (out k)) {props : Json} {v : View}
    (ht : renderComponent (calls d) k props s = some (v, t)) :
    ∃ past', (∀ a, past a → past' a) ∧ Coherent out stood pending past' t ∧ s.Precedes t ∧
      Worth past' t v (out k props) := by
  have hR := (accommodating_preserves out).toAdmissible
  simp only [renderComponent, bind_apply, component?_apply, hf, Option.bind_some, emit,
    modify_apply] at ht
  have hs : Preserves out s { s with trace := .render k f.name :: s.trace } := hR.emit s _
  have hp := hs.toGrows.precedes
  obtain ⟨past₁, hpast₁, h₁⟩ := hs.coherent h
  have hbody := (Template.eval_within hR hc { props } f.body _ ht).2
  obtain ⟨past₂, hpast₂, h₂⟩ := hbody.coherent h₁.remember
  refine ⟨past₂, fun a ha => hpast₂ a (.inl (hpast₁ a ha)), h₂, hp.trans hbody.toGrows.precedes, ?_⟩
  refine (hd.eval hp ht).weaken ?_ (.refl t)
  rintro _ rfl
  exact hpast₂ _ (.inr rfl)

theorem Coherent.render (h : Coherent out stood pending past s) {c : NodeId} {k : ComponentId}
    (hk : Occupies out stood s c k) {props : Json} {v : View}
    (ht : renderComponent (calls d) k props s = some (v, t)) :
    ∃ past', (∀ a, past a → past' a) ∧ Coherent out stood pending past' t ∧ s.Precedes t ∧
      Rendered out stood past' t props k v := by
  rcases hk with ⟨p, hp⟩ | ⟨f, hf, hd, -⟩
  · obtain ⟨j, hj, hoccupies⟩ := h.content hp
    rw [render_delegate _ hp hj] at ht
    split at ht
    · cases ht
      have hs := mild_mounted hp props
      have hself : (s.mounted p.cell props).nodes[s.nodes.length]? =
          some (.memo { recipe := .mount p.cell props s.provided }) := List.getElem?_concat_length
      refine ⟨past, fun _ => id, h.mild hs, hs.precedes, fun _ => .mounted hp rfl hself rfl,
        ?_, ?_⟩
      · rintro n ⟨⟩
        exact ⟨_, hself⟩
      · rintro n m _ _ _ ⟨⟩ hn -
        obtain rfl : _ = m := by simpa [hself] using hn
        exact ⟨List.mem_cons_self .., rfl⟩
    · rename_i hdev
      -- a plain component: the proxy renders it at once, and does not hear of its successor
      have hplain : renderComponent (calls d) j props s = some (v, t) :=
        ((calls_le (Nat.le_succ d)).render j props s ht).1
      rcases hoccupies with ⟨q, hq⟩ | ⟨f, hf, hd, hstood⟩
      · simp [hq, Component.isDev] at hdev
      · obtain ⟨past', hpast, hc', hprec, hv⟩ := h.render_function hc hf hd hplain
        obtain ⟨g, hg, e⟩ := hprec.function hf
        have hdev : g.dev = false := by simpa [hf, Component.isDev, e.dev] using hdev
        exact ⟨past', hpast, hc', hprec, .of_worth
          (fun l => .frozen (hprec.proxy hp) (hstood l v) ⟨g, hg, hdev⟩ hv) hv⟩
  · obtain ⟨past', hpast, hc', hprec, hv⟩ := h.render_function hc hf hd ht
    obtain ⟨g, hg, -⟩ := hprec.function hf
    exact ⟨past', hpast, hc', hprec, .of_worth (fun _ => .function hg hv) hv⟩

end Store

end HotSwap
