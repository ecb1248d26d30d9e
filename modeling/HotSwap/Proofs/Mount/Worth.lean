import HotSwap.Proofs.Edit.Module
/-!
# Bodies whose output depends on nothing but the props

`s.Depends body out` says that from `s` on, whatever a program does, evaluating `body` with some
props ends, and gives a view that is worth the text `out props`. The reactive nodes that stand in
such a view were made by the evaluation itself, and their bodies depend on nothing else either. So
the view goes on to show that text whenever it is resolved.
-/

namespace HotSwap

open Machine

namespace Store

/-- What `s` knows is in `t` what it was. -/
structure Precedes (s t : Store) : Prop where
  nodes : s.nodes.length ≤ t.nodes.length
  proxy : ∀ {k : ComponentId} {p : Proxy}, s.components[k]? = some (.proxy p) →
    t.components[k]? = some (.proxy p)
  function : ∀ {k : ComponentId} {f : FunctionComponent}, s.components[k]? = some (.function f) →
    ∃ g, t.components[k]? = some (.function g) ∧ f.Alike g
  memo : ∀ {n : NodeId} {m : Memo}, s.nodes[n]? = some (.memo m) →
    ∃ m', t.nodes[n]? = some (.memo m') ∧ m'.recipe = m.recipe

variable {s t u : Store}

theorem Grows.precedes (h : s.Grows t) : s.Precedes t := ⟨h.nodes, h.proxy, h.function, h.memo⟩

theorem Precedes.refl (s : Store) : s.Precedes s := (Grows.refl s).precedes

theorem Precedes.trans (h : s.Precedes t) (h' : t.Precedes u) : s.Precedes u where
  nodes := Nat.le_trans h.nodes h'.nodes
  proxy hp := h'.proxy (h.proxy hp)
  function hf := by
    obtain ⟨g, hg, a⟩ := h.function hf
    obtain ⟨g', hg', b⟩ := h'.function hg
    exact ⟨g', hg', a.trans b⟩
  memo hn := by
    obtain ⟨m, hm, e⟩ := h.memo hn
    obtain ⟨m', hm', e'⟩ := h'.memo hm
    exact ⟨m', hm', e'.trans e⟩

mutual

/-- The view shows `text`. Its reactive nodes were made after one of the stores of which `past` is
true, and depend on nothing since. -/
inductive Worth : (Store → Prop) → Store → View → String → Prop
  | empty {past : Store → Prop} {s : Store} : Worth past s .empty ""
  | text {past : Store → Prop} {s : Store} {x : String} : Worth past s (.text x) x
  | fragment {past : Store → Prop} {s : Store} {vs : List View} {x : String}
    (h : WorthAll past s vs x) : Worth past s (.fragment vs) x
  | dynamic {past : Store → Prop} {s a : Store} {n : NodeId} {m : Memo} {label : String}
    {body : LinkedTemplate} {props : Json} {out : Json → String} {x : String} (ha : past a)
    (hlt : a.nodes.length ≤ n) (hn : s.nodes[n]? = some (.memo m))
    (hr : m.recipe = .template label body props) (hd : Depends a body out) (hx : x = out props) :
    Worth past s (.dynamic n) x

inductive WorthAll : (Store → Prop) → Store → List View → String → Prop
  | nil {past : Store → Prop} {s : Store} : WorthAll past s [] ""
  | cons {past : Store → Prop} {s : Store} {v : View} {vs : List View} {x y : String}
    (hv : Worth past s v x) (hvs : WorthAll past s vs y) : WorthAll past s (v :: vs) (x ++ y)

inductive Depends : Store → LinkedTemplate → (Json → String) → Prop
  | intro {a : Store} {body : LinkedTemplate} {out : Json → String}
    (ends : ∀ ⦃u : Store⦄, a.Precedes u → ∀ props : Json,
      ∃ depth v t, body.eval (calls depth) { props } u = some (v, t))
    (h : ∀ ⦃u : Store⦄, a.Precedes u → ∀ {depth : Nat} {props : Json} {v : View} {t : Store},
      body.eval (calls depth) { props } u = some (v, t) → Worth (· = u) t v (out props)) :
    Depends a body out

end

variable {a b : Store} {body : LinkedTemplate} {out : Json → String} {past past' : Store → Prop}

theorem Depends.ends (h : Depends a body out) (hu : a.Precedes u) (props : Json) :
    ∃ depth v t, body.eval (calls depth) { props } u = some (v, t) := by
  obtain ⟨ends, -⟩ := h
  exact ends hu props

theorem Depends.eval (h : Depends a body out) (hu : a.Precedes u) {depth : Nat} {props : Json}
    {v : View} (ht : body.eval (calls depth) { props } u = some (v, t)) :
    Worth (· = u) t v (out props) := by
  obtain ⟨-, h⟩ := h
  exact h hu ht

theorem Depends.mono (h : Depends a body out) (hab : a.Precedes b) : Depends b body out :=
  ⟨fun _ hu props => h.ends (hab.trans hu) props, fun _ hu {_ _ _ _} ht => h.eval (hab.trans hu) ht⟩

mutual

theorem Worth.mono {v : View} {x : String} (hp : ∀ a, past a → ∃ b, past' b ∧ a.Precedes b ∧
    b.nodes.length ≤ a.nodes.length) (hst : s.Precedes t) :
    Worth past s v x → Worth past' t v x
  | .empty => .empty
  | .text => .text
  | .fragment h => .fragment (h.mono hp hst)
  | .dynamic ha hlt hn hr hd hx => by
    obtain ⟨b, hb, hab, hlen⟩ := hp _ ha
    obtain ⟨m, hm, e⟩ := hst.memo hn
    exact .dynamic hb (Nat.le_trans hlen hlt) hm (e.trans hr) (hd.mono hab) hx

theorem WorthAll.mono {vs : List View} {x : String} (hp : ∀ a, past a → ∃ b, past' b ∧
    a.Precedes b ∧ b.nodes.length ≤ a.nodes.length) (hst : s.Precedes t) :
    WorthAll past s vs x → WorthAll past' t vs x
  | .nil => .nil
  | .cons hv hvs => .cons (hv.mono hp hst) (hvs.mono hp hst)

end

theorem Worth.weaken {v : View} {x : String} (h : Worth past s v x) (hp : ∀ a, past a → past' a)
    (hst : s.Precedes t) : Worth past' t v x :=
  h.mono (fun a ha => ⟨a, hp a ha, .refl a, Nat.le_refl _⟩) hst

theorem Depends.constant (a : Store) (x : String) :
    Depends a (.text (.literal (.string x))) fun _ => x := by
  refine ⟨fun u _ props => ⟨0, _, _, rfl⟩, fun u _ depth props v t h => ?_⟩
  cases h
  exact .text

theorem Depends.dynamic (h : Depends a body out) (label : String) :
    Depends a (.dynamic label body) out := by
  refine ⟨fun u _ props => ⟨0, _, _, rfl⟩, fun u hu depth props v t ht => ?_⟩
  cases ht
  exact .dynamic rfl (Nat.le_refl _) (List.getElem?_concat_length) rfl (h.mono hu) rfl

theorem Precedes.emit (s : Store) (e : Event) : s.Precedes { s with trace := e :: s.trace } :=
  ⟨Nat.le_refl _, id, fun h => ⟨_, h, .refl _⟩, fun h => ⟨_, h, rfl⟩⟩

theorem Depends.child {k : ComponentId} {f : FunctionComponent}
    (hf : a.components[k]? = some (.function f)) (h : Depends a f.body out) :
    Depends a (.child k .props) out := by
  have hrender {u : Store} (hu : a.Precedes u) : ∃ e, ∀ (depth : Nat) (props : Json),
      Template.eval (calls (depth + 1)) { props } (.child k .props) u =
        f.body.eval (calls depth) { props } { u with trace := e :: u.trace } := by
    obtain ⟨g, hg, e⟩ := hu.function hf
    refine ⟨.render k g.name, fun depth props => ?_⟩
    simp [Template.eval, Expr.eval, calls_succ, Calls.next, renderComponent, component?_apply, hg,
      emit, e.body]
  refine ⟨fun u hu props => ?_, fun u hu depth props v t ht => ?_⟩
  · obtain ⟨e, he⟩ := hrender hu
    obtain ⟨depth, v, t, ht⟩ := h.ends (hu.trans (.emit u e)) props
    exact ⟨depth + 1, v, t, (he depth props).trans ht⟩
  · cases depth with
    | zero => cases ht
    | succ depth =>
      obtain ⟨e, he⟩ := hrender hu
      refine (h.eval (hu.trans (.emit u e)) ((he depth props).symm.trans ht)).mono ?_ (.refl t)
      rintro _ rfl
      exact ⟨u, rfl, ⟨Nat.le_refl _, id, fun h => ⟨_, h, .refl _⟩, fun h => ⟨_, h, rfl⟩⟩,
        Nat.le_refl _⟩

end Store

end HotSwap
