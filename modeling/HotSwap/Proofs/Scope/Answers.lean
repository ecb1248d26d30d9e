import HotSwap.Proofs.Evaluation.Reading
import HotSwap.Proofs.Evaluation.Showing
import HotSwap.Proofs.Scope.Lexical
/-!
# The stack of providers is lexical

Evaluating a body comes to what it comes to with the providers in hand, to the same depth, and ends if
and only if that does. Meanwhile no node is touched that was there before, but for those that are
resolved; so the nodes of a view that was just made still wait to be read.
-/

namespace HotSwap

open Machine

mutual

/-- `v` is the draft `d`, and the nodes in it are still to be computed. -/
def View.Drafts (C : NodeId → Prop) (nodes : List Node) : View → Draft → Prop
  | .empty, .empty => True
  | .text a, .text b => a = b
  | .fragment vs, .fragment ds => View.DraftsAll C nodes vs ds
  | .dynamic n, .mount cell props scope =>
    C cell ∧ ∃ m, nodes[n]? = some (.memo m) ∧ m.recipe = .mount cell props scope ∧ m.Due
  | _, _ => False

def View.DraftsAll (C : NodeId → Prop) (nodes : List Node) : List View → List Draft → Prop
  | [], [] => True
  | v :: vs, d :: ds => v.Drafts C nodes d ∧ View.DraftsAll C nodes vs ds
  | _, _ => False

end

/-- Moreover its nodes are different ones, and none of them is older than `lo`. -/
structure View.Pends (C : NodeId → Prop) (lo : Nat) (v : View) (d : Draft) (nodes : List Node) :
    Prop where
  drafts : v.Drafts C nodes d
  young : ∀ n ∈ v.nodes, lo ≤ n
  nodup : v.nodes.Nodup

namespace Store

/-- Wherever `s` and `t` are asked, components, contexts and cells are the same. -/
structure Same (s t : Store) : Prop where
  components : t.components = s.components
  contexts : t.contexts = s.contexts
  providers : t.providers = s.providers
  cell : ∀ {n : NodeId} {k : Option ComponentId}, s.nodes[n]? = some (.cell k) →
    t.nodes[n]? = some (.cell k)

/-- Of the nodes that exist only those of `ns` may change, and cells do not. -/
structure Touches (ns : List NodeId) (s t : Store) : Prop extends Same s t where
  provided : t.provided = s.provided
  length : s.nodes.length ≤ t.nodes.length
  node : ∀ n < s.nodes.length, n ∉ ns → t.nodes[n]? = s.nodes[n]?

variable {s t u : Store} {ns ns' : List NodeId}

theorem Same.trans (h : s.Same t) (h' : t.Same u) : s.Same u where
  components := h'.components.trans h.components
  contexts := h'.contexts.trans h.contexts
  providers := h'.providers.trans h.providers
  cell hn := h'.cell (h.cell hn)

theorem Touches.refl (ns : List NodeId) (s : Store) : s.Touches ns s :=
  ⟨⟨rfl, rfl, rfl, id⟩, rfl, Nat.le_refl _, fun _ _ _ => rfl⟩

theorem Touches.trans (h : s.Touches ns t) (h' : t.Touches ns' u)
    (hns : ∀ n ∈ ns', n ∈ ns ∨ s.nodes.length ≤ n) : s.Touches ns u where
  toSame := h.toSame.trans h'.toSame
  provided := h'.provided.trans h.provided
  length := Nat.le_trans h.length h'.length
  node n hn hnot := by
    have hnot' : n ∉ ns' := fun hmem => (hns n hmem).elim hnot (Nat.not_le_of_lt hn)
    rw [h'.node n (Nat.lt_of_lt_of_le hn h.length) hnot', h.node n hn hnot]

theorem Touches.weaken (h : s.Touches ns t) (hns : ∀ n ∈ ns, n ∈ ns' ∨ s.nodes.length ≤ n) :
    s.Touches ns' t := (Touches.refl ns' s).trans h hns

theorem Touches.congr {s' t' : Store} (h : s'.Touches ns t') (hs : s'.nodes = s.nodes)
    (hc : s'.components = s.components) (hx : s'.contexts = s.contexts)
    (hp : s'.providers = s.providers) (ht : t.nodes = t'.nodes) (hc' : t.components = t'.components)
    (hx' : t.contexts = t'.contexts) (hp' : t.providers = t'.providers)
    (provided : t.provided = s.provided) : s.Touches ns t where
  components := hc'.trans (h.components.trans hc)
  contexts := hx'.trans (h.contexts.trans hx)
  providers := hp'.trans (h.providers.trans hp)
  cell hn := by
    rw [ht]
    exact h.cell (hs ▸ hn)
  provided := provided
  length := by
    rw [ht, ← hs]
    exact h.length
  node n hn hnot := by
    rw [ht, h.node n (hs ▸ hn) hnot, hs]

theorem provides_of_same (h : s.Same t) (c : ContextId) : t.provides c = s.provides c := by
  rw [provides, provides, contextAt, h.contexts, served, h.providers]
  rfl

theorem seen_of_same (h : s.Same t) (scope : Scope) (c : ContextId) :
    t.seen scope c = s.seen scope c := by
  rw [seen, seen, contextAt, h.contexts]
  rfl

theorem Occupied.of_held {K : ComponentId → Prop} {cell : NodeId} {k : ComponentId}
    (h : s.Occupied K cell) (hk : s.held cell = some k) : K k := by
  obtain ⟨x, hx, hK⟩ := h
  exact hK k (by simpa [held, hx] using hk)

theorem held_of_same {K : ComponentId → Prop} {cell : NodeId} (h : s.Same t)
    (hc : s.Occupied K cell) : t.held cell = s.held cell := by
  obtain ⟨k, hk, -⟩ := hc
  simp [held, hk, h.cell hk]

end Store

open Store

variable {K : ComponentId → Prop} {C : NodeId → Prop} {b s t : Store} {ns ns' : List NodeId}

mutual

theorem View.Drafts.touched {s t : Store} {ns : List NodeId} (h : s.Touches ns t) :
    ∀ {v : View} {d : Draft}, v.Drafts C s.nodes d → (∀ n ∈ v.nodes, n ∉ ns) → v.Drafts C t.nodes d
  | .empty, .empty, _, _ => trivial
  | .text _, .text _, e, _ => e
  | .fragment _, .fragment _, hv, hns => View.DraftsAll.touched h hv hns
  | .dynamic n, .mount _ _ _, ⟨hc, m, hn, hm⟩, hns => by
    refine ⟨hc, m, ?_, hm⟩
    rw [h.node n (List.getElem?_eq_some_iff.1 hn).1 (hns n (List.mem_singleton_self n)), hn]

theorem View.DraftsAll.touched {s t : Store} {ns : List NodeId} (h : s.Touches ns t) :
    ∀ {vs : List View} {ds : List Draft}, View.DraftsAll C s.nodes vs ds →
      (∀ n ∈ View.nodesAll vs, n ∉ ns) → View.DraftsAll C t.nodes vs ds
  | [], [], _, _ => trivial
  | _ :: _, _ :: _, ⟨hv, hvs⟩, hns =>
    ⟨hv.touched h fun n hn => hns n (List.mem_append_left _ hn),
      View.DraftsAll.touched h hvs fun n hn => hns n (List.mem_append_right _ hn)⟩

end

mutual

theorem View.Drafts.bound {nodes : List Node} : ∀ {v : View} {d : Draft}, v.Drafts C nodes d →
    ∀ n ∈ v.nodes, n < nodes.length
  | .empty, .empty, _, _, hn => nomatch hn
  | .text _, .text _, _, _, hn => nomatch hn
  | .fragment _, .fragment _, hv, n, hn => View.DraftsAll.bound hv n hn
  | .dynamic _, .mount _ _ _, ⟨_, _, hm, _⟩, _, hn => by
    rw [List.mem_singleton.1 hn]
    exact (List.getElem?_eq_some_iff.1 hm).1

theorem View.DraftsAll.bound {nodes : List Node} : ∀ {vs : List View} {ds : List Draft},
    View.DraftsAll C nodes vs ds → ∀ n ∈ View.nodesAll vs, n < nodes.length
  | [], [], _, _, hn => nomatch hn
  | _ :: _, _ :: _, ⟨hv, hvs⟩, n, hn =>
    (List.mem_append.1 hn).elim (hv.bound n) (View.DraftsAll.bound hvs n)

end

namespace Machine

/-- From `s` both `m` and `x` answer, and the answers are as `Q` says, or neither does. -/
def Answers (ns : List NodeId) (s : Store) (m : Machine α) (x : Option β)
    (Q : α → β → List Node → Prop) : Prop :=
  Option.Rel (fun p b => s.Touches ns p.2 ∧ Q p.1 b p.2.nodes) (m s) x

namespace Answers

variable {Q : α → β → List Node → Prop} {m : Machine α} {x : Option β}

theorem of_eq {a : α} {y : β} (h : m s = some (a, t)) (ht : s.Touches ns t) (hq : Q a y t.nodes) :
    Answers ns s m (some y) Q := by
  rw [Answers, h]
  exact .some ⟨ht, hq⟩

theorem pure {a : α} {y : β} (hq : Q a y s.nodes) : Answers ns s (Pure.pure a) (some y) Q :=
  of_eq rfl (.refl ns s) hq

theorem bind {ns₁ : List NodeId} {Q' : γ → δ → List Node → Prop} {f : α → Machine γ}
    {g : β → Option δ} (h : Answers ns₁ s m x Q) (h₁ : ∀ n ∈ ns₁, n ∈ ns ∨ s.nodes.length ≤ n)
    (hf : ∀ a y t, s.Touches ns₁ t → Q a y t.nodes →
      ∃ ns₂, (∀ n ∈ ns₂, n ∈ ns ∨ s.nodes.length ≤ n) ∧ Answers ns₂ t (f a) (g y) Q') :
    Answers ns s (m >>= f) (x >>= g) Q' := by
  rw [Answers, bind_apply]
  rw [Answers] at h
  generalize m s = p at h
  cases h with
  | none => exact .none
  | @some p y hp =>
    obtain ⟨ht, hq⟩ := hp
    obtain ⟨ns₂, h₂, hrest⟩ := hf p.1 y p.2 ht hq
    rw [Answers] at hrest
    rw [Option.bind_some, Option.bind_eq_bind, Option.bind_some]
    generalize f p.1 p.2 = p' at hrest
    generalize g y = y' at hrest
    cases hrest with
    | none => exact .none
    | some hp' => exact .some ⟨(ht.weaken h₁).trans hp'.1 h₂, hp'.2⟩

theorem seq {Q' : γ → δ → List Node → Prop} {f : α → Machine γ} {g : β → Option δ}
    (h : Answers [] s m x Q)
    (hf : ∀ a y t, s.Touches [] t → Q a y t.nodes → Answers [] t (f a) (g y) Q') :
    Answers [] s (m >>= f) (x >>= g) Q' :=
  h.bind (fun _ => .inl) fun a y t ht hq => ⟨[], fun _ => .inl, hf a y t ht hq⟩

theorem first {Q' : γ → δ → List Node → Prop} {f : α → Machine γ} {x : Option δ} {a : α}
    (h : m s = some (a, t)) (ht : s.Touches [] t) (hf : Answers ns t (f a) x Q') :
    Answers ns s (m >>= f) x Q' := by
  rw [Answers, bind_apply, h]
  rw [Answers] at hf
  rw [Option.bind_some]
  generalize f a t = p at hf
  cases hf with
  | none => exact .none
  | some hp => exact .some ⟨(ht.weaken (by simp)).trans hp.1 fun _ => .inl, hp.2⟩

theorem bind_of_eq {Q' : γ → δ → List Node → Prop} {f : α → Machine γ} {x : Option δ} {a : α}
    (h : m s = some (a, s)) (hf : Answers ns s (f a) x Q') : Answers ns s (m >>= f) x Q' := by
  rwa [Answers, bind_apply, h]

theorem andThen {ns₁ : List NodeId} {Q' : γ → β → List Node → Prop} {f : α → Machine γ}
    (h : Answers ns₁ s m x Q) (hf : ∀ a y t, s.Touches ns₁ t → Q a y t.nodes →
      ∃ c u, f a t = some (c, u) ∧ s.Touches ns u ∧ Q' c y u.nodes) :
    Answers ns s (m >>= f) x Q' := by
  rw [Answers, bind_apply]
  rw [Answers] at h
  generalize m s = p at h
  cases h with
  | none => exact .none
  | @some p y hp =>
    obtain ⟨c, u, hu, hc⟩ := hf p.1 y p.2 hp.1 hp.2
    rw [Option.bind_some, hu]
    exact .some hc

theorem mono {Q' : α → β → List Node → Prop} (h : Answers ns' s m x Q)
    (hns : ∀ n ∈ ns', n ∈ ns ∨ s.nodes.length ≤ n)
    (hq : ∀ a y t, s.Touches ns' t → Q a y t.nodes → Q' a y t.nodes) : Answers ns s m x Q' := by
  rw [Answers] at h ⊢
  generalize m s = p at h
  cases h with
  | none => exact .none
  | some hp => exact .some ⟨hp.1.weaken hns, hq _ _ _ hp.1 hp.2⟩

theorem via {m' : Machine γ} {s' : Store} {Q' : γ → β → List Node → Prop}
    (h : Answers ns' s m x Q) {f : α × Store → γ × Store} (hm : m' s' = (m s).map f)
    (hf : ∀ a y t, s.Touches ns' t → Q a y t.nodes →
      s'.Touches ns (f (a, t)).2 ∧ Q' (f (a, t)).1 y (f (a, t)).2.nodes) : Answers ns s' m' x Q' := by
  rw [Answers] at h ⊢
  rw [hm]
  generalize m s = p at h
  cases h with
  | none => exact .none
  | some hp => exact .some (hf _ _ _ hp.1 hp.2)

theorem map_eq {x : Option α} (h : Answers ns s m x fun a y _ => a = y) :
    (m s).map Prod.fst = x := by
  rw [Answers] at h
  generalize m s = p at h
  cases h with
  | none => rfl
  | some hp => exact congrArg some hp.2

theorem untracked (h : ∀ frames, Answers ns { s with frames } m x Q) :
    Answers ns s (untracked m) x Q :=
  (h _).via (untracked_apply m s) fun _ _ _ ht hq =>
    ⟨ht.congr rfl rfl rfl rfl rfl rfl rfl rfl ht.provided, hq⟩

theorem inScope {scope : Scope} (h : Answers ns { s with provided := scope } m x Q) :
    Answers ns s (inScope scope m) x Q :=
  h.via (inScope_apply scope m s) fun _ _ _ ht hq =>
    ⟨ht.congr rfl rfl rfl rfl rfl rfl rfl rfl rfl, hq⟩

theorem providing {τ : Token} {v : Json}
    (h : Answers ns { s with provided := (τ, v) :: s.provided } m x Q) :
    Answers ns s (providing τ v m) x Q :=
  h.via (providing_apply τ v m s) fun _ _ _ ht hq => ⟨ht.congr rfl rfl rfl rfl rfl rfl rfl rfl
    (congrArg List.tail ht.provided), hq⟩

theorem keeping {hs : List Handle} (h : Answers ns { s with pinned := hs ++ s.pinned } m x Q) :
    Answers ns s (keeping hs m) x Q :=
  h.via (keeping_apply hs m s) fun _ _ _ ht hq =>
    ⟨ht.congr rfl rfl rfl rfl rfl rfl rfl rfl ht.provided, hq⟩

theorem borrowing {v : View} (h : ∀ pinned, Answers ns { s with pinned } m x Q) :
    Answers ns s (borrowing v m) x Q := by
  refine (keeping (h (v.handles ++ s.pinned))).andThen fun a y t ht hq => ?_
  exact ⟨a, t.collect, rfl, ht.congr rfl rfl rfl rfl rfl rfl rfl rfl ht.provided, hq⟩

end Answers

end Machine

end HotSwap
