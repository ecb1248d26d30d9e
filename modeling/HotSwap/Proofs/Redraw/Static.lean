import HotSwap.Proofs.Evaluation.Showing
import HotSwap.Proofs.Redraw.Fast
/-!
# Bodies that read nothing reactive

What such a body renders to depends on nothing that reads and redirections change, and nor does what
it tells on the way. Rendering it lets go of what nothing holds, and does nothing else.
-/

namespace HotSwap

open Machine

mutual

/-- Nothing is tracked and nothing is written. Views come from components of `K`, or have no nodes. -/
def Expr.Static (K : ComponentId → Prop) : LinkedExpr → Prop
  | .literal _ => True
  | .props => True
  | .current => True
  | .member _ => True
  | .get _ => False
  | .peek _ => True
  | .untrack e => e.Static K
  | .add es => Expr.StaticAll K es
  | .mul es => Expr.StaticAll K es
  | .less a b => a.Static K ∧ b.Static K
  | .cond t a b => t.Static K ∧ a.Static K ∧ b.Static K
  | .concat es => Expr.StaticAll K es
  | .list es => Expr.StaticAll K es
  | .seq es => Expr.StaticAll K es
  | .set _ _ => False
  | .use _ => True
  | .provide _ v e => v.Static K ∧ e.Static K
  | .text v => v.nodes = []
  | .render k e => K k ∧ e.Static K
  | .log e => e.Static K
  | .tracking => True
  | .dispose _ => False
  | .release _ => False

def Expr.StaticAll (K : ComponentId → Prop) : List LinkedExpr → Prop
  | [] => True
  | e :: rest => e.Static K ∧ Expr.StaticAll K rest

end

mutual

def Template.Static (K : ComponentId → Prop) : LinkedTemplate → Prop
  | .empty => True
  | .text e => e.Static K
  | .fragment children => Template.StaticAll K children
  | .dynamic _ _ => False
  | .child k e => K k ∧ e.Static K
  | .provide _ v body => v.Static K ∧ body.Static K
  | .cond t a b => t.Static K ∧ a.Static K ∧ b.Static K
  | .use v => v.nodes = []

def Template.StaticAll (K : ComponentId → Prop) : List LinkedTemplate → Prop
  | [] => True
  | t :: rest => t.Static K ∧ Template.StaticAll K rest

end

/-- The bodies of components of `K` start, and values are noted. -/
def Event.From (K : ComponentId → Prop) : Event → Prop
  | .render k _ => K k
  | .note _ => True
  | _ => False

namespace Store

variable {s t u : Store}

/-- Components of `K` are functions, and render none but components of `K`. -/
def Static (s : Store) (K : ComponentId → Prop) : Prop :=
  ∀ ⦃k c⦄, K k → s.components[k]? = some c → ∃ f, c = .function f ∧ f.body.Static K

/-- Events are told, and what nothing holds may be let go. -/
structure Recited (es : List Event) (s t : Store) : Prop extends Rewires (fun _ => id) s t where
  same : t = { s with trace := es ++ s.trace, edges := t.edges, live := t.live }

namespace Recited

variable {es es' : List Event}

theorem refl (s : Store) : s.Recited [] s := ⟨.of_same id rfl, rfl⟩

theorem trans (h : s.Recited es t) (h' : t.Recited es' u) : s.Recited (es' ++ es) u where
  toRewires := (h.toRewires.trans h'.toRewires).mono fun _ _ => rfl
  same := by
    rw [h'.same, h.same, List.append_assoc]

theorem emit (e : Event) (s : Store) : s.Recited [e] { s with trace := e :: s.trace } :=
  ⟨.of_same id rfl, rfl⟩

theorem collect (s : Store) : s.Recited [] s.collect := ⟨rewires_collect s, rfl⟩

theorem popped {f : Frame} (h : Recited es { s with frames := f :: s.frames } t) :
    s.Recited es { t with frames := t.frames.tail } where
  fast hn := h.fast hn
  readers hx := h.readers hx
  same := congrArg (fun t : Store => { t with frames := t.frames.tail }) h.same

theorem restored {scope : Scope} (h : Recited es { s with provided := scope } t) :
    s.Recited es { t with provided := s.provided } where
  fast hn := h.fast hn
  readers hx := h.readers hx
  same := congrArg (fun t : Store => { t with provided := s.provided }) h.same

theorem revoked {p : Token × Json} (h : Recited es { s with provided := p :: s.provided } t) :
    s.Recited es { t with provided := t.provided.tail } where
  fast hn := h.fast hn
  readers hx := h.readers hx
  same := congrArg (fun t : Store => { t with provided := t.provided.tail }) h.same

theorem unpinned {hs : List Handle} (h : Recited es { s with pinned := hs } t) :
    s.Recited es { t with pinned := s.pinned } where
  fast hn := h.fast hn
  readers hx := h.readers hx
  same := congrArg (fun t : Store => { t with pinned := s.pinned }) h.same

end Recited

end Store

open Store

def Store.peeked (s : Store) (n : NodeId) : Json :=
  match s.nodes[n]? with
  | some (.signal v) => v
  | _ => .null

theorem Machine.peek_apply (n : NodeId) (s : Store) : peek n s = some (s.peeked n, s) := by
  simp only [peek, bind_apply, node?_apply, Option.bind_some, Store.peeked]
  cases s.nodes[n]? with
  | none => rfl
  | some x => cases x <;> rfl

/-- What a static body can see is the same, but for what surrounds it. -/
structure Store.Agrees (K : ComponentId → Prop) (s s' : Store) : Prop where
  static : s.Static K
  components : s'.components = s.components
  contexts : s'.contexts = s.contexts
  providers : s'.providers = s.providers
  peeked : ∀ n, s'.peeked n = s.peeked n

structure Store.Concurs (K : ComponentId → Prop) (s s' : Store) : Prop extends Agrees K s s' where
  provided : s'.provided = s.provided
  reader : s'.frames.head?.bind Frame.reader = s.frames.head?.bind Frame.reader

namespace Store.Concurs

variable {K : ComponentId → Prop} {s s' t t' : Store}

theorem recited {es : List Event} (h : s.Concurs K s') (ht : s.Recited es t)
    (ht' : s'.Recited es t') : t.Concurs K t' := by
  rw [ht.same, ht'.same]
  exact { h with }

theorem untracked (h : s.Concurs K s') :
    Concurs K { s with frames := { reader := none } :: s.frames }
      { s' with frames := { reader := none } :: s'.frames } := { h with reader := rfl }

theorem providing (h : s.Concurs K s') (p : Token × Json) :
    Concurs K { s with provided := p :: s.provided } { s' with provided := p :: s'.provided } :=
  { h with provided := congrArg (p :: ·) h.provided }

theorem pinned (h : s.Concurs K s') (hs hs' : List Handle) :
    Concurs K { s with pinned := hs } { s' with pinned := hs' } := { h with }

end Store.Concurs

namespace Machine

/-- From `s` and from `s'` the computation gives the same and tells the same, or it gives nothing. -/
def Recites (K : ComponentId → Prop) (Q : α → Prop) (s s' : Store) (m : Machine α) : Prop :=
  Option.Rel (fun p p' => p'.1 = p.1 ∧ Q p.1 ∧
    ∃ es, (∀ e ∈ es, e.From K) ∧ s.Recited es p.2 ∧ s'.Recited es p'.2) (m s) (m s')

variable {K : ComponentId → Prop} {s s' t t' : Store}

namespace Recites

variable {Q : α → Prop} {m : Machine α}

theorem of_eq {a : α} (h : m s = some (a, s)) (h' : m s' = some (a, s')) (hq : Q a) :
    Recites K Q s s' m := by
  rw [Recites, h, h']
  exact .some ⟨rfl, hq, [], nofun, .refl s, .refl s'⟩

theorem pure {a : α} (hq : Q a) : Recites K Q s s' (Pure.pure a) := of_eq rfl rfl hq

theorem emit {e : Event} (he : e.From K) : Recites K (fun _ => True) s s' (Machine.emit e) :=
  .some ⟨rfl, trivial, [e], by simpa using he, .emit e s, .emit e s'⟩

theorem collect : Recites K (fun _ => True) s s' Machine.collect :=
  .some ⟨rfl, trivial, [], nofun, .collect s, .collect s'⟩

theorem bind {Q' : β → Prop} {f : α → Machine β} (h : Recites K Q s s' m) (hs : s.Concurs K s')
    (hf : ∀ a t t', Q a → t.Concurs K t' → Recites K Q' t t' (f a)) :
    Recites K Q' s s' (m >>= f) := by
  rw [Recites, bind_apply, bind_apply]
  rw [Recites] at h
  generalize m s = p at h
  generalize m s' = p' at h
  cases h with
  | none => exact .none
  | @some p p' hp =>
    obtain ⟨hv, hq, es, hes, ht, ht'⟩ := hp
    have hrest := hf p.1 p.2 p'.2 hq (hs.recited ht ht')
    rw [Recites] at hrest
    rw [Option.bind_some, Option.bind_some, hv]
    generalize f p.1 p.2 = r at hrest
    generalize f p.1 p'.2 = r' at hrest
    cases hrest with
    | none => exact .none
    | some hr =>
      obtain ⟨hv', hq', es', hes', hu, hu'⟩ := hr
      refine .some ⟨hv', hq', es' ++ es, fun e he => ?_, ht.trans hu, ht'.trans hu'⟩
      exact (List.mem_append.1 he).elim (hes' e) (hes e)

theorem via {m' : Machine α} {r r' : Store} (f f' : Store → Store) (h : Recites K Q s s' m)
    (hm : m' r = (m s).map fun p => (p.1, f p.2))
    (hm' : m' r' = (m s').map fun p => (p.1, f' p.2))
    (hf : ∀ es t, s.Recited es t → r.Recited es (f t))
    (hf' : ∀ es t, s'.Recited es t → r'.Recited es (f' t)) : Recites K Q r r' m' := by
  rw [Recites] at h ⊢
  rw [hm, hm']
  generalize m s = p at h
  generalize m s' = p' at h
  cases h with
  | none => exact .none
  | some hp =>
    obtain ⟨hv, hq, es, hes, ht, ht'⟩ := hp
    exact .some ⟨hv, hq, es, hes, hf es _ ht, hf' es _ ht'⟩

theorem untracked
    (h : Recites K Q { s with frames := { reader := none } :: s.frames }
      { s' with frames := { reader := none } :: s'.frames } m) :
    Recites K Q s s' (untracked m) :=
  h.via (fun t => { t with frames := t.frames.tail }) (fun t => { t with frames := t.frames.tail })
    (untracked_apply m s) (untracked_apply m s') (fun _ _ => .popped) fun _ _ => .popped

theorem inScope {scope : Scope}
    (h : Recites K Q { s with provided := scope } { s' with provided := scope } m) :
    Recites K Q s s' (inScope scope m) :=
  h.via (fun t => { t with provided := s.provided }) (fun t => { t with provided := s'.provided })
    (inScope_apply scope m s) (inScope_apply scope m s') (fun _ _ => .restored) fun _ _ => .restored

theorem providing {τ : Token} {v : Json}
    (h : Recites K Q { s with provided := (τ, v) :: s.provided }
      { s' with provided := (τ, v) :: s'.provided } m) :
    Recites K Q s s' (providing τ v m) :=
  h.via (fun t => { t with provided := t.provided.tail }) (fun t => { t with provided := t.provided.tail })
    (providing_apply τ v m s) (providing_apply τ v m s') (fun _ _ => .revoked) fun _ _ => .revoked

theorem keeping {hs : List Handle}
    (h : Recites K Q { s with pinned := hs ++ s.pinned } { s' with pinned := hs ++ s'.pinned } m) :
    Recites K Q s s' (keeping hs m) :=
  h.via (fun t => { t with pinned := s.pinned }) (fun t => { t with pinned := s'.pinned })
    (keeping_apply hs m s) (keeping_apply hs m s') (fun _ _ => .unpinned) fun _ _ => .unpinned

end Recites

end Machine

/-- Components of `K` are rendered statically, and views without nodes are resolved to themselves. -/
structure Calls.Static (K : ComponentId → Prop) (c : Calls) : Prop where
  render : ∀ {s s' k} props, s.Concurs K s' → K k →
    Recites K (fun v => v.nodes = []) s s' (c.render k props)
  resolve : ∀ {s s' v}, v.nodes = [] → Recites K (fun _ => True) s s' (c.resolve v)

theorem Calls.none_static (K : ComponentId → Prop) : Calls.none.Static K :=
  ⟨fun _ _ _ => .none, fun _ => .none⟩

variable {K : ComponentId → Prop} {c : Calls} {env : Env}

theorem Machine.textOf_recites (hc : c.Static K) {s s' : Store} (hs : s.Concurs K s') {v : View}
    (hv : v.nodes = []) : Recites K (fun _ => True) s s' (textOf c v) := by
  have hborrow : Recites K (fun _ => True) s s' (borrowing v (c.resolve v)) :=
    .bind (.keeping (hc.resolve hv)) hs fun _ _ _ _ ht => .bind .collect ht fun _ _ _ _ _ =>
      .pure trivial
  exact .bind hborrow hs fun _ _ _ _ _ => .pure trivial

theorem Machine.contextToken_recites {s s' : Store} (hs : s.Concurs K s') (k : ContextId) :
    Recites K (fun _ => True) s s' (contextToken k) :=
  .of_eq (contextToken_apply k s)
    (by rw [contextToken_apply, hs.contexts, hs.providers]) trivial

theorem Machine.isTracking_recites {s s' : Store} (hs : s.Concurs K s') :
    Recites K (fun _ => True) s s' isTracking :=
  .of_eq (a := (s.frames.head?.bind Frame.reader).isSome) rfl (by rw [← hs.reader]; rfl) trivial

mutual

theorem Expr.eval_recites (hc : c.Static K) {s s' : Store} (hs : s.Concurs K s') :
    ∀ e : LinkedExpr, e.Static K → Recites K (fun _ => True) s s' (e.eval c env)
  | .literal _, _ | .props, _ | .current, _ | .member _, _ => .pure trivial
  | .peek n, _ => .of_eq (peek_apply n s) (hs.peeked n ▸ peek_apply n s') trivial
  | .untrack e, he => .untracked (Expr.eval_recites hc hs.untracked e he)
  | .add es, hes | .mul es, hes | .concat es, hes | .list es, hes | .seq es, hes =>
    .bind (Expr.evalAll_recites hc hs es hes) hs fun _ _ _ _ _ => .pure trivial
  | .less a b, ⟨ha, hb⟩ =>
    .bind (Expr.eval_recites hc hs a ha) hs fun _ _ _ _ ht =>
      .bind (Expr.eval_recites hc ht b hb) ht fun _ _ _ _ _ => .pure trivial
  | .cond test a b, ⟨htest, ha, hb⟩ =>
    .bind (Expr.eval_recites hc hs test htest) hs fun x _ _ _ ht => by
      split
      · exact Expr.eval_recites hc ht a ha
      · exact Expr.eval_recites hc ht b hb
  | .use k, _ => .of_eq (useContext_apply k s) (by
      rw [Expr.eval, useContext_apply, hs.contexts, hs.provided]) trivial
  | .provide k v e, ⟨hv, he⟩ =>
    .bind (Expr.eval_recites hc hs v hv) hs fun x _ _ _ ht =>
      .bind (contextToken_recites ht k) ht fun τ _ _ _ hu =>
        .providing (Expr.eval_recites hc (hu.providing (τ, x)) e he)
  | .text v, hv => .bind (textOf_recites hc hs hv) hs fun _ _ _ _ _ => .pure trivial
  | .render k e, ⟨hk, he⟩ =>
    .bind (Expr.eval_recites hc hs e he) hs fun x _ _ _ ht =>
      .bind (hc.render x ht hk) ht fun _ _ _ hv hu =>
        .bind (textOf_recites hc hu hv) hu fun _ _ _ _ _ => .pure trivial
  | .log e, he =>
    .bind (Expr.eval_recites hc hs e he) hs fun _ _ _ _ ht =>
      .bind (.emit trivial) ht fun _ _ _ _ _ => .pure trivial
  | .tracking, _ => .bind (isTracking_recites hs) hs fun _ _ _ _ _ => .pure trivial

theorem Expr.evalAll_recites (hc : c.Static K) {s s' : Store} (hs : s.Concurs K s') :
    ∀ es : List LinkedExpr, Expr.StaticAll K es →
      Recites K (fun _ => True) s s' (Expr.evalAll c env es)
  | [], _ => .pure trivial
  | e :: rest, ⟨he, hrest⟩ =>
    .bind (Expr.eval_recites hc hs e he) hs fun _ _ _ _ ht =>
      .bind (Expr.evalAll_recites hc ht rest hrest) ht fun _ _ _ _ _ => .pure trivial

end

mutual

theorem Template.eval_recites (hc : c.Static K) {s s' : Store} (hs : s.Concurs K s') :
    ∀ body : LinkedTemplate, body.Static K →
      Recites K (fun v => v.nodes = []) s s' (body.eval c env)
  | .empty, _ => .pure rfl
  | .text e, he => .bind (Expr.eval_recites hc hs e he) hs fun _ _ _ _ _ => .pure rfl
  | .fragment children, h =>
    .bind (Template.evalAll_recites hc hs children h) hs fun _ _ _ hv _ => .pure hv
  | .child k e, ⟨hk, he⟩ =>
    .bind (Expr.eval_recites hc hs e he) hs fun x _ _ _ ht => hc.render x ht hk
  | .provide k v body, ⟨hv, hbody⟩ =>
    .bind (Expr.eval_recites hc hs v hv) hs fun x _ _ _ ht =>
      .bind (contextToken_recites ht k) ht fun τ _ _ _ hu =>
        .providing (Template.eval_recites hc (hu.providing (τ, x)) body hbody)
  | .cond test a b, ⟨htest, ha, hb⟩ =>
    .bind (Expr.eval_recites hc hs test htest) hs fun x _ _ _ ht => by
      split
      · exact Template.eval_recites hc ht a ha
      · exact Template.eval_recites hc ht b hb
  | .use _, hv => .pure hv

theorem Template.evalAll_recites (hc : c.Static K) {s s' : Store} (hs : s.Concurs K s') :
    ∀ bodies : List LinkedTemplate, Template.StaticAll K bodies →
      Recites K (fun vs => View.nodesAll vs = []) s s' (Template.evalAll c env bodies)
  | [], _ => .pure rfl
  | body :: rest, ⟨hbody, hrest⟩ =>
    .bind (Template.eval_recites hc hs body hbody) hs fun v _ _ hv ht =>
      .bind (.keeping (Template.evalAll_recites hc (ht.pinned _ _) rest hrest)) ht fun ws _ _ hws _ =>
        .pure (by rw [View.nodesAll, hv, hws]; rfl)

end

namespace Machine

mutual

theorem resolveView_of_nodeless (c : Calls) (s : Store) : ∀ {v : View}, v.nodes = [] →
    resolveView c v s = some (v, s)
  | .empty, _ => rfl
  | .text _, _ => rfl
  | .fragment children, h => by
    have h : resolveViews c children s = some (children, s) := resolveViews_of_nodeless c s h
    simp only [resolveView, bind_apply, h, Option.bind_some, pure_apply]

theorem resolveViews_of_nodeless (c : Calls) (s : Store) : ∀ {vs : List View},
    View.nodesAll vs = [] → resolveViews c vs s = some (vs, s)
  | [], _ => rfl
  | v :: vs, h => by
    obtain ⟨hv, hvs⟩ := List.append_eq_nil_iff.1 h
    simp only [resolveViews, bind_apply, resolveView_of_nodeless c s hv,
      resolveViews_of_nodeless c s hvs, Option.bind_some, pure_apply]

end

theorem renderComponent_function (c : Calls) {s : Store} {k : ComponentId} {f : FunctionComponent}
    (hf : s.components[k]? = some (.function f)) (props : Json) :
    renderComponent c k props s =
      f.body.eval c { props } { s with trace := .render k f.name :: s.trace } := by
  simp only [renderComponent, bind_apply, component?_apply, hf, Option.bind_some, emit, modify_apply]

theorem renderComponent_recites (hc : c.Static K) {s s' : Store} (hs : s.Concurs K s')
    {k : ComponentId} (hk : K k) (props : Json) :
    Recites K (fun v => v.nodes = []) s s' (renderComponent c k props) := by
  cases hk' : s.components[k]? with
  | none =>
    have hempty {r : Store} (hr : r.components[k]? = none) :
        renderComponent c k props r = some (.empty, r) := by
      simp only [renderComponent, bind_apply, component?_apply, hr, Option.bind_some, pure_apply]
    exact .of_eq (hempty hk') (hempty (hs.components ▸ hk')) rfl
  | some x =>
    obtain ⟨f, rfl, hbody⟩ := hs.static hk hk'
    have hrender : Recites K (fun v => v.nodes = []) s s'
        (emit (.render k f.name) >>= fun _ => f.body.eval c { props }) :=
      .bind (.emit hk) hs fun _ _ _ _ ht => Template.eval_recites hc ht f.body hbody
    rw [Recites] at hrender ⊢
    rw [renderComponent_function c hk', renderComponent_function c (hs.components ▸ hk')]
    exact hrender

end Machine

theorem calls_static (K : ComponentId → Prop) : ∀ d, (calls d).Static K
  | 0 => Calls.none_static K
  | d + 1 =>
    { render := fun props hs hk => renderComponent_recites (calls_static K d) hs hk props
      resolve := fun hv => .of_eq (resolveView_of_nodeless _ _ hv) (resolveView_of_nodeless _ _ hv)
        trivial }

theorem Machine.renderComponent_told {s t : Store} {k : ComponentId} {f : FunctionComponent} {d : Nat}
    {props : Json} {v : View} (hs : s.Static K) (hf : s.components[k]? = some (.function f))
    (hbody : f.body.Static K) (h : renderComponent (calls d) k props s = some (v, t)) :
    ∃ es, (∀ e ∈ es, e.From K) ∧ t.trace = es ++ .render k f.name :: s.trace := by
  rw [renderComponent_function (calls d) hf] at h
  have hconcurs : Concurs K { s with trace := .render k f.name :: s.trace }
      { s with trace := .render k f.name :: s.trace } :=
    ⟨⟨hs, rfl, rfl, rfl, fun _ => rfl⟩, rfl, rfl⟩
  have hrecites : Recites K (fun v => v.nodes = []) _ _ (f.body.eval (calls d) { props }) :=
    Template.eval_recites (calls_static K d) hconcurs f.body hbody
  rw [Recites, h] at hrecites
  cases hrecites with
  | some hp =>
    obtain ⟨-, -, es, hes, ht, -⟩ := hp
    have htrace : t.trace = es ++ .render k f.name :: s.trace := congrArg Store.trace ht.same
    exact ⟨es, hes, htrace⟩

end HotSwap
