import HotSwap.Proofs.Subscription.Nodes
/-!
# Evaluating bodies over an accurate store

A body that writes nothing keeps the table accurate, whatever it comes to read, if the calls it
makes do. What it may read is decided by what runs: `Admits` for expressions, `Opens` for templates.
-/

namespace HotSwap

open Machine

namespace Store

variable {s t u : Store} {G : NodeId → Prop} {V : Prop} {n : NodeId} {a : Handle}

def Alive (s : Store) (hs : List Handle) : Prop := ∀ a ∈ hs, a ∈ s.live ∧ s.Passive a

/-- What is in `G` stands below all that run; if views are used, only effects run. -/
structure Admits (G : NodeId → Prop) (V : Prop) (s : Store) : Prop where
  known : ∀ y, G y → s.rank y < .effect
  below : ∀ y, G y → ∀ k ∈ s.running, s.rank y < s.rank k
  views : V → ∀ k ∈ s.running, s.rank k = .effect

/-- A template may be evaluated that reads what is in `G`. -/
structure Opens (G : NodeId → Prop) (s : Store) : Prop where
  below : ∀ y, G y → s.rank y < .view
  above : ∀ k ∈ s.running, .view ≤ s.rank k

theorem Alive.nil (s : Store) : s.Alive [] := nofun

theorem alive_append {hs hs' : List Handle} : s.Alive (hs ++ hs') ↔ s.Alive hs ∧ s.Alive hs' :=
  List.forall_mem_append

theorem Offers.alive (h : s.Accurate) (ha : s.Offers a) : a ∈ s.live ∧ s.Passive a :=
  ⟨ha.anchored.live h.toHolding, ha.passive⟩

theorem Offers.held {hs : List Handle} (ha : s.Alive hs) (hm : a ∈ hs) :
    { s with pinned := hs ++ s.pinned }.Offers a :=
  ⟨.root (List.mem_append_right _ (List.mem_append_left _ hm)), (ha a hm).2⟩

theorem Offers.framed (ha : s.Offers a) (frames : List Frame) : { s with frames }.Offers a :=
  Retains.offers { Retains.refl s with } ha

theorem Offers.provided (ha : s.Offers a) (provided : Scope) : { s with provided }.Offers a :=
  Retains.offers { Retains.refl s with } ha

theorem Offers.pinned (ha : s.Offers a) (hs : List Handle) :
    { s with pinned := hs ++ s.pinned }.Offers a :=
  Retains.offers { Retains.refl s with pinned := List.subset_append_right _ _ } ha

theorem Holding.alive (h : s.Holding) (ha : a ∈ s.live) : s.Alive (s.contents a) :=
  fun b hb => ⟨h.closed a ha b hb, h.passive a ha b hb⟩

theorem Holding.alive_node {x : Node} (h : s.Holding) (hn : .node n ∈ s.live)
    (hx : s.nodes[n]? = some x) : s.Alive x.handles :=
  fun a ha => h.alive hn a (mem_contents_node.2 ⟨x, hx, ha⟩)

theorem Proceeds.rank (hs : s.Accurate) (hp : s.Proceeds t) {k : NodeId} (hk : k ∈ s.running) :
    t.rank k = s.rank k := by
  obtain ⟨_, x, hx, _⟩ := hs.active k hk
  exact hp.retains.lasts.rank_eq hx

theorem Admits.proceeds (h : s.Admits G V) (hs : s.Accurate) (hp : s.Proceeds t) :
    t.Admits G V where
  known y hy := hp.retains.lasts.below (le_refl _) y (h.known y hy)
  below y hy k hk := by
    rw [hp.running] at hk
    rw [hp.retains.lasts.rank_eq_of_lt (h.known y hy), hp.rank hs hk]
    exact h.below y hy k hk
  views hV k hk := by
    rw [hp.running] at hk
    rw [hp.rank hs hk]
    exact h.views hV k hk

theorem Opens.proceeds (h : s.Opens G) (hs : s.Accurate) (hp : s.Proceeds t) : t.Opens G where
  below y hy := hp.retains.lasts.below (le_of_lt Rank.view_lt_effect) y (h.below y hy)
  above k hk := by
    rw [hp.running] at hk
    rw [hp.rank hs hk]
    exact h.above k hk

theorem Opens.admits (h : s.Opens G) : s.Admits G False where
  known y hy := (h.below y hy).trans Rank.view_lt_effect
  below y hy k hk := lt_of_lt_of_le (h.below y hy) (h.above k hk)
  views := False.elim

theorem Proceeds.offers {hs : List Handle} (hp : s.Proceeds t) (ho : ∀ a ∈ hs, s.Offers a) :
    ∀ a ∈ hs, t.Offers a := fun a ha => hp.retains.offers (ho a ha)

theorem Accurate.provided (h : s.Accurate) (p : Scope) : { s with provided := p }.Accurate :=
  { h with active := h.actives { Retains.refl s with } (List.Subset.refl _) }

theorem Proceeds.provided {p q : Scope} (h : { s with provided := p }.Proceeds t) :
    s.Proceeds { t with provided := q } := by
  obtain ⟨ht, new, hr⟩ := h
  exact ⟨ht.provided q, new, { hr with }⟩

end Store

open Store

namespace Machine.Gives

variable {s : Store} {m : Machine α} {Q : α → Store → Prop}

theorem emit (h : s.Accurate) {e : Event} (he : e.actor = none) :
    Gives s (Machine.emit e) fun _ _ => True :=
  .of_eq rfl ⟨h.emit (by simp [he]), [e], .emit s (by simp [he])⟩ trivial

theorem providing {t : Token} {v : Json}
    (hm : Gives { s with provided := (t, v) :: s.provided } m Q)
    (hQ : ∀ a w p, Q a w → Q a { w with provided := p }) : Gives s (Machine.providing t v m) Q := by
  intro a u h
  obtain ⟨w, hw, rfl⟩ := providing_eq_some.1 h
  obtain ⟨hp, hq⟩ := hm hw
  exact ⟨hp.provided, hQ a w _ hq⟩

theorem inScope {scope : Scope} (hm : Gives { s with provided := scope } m Q)
    (hQ : ∀ a w p, Q a w → Q a { w with provided := p }) : Gives s (Machine.inScope scope m) Q := by
  intro a u h
  obtain ⟨w, hw, rfl⟩ := inScope_eq_some.1 h
  obtain ⟨hp, hq⟩ := hm hw
  exact ⟨hp.provided, hQ a w _ hq⟩

theorem untracked (hm : Gives { s with frames := { reader := none } :: s.frames } m Q)
    (hQ : ∀ a w f, Q a w → Q a { w with frames := f }) :
    Gives s (Machine.untracked m) fun a t => Q a t ∧ t.frames = s.frames := by
  intro a u h
  rw [untracked_apply] at h
  obtain ⟨⟨b, w⟩, hw, e⟩ := Option.map_eq_some_iff.1 h
  cases e
  obtain ⟨⟨hacc, new, hr⟩, hq⟩ := hm hw
  obtain ⟨xs, hf, -⟩ := hr.frames_eq rfl
  obtain ⟨hruns, -⟩ := Runs.popped hr (by simp)
  exact ⟨⟨hacc.popped hf (by simp), new, hruns⟩, hQ _ _ _ hq, hr.below⟩

theorem keeping {hs : List Handle} (h : s.Accurate)
    (hm : Gives { s with pinned := hs ++ s.pinned } m Q)
    (hQ : ∀ a w p, Q a w → Q a { w with pinned := p }) :
    Gives s (Machine.keeping hs m) fun a t => Q a t ∧ t.Alive hs := by
  intro a u hu
  obtain ⟨w, hw, rfl⟩ := keeping_eq_some.1 hu
  obtain ⟨⟨hacc, new, hr⟩, hq⟩ := hm hw
  have hsub : s.pinned ⊆ w.pinned := fun b hb => hr.pinned (List.mem_append_right _ hb)
  have hruns : s.Runs new { w with pinned := s.pinned } :=
    { hr with pinned := List.Subset.refl _ }
  have hpinned : ∀ b ∈ hs, b ∈ w.pinned := fun b hb => hr.pinned (List.mem_append_left _ hb)
  refine ⟨⟨hacc.unpin hsub ?_, new, hruns⟩, hQ _ _ _ hq, fun b hb => ?_⟩
  · exact fun k hk => (h.actives hruns.toRetains (hruns.running ▸ List.Subset.refl _) k hk).1
  · exact ⟨hacc.held b (List.mem_append_right _ (hpinned b hb)), hacc.pinned b (hpinned b hb)⟩

theorem collect (h : s.Accurate) : Gives s Machine.collect fun _ _ => True :=
  .of_eq rfl ⟨h.collect, [], .of_retains { Retains.refl s with } rfl rfl⟩ trivial

theorem borrowing {v : View} (h : s.Accurate)
    (hm : Gives { s with pinned := v.handles ++ s.pinned } m fun _ _ => True) :
    Gives s (Machine.borrowing v m) fun _ _ => True :=
  .bind (keeping h hm fun _ _ _ _ => trivial) fun _ _ hp _ =>
    .bind (collect hp.1) fun _ _ hp _ => .pure hp.1 trivial

end Machine.Gives

/-- The calls that bodies make keep the table accurate, if nothing is read that runs. -/
structure Calls.Exact (c : Calls) : Prop where
  read : ∀ {s : Store} {n : NodeId}, s.Accurate → s.Offers (.node n) →
    (∀ k ∈ s.running, s.rank n < s.rank k) → Gives s (c.read n) fun x t =>
      t.Alive x.handles ∧ t.frames = (s.tracked n).frames ∧
        ∀ k, s.nodes[n]? = some (.cell k) → x = .component k
  render : ∀ {s : Store} {k : ComponentId} {props : Json}, s.Accurate → s.Offers (.component k) →
    (∀ j ∈ s.running, .view ≤ s.rank j) → Gives s (c.render k props) fun v t => t.Alive v.handles
  resolve : ∀ {s : Store} {v : View}, s.Accurate → (∀ a ∈ v.handles, s.Offers a) →
    (∀ k ∈ s.running, s.rank k = .effect) → Gives s (c.resolve v) fun _ _ => True

section Bodies

variable {c : Calls} {G : NodeId → Prop} {V : Prop} {s : Store}

theorem peek_gives (h : s.Accurate) (n : NodeId) : Gives s (peek n) fun _ _ => True := by
  refine .bind_of_eq (node?_apply n s) ?_
  split <;> exact .pure h trivial

theorem textOf_gives (hc : c.Exact) {v : View} (h : s.Accurate) (ha : s.Alive v.handles)
    (hs : ∀ k ∈ s.running, s.rank k = .effect) : Gives s (textOf c v) fun _ _ => True := by
  refine .bind (.borrowing h ?_) fun _ _ hp _ => .pure hp.1 trivial
  exact hc.resolve (h.pin ha) (fun a hm => .held ha hm) hs

mutual

theorem Expr.eval_gives (hc : c.Exact) (env : Env) : ∀ (e : LinkedExpr) {s : Store},
    e.Tame G V → s.Accurate → s.Admits G V → (∀ a ∈ e.handles, s.Offers a) →
      Gives s (e.eval c env) fun _ _ => True
  | .literal _, _, _, h, _, _ | .props, _, _, h, _, _ | .current, _, _, h, _, _
  | .member _, _, _, h, _, _ => .pure h trivial
  | .get n, _, he, h, hA, ho =>
    .bind (hc.read h (ho _ (List.mem_singleton_self _)) (hA.below n he)) fun _ _ hp _ =>
      .pure hp.1 trivial
  | .peek n, _, _, h, _, _ => peek_gives h n
  | .untrack e, _, he, h, hA, ho =>
    (Gives.untracked (Q := fun _ _ => True) (Expr.eval_gives hc env e he h.untracked { hA with }
      fun a ha => (ho a ha).framed _) fun _ _ _ => id).mono fun _ _ _ _ => trivial
  | .add es, _, he, h, hA, ho | .mul es, _, he, h, hA, ho | .concat es, _, he, h, hA, ho
  | .list es, _, he, h, hA, ho | .seq es, _, he, h, hA, ho =>
    .bind (Expr.evalAll_gives hc env es he h hA ho) fun _ _ hp _ => .pure hp.1 trivial
  | .less a b, _, he, h, hA, ho => by
    obtain ⟨hoa, hob⟩ := List.forall_mem_append.1 ho
    exact .bind (Expr.eval_gives hc env a he.1 h hA hoa) fun _ _ hp _ =>
      .bind (Expr.eval_gives hc env b he.2 hp.1 (hA.proceeds h hp) (hp.offers hob)) fun _ _ hp' _ =>
        .pure hp'.1 trivial
  | .cond t a b, _, he, h, hA, ho => by
    obtain ⟨hoc, hob⟩ := List.forall_mem_append.1 ho
    obtain ⟨hot, hoa⟩ := List.forall_mem_append.1 hoc
    refine .bind (Expr.eval_gives hc env t he.1 h hA hot) fun _ _ hp _ => ?_
    split
    · exact Expr.eval_gives hc env a he.2.1 hp.1 (hA.proceeds h hp) (hp.offers hoa)
    · exact Expr.eval_gives hc env b he.2.2 hp.1 (hA.proceeds h hp) (hp.offers hob)
  | .use k, s, _, h, _, _ => .of_eq (useContext_apply k s) (.refl h) trivial
  | .provide k v e, _, he, h, hA, ho => by
    obtain ⟨hov, hoe⟩ := List.forall_mem_append.1 ho
    refine .bind (Expr.eval_gives hc env v he.1 h hA hov) fun x t hp _ => ?_
    refine .bind_of_eq (contextToken_apply k t) (.providing ?_ fun _ _ _ _ => trivial)
    exact Expr.eval_gives hc env e he.2 (hp.1.provided _) { hA.proceeds h hp with }
      fun a ha => (hp.offers hoe a ha).provided _
  | .text v, _, he, h, hA, ho =>
    .bind (textOf_gives hc h (fun a ha => (ho a ha).alive h) (hA.views he)) fun _ _ hp _ =>
      .pure hp.1 trivial
  | .render k e, _, he, h, hA, ho => by
    obtain ⟨hok, hoe⟩ := List.forall_mem_cons.1 ho
    refine .bind (Expr.eval_gives hc env e he.2 h hA hoe) fun props t hp _ => ?_
    have hA' := (hA.proceeds h hp).views he.1
    have hview : ∀ j ∈ t.running, .view ≤ t.rank j := fun j hj =>
      hA' j hj ▸ le_of_lt Rank.view_lt_effect
    refine .bind (hc.render hp.1 (hp.retains.offers hok) hview) fun v u hp' hv => ?_
    have hA'' := ((hA.proceeds h hp).proceeds hp.1 hp').views he.1
    exact .bind (textOf_gives hc hp'.1 hv hA'') fun _ _ hp'' _ => .pure hp''.1 trivial
  | .log e, _, he, h, hA, ho =>
    .bind (Expr.eval_gives hc env e he h hA ho) fun _ _ hp _ =>
      .bind (.emit hp.1 rfl) fun _ _ hp' _ => .pure hp'.1 trivial
  | .tracking, _, _, h, _, _ => .of_eq rfl (.refl h) trivial

theorem Expr.evalAll_gives (hc : c.Exact) (env : Env) : ∀ (es : List LinkedExpr) {s : Store},
    Expr.TameAll G V es → s.Accurate → s.Admits G V → (∀ a ∈ Expr.handlesAll es, s.Offers a) →
      Gives s (Expr.evalAll c env es) fun _ _ => True
  | [], _, _, h, _, _ => .pure h trivial
  | e :: es, _, he, h, hA, ho => by
    obtain ⟨hoe, hos⟩ := List.forall_mem_append.1 ho
    exact .bind (Expr.eval_gives hc env e he.1 h hA hoe) fun _ _ hp _ =>
      .bind (Expr.evalAll_gives hc env es he.2 hp.1 (hA.proceeds h hp) (hp.offers hos))
        fun _ _ hp' _ => .pure hp'.1 trivial

end

theorem reactiveView_gives (h : s.Accurate) {r : Recipe} (hr : r.Tame s s.nodes.length)
    (hv : Node.rank s.nodes.length (.memo { recipe := r }) = .view) (ha : s.Alive r.handles) :
    Gives s (reactiveView r) fun v t => t.Alive v.handles := by
  have hacc := h.add (x := .memo { recipe := r }) hr
    (fun a hm => ha a (by simpa [Node.handles] using hm)) (List.Subset.refl s.roots)
    (fun a hm => .inr (h.held a (List.mem_append_left _ hm))) nofun
  have hretains := Retains.grown s (.memo { recipe := r }) (List.Subset.refl s.roots)
  refine .of_eq rfl ⟨hacc, [], .of_retains hretains rfl rfl⟩ fun a hm => ?_
  obtain rfl : a = .node s.nodes.length := by simpa [View.handles, View.nodes] using hm
  refine ⟨List.mem_cons_self, ?_⟩
  rintro n ⟨⟩
  rw [rank_of_node List.getElem?_concat_length, hv]
  exact Rank.view_lt_effect

mutual

theorem Template.eval_gives (hc : c.Exact) (env : Env) : ∀ (t : LinkedTemplate) {s : Store},
    t.Tame G → s.Accurate → s.Opens G → (∀ a ∈ t.handles, s.Offers a) →
      Gives s (t.eval c env) fun v u => u.Alive v.handles
  | .empty, s, _, h, _, _ => .pure h (.nil s)
  | .text e, _, he, h, hO, ho =>
    .bind (Expr.eval_gives hc env e he h hO.admits ho) fun _ t hp _ => .pure hp.1 (.nil t)
  | .fragment ts, _, he, h, hO, ho =>
    .bind (Template.evalAll_gives hc env ts he h hO ho) fun _ _ hp hv => .pure hp.1 hv
  | .dynamic _ body, _, he, h, hO, ho =>
    reactiveView_gives h (Template.Tame.mono hO.below he) rfl fun a ha => (ho a ha).alive h
  | .child k e, _, he, h, hO, ho => by
    obtain ⟨hok, hoe⟩ := List.forall_mem_cons.1 ho
    exact .bind (Expr.eval_gives hc env e he h hO.admits hoe) fun _ _ hp _ =>
      hc.render hp.1 (hp.retains.offers hok) (hO.proceeds h hp).above
  | .provide k v body, _, he, h, hO, ho => by
    obtain ⟨hov, hob⟩ := List.forall_mem_append.1 ho
    refine .bind (Expr.eval_gives hc env v he.1 h hO.admits hov) fun x t hp _ => ?_
    refine .bind_of_eq (contextToken_apply k t) (.providing ?_ fun _ _ _ => id)
    exact Template.eval_gives hc env body he.2 (hp.1.provided _) { hO.proceeds h hp with }
      fun a ha => (hp.offers hob a ha).provided _
  | .cond t a b, _, he, h, hO, ho => by
    obtain ⟨hoc, hob⟩ := List.forall_mem_append.1 ho
    obtain ⟨hot, hoa⟩ := List.forall_mem_append.1 hoc
    refine .bind (Expr.eval_gives hc env t he.1 h hO.admits hot) fun _ _ hp _ => ?_
    split
    · exact Template.eval_gives hc env a he.2.1 hp.1 (hO.proceeds h hp) (hp.offers hoa)
    · exact Template.eval_gives hc env b he.2.2 hp.1 (hO.proceeds h hp) (hp.offers hob)
  | .use v, _, _, h, _, ho => .pure h fun a ha => (ho a ha).alive h

theorem Template.evalAll_gives (hc : c.Exact) (env : Env) : ∀ (ts : List LinkedTemplate)
    {s : Store}, Template.TameAll G ts → s.Accurate → s.Opens G →
      (∀ a ∈ Template.handlesAll ts, s.Offers a) →
        Gives s (Template.evalAll c env ts) fun vs u => u.Alive (View.fragment vs).handles
  | [], s, _, h, _, _ => .pure h (.nil s)
  | t :: ts, _, he, h, hO, ho => by
    obtain ⟨hot, hos⟩ := List.forall_mem_append.1 ho
    refine .bind (Template.eval_gives hc env t he.1 h hO hot) fun v u hp hv => ?_
    refine .bind (.keeping (Q := fun vs u => u.Alive (View.fragment vs).handles) hp.1 ?_
      fun _ _ _ => id) fun vs w hp' hw => .pure hp'.1 ?_
    · exact Template.evalAll_gives hc env ts he.2 (hp.1.pin hv) { hO.proceeds h hp with }
        fun a ha => (hp.offers hos a ha).pinned _
    · obtain ⟨hvs, hv⟩ := hw
      simpa [View.handles, View.nodes, View.nodesAll, alive_append] using ⟨hv, hvs⟩

end

end Bodies

end HotSwap
