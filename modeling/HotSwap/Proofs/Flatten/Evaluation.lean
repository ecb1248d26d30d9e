import HotSwap.Proofs.Flatten.Bystander
/-!
# Evaluating while another computation stands by

Every expression, template, read, render and resolution that is known lets the computation stand by
that waits for it.
-/

namespace HotSwap

open Machine

variable {N : Nat} {H : Handle → Prop} {r : NodeId} {c : Calls}

theorem Sparing.textOf (hc : c.Sparing N H r) {v : View} (hv : AllKnown N H v.handles) :
    Sparing N H r (· ≠ some r) (fun _ => True) (textOf c v) :=
  .bind (.borrowing v (hc.resolve v hv)) fun _ _ => .pure trivial

mutual

theorem Expr.eval_sparing (hr : ¬ Known N H (.node r)) (hc : c.Sparing N H r) (env : Env) :
    ∀ e : LinkedExpr, e.Fits H →
      Sparing N H r (· ≠ some r) (fun _ => True) (e.eval c env)
  | .literal _, _ | .props, _ | .current, _ | .member _, _ => .pure trivial
  | .get n, h => .bind (hc.read n (.of_mem (h.handles _ (List.mem_singleton_self _))))
      fun _ _ => .pure trivial
  | .peek n, _ => .peek n
  | .untrack e, h => .untracked (Expr.eval_sparing hr hc env e ⟨h.1, h.2⟩)
  | .add es, h | .mul es, h | .concat es, h | .list es, h | .seq es, h =>
    .bind (Expr.evalAll_sparing hr hc env es ⟨h.1, h.2⟩) fun _ _ => .pure trivial
  | .less a b, h =>
    .bind (Expr.eval_sparing hr hc env a h.less.1) fun _ _ =>
      .bind (Expr.eval_sparing hr hc env b h.less.2) fun _ _ => .pure trivial
  | .cond t a b, h => by
    obtain ⟨ht, ha, hb⟩ := h.cond
    refine .bind (Expr.eval_sparing hr hc env t ht) fun x _ => ?_
    split
    · exact Expr.eval_sparing hr hc env a ha
    · exact Expr.eval_sparing hr hc env b hb
  | .set n e, h => absurd h.writes (by simp [Expr.writes])
  | .use ctx, _ => .look (useContext_apply ctx) fun _ _ _ => trivial
  | .provide ctx v e, h =>
    .bind (Expr.eval_sparing hr hc env v h.provide.1) fun x _ =>
      .bind (V := fun _ => True) (.look (contextToken_apply ctx) fun _ _ _ => trivial) fun t _ =>
        .providing t x (Expr.eval_sparing hr hc env e h.provide.2)
  | .text v, h => .bind (.textOf hc (.of_mem h.handles)) fun _ _ => .pure trivial
  | .render k e, h =>
    .bind (Expr.eval_sparing hr hc env e h.render.2) fun props _ =>
      .bind (hc.render k props h.render.1) fun _ hv =>
        .bind (.textOf hc hv) fun _ _ => .pure trivial
  | .log e, h =>
    .bind (Expr.eval_sparing hr hc env e ⟨h.1, h.2⟩) fun _ _ =>
      .bind (.emit rfl) fun _ _ => .pure trivial
  | .tracking, _ =>
    .bind (V := fun _ => True) (.bind .reader fun _ _ => .pure trivial) fun _ _ => .pure trivial
  | .dispose n, h => by
    have hn : H (.node n) := h.handles _ (List.mem_singleton_self _)
    refine .bind (.disposeEffect ?_) fun _ _ => .pure trivial
    rintro rfl
    exact hr (.of_mem hn)
  | .release n, _ => .bind (.release _) fun _ _ => .pure trivial

theorem Expr.evalAll_sparing (hr : ¬ Known N H (.node r)) (hc : c.Sparing N H r) (env : Env) :
    ∀ es : List LinkedExpr, Expr.FitAll H es →
      Sparing N H r (· ≠ some r) (fun _ => True) (Expr.evalAll c env es)
  | [], _ => .pure trivial
  | e :: rest, h =>
    .bind (Expr.eval_sparing hr hc env e h.cons.1) fun _ _ =>
      .bind (Expr.evalAll_sparing hr hc env rest h.cons.2) fun _ _ => .pure trivial

end

mutual

theorem Template.eval_sparing (hr : ¬ Known N H (.node r)) (hc : c.Sparing N H r) (env : Env) :
    ∀ t : LinkedTemplate, t.Fits H →
      Sparing N H r (· ≠ some r) (AllKnown N H ·.handles) (t.eval c env)
  | .empty, _ => .pure .nil
  | .text e, h => .bind (Expr.eval_sparing hr hc env e ⟨h.1, h.2⟩) fun _ _ => .pure .nil
  | .fragment children, h =>
    .bind (Template.evalAll_sparing hr hc env children ⟨h.1, h.2⟩) fun _ hvs => .pure hvs
  | .dynamic _ _, h => .reactiveView ⟨h.1, h.2⟩ hr
  | .child k e, h =>
    .bind (Expr.eval_sparing hr hc env e h.child.2) fun props _ => hc.render k props h.child.1
  | .provide ctx v body, h =>
    .bind (Expr.eval_sparing hr hc env v h.provide.1) fun x _ =>
      .bind (V := fun _ => True) (.look (contextToken_apply ctx) fun _ _ _ => trivial) fun t _ =>
        .providing t x (Template.eval_sparing hr hc env body h.provide.2)
  | .cond t a b, h => by
    obtain ⟨ht, ha, hb⟩ := h.cond
    refine .bind (Expr.eval_sparing hr hc env t ht) fun x _ => ?_
    split
    · exact Template.eval_sparing hr hc env a ha
    · exact Template.eval_sparing hr hc env b hb
  | .use _, h => .pure (.of_mem h.handles)

theorem Template.evalAll_sparing (hr : ¬ Known N H (.node r)) (hc : c.Sparing N H r) (env : Env) :
    ∀ ts : List LinkedTemplate, Template.FitAll H ts →
      Sparing N H r (· ≠ some r) (fun vs => AllKnown N H (View.fragment vs).handles)
        (Template.evalAll c env ts)
  | [], _ => .pure .nil
  | t :: rest, h => by
    refine .bind (Template.eval_sparing hr hc env t h.cons.1) fun v hv => ?_
    refine .bind (.keeping _ (Template.evalAll_sparing hr hc env rest h.cons.2)) fun vs hvs =>
      .pure ?_
    intro a ha
    simp only [View.handles, View.nodes, View.nodesAll, List.map_append, List.mem_append] at ha
    exact ha.elim (hv a) (hvs a)

end

theorem Machine.renderComponent_sparing (hr : ¬ Known N H (.node r)) (hc : c.Sparing N H r)
    (k : ComponentId) (props : Json) (hk : H (.component k)) :
    Sparing N H r (· ≠ some r) (AllKnown N H ·.handles) (renderComponent c k props) := by
  refine .bind (V := fun x => (∀ f, x = some (.function f) → f.body.Fits H) ∧
    ∀ p, x = some (.proxy p) → H (.node p.cell)) ?_ ?_
  · exact .look (component?_apply k) fun _ hs _ =>
      ⟨fun f => hs.function k f hk, fun p => hs.proxy k p hk⟩
  rintro (_ | x) ⟨hf, hp⟩
  · exact .pure .nil
  cases x with
  | function f =>
    exact .bind (.emit rfl) fun _ _ => Template.eval_sparing hr hc _ f.body (hf f rfl)
  | proxy p =>
    have hcell := hp p rfl
    have mount : Sparing N H r (· ≠ some r) (AllKnown N H ·.handles)
        (do reactiveView (.mount p.cell props (← get).provided)) :=
      .bind (V := fun _ => True) (.look get_apply fun _ _ _ => trivial) fun _ _ =>
        .reactiveView ⟨rfl, by simpa [Recipe.handles] using hcell⟩ hr
    refine .bind (.cellContent (.of_mem hcell)) ?_
    rintro (_ | j) hj
    · exact mount
    · refine .bind (V := fun _ => True) (.look (isDev_apply j) fun _ _ _ => trivial) fun dev _ => ?_
      cases dev with
      | true => exact mount
      | false => exact hc.render j props (hj j rfl)

mutual

theorem Machine.resolveView_sparing (hc : c.Sparing N H r) : ∀ v : View, AllKnown N H v.handles →
    Sparing N H r (· ≠ some r) (fun _ => True) (resolveView c v)
  | .empty, _ | .text _, _ => .pure trivial
  | .fragment children, h =>
    .bind (Machine.resolveViews_sparing hc children h) fun _ _ => .pure trivial
  | .dynamic n, h => by
    refine .bind (hc.read n (h _ (List.mem_singleton_self _))) fun x hx => ?_
    refine .borrowing _ (hc.resolve _ ?_)
    cases x with
    | view v => exact hx
    | _ => exact .nil

theorem Machine.resolveViews_sparing (hc : c.Sparing N H r) :
    ∀ vs : List View, AllKnown N H (View.fragment vs).handles →
      Sparing N H r (· ≠ some r) (fun _ => True) (resolveViews c vs)
  | [], _ => .pure trivial
  | v :: rest, h => by
    simp only [AllKnown, View.handles, View.nodes, View.nodesAll, List.map_append,
      List.forall_mem_append] at h
    exact .bind (Machine.resolveView_sparing hc v h.1) fun _ _ =>
      .bind (Machine.resolveViews_sparing hc rest h.2) fun _ _ => .pure trivial

end

namespace Machine

theorem runRecipe_sparing (hr : ¬ Known N H (.node r)) (hc : c.Sparing N H r)
    (n : NodeId) : ∀ x : Recipe, x.Fits H →
      Sparing N H r (· ≠ some r) (AllKnown N H ·.handles) (runRecipe c n x)
  | .value _ body, h =>
    .bind (Expr.eval_sparing hr hc {} body ⟨h.1, h.2⟩) fun _ _ =>
      .bind (.emit rfl) fun _ _ => .pure .nil
  | .template _ body props, h =>
    .bind (.emit rfl) fun _ _ =>
      .bind (Template.eval_sparing hr hc { props } body ⟨h.1, h.2⟩) fun _ hv => .pure hv
  | .mount cell props scope, h => by
    have hcell : H (.node cell) := h.handles _ (List.mem_singleton_self _)
    refine .bind (hc.read cell (.of_mem hcell)) fun x hx => ?_
    cases x with
    | component k =>
      cases k with
      | none => exact .pure .nil
      | some k =>
        have hk : H (.component k) := hx _ (List.mem_singleton_self _)
        exact .bind (.inScope scope (.untracked (hc.render k props hk))) fun _ hv => .pure hv
    | _ => exact .pure .nil

theorem settleMemo_sparing {n : NodeId} (hn : Known N H (.node n)) {x : Content}
    (hx : AllKnown N H x.handles) {F : Option NodeId → Prop} :
    Sparing N H r F (fun _ => True) (settleMemo n x) := by
  refine .bind (.memo hn) ?_
  rintro (_ | m) hm
  · exact .pure trivial
  have hfits : Node.Fits N H (.memo { m with value := some x, freshness := .clean }) :=
    ⟨(hm m rfl).1, by rintro _ ⟨⟩; exact hx⟩
  refine .bind (.setNode n hfits) fun _ _ => ?_
  obtain ⟨recipe, value, freshness⟩ := m
  rcases value with _ | (_ | _ | _)
  case some.view => exact .collect
  all_goals exact .pure trivial

/-- What a source holds is found out in frames of their own, also if `r` asks for it. -/
theorem content_sparing (hr : ¬ Known N H (.node r)) (hc : c.Sparing N H r)
    {n : NodeId} (hn : Known N H (.node n)) {F : Option NodeId → Prop} :
    Sparing N H r F (AllKnown N H ·.handles) (content c n) := by
  have hne : n ≠ r := by
    rintro rfl
    exact hr hn
  have hrecompute (m : Memo) (hm : m.recipe.Fits H) :
      Sparing N H r F (AllKnown N H ·.handles) (recompute c n m) :=
    .bind (.unsubscribe hne) fun _ _ =>
      .bind (.inFrame (by simpa using hne) (runRecipe_sparing hr hc n _ hm)) fun _ hp =>
        .bind (settleMemo_sparing hn hp) fun _ _ => .pure hp
  refine .bind (.node hn) ?_
  rintro (_ | y) hy
  · exact .pure .nil
  cases y with
  | cell k =>
    refine .pure ?_
    cases k with
    | none => exact .nil
    | some k => simpa [AllKnown, Content.handles, Known, Node.Fits] using hy _ rfl
  | memo m =>
    obtain ⟨hm, hv⟩ := hy _ rfl
    obtain ⟨recipe, value, freshness⟩ := m
    cases value with
    | none => cases freshness <;> exact hrecompute _ hm
    | some v =>
      cases freshness with
      | clean => exact .pure (hv v rfl)
      | _ => exact hrecompute _ hm
  | _ => exact .pure .nil

theorem readNode_sparing (hr : ¬ Known N H (.node r)) (hc : c.Sparing N H r)
    {n : NodeId} (hn : Known N H (.node n)) :
    Sparing N H r (· ≠ some r) (AllKnown N H ·.handles) (readNode c n) := by
  refine .bind (.track n) fun _ _ => .bind (content_sparing hr hc hn) fun x hx =>
    .bind .reader fun k hk => .bind (.emit ?_) fun _ _ => .pure hx
  cases k with
  | none => rfl
  | some k => exact if_neg fun e => hk (congrArg some e)

end Machine

/-- Whatever is called and is known lets `r` stand by. -/
theorem calls_sparing (hr : ¬ Known N H (.node r)) : ∀ d, (calls d).Sparing N H r
  | 0 => by
    have none {α : Type} (V : α → Prop) :
        HotSwap.Sparing N H r (· ≠ some r) V (exhausted : Machine α) := fun _ _ _ _ _ _ => nofun
    exact ⟨fun _ _ => none _, fun _ _ _ => none _, fun _ _ => none _⟩
  | d + 1 => by
    have ih := calls_sparing hr d
    rw [calls_succ]
    exact ⟨fun _ hn => readNode_sparing hr ih hn, fun k props hk =>
      renderComponent_sparing hr ih k props hk, fun v hv => resolveView_sparing ih v hv⟩

end HotSwap
