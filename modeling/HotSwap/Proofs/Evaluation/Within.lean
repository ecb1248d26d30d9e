import HotSwap.Proofs.Evaluation.Admissible
/-!
# Evaluations within a relation

One lemma for each function of the evaluator, each on its case split.
-/

namespace HotSwap

open Machine

variable {R : Store → Store → Prop} {c c' : Calls}

theorem Machine.peek_within (hR : Admissible R) (n : NodeId) : Within R (peek n) (peek n) := by
  refine .bind hR.trans (fun s => .of_eq rfl rfl (hR.refl s)) fun x => ?_
  split <;> exact .of_pure hR.refl _

mutual

theorem Expr.eval_within (hR : Admissible R) (hc : c.Within R c') (env : Env) :
    ∀ e : LinkedExpr, Within R (e.eval c env) (e.eval c' env)
  | .literal v => .of_pure hR.refl v
  | .props => .of_pure hR.refl _
  | .current => .of_pure hR.refl _
  | .member k => .of_pure hR.refl _
  | .get n => .bind hR.trans (hc.read n) fun _ => .of_pure hR.refl _
  | .peek n => peek_within hR n
  | .untrack e => untracked_within hR (Expr.eval_within hR hc env e)
  | .add es => .bind hR.trans (Expr.evalAll_within hR hc env es) fun _ => .of_pure hR.refl _
  | .mul es => .bind hR.trans (Expr.evalAll_within hR hc env es) fun _ => .of_pure hR.refl _
  | .less a b =>
    .bind hR.trans (Expr.eval_within hR hc env a) fun _ =>
      .bind hR.trans (Expr.eval_within hR hc env b) fun _ => .of_pure hR.refl _
  | .cond t a b => by
    refine .bind hR.trans (Expr.eval_within hR hc env t) fun x => ?_
    split
    · exact Expr.eval_within hR hc env a
    · exact Expr.eval_within hR hc env b
  | .concat es => .bind hR.trans (Expr.evalAll_within hR hc env es) fun _ => .of_pure hR.refl _
  | .list es => .bind hR.trans (Expr.evalAll_within hR hc env es) fun _ => .of_pure hR.refl _
  | .seq es => .bind hR.trans (Expr.evalAll_within hR hc env es) fun _ => .of_pure hR.refl _
  | .set n e =>
    .bind hR.trans (Expr.eval_within hR hc env e) fun v =>
      .bind hR.trans (write_within hR hc n v) fun _ => .of_pure hR.refl _
  | .use _ => fun s => .of_eq rfl rfl (hR.refl s)
  | .provide _ v e =>
    .bind hR.trans (Expr.eval_within hR hc env v) fun x =>
      .bind hR.trans (fun s => .of_eq rfl rfl (hR.refl s)) fun t =>
        providing_within hR t x (Expr.eval_within hR hc env e)
  | .text v => .bind hR.trans (textOf_within hR hc v) fun _ => .of_pure hR.refl _
  | .render k e =>
    .bind hR.trans (Expr.eval_within hR hc env e) fun props =>
      .bind hR.trans (hc.render k props) fun v =>
        .bind hR.trans (textOf_within hR hc v) fun _ => .of_pure hR.refl _
  | .log e =>
    .bind hR.trans (Expr.eval_within hR hc env e) fun v =>
      .bind hR.trans (emit_within hR _) fun _ => .of_pure hR.refl v
  | .tracking => fun s => .of_eq rfl rfl (hR.refl s)
  | .dispose n => .bind hR.trans (disposeEffect_within hR n) fun _ => .of_pure hR.refl _
  | .release n => .bind hR.trans (release_within hR _) fun _ => .of_pure hR.refl _

theorem Expr.evalAll_within (hR : Admissible R) (hc : c.Within R c') (env : Env) :
    ∀ es : List LinkedExpr, Within R (Expr.evalAll c env es) (Expr.evalAll c' env es)
  | [] => .of_pure hR.refl _
  | e :: rest =>
    .bind hR.trans (Expr.eval_within hR hc env e) fun _ =>
      .bind hR.trans (Expr.evalAll_within hR hc env rest) fun _ => .of_pure hR.refl _

end

mutual

theorem Template.eval_within (hR : Admissible R) (hc : c.Within R c') (env : Env) :
    ∀ t : LinkedTemplate, Within R (t.eval c env) (t.eval c' env)
  | .empty => .of_pure hR.refl _
  | .text e => .bind hR.trans (Expr.eval_within hR hc env e) fun _ => .of_pure hR.refl _
  | .fragment children =>
    .bind hR.trans (Template.evalAll_within hR hc env children) fun _ => .of_pure hR.refl _
  | .dynamic _ _ => fun _ => reactiveView_within hR nofun
  | .child k e =>
    .bind hR.trans (Expr.eval_within hR hc env e) fun props => hc.render k props
  | .provide _ v body =>
    .bind hR.trans (Expr.eval_within hR hc env v) fun x =>
      .bind hR.trans (fun s => .of_eq rfl rfl (hR.refl s)) fun t =>
        providing_within hR t x (Template.eval_within hR hc env body)
  | .cond t a b => by
    refine .bind hR.trans (Expr.eval_within hR hc env t) fun x => ?_
    split
    · exact Template.eval_within hR hc env a
    · exact Template.eval_within hR hc env b
  | .use v => .of_pure hR.refl v

theorem Template.evalAll_within (hR : Admissible R) (hc : c.Within R c') (env : Env) :
    ∀ ts : List LinkedTemplate, Within R (Template.evalAll c env ts) (Template.evalAll c' env ts)
  | [] => .of_pure hR.refl _
  | t :: rest =>
    .bind hR.trans (Template.eval_within hR hc env t) fun v =>
      .bind hR.trans (keeping_within hR v.handles (Template.evalAll_within hR hc env rest)) fun _ =>
        .of_pure hR.refl _

end

namespace Machine

theorem renderProxy_within (hR : Admissible R) (hc : c.Within R c') {s : Store} {k : ComponentId}
    {p : Proxy} (hp : s.components[k]? = some (.proxy p)) (props : Json) :
    WithinAt R s (renderProxy c p props) (renderProxy c' p props) := by
  have mount : WithinAt R s (do reactiveView (.mount p.cell props (← get).provided))
      (do reactiveView (.mount p.cell props (← get).provided)) :=
    .bind_of_eq (get_apply s) (reactiveView_within hR (by rintro _ _ _ ⟨⟩; exact ⟨k, p, hp, rfl⟩))
  refine .bind_of_eq (cellContent_apply p.cell s) ?_
  split
  · exact mount
  · refine .bind_of_eq (isDev_apply _ s) ?_
    split
    · exact mount
    · exact hc.render _ props s

theorem renderComponent_within (hR : Admissible R) (hc : c.Within R c') (k : ComponentId)
    (props : Json) : Within R (renderComponent c k props) (renderComponent c' k props) := by
  intro s
  refine .bind_of_eq (component?_apply k s) ?_
  split
  · exact .of_eq rfl rfl (hR.refl s)
  · exact renderProxy_within hR hc ‹_› props
  · exact .bind hR.trans (emit_within hR _ s) fun _ t _ => Template.eval_within hR hc _ _ t

mutual

theorem resolveView_within (hR : Admissible R) (hc : c.Within R c') :
    ∀ v : View, Within R (resolveView c v) (resolveView c' v)
  | .empty => .of_pure hR.refl _
  | .text _ => .of_pure hR.refl _
  | .fragment children =>
    .bind hR.trans (resolveViews_within hR hc children) fun _ => .of_pure hR.refl _
  | .dynamic n =>
    .bind hR.trans (hc.read n) fun x => borrowing_within hR x.toView (hc.resolve x.toView)

theorem resolveViews_within (hR : Admissible R) (hc : c.Within R c') :
    ∀ vs : List View, Within R (resolveViews c vs) (resolveViews c' vs)
  | [] => .of_pure hR.refl _
  | v :: rest =>
    .bind hR.trans (resolveView_within hR hc v) fun _ =>
      .bind hR.trans (resolveViews_within hR hc rest) fun _ => .of_pure hR.refl _

end

theorem runEffect_within (hR : Admissible R) (hc : c.Within R c') (n : NodeId) :
    Within R (runEffect c n) (runEffect c' n) := by
  intro s
  refine .bind_of_eq (effect?_apply n s) ?_
  cases he : s.effectAt n with
  | none => exact .of_eq rfl rfl (hR.refl s)
  | some e =>
    dsimp only
    split
    · exact .of_eq rfl rfl (hR.refl s)
    · refine .bind hR.trans (.of_eq rfl rfl (hR.unsubscribe (Store.effectAt_eq_some.1 he)))
        fun _ t _ => ?_
      refine .bind hR.trans (inFrame_within hR _ (.bind hR.trans
        (Expr.eval_within hR hc _ _) fun _ => emit_within hR _) t) fun p u _ => ?_
      -- the body may have disposed of the effect that it is the body of
      refine .bind_of_eq (effect?_apply n u) ?_
      cases hu : u.effectAt n with
      | none => exact .of_eq rfl rfl (hR.refl u)
      | some e' =>
        exact .of_eq rfl rfl (hR.effect e'.disposed _ _ (Store.effectAt_eq_some.1 hu))

theorem mark_within (hR : Admissible R) (hc : c.Within R c') (n : NodeId) :
    Within R (mark c n) (mark c' n) := by
  intro s
  refine .bind_of_eq (node?_apply n s) ?_
  split
  · rename_i m hm
    unfold markMemo
    split
    · exact .bind hR.trans (.of_eq rfl rfl (hR.mark hm)) fun _ t _ => hc.notify n t
    · exact .of_eq rfl rfl (hR.refl s)
  · exact emit_within hR _ s
  · exact .of_eq rfl rfl (hR.refl s)

theorem schedule_within (hR : Admissible R) (hc : c.Within R c') (n : NodeId) :
    Within R (schedule c n) (schedule c' n) := by
  intro s
  refine .bind_of_eq (node?_apply n s) ?_
  split
  · exact runEffect_within hR hc n s
  · exact emit_within hR _ s
  · exact .of_eq rfl rfl (hR.refl s)

theorem forEach_within (hR : Admissible R) {act act' : NodeId → Machine Unit}
    (h : ∀ n, Within R (act n) (act' n)) :
    ∀ ns : List NodeId, Within R (forEach act ns) (forEach act' ns)
  | [] => .of_pure hR.refl _
  | n :: rest => .bind hR.trans (h n) fun _ => forEach_within hR h rest

theorem notifyNode_within (hR : Admissible R) (hc : c.Within R c') (source : NodeId) :
    Within R (notifyNode c source) (notifyNode c' source) :=
  .bind hR.trans (fun s => .of_eq rfl rfl (hR.refl s)) fun _ =>
    .bind hR.trans (forEach_within hR (mark_within hR hc) _) fun _ =>
      forEach_within hR (schedule_within hR hc) _

theorem runRecipe_within (hR : Admissible R) (hc : c.Within R c') (n : NodeId) :
    ∀ r : Recipe, Within R (runRecipe c n r) (runRecipe c' n r)
  | .value _ _ =>
    .bind hR.trans (Expr.eval_within hR hc _ _) fun _ =>
      .bind hR.trans (emit_within hR _) fun _ => .of_pure hR.refl _
  | .template _ _ _ =>
    .bind hR.trans (emit_within hR _) fun _ =>
      .bind hR.trans (Template.eval_within hR hc _ _) fun _ => .of_pure hR.refl _
  | .mount cell _ scope => by
    refine .bind hR.trans (hc.read cell) fun x => ?_
    split
    · exact .bind hR.trans (inScope_within hR scope (untracked_within hR (hc.render _ _)))
        fun _ => .of_pure hR.refl _
    · exact .of_pure hR.refl _

end Machine

/-- A read has to compute the memo. -/
def Memo.Due (m : Memo) : Prop := m.freshness = .clean → m.value = none

namespace Machine

theorem memoContent_of_due (c : Calls) (n : NodeId) {m : Memo} (h : m.Due) :
    memoContent c n m = recompute c n m := by
  obtain ⟨recipe, value, freshness⟩ := m
  unfold memoContent
  cases freshness <;> cases value <;> first | rfl | simp [Memo.Due] at h

theorem memoContent_of_clean (c : Calls) (n : NodeId) {m : Memo} {v : Content}
    (hf : m.freshness = .clean) (hv : m.value = some v) : memoContent c n m = pure v := by
  unfold memoContent
  rw [hf, hv]

theorem Memo.due_or_clean (m : Memo) : m.Due ∨ ∃ v, m.freshness = .clean ∧ m.value = some v := by
  by_cases h : m.freshness = .clean
  · cases hv : m.value with
    | none => exact .inl fun _ => hv
    | some v => exact .inr ⟨v, h, rfl⟩
  · exact .inl fun hf => absurd hf h

section

variable (hR : Admissible R) (n : NodeId)
  (hrec : ∀ s m, s.nodes[n]? = some (.memo m) → m.Due →
    WithinAt R s (recompute c n m) (recompute c' n m))

include hR hrec

/-- How `recompute` moves a store is left to be shown, from where a read calls it. -/
theorem content_within : Within R (content c n) (content c' n) := by
  intro s
  refine .bind_of_eq (node?_apply n s) ?_
  split
  · exact .of_eq rfl rfl (hR.refl s)
  · exact .of_eq rfl rfl (hR.refl s)
  · rename_i m hm
    rcases Memo.due_or_clean m with h | ⟨v, hf, hv⟩
    · rw [memoContent_of_due c n h, memoContent_of_due c' n h]
      exact hrec s m hm h
    · rw [memoContent_of_clean c n hf hv, memoContent_of_clean c' n hf hv]
      exact .of_eq rfl rfl (hR.refl s)
  · exact .of_eq rfl rfl (hR.refl s)

theorem readNode_within : Within R (readNode c n) (readNode c' n) :=
  .bind hR.trans (track_within hR n) fun _ => .bind hR.trans (content_within hR n hrec) fun v =>
    .bind hR.trans (fun s => .of_eq (reader_apply s) (reader_apply s) (hR.refl s)) fun _ =>
      .bind hR.trans (emit_within hR _) fun _ => .of_pure hR.refl v

end

end Machine

theorem Calls.next_within (hR : Admissible R) (hc : c.Within R c')
    (hrec : ∀ s n m, s.nodes[n]? = some (.memo m) → m.Due →
      WithinAt R s (recompute c n m) (recompute c' n m)) : c.next.Within R c'.next where
  read n := readNode_within hR n fun s m => hrec s n m
  notify := notifyNode_within hR hc
  render := renderComponent_within hR hc
  resolve := resolveView_within hR hc

end HotSwap
