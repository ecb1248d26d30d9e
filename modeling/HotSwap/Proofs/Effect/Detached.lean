import HotSwap.Proofs.Subscription.Frames
/-!
# Effects that nobody tells

An effect that does not run, and that has been let go or is listed nowhere, is out of the way of
whatever is evaluated: it neither runs nor reads, and no source lists it anew. It may be disposed of
or let go meanwhile. Only a notification that has set out for it before can start it, and whoever
executes it.
-/

namespace HotSwap

open Machine

namespace Store

/-- The effect does not run, and no notification that starts now reaches it. -/
structure Detached (s : Store) (n : NodeId) : Prop where
  effect : ∃ e, s.nodes[n]? = some (.effect e)
  idle : n ∉ s.running
  unlisted : .node n ∈ s.live → ∀ m, n ∉ Edges.readers s.edges m

/-- Until `t` the effect has done nothing, and no source has listed it. -/
structure Idles (n : NodeId) (s t : Store) : Prop where
  effect : ∀ {e : Effect}, s.nodes[n]? = some (.effect e) → ∃ e', t.nodes[n]? = some (.effect e') ∧
    e'.runs = e.runs ∧ (e.disposed = true → e'.disposed = true)
  listed : ∀ {m : NodeId}, n ∈ Edges.readers t.edges m → n ∈ Edges.readers s.edges m
  live : .node n ∈ t.live → .node n ∈ s.live
  frames : t.frames.map Frame.reader = s.frames.map Frame.reader
  trace : ∃ es, t.trace = es ++ s.trace ∧ ∀ e ∈ es, e.actor ≠ some n

/-- If the effect is detached, it idles until `t`. -/
def Skips (n : NodeId) (s t : Store) : Prop := s.Detached n → s.Idles n t

variable {n k : NodeId} {s t u : Store} {x : Node}

theorem Idles.detached (h : s.Idles n t) (hs : s.Detached n) : t.Detached n where
  effect := by
    obtain ⟨e, he⟩ := hs.effect
    obtain ⟨e', he', -⟩ := h.effect he
    exact ⟨e', he'⟩
  idle := by
    rw [running_eq, h.frames, ← running_eq]
    exact hs.idle
  unlisted hl m hm := hs.unlisted (h.live hl) m (h.listed hm)

theorem Idles.refl (n : NodeId) (s : Store) : s.Idles n s where
  effect he := ⟨_, he, rfl, id⟩
  listed := id
  live := id
  frames := rfl
  trace := ⟨[], rfl, nofun⟩

theorem Idles.trans (h : s.Idles n t) (h' : t.Idles n u) : s.Idles n u where
  effect he := by
    obtain ⟨e', he', hr, hd⟩ := h.effect he
    obtain ⟨e'', he'', hr', hd'⟩ := h'.effect he'
    exact ⟨e'', he'', hr'.trans hr, hd' ∘ hd⟩
  listed := h.listed ∘ h'.listed
  live := h.live ∘ h'.live
  frames := h'.frames.trans h.frames
  trace := by
    obtain ⟨es, ht, hes⟩ := h.trace
    obtain ⟨es', ht', hes'⟩ := h'.trace
    exact ⟨es' ++ es, by rw [ht', ht, List.append_assoc], List.forall_mem_append.2 ⟨hes', hes⟩⟩

theorem skips_refl (n : NodeId) (s : Store) : s.Skips n s := fun _ => .refl n s

theorem skips_trans (n : NodeId) ⦃s t u : Store⦄ (h : s.Skips n t) (h' : t.Skips n u) :
    s.Skips n u := fun hs => (h hs).trans (h' ((h hs).detached hs))

theorem Detached.ne (h : s.Detached n) (hx : s.nodes[k]? = some x) (hne : ∀ e, x ≠ .effect e) :
    k ≠ n := by
  rintro rfl
  obtain ⟨e, he⟩ := h.effect
  exact hne e (Option.some.inj (hx.symm.trans he))

theorem Detached.reader (h : s.Detached n) : s.reader? ≠ some n :=
  fun hr => h.idle (mem_running_of_reader? hr)

theorem Idles.set (s : Store) (hk : k ≠ n) (x : Node) :
    s.Idles n { s with nodes := s.nodes.set k x } :=
  { Idles.refl n s with effect := fun he => ⟨_, (List.getElem?_set_ne hk).trans he, rfl, id⟩ }

theorem Detached.add (h : s.Detached n) (x : Node) :
    s.Idles n { s with nodes := s.nodes ++ [x], live := .node s.nodes.length :: s.live } :=
  { Idles.refl n s with
    effect := fun he => ⟨_, getElem?_append_of_some he, rfl, id⟩
    live := fun hl => by
      obtain ⟨e, he⟩ := h.effect
      have hne : n ≠ s.nodes.length := Nat.ne_of_lt (List.getElem?_eq_some_iff.1 he).1
      exact (List.mem_cons.1 hl).resolve_left fun heq => hne (by injection heq) }

theorem Idles.unsubscribe (n : NodeId) (s : Store) (k : NodeId) :
    s.Idles n { s with edges := Edges.unsubscribe s.edges k } :=
  { Idles.refl n s with listed := fun hm => ((Edges.mem_readers_unsubscribe _).1 hm).1 }

theorem Idles.collect (n : NodeId) (s : Store) : s.Idles n s.collect :=
  { Idles.refl n s with
    listed := fun hm => ((Edges.mem_readers_unsubscribeAll _ _).1 hm).1
    live := fun hl => s.survivors_subset hl }

theorem Detached.tracked (h : s.Detached n) (source : NodeId) : s.Idles n (s.tracked source) := by
  have hreaders := s.readers_tracked source
  rcases s.tracked_cases source with ⟨_, ht⟩ | ⟨r, xs, rest, hf, ht⟩
  · rw [ht]
    exact .refl n s
  have hr : n ≠ r := by
    rintro rfl
    exact h.idle (mem_running (by rw [hf]; exact List.mem_cons_self))
  rw [ht] at hreaders ⊢
  refine { Idles.refl n s with listed := fun hm => ?_, frames := hreaders }
  exact (Edges.mem_readers_subscribe_iff.1 hm).resolve_right fun hn => hr hn.2

theorem Idles.dispose (n : NodeId) {e : Effect} (he : s.nodes[k]? = some (.effect e)) :
    s.Idles n { s with
      nodes := s.nodes.set k (.effect { e with disposed := true })
      edges := Edges.unsubscribe s.edges k } := by
  refine { Idles.unsubscribe n s k with effect := fun {e'} he' => ?_ }
  by_cases hk : k = n
  · subst hk
    cases he.symm.trans he'
    exact ⟨_, List.getElem?_set_self (List.getElem?_eq_some_iff.1 he).1, rfl, fun _ => rfl⟩
  · exact ⟨_, (List.getElem?_set_ne hk).trans he', rfl, id⟩

end Store

open Store

namespace Machine

variable {n : NodeId} {s : Store} {c : Calls}

theorem WithinAt.of_detached {m : Machine α} (h : s.Detached n → WithinAt (Skips n) s m m) :
    WithinAt (Skips n) s m m := fun _ _ ha => ⟨ha, fun hs => (h hs ha).2 hs⟩

theorem emit_skips {e : Event} (he : e.actor ≠ some n) : Within (Skips n) (emit e) (emit e) :=
  .of_modify fun s _ => { Idles.refl n s with trace := ⟨[e], rfl, by simpa using he⟩ }

theorem collect_skips : Within (Skips n) collect collect := .of_modify fun s _ => .collect n s

theorem release_skips (h : Handle) : Within (Skips n) (release h) (release h) :=
  .bind (skips_trans n) (.of_modify fun s _ => { Idles.refl n s with }) fun _ => collect_skips

theorem unsubscribe_skips (k : NodeId) : Within (Skips n) (unsubscribe k) (unsubscribe k) :=
  .of_modify fun s _ => .unsubscribe n s k

theorem track_skips (k : NodeId) : Within (Skips n) (track k) (track k) :=
  fun _ => .of_eq (track_eq k _) (track_eq k _) fun h => h.tracked k

theorem inFrame_skips {r : Option NodeId} (hr : r ≠ some n) {m : Machine α}
    (h : Within (Skips n) m m) : Within (Skips n) (inFrame r m) (inFrame r m) := by
  intro s p t hp
  obtain ⟨u, hu, -, rfl⟩ := inFrame_eq_some.1 hp
  refine ⟨hp, fun hs => ?_⟩
  have hidle : n ∉ { s with frames := { reader := r } :: s.frames }.running := by
    intro hn
    obtain ⟨f, hf, hfn⟩ := List.mem_filterMap.1 hn
    rcases List.mem_cons.1 hf with rfl | hf
    · exact hr hfn
    · exact hs.idle (List.mem_filterMap.2 ⟨f, hf, hfn⟩)
  have hi := (h _ hu).2 { hs with idle := hidle }
  exact { hi with frames := by simpa using congrArg List.tail hi.frames }

theorem untracked_skips {m : Machine α} (h : Within (Skips n) m m) :
    Within (Skips n) (untracked m) (untracked m) :=
  .bind (skips_trans n) (inFrame_skips (by nofun) h) fun _ => .of_pure (skips_refl n) _

theorem providing_skips (τ : Token) (v : Json) {m : Machine α} (h : Within (Skips n) m m) :
    Within (Skips n) (providing τ v m) (providing τ v m) := by
  intro s a t ha
  obtain ⟨u, hu, rfl⟩ := providing_eq_some.1 ha
  exact ⟨ha, fun hs => { (h _ hu).2 { hs with } with }⟩

theorem inScope_skips (scope : Scope) {m : Machine α} (h : Within (Skips n) m m) :
    Within (Skips n) (inScope scope m) (inScope scope m) := by
  intro s a t ha
  obtain ⟨u, hu, rfl⟩ := inScope_eq_some.1 ha
  exact ⟨ha, fun hs => { (h _ hu).2 { hs with } with }⟩

theorem keeping_skips (hs : List Handle) {m : Machine α} (h : Within (Skips n) m m) :
    Within (Skips n) (keeping hs m) (keeping hs m) := by
  intro s a t ha
  obtain ⟨u, hu, rfl⟩ := keeping_eq_some.1 ha
  exact ⟨ha, fun hd => { (h _ hu).2 { hd with } with }⟩

theorem borrowing_skips (v : View) {m : Machine α} (h : Within (Skips n) m m) :
    Within (Skips n) (borrowing v m) (borrowing v m) :=
  .bind (skips_trans n) (keeping_skips _ h) fun _ =>
    .bind (skips_trans n) collect_skips fun _ => .of_pure (skips_refl n) _

theorem setNode_skips {k : NodeId} {x y : Node} (hx : s.nodes[k]? = some x)
    (hne : ∀ e, x ≠ .effect e) : WithinAt (Skips n) s (setNode k y) (setNode k y) :=
  .of_eq rfl rfl fun h => .set s (h.ne hx hne) y

theorem reactiveView_skips (r : Recipe) :
    Within (Skips n) (reactiveView r) (reactiveView r) :=
  fun _ => .of_eq rfl rfl fun h => h.add _

theorem disposeEffect_skips (k : NodeId) :
    Within (Skips n) (disposeEffect k) (disposeEffect k) := by
  intro s
  by_cases h : ∃ e, s.nodes[k]? = some (.effect e)
  · obtain ⟨e, he⟩ := h
    exact .of_eq (disposeEffect_of_effect he) (disposeEffect_of_effect he) fun _ => .dispose n he
  · have hk := disposeEffect_of_ne fun e he => h ⟨e, he⟩
    exact .of_eq hk hk (skips_refl n s)

theorem peek_skips (k : NodeId) : Within (Skips n) (peek k) (peek k) := by
  refine .bind (skips_trans n) (fun s => .of_eq rfl rfl (skips_refl n s)) fun x => ?_
  split <;> exact .of_pure (skips_refl n) _

variable (hc : c.Within (Skips n) c)

include hc

theorem textOf_skips (v : View) : Within (Skips n) (textOf c v) (textOf c v) :=
  .bind (skips_trans n) (borrowing_skips v (hc.resolve v)) fun _ => .of_pure (skips_refl n) _

theorem write_skips (k : NodeId) (v : Json) : Within (Skips n) (write c k v) (write c k v) := by
  intro s
  refine .bind_of_eq (node?_apply k s) ?_
  split
  · rename_i w hw
    exact .bind (skips_trans n) (setNode_skips hw nofun) fun _ t _ => hc.notify k t
  · exact .of_eq rfl rfl (skips_refl n s)

end Machine

section

variable {n : NodeId} {c : Calls}

mutual

theorem Expr.eval_skips (hc : c.Within (Skips n) c) (env : Env) :
    ∀ e : LinkedExpr, Within (Skips n) (e.eval c env) (e.eval c env)
  | .literal _ | .props | .current | .member _ => .of_pure (skips_refl n) _
  | .get k => .bind (skips_trans n) (hc.read k) fun _ => .of_pure (skips_refl n) _
  | .peek k => peek_skips k
  | .untrack e => untracked_skips (Expr.eval_skips hc env e)
  | .add es | .mul es | .concat es | .list es | .seq es =>
    .bind (skips_trans n) (Expr.evalAll_skips hc env es) fun _ => .of_pure (skips_refl n) _
  | .less a b =>
    .bind (skips_trans n) (Expr.eval_skips hc env a) fun _ =>
      .bind (skips_trans n) (Expr.eval_skips hc env b) fun _ => .of_pure (skips_refl n) _
  | .cond t a b => by
    refine .bind (skips_trans n) (Expr.eval_skips hc env t) fun x => ?_
    split
    · exact Expr.eval_skips hc env a
    · exact Expr.eval_skips hc env b
  | .set k e =>
    .bind (skips_trans n) (Expr.eval_skips hc env e) fun v =>
      .bind (skips_trans n) (write_skips hc k v) fun _ => .of_pure (skips_refl n) _
  | .use _ => fun s => .of_eq rfl rfl (skips_refl n s)
  | .provide _ v e =>
    .bind (skips_trans n) (Expr.eval_skips hc env v) fun x =>
      .bind (skips_trans n) (fun s => .of_eq rfl rfl (skips_refl n s)) fun τ =>
        providing_skips τ x (Expr.eval_skips hc env e)
  | .text v => .bind (skips_trans n) (textOf_skips hc v) fun _ => .of_pure (skips_refl n) _
  | .render k e =>
    .bind (skips_trans n) (Expr.eval_skips hc env e) fun props =>
      .bind (skips_trans n) (hc.render k props) fun v =>
        .bind (skips_trans n) (textOf_skips hc v) fun _ => .of_pure (skips_refl n) _
  | .log e =>
    .bind (skips_trans n) (Expr.eval_skips hc env e) fun _ =>
      .bind (skips_trans n) (emit_skips (by nofun)) fun _ => .of_pure (skips_refl n) _
  | .tracking => fun s => .of_eq rfl rfl (skips_refl n s)
  | .dispose k => .bind (skips_trans n) (disposeEffect_skips k) fun _ => .of_pure (skips_refl n) _
  | .release _ => .bind (skips_trans n) (release_skips _) fun _ => .of_pure (skips_refl n) _

theorem Expr.evalAll_skips (hc : c.Within (Skips n) c) (env : Env) :
    ∀ es : List LinkedExpr, Within (Skips n) (Expr.evalAll c env es) (Expr.evalAll c env es)
  | [] => .of_pure (skips_refl n) _
  | e :: rest =>
    .bind (skips_trans n) (Expr.eval_skips hc env e) fun _ =>
      .bind (skips_trans n) (Expr.evalAll_skips hc env rest) fun _ => .of_pure (skips_refl n) _

end

mutual

theorem Template.eval_skips (hc : c.Within (Skips n) c) (env : Env) :
    ∀ t : LinkedTemplate, Within (Skips n) (t.eval c env) (t.eval c env)
  | .empty | .use _ => .of_pure (skips_refl n) _
  | .text e =>
    .bind (skips_trans n) (Expr.eval_skips hc env e) fun _ => .of_pure (skips_refl n) _
  | .fragment children =>
    .bind (skips_trans n) (Template.evalAll_skips hc env children) fun _ =>
      .of_pure (skips_refl n) _
  | .dynamic _ _ => reactiveView_skips _
  | .child k e =>
    .bind (skips_trans n) (Expr.eval_skips hc env e) fun props => hc.render k props
  | .provide _ v body =>
    .bind (skips_trans n) (Expr.eval_skips hc env v) fun x =>
      .bind (skips_trans n) (fun s => .of_eq rfl rfl (skips_refl n s)) fun τ =>
        providing_skips τ x (Template.eval_skips hc env body)
  | .cond t a b => by
    refine .bind (skips_trans n) (Expr.eval_skips hc env t) fun x => ?_
    split
    · exact Template.eval_skips hc env a
    · exact Template.eval_skips hc env b

theorem Template.evalAll_skips (hc : c.Within (Skips n) c) (env : Env) :
    ∀ ts : List LinkedTemplate,
      Within (Skips n) (Template.evalAll c env ts) (Template.evalAll c env ts)
  | [] => .of_pure (skips_refl n) _
  | t :: rest =>
    .bind (skips_trans n) (Template.eval_skips hc env t) fun v =>
      .bind (skips_trans n) (keeping_skips v.handles (Template.evalAll_skips hc env rest)) fun _ =>
        .of_pure (skips_refl n) _

end

namespace Machine

theorem renderComponent_skips (hc : c.Within (Skips n) c) (k : ComponentId) (props : Json) :
    Within (Skips n) (renderComponent c k props) (renderComponent c k props) := by
  intro s
  refine .bind_of_eq (component?_apply k s) ?_
  split
  · exact .of_eq rfl rfl (skips_refl n s)
  · rename_i p _
    have mount : WithinAt (Skips n) s
        (do reactiveView (.mount p.cell props (← get).provided))
        (do reactiveView (.mount p.cell props (← get).provided)) :=
      .bind_of_eq (get_apply s) (reactiveView_skips _ s)
    refine .bind_of_eq (cellContent_apply p.cell s) ?_
    split
    · exact mount
    · refine .bind_of_eq (isDev_apply _ s) ?_
      split
      · exact mount
      · exact hc.render _ props s
  · exact .bind (skips_trans n) (emit_skips (by nofun) s) fun _ t _ => Template.eval_skips hc _ _ t

mutual

theorem resolveView_skips (hc : c.Within (Skips n) c) :
    ∀ v : View, Within (Skips n) (resolveView c v) (resolveView c v)
  | .empty | .text _ => .of_pure (skips_refl n) _
  | .fragment children =>
    .bind (skips_trans n) (resolveViews_skips hc children) fun _ => .of_pure (skips_refl n) _
  | .dynamic k =>
    .bind (skips_trans n) (hc.read k) fun x => borrowing_skips x.toView (hc.resolve x.toView)

theorem resolveViews_skips (hc : c.Within (Skips n) c) :
    ∀ vs : List View, Within (Skips n) (resolveViews c vs) (resolveViews c vs)
  | [] => .of_pure (skips_refl n) _
  | v :: rest =>
    .bind (skips_trans n) (resolveView_skips hc v) fun _ =>
      .bind (skips_trans n) (resolveViews_skips hc rest) fun _ => .of_pure (skips_refl n) _

end

variable (hc : c.Within (Skips n) c)

include hc

theorem runRecipe_skips {k : NodeId} (hk : k ≠ n) :
    ∀ r : Recipe, Within (Skips n) (runRecipe c k r) (runRecipe c k r)
  | .value _ body =>
    .bind (skips_trans n) (Expr.eval_skips hc _ body) fun _ =>
      .bind (skips_trans n) (emit_skips (by simpa [Event.actor] using hk)) fun _ =>
        .of_pure (skips_refl n) _
  | .template _ body _ =>
    .bind (skips_trans n) (emit_skips (by simpa [Event.actor] using hk)) fun _ =>
      .bind (skips_trans n) (Template.eval_skips hc _ body) fun _ => .of_pure (skips_refl n) _
  | .mount cell _ scope => by
    refine .bind (skips_trans n) (hc.read cell) fun x => ?_
    split
    · exact .bind (skips_trans n) (inScope_skips scope (untracked_skips (hc.render _ _)))
        fun _ => .of_pure (skips_refl n) _
    · exact .of_pure (skips_refl n) _

omit hc in
theorem settleMemo_skips (k : NodeId) (v : Content) :
    Within (Skips n) (settleMemo k v) (settleMemo k v) := by
  intro s
  refine .bind_of_eq (memo?_apply k s) ?_
  cases hm : s.memoAt k with
  | none => exact .of_eq rfl rfl (skips_refl n s)
  | some m =>
    refine .bind (skips_trans n) (setNode_skips (memoAt_eq_some.1 hm) nofun) fun _ t _ => ?_
    split
    · exact collect_skips t
    · exact .of_eq rfl rfl (skips_refl n t)

theorem content_skips (k : NodeId) : Within (Skips n) (content c k) (content c k) := by
  intro s
  refine .bind_of_eq (node?_apply k s) ?_
  split
  · exact .of_eq rfl rfl (skips_refl n s)
  · exact .of_eq rfl rfl (skips_refl n s)
  · rename_i m hm
    rcases Memo.due_or_clean m with hdue | ⟨v, hf, hv⟩
    · -- a memo runs in a frame of its own, and is not the effect
      refine .of_detached fun hs => ?_
      have hk : k ≠ n := hs.ne hm nofun
      rw [memoContent_of_due c k hdue]
      exact .bind (skips_trans n) (unsubscribe_skips k s) fun _ t _ =>
        .bind (skips_trans n)
          (inFrame_skips (by simpa using hk) (runRecipe_skips hc hk m.recipe) t) fun p u _ =>
            .bind (skips_trans n) (settleMemo_skips k p.1 u) fun _ w _ =>
              .of_eq rfl rfl (skips_refl n w)
    · rw [memoContent_of_clean c k hf hv]
      exact .of_eq rfl rfl (skips_refl n s)
  · exact .of_eq rfl rfl (skips_refl n s)

theorem readNode_skips (k : NodeId) : Within (Skips n) (readNode c k) (readNode c k) := by
  refine .bind (skips_trans n) (track_skips k) fun _ =>
    .bind (skips_trans n) (content_skips hc k) fun v s => ?_
  refine .bind_of_eq (reader_apply s) (.of_detached fun hs => ?_)
  exact .bind (skips_trans n) (emit_skips (by exact hs.reader) s)
    fun _ t _ => .of_eq rfl rfl (skips_refl n t)

theorem runEffect_skips {k : NodeId} (hk : k ≠ n) :
    Within (Skips n) (runEffect c k) (runEffect c k) := by
  intro s
  refine .bind_of_eq (effect?_apply k s) ?_
  cases s.effectAt k with
  | none => exact .of_eq rfl rfl (skips_refl n s)
  | some e =>
    dsimp only
    split
    · exact .of_eq rfl rfl (skips_refl n s)
    · refine .bind (skips_trans n) (unsubscribe_skips k s) fun _ t _ => ?_
      refine .bind (skips_trans n) (inFrame_skips (by simpa using hk)
        (.bind (skips_trans n) (Expr.eval_skips hc {} e.body) fun v =>
          emit_skips (by simpa [Event.actor] using hk)) t) fun p u _ => ?_
      refine .bind_of_eq (effect?_apply k u) ?_
      split
      · exact .of_eq rfl rfl (skips_refl n u)
      · exact .of_eq rfl rfl fun _ => .set u hk _

theorem mark_skips (k : NodeId) : Within (Skips n) (mark c k) (mark c k) := by
  intro s
  refine .bind_of_eq (node?_apply k s) ?_
  split
  · rename_i m hm
    unfold markMemo
    split
    · exact .bind (skips_trans n) (setNode_skips hm nofun) fun _ t _ => hc.notify k t
    · exact .of_eq rfl rfl (skips_refl n s)
  · exact emit_skips (by nofun) s
  · exact .of_eq rfl rfl (skips_refl n s)

theorem schedule_skips {k : NodeId} (hk : k ≠ n) :
    Within (Skips n) (schedule c k) (schedule c k) := by
  intro s
  refine .bind_of_eq (node?_apply k s) ?_
  split
  · exact runEffect_skips hc hk s
  · exact emit_skips (by nofun) s
  · exact .of_eq rfl rfl (skips_refl n s)

omit hc in
theorem forEach_skips {act : NodeId → Machine Unit} :
    ∀ ks : List NodeId, (∀ k ∈ ks, Within (Skips n) (act k) (act k)) →
      Within (Skips n) (forEach act ks) (forEach act ks)
  | [], _ => .of_pure (skips_refl n) _
  | k :: ks, h =>
    .bind (skips_trans n) (h k List.mem_cons_self) fun _ =>
      forEach_skips ks fun j hj => h j (List.mem_cons_of_mem _ hj)

theorem notifyNode_skips (source : NodeId) :
    Within (Skips n) (notifyNode c source) (notifyNode c source) := by
  intro s
  refine .of_detached fun hs => .bind_of_eq (m := liveReaders source) rfl ?_
  have hne : ∀ k ∈ (Edges.readers s.edges source).filter s.isLive, k ≠ n := by
    rintro k hk rfl
    obtain ⟨hm, hl⟩ := List.mem_filter.1 hk
    exact hs.unlisted (of_decide_eq_true hl) source hm
  exact .bind (skips_trans n) (forEach_skips _ (fun k _ => mark_skips hc k) s) fun _ t _ =>
    forEach_skips _ (fun k hk => schedule_skips hc (hne k hk)) t

end Machine

end

/-- No call that is made anywhere in an evaluation touches the effect. -/
theorem calls_skip (n : NodeId) : ∀ d, (calls d).Within (Skips n) (calls d)
  | 0 => Calls.none_within _ _
  | d + 1 => by
    have ih := calls_skip n d
    rw [calls_succ]
    exact ⟨readNode_skips ih, notifyNode_skips ih, renderComponent_skips ih,
      resolveView_skips ih⟩

end HotSwap
