import HotSwap.Proofs.Scope.Answers
/-!
# The stack of providers is lexical

Evaluating a body comes to what it comes to with the providers in hand, to the same depth, and ends if
and only if that does.
-/

namespace HotSwap

open Machine Store

/-- Calls do what they come to in `b`, in every store that agrees with `b`. -/
structure Lexical.Faithful (b : Store) (K : ComponentId → Prop) (c : Calls) (l : Lexical) :
    Prop where
  cell : ∀ {s n}, b.Same s → b.Occupied K n →
    Answers [] s (c.read n) (l.cell n) fun x k _ => x = .component k ∧ ∀ j, k = some j → K j
  mount : ∀ {s n cell props scope}, b.Same s →
    (View.dynamic n).Drafts (b.Occupied K) s.nodes (.mount cell props scope) →
      Answers [n] s (c.read n) (l.mount cell props scope) fun x d nodes =>
        x.toView.Pends (b.Occupied K) s.nodes.length d nodes
  render : ∀ {s k} props, b.Same s → K k →
    Answers [] s (c.render k props) (l.render s.provided k props) fun v d nodes =>
      v.Pends (b.Occupied K) s.nodes.length d nodes
  resolve : ∀ {s v d}, b.Same s → v.Drafts (b.Occupied K) s.nodes d → v.nodes.Nodup →
    Answers v.nodes s (c.resolve v) (l.resolve d) fun w w' _ => w = w'

theorem Lexical.Faithful.none (b : Store) (K : ComponentId → Prop) :
    Lexical.Faithful b K .none .none :=
  ⟨fun _ _ => .none, fun _ _ => .none, fun _ _ _ => .none, fun _ _ _ => .none⟩

namespace View.Pends

variable {C : NodeId → Prop} {lo lo' : Nat} {v : View} {d : Draft} {nodes : List Node}

theorem of_nil (hv : v.Drafts C nodes d) (hn : v.nodes = []) : v.Pends C lo d nodes :=
  ⟨hv, by simp [hn], by simp [hn]⟩

theorem older (h : v.Pends C lo d nodes) (hlo : lo' ≤ lo) : v.Pends C lo' d nodes :=
  { h with young := fun n hn => Nat.le_trans hlo (h.young n hn) }

theorem cons {s : Store} {ws : List View} {ds : List Draft} {t : Store}
    (h : v.Pends C lo d s.nodes) (hs : lo ≤ s.nodes.length) (ht : s.Touches [] t)
    (hws : (View.fragment ws).Pends C s.nodes.length (.fragment ds) t.nodes) :
    (View.fragment (v :: ws)).Pends C lo (.fragment (d :: ds)) t.nodes where
  drafts := ⟨h.drafts.touched ht (by simp), hws.drafts⟩
  young n hn := (List.mem_append.1 hn).elim (h.young n) fun hn =>
    Nat.le_trans hs (hws.young n hn)
  nodup := List.nodup_append.2 ⟨h.nodup, hws.nodup, fun n hn m hm e =>
    absurd (h.drafts.bound n hn) (Nat.not_lt.2 (e ▸ hws.young m hm))⟩

end View.Pends

section

variable {K : ComponentId → Prop} {b s : Store} {c : Calls} {l : Lexical}

namespace Machine

theorem textOf_answers (hl : Lexical.Faithful b K c l) {v : View} {d : Draft} (hs : b.Same s)
    (hv : v.Drafts (b.Occupied K) s.nodes d) (hd : v.nodes.Nodup) :
    Answers v.nodes s (textOf c v) (l.resolve d) fun x w _ => x = w.flatText :=
  (Answers.borrowing fun _ => hl.resolve { hs with } hv hd).andThen fun w w' t ht e =>
    ⟨_, t, rfl, ht, by rw [e]⟩

end Machine

mutual

theorem Expr.eval_answers (hl : Lexical.Faithful b K c l) {env : Env} {s : Store} (hs : b.Same s) :
    ∀ e : LinkedExpr, e.Contextual K →
      Answers [] s (e.eval c env) (e.under b l env s.provided) fun x y _ => x = y
  | .literal _, _ | .props, _ | .current, _ | .member _, _ => .pure rfl
  | .untrack e, he => .untracked fun frames =>
    e.eval_answers hl (s := { s with frames }) { hs with } he
  | .add es, hes | .mul es, hes | .concat es, hes | .list es, hes | .seq es, hes =>
    (Expr.evalAll_answers hl hs es hes).seq fun vs ws t _ e => .pure (by rw [e])
  | .less x y, ⟨hx, hy⟩ =>
    (x.eval_answers hl hs hx).seq fun v v' t ht e => by
      rw [← ht.provided]
      exact (y.eval_answers hl (hs.trans ht.toSame) hy).seq fun w w' u _ e' => .pure (by rw [e, e'])
  | .cond test yes no, ⟨htest, hyes, hno⟩ =>
    (test.eval_answers hl hs htest).seq fun v v' t ht e => by
      rw [← ht.provided, e]
      have hst := hs.trans ht.toSame
      split
      · exact yes.eval_answers hl hst hyes
      · exact no.eval_answers hl hst hno
  | .use k, _ => .of_eq (useContext_apply k s) (.refl [] s) (seen_of_same hs _ k)
  | .provide k v e, ⟨hv, he⟩ =>
    (v.eval_answers hl hs hv).seq fun x x' t ht ex => by
      have hst := hs.trans ht.toSame
      rw [← ht.provided, ← ex, ← provides_of_same hst]
      exact .bind_of_eq (contextToken_apply k t) <| .providing <|
        e.eval_answers hl (s := { t with provided := (t.provides k, x) :: t.provided }) { hst with } he
  | .render k e, ⟨hk, he⟩ =>
    (e.eval_answers hl hs he).seq fun x x' t ht ex => by
      have hst := hs.trans ht.toSame
      rw [← ht.provided, ← ex]
      refine .bind (hl.render x hst hk) (fun _ => .inl) fun v d u hu hv => ?_
      have htu := hst.trans hu.toSame
      refine ⟨v.nodes, fun n hn => .inr (hv.young n hn), ?_⟩
      exact .bind (textOf_answers hl htu hv.drafts hv.nodup) (fun _ => .inl) fun y w _ _ ey =>
        ⟨[], by simp, .pure (by rw [ey])⟩
  | .log e, he =>
    (e.eval_answers hl hs he).andThen fun x y t ht e =>
      ⟨x, _, rfl, ht.congr rfl rfl rfl rfl rfl rfl rfl rfl ht.provided, e⟩

theorem Expr.evalAll_answers (hl : Lexical.Faithful b K c l) {env : Env} {s : Store}
    (hs : b.Same s) : ∀ es : List LinkedExpr, Expr.ContextualAll K es →
      Answers [] s (Expr.evalAll c env es) (Expr.underAll b l env s.provided es) fun xs ys _ =>
        xs = ys
  | [], _ => .pure rfl
  | e :: rest, ⟨he, hrest⟩ =>
    (e.eval_answers hl hs he).seq fun x x' t ht ex => by
      rw [← ht.provided]
      exact (Expr.evalAll_answers hl (hs.trans ht.toSame) rest hrest).seq fun xs ys _ _ exs =>
        .pure (by rw [ex, exs])

end

mutual

theorem Template.eval_answers (hl : Lexical.Faithful b K c l) {env : Env} {s : Store}
    (hs : b.Same s) : ∀ body : LinkedTemplate, body.Contextual K →
      Answers [] s (body.eval c env) (body.under b l env s.provided) fun v d nodes =>
        v.Pends (b.Occupied K) s.nodes.length d nodes
  | .empty, _ => .pure (.of_nil trivial rfl)
  | .text e, he =>
    (e.eval_answers hl hs he).seq fun _ _ _ _ ex => .pure (.of_nil (congrArg Json.plain ex) rfl)
  | .fragment children, h =>
    (Template.evalAll_answers hl hs children h).seq fun _ _ _ _ hv => .pure hv
  | .child k e, ⟨hk, he⟩ =>
    (e.eval_answers hl hs he).seq fun x x' t ht ex => by
      rw [← ht.provided, ← ex]
      exact (hl.render x (hs.trans ht.toSame) hk).mono (fun _ => .inl) fun _ _ _ _ hv =>
        hv.older ht.length
  | .provide k v body, ⟨hv, hbody⟩ =>
    (v.eval_answers hl hs hv).seq fun x x' t ht ex => by
      have hst := hs.trans ht.toSame
      rw [← ht.provided, ← ex, ← provides_of_same hst]
      refine .bind_of_eq (contextToken_apply k t) (.providing ?_)
      exact (body.eval_answers hl (s := { t with provided := (t.provides k, x) :: t.provided })
        { hst with } hbody).mono (fun _ => .inl) fun _ _ _ _ hv => hv.older ht.length
  | .cond test yes no, ⟨htest, hyes, hno⟩ =>
    (test.eval_answers hl hs htest).seq fun v v' t ht e => by
      rw [← ht.provided, e]
      have hst := hs.trans ht.toSame
      split
      · exact (yes.eval_answers hl hst hyes).mono (fun _ => .inl) fun _ _ _ _ hv =>
          hv.older ht.length
      · exact (no.eval_answers hl hst hno).mono (fun _ => .inl) fun _ _ _ _ hv =>
          hv.older ht.length

theorem Template.evalAll_answers (hl : Lexical.Faithful b K c l) {env : Env} {s : Store}
    (hs : b.Same s) : ∀ bodies : List LinkedTemplate, Template.ContextualAll K bodies →
      Answers [] s (Template.evalAll c env bodies) (Template.underAll b l env s.provided bodies)
        fun vs ds nodes =>
          (View.fragment vs).Pends (b.Occupied K) s.nodes.length (.fragment ds) nodes
  | [], _ => .pure (.of_nil trivial rfl)
  | body :: rest, ⟨hbody, hrest⟩ =>
    (body.eval_answers hl hs hbody).seq fun v d t ht hv => by
      rw [← ht.provided]
      have hkept : Answers [] t (keeping v.handles (Template.evalAll c env rest))
          (Template.underAll b l env t.provided rest) fun ws ds nodes =>
            (View.fragment ws).Pends (b.Occupied K) t.nodes.length (.fragment ds) nodes :=
        .keeping (Template.evalAll_answers hl (s := { t with pinned := v.handles ++ t.pinned })
          { hs.trans ht.toSame with } rest hrest)
      exact hkept.seq fun _ _ _ hu hws => .pure (hv.cons ht.length hu hws)

end

namespace Machine

theorem mount_answers {cell : NodeId} (hcell : b.Occupied K cell) (props : Json) :
    Answers [] s (do reactiveView (.mount cell props (← get).provided))
      (some (.mount cell props s.provided)) fun v d nodes =>
        v.Pends (b.Occupied K) s.nodes.length d nodes := by
  have htouch : s.Touches [] (s.mounted cell props) :=
    { Touches.refl [] s with
      cell := fun hn => by
        rw [mounted, List.getElem?_append_left (List.getElem?_eq_some_iff.1 hn).1, hn]
      length := by simp [mounted]
      node := fun n hn _ => List.getElem?_append_left hn }
  refine .of_eq (t := s.mounted cell props) rfl htouch ⟨⟨hcell, ?_⟩, ?_, ?_⟩
  · exact ⟨_, List.getElem?_concat_length, rfl, by rintro ⟨⟩⟩
  · simp [View.nodes]
  · simp [View.nodes]

theorem renderComponent_answers (h : b.Contextual K) (hl : Lexical.Faithful b K c l) {s : Store}
    (hs : b.Same s) {k : ComponentId} (hk : K k) (props : Json) :
    Answers [] s (renderComponent c k props) (b.rendered l s.provided k props) fun v d nodes =>
      v.Pends (b.Occupied K) s.nodes.length d nodes := by
  refine .bind_of_eq (component?_apply k s) ?_
  rw [Store.rendered, hs.components]
  rcases hk' : b.components[k]? with _ | (f | p) <;> dsimp only
  · exact .pure (.of_nil trivial rfl)
  · have htrace : s.Touches [] { s with trace := .render k f.name :: s.trace } :=
      { Touches.refl [] s with }
    exact .first rfl htrace (f.body.eval_answers hl
      (s := { s with trace := .render k f.name :: s.trace }) { hs with } (h.function hk hk'))
  · have hcell := h.proxy hk hk'
    refine .bind_of_eq (cellContent_apply p.cell s) ?_
    rw [held_of_same hs hcell]
    rcases hj : b.held p.cell with _ | j <;> dsimp only
    · exact mount_answers hcell props
    · refine .bind_of_eq (isDev_apply j s) ?_
      rw [hs.components]
      change Answers [] s (if b.dev j then _ else _) _ _
      by_cases hdev : b.dev j
      · rw [if_pos hdev, if_pos hdev]
        exact mount_answers hcell props
      · rw [if_neg hdev, if_neg hdev]
        exact hl.render props hs (hcell.of_held hj)

mutual

theorem resolveView_answers (hl : Lexical.Faithful b K c l) {s : Store} (hs : b.Same s) :
    ∀ {v : View} {d : Draft}, v.Drafts (b.Occupied K) s.nodes d → v.nodes.Nodup →
      Answers v.nodes s (resolveView c v) (d.resolved l) fun w w' _ => w = w'
  | .empty, .empty, _, _ => .pure rfl
  | .text _, .text _, e, _ => .pure (congrArg View.text e)
  | .fragment _, .fragment _, hv, hd =>
    .bind (resolveViews_answers hl hs hv hd) (fun _ => .inl) fun _ _ _ _ e =>
      ⟨[], by simp, .pure (congrArg View.fragment e)⟩
  | .dynamic n, .mount cell props scope, hv, _ => by
    refine .bind (hl.mount hs hv) (fun _ => .inl) fun x d t ht hx => ?_
    refine ⟨x.toView.nodes, fun n hn => .inr (hx.young n hn), ?_⟩
    exact .borrowing fun _ => hl.resolve { hs.trans ht.toSame with } hx.drafts hx.nodup

theorem resolveViews_answers (hl : Lexical.Faithful b K c l) {s : Store} (hs : b.Same s) :
    ∀ {vs : List View} {ds : List Draft}, View.DraftsAll (b.Occupied K) s.nodes vs ds →
      (View.nodesAll vs).Nodup →
      Answers (View.nodesAll vs) s (resolveViews c vs) (Draft.resolvedAll l ds) fun ws ws' _ =>
        ws = ws'
  | [], [], _, _ => .pure rfl
  | v :: vs, d :: ds, ⟨hv, hvs⟩, hd => by
    obtain ⟨hd, hds, hne⟩ := List.nodup_append.1 hd
    refine .bind (resolveView_answers hl hs hv hd) (fun n hn => .inl (List.mem_append_left _ hn))
      fun w w' t ht e => ?_
    have hrest := resolveViews_answers hl (hs.trans ht.toSame)
      (hvs.touched ht fun n hn hn' => hne n hn' n hn rfl) hds
    refine ⟨_, fun n hn => .inl (List.mem_append_right _ hn), ?_⟩
    refine .bind hrest (fun _ => .inl) fun ws ws' _ _ es => ⟨[], by simp, .pure (by rw [e, es])⟩

end

theorem runRecipe_mount_answers (hl : Lexical.Faithful b K c l) {s : Store} (hs : b.Same s)
    (n : NodeId) {cell : NodeId} (hcell : b.Occupied K cell) (props : Json) (scope : Scope) :
    Answers [] s (runRecipe c n (.mount cell props scope)) (l.mounted cell props scope)
      fun x d nodes => x.toView.Pends (b.Occupied K) s.nodes.length d nodes := by
  refine (hl.cell hs hcell).seq fun x k t ht ⟨hx, hk⟩ => ?_
  subst hx
  cases k with
  | none => exact .pure (.of_nil trivial rfl)
  | some k =>
    have hst := hs.trans ht.toSame
    have hscope : Answers [] t (inScope scope (untracked (c.render k props)))
        (l.render scope k props) fun v d nodes =>
          v.Pends (b.Occupied K) t.nodes.length d nodes :=
      .inScope <| .untracked fun frames =>
        hl.render (s := { t with provided := scope, frames }) props { hst with } (hk k rfl)
    exact hscope.andThen fun v d u hu hv => ⟨_, u, rfl, hu, hv.older ht.length⟩

theorem touches_settled {n : NodeId} {m : Memo} (hn : s.nodes[n]? = some (.memo m)) (x : Content) :
    s.Touches [n] (s.settled n x) := by
  have hfilled : s.Touches [n] (s.filled n m x) :=
    { Touches.refl [n] s with
      cell := fun {c k} hc => by
        have hne : n ≠ c := by
          rintro rfl
          simp [hn] at hc
        rw [filled, List.getElem?_set_ne hne, hc]
      length := by simp [filled]
      node := fun i _ hi => List.getElem?_set_ne (Ne.symm (by simpa using hi)) }
  rcases settled_cases hn x with e | e <;> rw [e]
  · exact hfilled
  · exact hfilled.congr rfl rfl rfl rfl rfl rfl rfl rfl rfl

theorem touches_tracked (s : Store) (n : NodeId) : s.Touches [] (s.tracked n) := by
  unfold Store.tracked
  split
  · exact { Touches.refl [] s with }
  · exact .refl [] s

theorem recompute_mount_answers (hl : Lexical.Faithful b K c l) {s : Store} (hs : b.Same s)
    {n cell : NodeId} {m : Memo} {props : Json} {scope : Scope} (hcell : b.Occupied K cell)
    (hn : s.nodes[n]? = some (.memo m)) (hr : m.recipe = .mount cell props scope) :
    Answers [n] s (recompute c n m) (l.mounted cell props scope) fun x d nodes =>
      x.toView.Pends (b.Occupied K) s.nodes.length d nodes := by
  have hlt : n < s.nodes.length := (List.getElem?_eq_some_iff.1 hn).1
  have hrun := runRecipe_mount_answers hl (s := { s with
    edges := Edges.unsubscribe s.edges n, frames := { reader := some n } :: s.frames })
    { hs with } n hcell props scope
  have happly := recompute_apply c n m s
  rw [hr] at happly
  refine hrun.via happly fun x d t ht hx => ?_
  have ht : s.Touches [] { t with frames := t.frames.tail } :=
    ht.congr rfl rfl rfl rfl rfl rfl rfl rfl ht.provided
  have hset := touches_settled (by rw [ht.node n hlt (by simp), hn]) x
  refine ⟨(ht.weaken (by simp)).trans hset fun _ => .inl, { hx with drafts := ?_ }⟩
  refine hx.drafts.touched hset fun i hi hin => Nat.not_lt.2 (hx.young i hi) ?_
  rwa [List.mem_singleton.1 hin]

theorem readNode_mount_answers (hl : Lexical.Faithful b K c l) {s : Store} (hs : b.Same s)
    {n cell : NodeId} {props : Json} {scope : Scope}
    (hv : (View.dynamic n).Drafts (b.Occupied K) s.nodes (.mount cell props scope)) :
    Answers [n] s (readNode c n) (l.mounted cell props scope) fun x d nodes =>
      x.toView.Pends (b.Occupied K) s.nodes.length d nodes := by
  obtain ⟨hcell, m, hn, hr, due⟩ := hv
  have htracked := touches_tracked s n
  have hcontent : Answers [n] (s.tracked n) (content c n) (l.mounted cell props scope)
      fun x d nodes => x.toView.Pends (b.Occupied K) (s.tracked n).nodes.length d nodes := by
    rw [Answers, content_of_memo c hn, memoContent_of_due c n due]
    exact recompute_mount_answers hl (hs.trans htracked.toSame) hcell
      (by rwa [nodes_tracked]) hr
  refine .first (track_eq n s) htracked (hcontent.andThen fun x d t ht hx => ?_)
  exact ⟨x, _, rfl, ht.congr rfl rfl rfl rfl rfl rfl rfl rfl ht.provided, hx.older htracked.length⟩

theorem readNode_cell_answers {s : Store} (hs : b.Same s) {n : NodeId} (hn : b.Occupied K n)
    (c : Calls) : Answers [] s (readNode c n) (some (b.held n)) fun x k _ =>
      x = .component k ∧ ∀ j, k = some j → K j := by
  obtain ⟨k, hk, hK⟩ := id hn
  have hheld : b.held n = k := by simp [held, hk]
  have hcontent : content c n (s.tracked n) = some (.component k, s.tracked n) := by
    simp [content, node?_apply, hs.cell hk]
  refine .of_eq (readNode_of_content hcontent) ?_ ⟨by rw [hheld], by rwa [hheld]⟩
  exact (touches_tracked s n).congr rfl rfl rfl rfl rfl rfl rfl rfl (touches_tracked s n).provided

end Machine

end

/-- Calls do what they come to, whatever is provided where they are made. -/
theorem calls_faithful {K : ComponentId → Prop} {b : Store} (h : b.Contextual K) :
    ∀ d, Lexical.Faithful b K (calls d) (b.lexical d)
  | 0 => .none b K
  | d + 1 =>
    have hl := calls_faithful h d
    { cell := fun hs hn => readNode_cell_answers hs hn (calls d)
      mount := fun hs hv => readNode_mount_answers hl hs hv
      render := fun props hs hk => renderComponent_answers h hl hs hk props
      resolve := fun hs hv hd => resolveView_answers hl hs hv hd }

end HotSwap
