import HotSwap.Proofs.Nested.Agreement
/-!
# Evaluation follows the surroundings

Every body, read, render and notification over the stacks does what it does when its surroundings
are handed to it.
-/

namespace HotSwap

open Machine

variable {c : Calls} {l : Enclosed.Calls}

namespace Follows

theorem write (hc : c.Follow l) (n : NodeId) (v : Json) :
    Follows (write c n v) (Enclosed.write l n v) :=
  .bind (.lift (.node? n)) fun y => by
    rcases y with _ | (_ | _ | _ | _ | _ | _)
    case some.signal => exact .bind (.lift (.setNode n _)) fun _ => hc.notify n
    all_goals exact .pure _

theorem textOf (hc : c.Follow l) (v : View) : Follows (textOf c v) (Enclosed.textOf l v) :=
  .bind (.borrowing v (hc.resolve v)) fun _ => .pure _

end Follows

mutual

theorem Expr.eval_follows (hc : c.Follow l) (env : Env) :
    ∀ e : LinkedExpr, Follows (e.eval c env) (e.enclosed l env)
  | .literal _ | .props | .current | .member _ => .pure _
  | .get n => .bind (hc.read n) fun _ => .pure _
  | .peek n => .lift (.peek n)
  | .untrack e => .untracked (Expr.eval_follows hc env e)
  | .add es | .mul es | .concat es | .list es | .seq es =>
    .bind (Expr.evalAll_follows hc env es) fun _ => .pure _
  | .less a b =>
    .bind (Expr.eval_follows hc env a) fun _ =>
      .bind (Expr.eval_follows hc env b) fun _ => .pure _
  | .cond t a b =>
    .bind (Expr.eval_follows hc env t) fun x => by
      split
      · exact Expr.eval_follows hc env a
      · exact Expr.eval_follows hc env b
  | .set n e =>
    .bind (Expr.eval_follows hc env e) fun v => .bind (.write hc n v) fun _ => .pure _
  | .use ctx => .useContext ctx
  | .provide ctx v e =>
    .bind (Expr.eval_follows hc env v) fun x => .bind (.lift (.contextToken ctx)) fun t =>
      .providing t x (Expr.eval_follows hc env e)
  | .text v => .bind (.textOf hc v) fun _ => .pure _
  | .render k e =>
    .bind (Expr.eval_follows hc env e) fun props => .bind (hc.render k props) fun v =>
      .bind (.textOf hc v) fun _ => .pure _
  | .log e =>
    .bind (Expr.eval_follows hc env e) fun v => .bind (.lift (.emit _)) fun _ => .pure _
  | .tracking => .bind (.bind .reader fun _ => .pure _) fun _ => .pure _
  | .dispose n => .bind (.lift (.disposeEffect n)) fun _ => .pure _
  | .release n => .bind (.lift (.release _)) fun _ => .pure _

theorem Expr.evalAll_follows (hc : c.Follow l) (env : Env) :
    ∀ es : List LinkedExpr, Follows (Expr.evalAll c env es) (Expr.enclosedAll l env es)
  | [] => .pure _
  | e :: rest =>
    .bind (Expr.eval_follows hc env e) fun _ =>
      .bind (Expr.evalAll_follows hc env rest) fun _ => .pure _

end

mutual

theorem Template.eval_follows (hc : c.Follow l) (env : Env) :
    ∀ t : LinkedTemplate, Follows (t.eval c env) (t.enclosed l env)
  | .empty | .use _ => .pure _
  | .text e => .bind (Expr.eval_follows hc env e) fun _ => .pure _
  | .fragment children => .bind (Template.evalAll_follows hc env children) fun _ => .pure _
  | .dynamic _ _ => .lift (.reactiveView _)
  | .child k e => .bind (Expr.eval_follows hc env e) fun props => hc.render k props
  | .provide ctx v body =>
    .bind (Expr.eval_follows hc env v) fun x => .bind (.lift (.contextToken ctx)) fun t =>
      .providing t x (Template.eval_follows hc env body)
  | .cond t a b =>
    .bind (Expr.eval_follows hc env t) fun x => by
      split
      · exact Template.eval_follows hc env a
      · exact Template.eval_follows hc env b

theorem Template.evalAll_follows (hc : c.Follow l) (env : Env) :
    ∀ ts : List LinkedTemplate, Follows (Template.evalAll c env ts) (Template.enclosedAll l env ts)
  | [] => .pure _
  | t :: rest =>
    .bind (Template.eval_follows hc env t) fun v =>
      .bind (.keeping v.handles (Template.evalAll_follows hc env rest)) fun _ => .pure _

end

namespace Follows

theorem runRecipe (hc : c.Follow l) (n : NodeId) :
    ∀ r : Recipe, Follows (runRecipe c n r) (Enclosed.runRecipe l n r)
  | .value _ body =>
    .bind (Expr.eval_follows hc {} body) fun _ => .bind (.lift (.emit _)) fun _ => .pure _
  | .template _ body props =>
    .bind (.lift (.emit _)) fun _ =>
      .bind (Template.eval_follows hc { props } body) fun _ => .pure _
  | .mount cell props scope =>
    .bind (hc.read cell) fun x => by
      rcases x with _ | _ | (_ | k)
      case component.some =>
        exact .bind (.inScope scope (.untracked (hc.render k props))) fun _ => .pure _
      all_goals exact .pure _

theorem recompute (hc : c.Follow l) (n : NodeId) (m : Memo) :
    Follows (recompute c n m) (Enclosed.recompute l n m) :=
  .bind (.lift (.unsubscribe n)) fun _ =>
    .bind (.inFrame (some n) (.runRecipe hc n m.recipe)) fun p =>
      .bind (.lift (.settleMemo n p.1)) fun _ => .pure _

theorem memoContent (hc : c.Follow l) (n : NodeId) (m : Memo) :
    Follows (memoContent c n m) (Enclosed.memoContent l n m) := by
  obtain ⟨recipe, value, freshness⟩ := m
  cases freshness with
  | clean =>
    cases value with
    | some v => exact .pure v
    | none => exact .recompute hc n _
  | _ => exact .recompute hc n _

theorem content (hc : c.Follow l) (n : NodeId) : Follows (content c n) (Enclosed.content l n) :=
  .bind (.lift (.node? n)) fun y => by
    rcases y with _ | (_ | _ | m | _ | _ | _)
    case some.memo => exact .memoContent hc n m
    all_goals exact .pure _

theorem readNode (hc : c.Follow l) (n : NodeId) : Follows (readNode c n) (Enclosed.readNode l n) :=
  .bind (.track n) fun _ => .bind (.content hc n) fun _ => .bind .reader fun _ =>
    .bind (.lift (.emit _)) fun _ => .pure _

theorem renderProxy (hc : c.Follow l) (p : Proxy) (props : Json) :
    Follows (renderProxy c p props) (Enclosed.renderProxy l p props) := by
  have hmount : Follows (do reactiveView (.mount p.cell props (← get).provided))
      (do reactiveView (.mount p.cell props (← Enclosed.enclosures).captured)) :=
    .captured fun _ => .lift (.reactiveView _)
  refine .bind (.lift (.cellContent p.cell)) fun k => ?_
  cases k with
  | none => exact hmount
  | some k =>
    refine .bind (.lift (.isDev k)) fun dev => ?_
    cases dev with
    | true => exact hmount
    | false => exact hc.render k props

theorem renderComponent (hc : c.Follow l) (k : ComponentId) (props : Json) :
    Follows (renderComponent c k props) (Enclosed.renderComponent l k props) :=
  .bind (.lift (.component? k)) fun x => by
    rcases x with _ | (f | p)
    · exact .pure _
    · exact .bind (.lift (.emit _)) fun _ => Template.eval_follows hc { props } f.body
    · exact .renderProxy hc p props

mutual

theorem resolveView (hc : c.Follow l) :
    ∀ v : View, Follows (resolveView c v) (Enclosed.resolveView l v)
  | .empty | .text _ => .pure _
  | .fragment children => .bind (resolveViews hc children) fun _ => .pure _
  | .dynamic n => .bind (hc.read n) fun x => .borrowing _ (hc.resolve x.toView)

theorem resolveViews (hc : c.Follow l) :
    ∀ vs : List View, Follows (resolveViews c vs) (Enclosed.resolveViews l vs)
  | [] => .pure _
  | v :: rest => .bind (resolveView hc v) fun _ => .bind (resolveViews hc rest) fun _ => .pure _

end

theorem runEffect (hc : c.Follow l) (n : NodeId) :
    Follows (runEffect c n) (Enclosed.runEffect l n) := by
  refine .bind (.lift (.effect? n)) fun e => ?_
  rcases e with _ | ⟨name, body, disposed, runs, dependencies⟩
  · exact .pure _
  cases disposed with
  | true => exact .pure _
  | false =>
    refine .bind (.lift (.unsubscribe n)) fun _ => .bind (.inFrame (some n) ?_) fun p => ?_
    · exact .bind (Expr.eval_follows hc {} body) fun _ => .lift (.emit _)
    · refine .bind (.lift (.effect? n)) fun e => ?_
      cases e with
      | none => exact .pure _
      | some e => exact .lift (.setNode n _)

theorem mark (hc : c.Follow l) (n : NodeId) : Follows (mark c n) (Enclosed.mark l n) :=
  .bind (.lift (.node? n)) fun y => by
    rcases y with _ | (_ | _ | ⟨recipe, value, freshness⟩ | _ | _ | _)
    case some.memo =>
      cases freshness with
      | clean => exact .bind (.lift (.setNode n _)) fun _ => hc.notify n
      | _ => exact .pure _
    case some.probe => exact .lift (.emit _)
    all_goals exact .pure _

theorem schedule (hc : c.Follow l) (n : NodeId) : Follows (schedule c n) (Enclosed.schedule l n) :=
  .bind (.lift (.node? n)) fun y => by
    rcases y with _ | (_ | _ | _ | _ | ⟨name, eager⟩ | _)
    case some.effect => exact .runEffect hc n
    case some.probe =>
      cases eager with
      | true => exact .lift (.emit _)
      | false => exact .pure _
    all_goals exact .pure _

theorem forEach {act : NodeId → Machine Unit} {act' : NodeId → Enclosed Unit}
    (h : ∀ n, Follows (act n) (act' n)) :
    ∀ ns : List NodeId, Follows (forEach act ns) (Enclosed.forEach act' ns)
  | [] => .pure _
  | n :: rest => .bind (h n) fun _ => forEach h rest

theorem notifyNode (hc : c.Follow l) (source : NodeId) :
    Follows (notifyNode c source) (Enclosed.notifyNode l source) :=
  .bind (.lift (.liveReaders source)) fun targets =>
    .bind (.forEach (.mark hc) targets) fun _ => .forEach (.schedule hc) targets

end Follows

/-- However deep calls nest, they do over the stacks what they do when their surroundings are handed
to them. -/
theorem calls_follow : ∀ d, (calls d).Follow (Enclosed.calls d)
  | 0 => by
    have none {α : Type} : Follows (exhausted : Machine α) Enclosed.exhausted :=
      fun _ _ _ => .none
    exact ⟨fun _ => none, fun _ => none, fun _ _ => none, fun _ => none⟩
  | d + 1 => by
    have ih := calls_follow d
    exact ⟨.readNode ih, .notifyNode ih, .renderComponent ih, .resolveView ih⟩

end HotSwap
