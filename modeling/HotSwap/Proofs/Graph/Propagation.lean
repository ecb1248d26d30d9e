import HotSwap.Proofs.Graph.Step
/-!
# Propagation in a graph

A notification brings up to date all that it is to tell. It may run effects in the middle of it, and
these may read memos that are still to be told, and write to signals: whatever they see, those that
are to be told are told later, and those that relied on them with them.
-/

namespace HotSwap

open Machine Store

variable {P K : Set NodeId} {s t u : Store} {n : NodeId} {e : Effect} {d : Nat} {c : Calls}

theorem calls_read (h : s.Sound P K) (hkept : ∀ k < n + 1, k ∈ K → k ∉ P ∧ .node k ∈ s.live)
    (hr : s.MayRead n) {x : Content} (ht : (calls d).read n s = some (x, t)) :
    x = .json (t.cached n) ∧ s.Observes P K (n + 1) [n] t := by
  obtain ⟨u, hu, ho⟩ := calls_answer (max d (n + 1)) (n + 1) (Nat.le_max_right _ _) P n
    n.lt_succ_self s h hkept hr
  have ht' := ((calls_le (Nat.le_max_left d (n + 1))).read n s ht).1
  obtain ⟨rfl, rfl⟩ : .json (u.cached n) = x ∧ u = t := by simpa [hu] using ht'
  exact ⟨rfl, ho⟩

theorem Expr.eval_calls {body : LinkedExpr} {env : Env} {b : Nat} {v : Json}
    (ho : body.onlyReads = true) (hg : ∀ y ∈ body.gets, y < b ∧ s.MayRead y) (h : s.Readable P K b)
    (ht : body.eval (calls d) env s = some (v, t)) :
    v = body.value t.cached env ∧ s.Observes P K b (body.reads t.cached env) t := by
  obtain ⟨u, hu, hobs⟩ := Expr.eval_observes (calls_answer (max d b) b (Nat.le_max_right _ _) P)
    env body s ho hg h
  have ht' := (Expr.eval_within indifferent_true.toAdmissible (calls_le (Nat.le_max_left d b)) env
    body s ht).1
  obtain ⟨rfl, rfl⟩ : body.value u.cached env = v ∧ u = t := by simpa [hu] using ht'
  exact ⟨rfl, hobs⟩

theorem Store.Lasts.feeds (h : s.Lasts t) {k : NodeId} (hn : s.Feeds n k) : t.Feeds n k := by
  obtain ⟨body, hb, hn⟩ := hn
  obtain ⟨x, hx, hxb⟩ := body?_eq_some.1 hb
  obtain ⟨y, hy, hgist⟩ := h.node hx
  exact ⟨body, body?_eq_some.2 ⟨y, hy, (Node.body?_of_gist hgist).trans hxb⟩, hn⟩

theorem Store.MayRead.last (hs : s.Steady t) (hl : s.Lasts t) (h : s.MayRead n) : t.MayRead n := by
  intro r hr
  have hreader : s.reader? = some r := by rwa [reader?_eq, ← hs.readers, ← reader?_eq]
  exact hl.feeds (h r hreader)

theorem Expr.eval_mayRead {body : LinkedExpr} {env : Env} {v : Json}
    (ht : body.eval (calls d) env s = some (v, t)) (h : s.MayRead n) : t.MayRead n :=
  h.last
    (Expr.eval_within indifferent_steady.toAdmissible (indifferent_steady.calls_self d) env body s ht).2
    (Expr.eval_within indifferent_lasts.toAdmissible (indifferent_lasts.calls_self d) env body s ht).2

namespace Machine

theorem runEffect_of_disposed (c : Calls) (he : s.nodes[n]? = some (.effect e))
    (hd : e.disposed = true) : runEffect c n s = some ((), s) := by
  simp [runEffect, effect?_apply, effectAt_eq_some.2 he, hd]

theorem runEffect_of_ne (c : Calls) (h : ∀ e, s.nodes[n]? ≠ some (.effect e)) :
    runEffect c n s = some ((), s) := by
  have hn : s.effectAt n = none :=
    Option.eq_none_iff_forall_ne_some.2 fun e he => h e (effectAt_eq_some.1 he)
  simp [runEffect, effect?_apply, hn]

theorem runEffect_eq_some (he : s.nodes[n]? = some (.effect e)) (hd : e.disposed = false)
    (h : runEffect c n s = some ((), t)) :
    ∃ v u, e.body.eval c {} (s.entered n) = some (v, u) ∧
      ∀ e', u.nodes[n]? = some (.effect e') → ∃ count,
        ((u.frames.head?.map Frame.sources).getD []).length = count ∧ t = { u with
          nodes := u.nodes.set n (.effect { e' with runs := e'.runs + 1, dependencies := count })
          frames := u.frames.tail
          trace := .effect n e.name v :: u.trace } := by
  simp only [runEffect, bind_apply, effect?_apply, effectAt_eq_some.2 he, Option.bind_some, hd,
    Bool.false_eq_true, if_false, unsubscribe, modify_apply] at h
  obtain ⟨⟨⟨_, count⟩, w⟩, hframe, h⟩ := Option.bind_eq_some_iff.1 h
  obtain ⟨w, hw, hcount, rfl⟩ := inFrame_eq_some.1 hframe
  obtain ⟨v, u, hu, hw⟩ := bind_eq_some.1 hw
  simp only [emit, modify_apply, Option.some.injEq, Prod.mk.injEq, true_and] at hw
  subst hw
  refine ⟨v, u, hu, fun e' he' => ⟨count, hcount, ?_⟩⟩
  have he'' : Store.effectAt { u with
      frames := u.frames.tail, trace := .effect n e.name v :: u.trace } n = some e' :=
    effectAt_eq_some.2 he'
  simp only [he'', setNode_apply, Option.some.injEq, Prod.mk.injEq, true_and] at h
  exact h.symm

end Machine

theorem Store.Calm.run_observing (h : s.Calm (P ∪ {n})) (he : s.nodes[n]? = some (.effect e))
    (hd : e.disposed = false) (ho : e.body.onlyReads = true)
    (ht : runEffect (calls d) n s = some ((), t)) :
    t.Calm P ∧ ∃ u count, (s.entered n).Observes (P ∪ {n}) ∅ n (e.body.reads u.cached {}) u ∧
      t = { u with
        nodes := u.nodes.set n (.effect { e with runs := e.runs + 1, dependencies := count })
        frames := u.frames.tail
        trace := .effect n e.name (e.body.value u.cached {}) :: u.trace } := by
  obtain ⟨v, u, hv, hend⟩ := runEffect_eq_some he hd ht
  have hready : (s.entered n).Readable (P ∪ {n}) ∅ n :=
    { h.sound.readable_enter fun _ _ hk => hk.elim with
      sound := (h.sound.enter n).mono fun _ _ hk => hk.elim id .inr
      kept := fun _ _ hk => hk.elim }
  have hgets := h.sound.graph.mayRead_enter (body?_eq_some.2 ⟨_, he, rfl⟩)
  obtain ⟨rfl, hobs⟩ := Expr.eval_calls ho hgets hready hv
  have hun : u.nodes[n]? = some (.effect e) := (hobs.above (Nat.le_refl n)).trans he
  obtain ⟨count, -, rfl⟩ := hend e hun
  refine ⟨?_, u, count, hobs, rfl⟩
  have hended := hobs.sound.ended hobs.frames (fun k hk => by
    obtain ⟨e', he'⟩ := hk.of_refreshed hobs.toRefreshed
    exact h.unobserving k ⟨e', he'⟩) e.name (e.body.value u.cached {})
  refine (hended.setEffect (f := { e with runs := e.runs + 1, dependencies := count }) hun rfl rfl
    fun hn => (hn (.inr rfl)).elim).settle ?_
  obtain ⟨new, hnew, hquiet, hopen⟩ := hobs.trace
  have hnone : s.memoAt n = none := by simp [memoAt, he]
  refine .of_reads (e := { e with runs := e.runs + 1, dependencies := count })
    (List.getElem?_set_self (List.getElem?_eq_some_iff.1 hun).1)
    (fun x hx => List.getElem?_set_ne (Nat.ne_of_gt (hgets x hx).1)) ?_
    fun x hx => ⟨(hobs.found x hx).1, (hobs.found x hx).2 n rfl⟩
  have hidle : openReads n s.trace = [] := h.sound.idle he ho (h.unobserving n ⟨e, he, ho⟩)
  calc lastReads n (.effect n e.name (e.body.value u.cached {}) :: u.trace)
      = openReads n u.trace := lastReads_effect_self _ _
    _ = openReads n new ++ openReads n s.trace := by rw [hnew]; exact openReads_append hquiet
    _ = (observed u.cached (e.body.reads u.cached {})).reverse := by
      rw [hopen n rfl hnone, hidle, List.append_nil]

def Calls.Settle (c : Calls) : Prop :=
  ∀ ⦃P : Set NodeId⦄ ⦃x : NodeId⦄ ⦃s t : Store⦄, s.Calm (P ∪ {k | k ∈ s.targets x}) →
    c.notify x s = some ((), t) → t.Calm P

theorem Machine.write_calm (hc : c.Settle) (h : s.Calm P) {v : Json}
    (ht : write c n v s = some ((), t)) : t.Calm P := by
  by_cases hn : ∃ w, s.nodes[n]? = some (.signal w)
  · obtain ⟨w, hw⟩ := hn
    rw [write_of_signal c hw] at ht
    exact hc (h.setSignal hw v) ht
  · rw [write_of_ne c (fun w hw => hn ⟨w, hw⟩)] at ht
    cases ht
    exact h

theorem Machine.disposeEffect_calm (h : s.Calm P) (ht : disposeEffect n s = some ((), t)) :
    t.Calm P := by
  by_cases hn : ∃ e, s.nodes[n]? = some (.effect e)
  · obtain ⟨e, he⟩ := hn
    rw [disposeEffect_of_effect he] at ht
    cases ht
    have hself {x : Node} : (s.nodes.set n x)[n]? = some x :=
      List.getElem?_set_self (List.getElem?_eq_some_iff.1 he).1
    have hset := h.setEffect (f := { e with disposed := true }) he rfl rfl
      fun _ _ => .of_disposed hself rfl
    exact hset.unsubscribe fun u hu => .of_disposed (by rw [hu]; exact hself) rfl
  · rw [disposeEffect_of_ne fun e he => hn ⟨e, he⟩] at ht
    cases ht
    exact h

theorem Machine.release_calm (h : s.Calm P) {x : Handle}
    (ht : release x s = some ((), t)) : t.Calm P := by
  have hroots : Calm P { s with roots := s.roots.erase x } := h.congr rfl rfl rfl rfl fun _ => .rfl
  cases ht
  exact hroots.collect

theorem Machine.peek_eq_some {v : Json} (h : peek n s = some (v, t)) : t = s := by
  simp only [peek, bind_apply, node?_apply, Option.bind_some] at h
  cases hn : s.nodes[n]? with
  | none =>
    rw [hn] at h
    cases h
    rfl
  | some x =>
    rw [hn] at h
    cases x <;> cases h <;> rfl

mutual

theorem Expr.eval_calm (hc : (calls d).Settle) (env : Env) :
    ∀ (e : LinkedExpr) {s t : Store} {v : Json}, e.viewless = true → (∀ y ∈ e.gets, s.MayRead y) →
      s.Calm P → e.eval (calls d) env s = some (v, t) → t.Calm P
  | .literal _, _, _, _, _, _, h, ht | .props, _, _, _, _, _, h, ht
  | .current, _, _, _, _, _, h, ht | .member _, _, _, _, _, _, h, ht
  | .use _, _, _, _, _, _, h, ht | .tracking, _, _, _, _, _, h, ht => by
    cases ht
    exact h
  | .get n, s, t, v, _, hg, h, ht => by
    obtain ⟨x, u, hu, e⟩ := bind_eq_some.1 ht
    cases e
    have hr := hg n (List.mem_singleton_self n)
    exact h.of_observes (calls_read h.sound (fun _ _ hk => hk.elim) hr hu).2
  | .peek n, s, t, v, _, _, h, ht => by
    rw [peek_eq_some ht]
    exact h
  | .untrack e, s, t, v, he, hg, h, ht => by
    rw [eval, untracked_apply] at ht
    obtain ⟨⟨w, u⟩, hu, e'⟩ := Option.map_eq_some_iff.1 ht
    cases e'
    have hpush : Calm P { s with frames := { reader := none } :: s.frames } :=
      h.congr rfl rfl rfl rfl fun k => by simp
    have hu' := Expr.eval_calm hc env e he (fun y _ r hr => by cases hr) hpush hu
    have hframes := (Expr.eval_within indifferent_steady.toAdmissible
      (indifferent_steady.calls_self d) env e _ hu).2.readers
    exact hu'.congr rfl rfl rfl rfl fun k => by simp [List.map_tail, hframes]
  | .add es, s, t, v, he, hg, h, ht | .mul es, s, t, v, he, hg, h, ht
  | .concat es, s, t, v, he, hg, h, ht | .list es, s, t, v, he, hg, h, ht
  | .seq es, s, t, v, he, hg, h, ht => by
    obtain ⟨vs, u, hu, e⟩ := bind_eq_some.1 ht
    cases e
    exact Expr.evalAll_calm hc env es he hg h hu
  | .less a b, s, t, v, he, hg, h, ht => by
    rw [viewless, Bool.and_eq_true] at he
    obtain ⟨x, u, hu, ht⟩ := bind_eq_some.1 ht
    obtain ⟨y, w, hw, ht⟩ := bind_eq_some.1 ht
    cases ht
    have hu' := Expr.eval_calm hc env a he.1 (fun y hy => hg y (List.mem_append_left _ hy)) h hu
    exact Expr.eval_calm hc env b he.2
      (fun y hy => Expr.eval_mayRead hu (hg y (List.mem_append_right _ hy))) hu' hw
  | .cond e a b, s, t, v, he, hg, h, ht => by
    rw [viewless, Bool.and_eq_true, Bool.and_eq_true] at he
    obtain ⟨x, u, hu, ht⟩ := bind_eq_some.1 ht
    have hu' := Expr.eval_calm hc env e he.1.1
      (fun y hy => hg y (List.mem_append_left _ (List.mem_append_left _ hy))) h hu
    split at ht
    · exact Expr.eval_calm hc env a he.1.2 (fun y hy => Expr.eval_mayRead hu
        (hg y (List.mem_append_left _ (List.mem_append_right _ hy)))) hu' ht
    · exact Expr.eval_calm hc env b he.2
        (fun y hy => Expr.eval_mayRead hu (hg y (List.mem_append_right _ hy))) hu' ht
  | .set n e, s, t, v, he, hg, h, ht => by
    obtain ⟨x, u, hu, ht⟩ := bind_eq_some.1 ht
    obtain ⟨_, w, hw, ht⟩ := bind_eq_some.1 ht
    cases ht
    exact write_calm hc (Expr.eval_calm hc env e he hg h hu) hw
  | .provide k a b, s, t, v, he, hg, h, ht => by
    rw [viewless, Bool.and_eq_true] at he
    obtain ⟨x, u, hu, ht⟩ := bind_eq_some.1 ht
    obtain ⟨tok, w, hw, ht⟩ := bind_eq_some.1 ht
    rw [contextToken_apply] at hw
    cases hw
    obtain ⟨w, hw, rfl⟩ := providing_eq_some.1 ht
    have hu' := Expr.eval_calm hc env a he.1 (fun y hy => hg y (List.mem_append_left _ hy)) h hu
    have hprovided (p : Scope) : Calm P { u with provided := p } :=
      hu'.congr rfl rfl rfl rfl fun _ => .rfl
    have hmay : ∀ y ∈ b.gets, u.MayRead y := fun y hy =>
      Expr.eval_mayRead hu (hg y (List.mem_append_right _ hy))
    have hmay' (p : Scope) : ∀ y ∈ b.gets, Store.MayRead { u with provided := p } y := hmay
    have hw' := Expr.eval_calm hc env b he.2 (hmay' _) (hprovided _) hw
    exact hw'.congr rfl rfl rfl rfl fun _ => .rfl
  | .log e, s, t, v, he, hg, h, ht => by
    obtain ⟨x, u, hu, ht⟩ := bind_eq_some.1 ht
    cases ht
    exact (Expr.eval_calm hc env e he hg h hu).emit trivial
  | .dispose n, s, t, v, _, _, h, ht => by
    obtain ⟨_, u, hu, ht⟩ := bind_eq_some.1 ht
    cases ht
    exact disposeEffect_calm h hu
  | .release n, s, t, v, _, _, h, ht => by
    obtain ⟨_, u, hu, ht⟩ := bind_eq_some.1 ht
    cases ht
    exact release_calm h hu

theorem Expr.evalAll_calm (hc : (calls d).Settle) (env : Env) :
    ∀ (es : List LinkedExpr) {s t : Store} {vs : List Json}, viewlessAll es = true →
      (∀ y ∈ getsAll es, s.MayRead y) → s.Calm P →
        Expr.evalAll (calls d) env es s = some (vs, t) → t.Calm P
  | [], _, _, _, _, _, h, ht => by
    cases ht
    exact h
  | e :: rest, s, t, vs, he, hg, h, ht => by
    rw [viewlessAll, Bool.and_eq_true] at he
    obtain ⟨x, u, hu, ht⟩ := bind_eq_some.1 ht
    obtain ⟨xs, w, hw, ht⟩ := bind_eq_some.1 ht
    cases ht
    have hu' := Expr.eval_calm hc env e he.1 (fun y hy => hg y (List.mem_append_left _ hy)) h hu
    exact Expr.evalAll_calm hc env rest he.2
      (fun y hy => Expr.eval_mayRead hu (hg y (List.mem_append_right _ hy))) hu' hw

end

namespace Machine

variable (hc : (calls d).Settle)

include hc

theorem runEffect_calm (h : s.Calm (P ∪ {n})) (he : s.nodes[n]? = some (.effect e))
    (ht : runEffect (calls d) n s = some ((), t)) : t.Calm P := by
  cases hd : e.disposed with
  | true =>
    rw [runEffect_of_disposed _ he hd] at ht
    cases ht
    exact h.settle (.of_disposed he hd)
  | false =>
    cases ho : e.body.onlyReads with
    | true => exact (h.run_observing he hd ho ht).1
    | false =>
      obtain ⟨v, u, hv, hend⟩ := runEffect_eq_some he hd ht
      have hgets := h.sound.graph.mayRead_enter (body?_eq_some.2 ⟨_, he, rfl⟩)
      have hviewless : e.body.viewless = true := by
        cases h.sound.graph.placed he with
        | effect hv _ => exact hv
      have henter : (s.entered n).Calm (P ∪ {n}) := by
        refine ⟨(h.sound.enter n).mono fun _ _ hk => hk.elim id .inr, fun k hk hf => ?_⟩
        obtain ⟨f, hf', ho'⟩ := hk
        rcases List.mem_cons.1 hf with hf | hf
        · cases hf
          cases he.symm.trans hf'
          simp [ho] at ho'
        · exact h.unobserving k ⟨f, hf', ho'⟩ hf
      have hu := Expr.eval_calm hc {} e.body hviewless (fun y hy => (hgets y hy).2) henter hv
      have hframes := (Expr.eval_within indifferent_steady.toAdmissible
        (indifferent_steady.calls_self d) {} e.body _ hv).2.readers
      obtain ⟨f, hf, -, hbody⟩ := (Expr.eval_within indifferent_lasts.toAdmissible
        (indifferent_lasts.calls_self d) {} e.body _ hv).2.effect he
      obtain ⟨count, -, rfl⟩ := hend f hf
      have hended := hu.sound.ended hframes
        (fun k hk hm => hu.unobserving k hk (hframes ▸ List.mem_cons_of_mem _ hm)) e.name v
      refine (hended.setEffect (f := { f with runs := f.runs + 1, dependencies := count }) hf rfl rfl
        fun hn => (hn (.inr rfl)).elim).settle ?_
      exact .of_acting (List.getElem?_set_self (List.getElem?_eq_some_iff.1 hf).1) (hbody ▸ ho)

omit hc in
theorem mark_calm (hc : c.Settle) (h : s.Calm (P ∪ {n})) {m : Memo}
    (hn : s.nodes[n]? = some (.memo m)) (ht : mark c n s = some ((), t)) : t.Calm P := by
  simp only [mark, bind_apply, node?_apply, hn, Option.bind_some] at ht
  cases hf : m.freshness with
  | clean =>
    simp only [markMemo, hf, bind_apply, setNode_apply, Option.bind_some] at ht
    exact hc (h.mark hn) ht
  | _ =>
    simp only [markMemo, hf, pure_apply, Option.some.injEq, Prod.mk.injEq, true_and] at ht
    subst ht
    exact h.settle (.of_due hn fun hclean => by simp [hf] at hclean)

omit hc in
theorem mark_of_not_memo (c : Calls) (h : s.Graph) (hn : ∀ m, s.nodes[n]? ≠ some (.memo m)) :
    mark c n s = some ((), s) := by
  simp only [mark, bind_apply, node?_apply, Option.bind_some]
  cases hx : s.nodes[n]? with
  | none => rfl
  | some x =>
    cases h.placed hx with
    | memo => exact absurd hx (hn _)
    | _ => rfl

omit hc in
theorem schedule_of_effect (c : Calls) (he : s.nodes[n]? = some (.effect e)) :
    schedule c n s = runEffect c n s := by
  simp [schedule, node?_apply, he]

omit hc in
theorem schedule_of_not_effect (c : Calls) (h : s.Graph)
    (hn : ∀ e, s.nodes[n]? ≠ some (.effect e)) : schedule c n s = some ((), s) := by
  simp only [schedule, bind_apply, node?_apply, Option.bind_some]
  cases hx : s.nodes[n]? with
  | none => rfl
  | some x =>
    cases h.placed hx with
    | effect => exact absurd hx (hn _)
    | _ => rfl

/-- The first pass over the readers leaves only effects to be told. -/
theorem forEach_mark_calm (ns : List NodeId) (h : s.Calm (P ∪ {k | k ∈ ns}))
    (ht : forEach (mark (calls d)) ns s = some ((), t)) :
    t.Calm (P ∪ {k | k ∈ ns ∧ ∃ e, t.nodes[k]? = some (.effect e)}) := by
  induction ns generalizing P s with
  | nil =>
    cases ht
    exact h.mono fun k _ hk => hk.imp id fun hk => absurd hk List.not_mem_nil
  | cons n rest ih =>
    obtain ⟨_, u, hu, ht⟩ := bind_eq_some.1 ht
    have hlast := (forEach_within indifferent_lasts.toAdmissible (mark_within
      indifferent_lasts.toAdmissible (indifferent_lasts.calls_self d)) rest u ht).2
    have hhead : s.Calm ((P ∪ {k | k ∈ rest}) ∪ {n}) := h.mono fun k _ hk => by
      rcases hk with hk | hk
      · exact .inl (.inl hk)
      · exact (List.mem_cons.1 hk).elim .inr fun hk => .inl (.inr hk)
    have hrest {Q : Set NodeId} (hu : u.Calm (Q ∪ {k | k ∈ rest})) (hQ : Q ⊆ P ∪
        {k | k = n ∧ ∃ e, t.nodes[k]? = some (.effect e)}) :
        t.Calm (P ∪ {k | k ∈ n :: rest ∧ ∃ e, t.nodes[k]? = some (.effect e)}) := by
      refine (ih hu ht).mono fun k _ hk => ?_
      rcases hk with hk | ⟨hk, he⟩
      · exact (hQ hk).imp id fun ⟨hk, he⟩ => ⟨hk ▸ List.mem_cons_self, he⟩
      · exact .inr ⟨List.mem_cons_of_mem _ hk, he⟩
    by_cases hm : ∃ m, s.nodes[n]? = some (.memo m)
    · obtain ⟨m, hm⟩ := hm
      exact hrest (mark_calm hc hhead hm hu) fun k hk => .inl hk
    · rw [mark_of_not_memo _ h.sound.graph fun m hn => hm ⟨m, hn⟩] at hu
      cases hu
      by_cases he : ∃ e, s.nodes[n]? = some (.effect e)
      · obtain ⟨e, he⟩ := he
        obtain ⟨e', he', -⟩ := hlast.effect he
        refine hrest (Q := P ∪ {n}) (hhead.mono fun k _ hk => ?_) fun k hk =>
          hk.imp id fun hk => ⟨hk, e', hk ▸ he'⟩
        rcases hk with (hk | hk) | hk
        · exact .inl (.inl hk)
        · exact .inr hk
        · exact .inl (.inr hk)
      · refine hrest (hhead.settle ⟨fun hn => absurd ⟨_, hn⟩ hm, fun hn => absurd ⟨_, hn⟩ he⟩)
          fun k hk => .inl hk

/-- The second pass over the readers leaves none to be told. -/
theorem forEach_schedule_calm (ns : List NodeId)
    (h : s.Calm (P ∪ {k | k ∈ ns ∧ ∃ e, s.nodes[k]? = some (.effect e)}))
    (ht : forEach (schedule (calls d)) ns s = some ((), t)) : t.Calm P := by
  induction ns generalizing s with
  | nil =>
    cases ht
    exact h.mono fun k _ hk => hk.elim id fun hk => absurd hk.1 List.not_mem_nil
  | cons n rest ih =>
    obtain ⟨_, u, hu, ht⟩ := bind_eq_some.1 ht
    have hlast := (schedule_within indifferent_lasts.toAdmissible
      (indifferent_lasts.calls_self d) n s hu).2
    refine ih ?_ ht
    by_cases he : ∃ e, s.nodes[n]? = some (.effect e)
    · obtain ⟨e, he⟩ := he
      rw [schedule_of_effect _ he] at hu
      refine runEffect_calm hc (h.mono fun k _ hk => ?_) he hu
      rcases hk with hk | ⟨hk, e', he'⟩
      · exact .inl (.inl hk)
      · rcases List.mem_cons.1 hk with hk | hk
        · exact .inr hk
        · obtain ⟨f, hf, -⟩ := hlast.effect he'
          exact .inl (.inr ⟨hk, f, hf⟩)
    · rw [schedule_of_not_effect _ h.sound.graph fun e hn => he ⟨e, hn⟩] at hu
      cases hu
      refine h.mono fun k _ hk => hk.imp id fun ⟨hk, e, hek⟩ => ⟨?_, e, hek⟩
      exact (List.mem_cons.1 hk).resolve_left fun hk => he ⟨e, hk ▸ hek⟩

end Machine

/-- A notification tells everybody that it is to tell, whatever it runs on the way. -/
theorem calls_settle (d : Nat) : (calls d).Settle := by
  induction d with
  | zero => exact fun P x s t _ ht => by cases ht
  | succ d ih =>
    intro P x s t h ht
    obtain ⟨_, u, hu, ht⟩ := bind_eq_some.1 ht
    cases hu
    obtain ⟨_, u, hu, ht⟩ := bind_eq_some.1 ht
    exact forEach_schedule_calm ih _ (forEach_mark_calm ih _ h hu) ht

end HotSwap
