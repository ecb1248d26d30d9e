import HotSwap.Proofs.Subscription.Evaluating
/-!
# Reading and rendering over an accurate store

A memo that is read and due runs in a frame of its own. When its run is over it is listed for what
it read, and everyone below waits as before. So all calls that bodies make keep the table accurate.
-/

namespace HotSwap

open Machine

namespace Store

variable {s t u : Store} {n k : NodeId} {x : Node} {m : Memo} {new : List Event}

/-- From `s` on, `n` has run, and its frame is still on top. -/
structure Ran (s : Store) (n : NodeId) (u : Store) : Prop where
  accurate : u.Accurate
  ended : ∃ xs, u.frames = ⟨some n, xs⟩ :: s.frames ∧ u.RanOver n xs
  runs : ∃ new, s.Runs new { u with frames := u.frames.tail }

theorem Ran.frames (h : s.Ran n u) : u.frames.tail = s.frames := by
  obtain ⟨xs, hf, -⟩ := h.ended
  rw [hf, List.tail_cons]

theorem Ran.proceeds (h : s.Ran n u) : s.Proceeds { u with frames := u.frames.tail } := by
  obtain ⟨xs, hf, hover⟩ := h.ended
  refine ⟨h.accurate.popped hf ?_, h.runs⟩
  rintro _ ⟨⟩
  exact hover

theorem retains_entered (s : Store) (n : NodeId) : s.Retains (s.entered n) :=
  { Retains.refl s with }

theorem frames_tracked_entered (s : Store) (n k : NodeId) :
    ((s.entered n).tracked k).frames = ⟨some n, [k]⟩ :: s.frames := rfl

theorem readsOf_untilEnd (h : s.Accurate) (hx : s.nodes[n]? = some x) (ht : x.Tells)
    (hn : n ∉ s.running) (hr : (s.entered n).Runs new u) {e : Event} (he : e.closes n = true) :
    readsOf n (untilEnd n (e :: u.trace)) = readsOf n new := by
  have htrace : u.trace = new ++ s.trace := hr.trace
  rw [untilEnd_cons he, htrace,
    sinceEnd_append fun e he => (hr.neither List.mem_cons_self e he).1, readsOf_append,
    h.idle hx ht hn, List.append_nil]

theorem Ran.of_told (h : s.Accurate) (hx : s.nodes[n]? = some x) (ht : x.Tells)
    (hlast : ∀ es, HotSwap.lastRun n es x = readsOf n (untilEnd n es)) (hn : n ∉ s.running)
    (hp : (s.entered n).Proceeds u) {e : Event} (he : e.closes n = true) (ha : e.actor = some n)
    (hcount : ∀ xs, u.frames = ⟨some n, xs⟩ :: s.frames → ∀ e', u.nodes[n]? = some (.effect e') →
      e'.dependencies = xs.length) :
    s.Ran n { u with trace := e :: u.trace } := by
  obtain ⟨hacc, new, hr⟩ := hp
  obtain ⟨xs, hf, hxs⟩ := hr.frames_eq rfl
  obtain ⟨y, hy, hrole⟩ := hr.node hx
  have hreads : { u with trace := e :: u.trace }.lastRun n = readsOf n new := by
    refine (lastRun_of_node (s := { u with trace := e :: u.trace }) hy).trans ?_
    rw [Node.lastRun_congr (Node.gist_congr hrole), hlast]
    exact readsOf_untilEnd h hx ht hn hr he
  have hmem : ∀ z, z ∈ xs ↔ z ∈ readsOf n new := by simpa using hxs
  refine ⟨hacc.emit ?_, ⟨xs, hf, ?_, ?_, ?_⟩, ?_⟩
  · rintro k hk
    rw [ha] at hk
    cases hk
    exact hr.running ▸ List.mem_cons_self
  · intro z
    rw [hreads, hmem]
  · intro z _ _
    exact congrArg (readsOf n) (sinceEnd_cons he _)
  · intro e' he'
    -- a frame lists a source once, so it is as long as there are sources
    have hdistinct : xs.Nodup := hacc.distinct ⟨some n, xs⟩ (hf ▸ List.mem_cons_self)
    rw [hreads, hcount xs hf e' he']
    refine (List.Perm.length_eq ?_)
    rw [List.perm_ext_iff_of_nodup hdistinct (List.nodup_dedup _)]
    intro z
    rw [hmem, List.mem_dedup]
  · obtain ⟨hruns, -⟩ := Runs.popped hr (by rintro r ⟨⟩; exact hn)
    refine ⟨_, hruns.trans (Runs.emit _ ?_)⟩
    intro k hk hka
    rw [ha] at hka
    cases hka
    exact hn (hruns.running ▸ hk)

theorem take_one_of_forall {c : NodeId} {xs ys : List NodeId} (h : ∀ y, y ∈ [c] ↔ y ∈ xs) :
    (xs ++ ys).take 1 = [c] := by
  cases xs with
  | nil => simpa using (h c).1 (List.mem_singleton_self c)
  | cons x xs =>
    have hx : x = c := List.mem_singleton.1 ((h x).2 List.mem_cons_self)
    simp [hx]

theorem Ran.of_single {cell : NodeId} (hn : n ∉ s.running) (hx : s.nodes[n]? = some x)
    (ht : ¬x.Tells) (he : ∀ e, x ≠ .effect e)
    (hlast : ∀ es, HotSwap.lastRun n es x = (readsOf n es).take 1)
    (hp : (s.entered n).Proceeds u) (hf : u.frames = ⟨some n, [cell]⟩ :: s.frames) :
    s.Ran n u := by
  obtain ⟨hacc, new, hr⟩ := hp
  obtain ⟨xs, hf', hxs⟩ := hr.frames_eq rfl
  obtain ⟨y, hy, hrole⟩ := hr.node hx
  have hmem : ∀ z, z ∈ [cell] ↔ z ∈ readsOf n new := by
    rw [hf] at hf'
    cases hf'
    simpa using hxs
  have hlast' : u.lastRun n = [cell] := by
    have htrace : u.trace = new ++ s.trace := hr.trace
    rw [lastRun_of_node hy, Node.lastRun_congr (Node.gist_congr hrole), hlast, htrace,
      readsOf_append, take_one_of_forall hmem]
  refine ⟨hacc, ⟨[cell], hf, fun z => by rw [hlast'], fun z hz hzt => ?_, fun e hz => ?_⟩, new,
    (Runs.popped hr (by rintro r ⟨⟩; exact hn)).1⟩
  · cases hy.symm.trans hz
    exact absurd ((Node.tells_congr (Node.gist_congr hrole)).1 hzt) ht
  · cases hy.symm.trans hz
    obtain ⟨e', rfl, _⟩ := Node.effect_of_role hrole.symm
    exact absurd rfl (he e')

theorem Ran.of_started (hn : n ∉ s.running) (hx : s.nodes[n]? = some x)
    (ht : ¬x.Tells) (he : ∀ e, x ≠ .effect e)
    (hlast : ∀ es, HotSwap.lastRun n es x = readsOf n (sinceStart n es))
    {e : Event} (hopens : e.opens n = true) (ha : e.actor = some n)
    (hp : { s.entered n with trace := e :: s.trace }.Proceeds u) : s.Ran n u := by
  obtain ⟨hacc, new, hr⟩ := hp
  obtain ⟨xs, hf, hxs⟩ := hr.frames_eq rfl
  obtain ⟨y, hy, hrole⟩ := hr.node hx
  have hlast' : u.lastRun n = readsOf n new := by
    have htrace : u.trace = new ++ e :: s.trace := hr.trace
    rw [lastRun_of_node hy, Node.lastRun_congr (Node.gist_congr hrole), hlast, htrace,
      sinceStart_append fun e he => (hr.neither List.mem_cons_self e he).2,
      sinceStart_cons hopens, List.append_nil]
  refine ⟨hacc, ⟨xs, hf, fun z => ?_, fun z hz hzt => ?_, fun e' hz => ?_⟩, ?_⟩
  · rw [hlast']
    simpa using hxs z
  · cases hy.symm.trans hz
    exact absurd ((Node.tells_congr (Node.gist_congr hrole)).1 hzt) ht
  · cases hy.symm.trans hz
    obtain ⟨e', rfl, _⟩ := Node.effect_of_role hrole.symm
    exact absurd rfl (he e')
  · have hstart : s.Runs [e] { s with trace := e :: s.trace } := by
      refine Runs.emit s fun k hk hka => ?_
      rw [ha] at hka
      cases hka
      exact hn hk
    obtain ⟨hruns, -⟩ := Runs.popped (s := { s with trace := e :: s.trace }) hr
      (by rintro r ⟨⟩; exact hn)
    exact ⟨_, hstart.trans hruns⟩

end Store

open Store

section Calls

variable {c : Calls} {s t u : Store} {n : NodeId} {m : Memo} {x : Content}

theorem Store.above_entered (hn : ∀ k ∈ s.running, s.rank n < s.rank k) :
    ∀ k ∈ (s.entered n).running, s.rank n ≤ s.rank k := by
  intro k hk
  rcases List.mem_cons.1 hk with rfl | hk
  · exact le_refl _
  · exact le_of_lt (hn k hk)

theorem Store.Accurate.starts (h : s.Accurate) (hm : s.nodes[n]? = some (.memo m))
    (ho : s.Offers (.node n)) (hn : ∀ k ∈ s.running, s.rank n < s.rank k) :
    n ∉ s.running ∧ (s.entered n).Accurate ∧ ∀ a ∈ m.recipe.handles, (s.entered n).Offers a := by
  have hnot : n ∉ s.running := fun hmem => lt_irrefl _ (hn n hmem)
  refine ⟨hnot, h.entered hnot ho.anchored ⟨_, hm, trivial⟩, fun a ha => ?_⟩
  refine (retains_entered s n).offers (.step h.toHolding ho.anchored ?_)
  simpa [binds, hm, Node.role, Node.handles] using ha

theorem runValue_ran {name : String} {body : LinkedExpr} {value : Option Content}
    {freshness : Freshness} (hc : c.Exact) (h : s.Accurate)
    (hm : s.nodes[n]? = some (.memo ⟨.value name body, value, freshness⟩))
    (ho : s.Offers (.node n)) (hn : ∀ k ∈ s.running, s.rank n < s.rank k)
    (hu : runRecipe c n (.value name body) (s.entered n) = some (x, u)) :
    s.Ran n u ∧ u.Alive x.handles := by
  obtain ⟨hnot, hent, hoffers⟩ := h.starts hm ho hn
  have hrank : s.rank n = .source n := rank_of_node hm
  have hadmits : (s.entered n).Admits (fun y => s.rank y < .source n) False :=
    ⟨fun y hy => hy.trans ((Rank.source_lt_view n).trans Rank.view_lt_effect),
      fun y hy k hk => lt_of_lt_of_le (hrank ▸ hy) (above_entered hn k hk), False.elim⟩
  obtain ⟨v, w, hw, hu⟩ := bind_eq_some.1 hu
  obtain ⟨hp, -⟩ := Expr.eval_gives hc {} body (h.node hm) hent hadmits hoffers hw
  cases hu
  refine ⟨.of_told h hm trivial (fun _ => rfl) hnot hp (by simp [Event.closes]) rfl ?_, .nil _⟩
  intro xs _ e he
  obtain ⟨y, hy, hrole⟩ := hp.retains.node hm
  cases hy.symm.trans he
  cases hrole

theorem runTemplate_ran {label : String} {body : LinkedTemplate} {props : Json}
    {value : Option Content} {freshness : Freshness} (hc : c.Exact) (h : s.Accurate)
    (hm : s.nodes[n]? = some (.memo ⟨.template label body props, value, freshness⟩))
    (ho : s.Offers (.node n)) (hn : ∀ k ∈ s.running, s.rank n < s.rank k)
    (hu : runRecipe c n (.template label body props) (s.entered n) = some (x, u)) :
    s.Ran n u ∧ u.Alive x.handles := by
  obtain ⟨hnot, hent, hoffers⟩ := h.starts hm ho hn
  have hrank : s.rank n = .view := rank_of_node hm
  have hopens : { s.entered n with trace := .node n label :: s.trace }.Opens
      fun y => s.rank y < Rank.view := by
    refine ⟨fun y hy => hy, fun k hk => ?_⟩
    rw [← hrank]
    exact above_entered hn k hk
  obtain ⟨_, w, hw, hu⟩ := bind_eq_some.1 hu
  cases hw
  obtain ⟨v, w, hw, hu⟩ := bind_eq_some.1 hu
  cases hu
  have hstart := hent.emit (e := .node n label) (by rintro k ⟨⟩; exact List.mem_cons_self)
  obtain ⟨hp, hv⟩ := Template.eval_gives hc { props } body (h.node hm) hstart hopens
    (fun a ha => Retains.offers { Retains.refl (s.entered n) with } (hoffers a ha)) hw
  exact ⟨.of_started hnot hm id nofun (fun _ => rfl) (by simp [Event.opens]) rfl hp, hv⟩

theorem runMount_ran {cell : NodeId} {props : Json} {scope : Scope} {value : Option Content}
    {freshness : Freshness} (hc : c.Exact) (h : s.Accurate)
    (hm : s.nodes[n]? = some (.memo ⟨.mount cell props scope, value, freshness⟩))
    (ho : s.Offers (.node n)) (hn : ∀ k ∈ s.running, s.rank n < s.rank k)
    (hu : runRecipe c n (.mount cell props scope) (s.entered n) = some (x, u)) :
    s.Ran n u ∧ u.Alive x.handles := by
  obtain ⟨hnot, hent, hoffers⟩ := h.starts hm ho hn
  obtain ⟨k, hcell⟩ := h.node hm
  have hrank : s.rank n = .view := rank_of_node hm
  have hoffer := hoffers (.node cell) (List.mem_singleton_self _)
  have hlt : s.rank cell < s.rank n := by
    rw [hrank, rank_of_node hcell]
    exact Rank.source_lt_view cell
  obtain ⟨y, w, hw, hu⟩ := bind_eq_some.1 hu
  obtain ⟨hp, -, hframes, hk⟩ := hc.read hent hoffer
    (fun j hj => lt_of_lt_of_le hlt (above_entered hn j hj)) hw
  obtain rfl := hk k hcell
  have hframes : w.frames = ⟨some n, [cell]⟩ :: s.frames := by
    rwa [frames_tracked_entered] at hframes
  have ran {u : Store} (hp : (s.entered n).Proceeds u) (hf : u.frames = w.frames) : s.Ran n u :=
    .of_single hnot hm id nofun (fun _ => rfl) hp (hf.trans hframes)
  cases k with
  | none =>
    cases hu
    exact ⟨ran hp rfl, .nil _⟩
  | some k =>
    obtain ⟨v, w', hw', hu⟩ := bind_eq_some.1 hu
    cases hu
    have hbinds : .component k ∈ w.binds (.node cell) := by
      obtain ⟨y, hy, hrole⟩ := hp.retains.node hcell
      rw [Node.cell_of_role hrole] at hy
      simp [binds, hy, Node.role, Node.handles]
    have hk : w.Offers (.component k) :=
      .step hp.1.toHolding (hp.retains.anchored hoffer.anchored) hbinds
    have habove : ∀ j ∈ w.running, .view ≤ w.rank j := by
      intro j hj
      rw [hp.running] at hj
      rw [hp.rank hent hj, ← hrank]
      exact above_entered hn j hj
    obtain ⟨hp', hv, hf⟩ := Gives.inScope
      (Gives.untracked (hc.render (hp.1.provided scope).untracked
        ((hk.provided scope).framed _) habove) fun _ _ _ hq => hq) (fun _ _ _ hq => hq) hw'
    exact ⟨ran (hp.trans hp') hf, hv⟩

theorem runRecipe_ran (hc : c.Exact) (h : s.Accurate) (hm : s.nodes[n]? = some (.memo m))
    (ho : s.Offers (.node n)) (hn : ∀ k ∈ s.running, s.rank n < s.rank k)
    (hu : runRecipe c n m.recipe (s.entered n) = some (x, u)) :
    s.Ran n u ∧ u.Alive x.handles := by
  obtain ⟨recipe, value, freshness⟩ := m
  cases recipe with
  | value name body => exact runValue_ran hc h hm ho hn hu
  | template label body props => exact runTemplate_ran hc h hm ho hn hu
  | mount cell props scope => exact runMount_ran hc h hm ho hn hu

theorem recompute_gives (hc : c.Exact) (h : s.Accurate) (hm : s.nodes[n]? = some (.memo m))
    (ho : s.Offers (.node n)) (hn : ∀ k ∈ s.running, s.rank n < s.rank k) :
    Gives s (recompute c n m) fun x t => t.Alive x.handles ∧ t.frames = s.frames := by
  intro x t ht
  obtain ⟨u, hu, rfl⟩ := recompute_eq_some ht
  obtain ⟨hran, hx⟩ := runRecipe_ran hc h hm ho hn hu
  have hp := hran.proceeds
  obtain ⟨y, hy, hrole⟩ := hp.retains.node hm
  obtain ⟨m', rfl, -⟩ := Node.memo_of_role hrole
  -- the value is held in place of the one before
  have hfilled : Accurate ({ u with frames := u.frames.tail }.filled n m' x) := by
    refine hp.1.set hy rfl (fun _ _ he => by cases he) fun a ha => ?_
    rcases List.mem_append.1 ha with ha | ha
    · exact .inl (List.mem_append_left _ ha)
    · exact .inr (hx a ha)
  have hp' : s.Proceeds ({ u with frames := u.frames.tail }.filled n m' x) :=
    hp.trans ⟨hfilled, [], .of_retains (.set hy rfl) rfl rfl⟩
  have held {t : Store} (hp : s.Proceeds t) (ht : t.nodes = (u.nodes.set n
      (.memo { m' with value := some x, freshness := .clean }))) : t.Alive x.handles := by
    have hself : t.nodes[n]? = some (.memo { m' with value := some x, freshness := .clean }) := by
      rw [ht, List.getElem?_set_self (List.getElem?_eq_some_iff.1 hy).1]
    have hlive := (hp.retains.anchored ho.anchored).live hp.1.toHolding
    exact fun a ha => hp.1.alive_node hlive hself a (List.mem_append_right _ ha)
  rcases settled_cases hy x with e | e <;> rw [e]
  · exact ⟨hp', held hp' rfl, hran.frames⟩
  · have hp'' := hp'.trans ⟨hfilled.collect, [], .of_retains { Retains.refl _ with } rfl rfl⟩
    exact ⟨hp'', held hp'' rfl, hran.frames⟩

theorem content_gives (hc : c.Exact) (h : s.Accurate) (ho : s.Offers (.node n))
    (hn : ∀ k ∈ s.running, s.rank n < s.rank k) :
    Gives s (content c n) fun x t => t.Alive x.handles ∧ t.frames = s.frames ∧
      ∀ k, s.nodes[n]? = some (.cell k) → x = .component k := by
  have halive {x : Node} (hx : s.nodes[n]? = some x) : s.Alive x.handles :=
    h.alive_node (ho.alive h).1 hx
  refine .bind_of_eq (node?_apply n s) ?_
  split
  · rename_i v hv
    exact .pure h ⟨.nil s, rfl, by simp [hv]⟩
  · rename_i k hk
    exact .pure h ⟨handles_cell k ▸ halive hk, rfl, by simp [hk]⟩
  · rename_i m hm
    rcases Memo.due_or_clean m with hd | ⟨v, hf, hv⟩
    · rw [memoContent_of_due c n hd]
      exact (recompute_gives hc h hm ho hn).mono fun _ _ _ hx => ⟨hx.1, hx.2, by simp [hm]⟩
    · rw [memoContent_of_clean c n hf hv]
      refine .pure h ⟨fun a ha => halive hm a ?_, rfl, by simp [hm]⟩
      simp [Node.handles, hv, ha]
  · rename_i hsignal hcell hmemo
    exact .pure h ⟨.nil s, rfl, fun k hk => absurd hk (hcell k)⟩

theorem readNode_gives (hc : c.Exact) (h : s.Accurate) (ho : s.Offers (.node n))
    (hn : ∀ k ∈ s.running, s.rank n < s.rank k) :
    Gives s (readNode c n) fun x t => t.Alive x.handles ∧ t.frames = (s.tracked n).frames ∧
      ∀ k, s.nodes[n]? = some (.cell k) → x = .component k := by
  have hret := retains_tracked s n
  have hn' : ∀ k ∈ (s.tracked n).running, (s.tracked n).rank n < (s.tracked n).rank k := by
    rw [running_tracked]
    intro k hk
    have hlt := hn k hk
    rwa [rank, rank, nodes_tracked]
  intro x t ht
  obtain ⟨_, u, hu, ht⟩ := bind_eq_some.1 ht
  cases hu
  obtain ⟨y, u, hu, ht⟩ := bind_eq_some.1 ht
  obtain ⟨hp, hx, hf, hk⟩ := content_gives hc (h.tracked n) (hret.offers ho) hn' hu
  obtain ⟨hacc, new, hr⟩ := hp
  have hreader : u.frames.head?.bind Frame.reader = s.reader? := by
    change u.reader? = s.reader?
    rw [hr.reader?, reader?_tracked]
  obtain ⟨_, u', hu', ht⟩ := bind_eq_some.1 ht
  cases hu'
  obtain ⟨_, u', hu', ht⟩ := bind_eq_some.1 ht
  cases hu'
  cases ht
  rw [hreader]
  refine ⟨⟨hacc.emit fun k hk => ?_, _, hr.read hf _⟩, hx, hf, by rwa [nodes_tracked] at hk⟩
  rw [hr.running, running_tracked]
  exact mem_running_of_reader? hk

theorem renderProxy_gives {k : ComponentId} {p : Proxy} (hc : c.Exact) (props : Json)
    (h : s.Accurate) (hp : s.components[k]? = some (.proxy p)) (ho : s.Offers (.component k))
    (hs : ∀ j ∈ s.running, .view ≤ s.rank j) :
    Gives s (renderProxy c p props) fun v t => t.Alive v.handles := by
  have hcell : s.Offers (.node p.cell) :=
    .step h.toHolding ho.anchored (by simp [binds, hp, Component.handles])
  have hmount : Gives s (do reactiveView (.mount p.cell props (← get).provided)) fun v t =>
      t.Alive v.handles := by
    refine .bind_of_eq (get_apply s) (reactiveView_gives h (h.component hp) rfl fun a ha => ?_)
    obtain rfl := List.mem_singleton.1 ha
    exact hcell.alive h
  refine .bind_of_eq (cellContent_apply p.cell s) ?_
  split
  · exact hmount
  · rename_i j hj
    refine .bind_of_eq (isDev_apply j s) ?_
    split
    · exact hmount
    · refine hc.render h (.step h.toHolding hcell.anchored ?_) hs
      obtain ⟨i, hi⟩ := h.component hp
      obtain rfl : i = some j := by simpa [held, hi] using hj
      simp [binds, hi, Node.role, Node.handles]

theorem renderComponent_gives (hc : c.Exact) (k : ComponentId) (props : Json) (h : s.Accurate)
    (ho : s.Offers (.component k)) (hs : ∀ j ∈ s.running, .view ≤ s.rank j) :
    Gives s (renderComponent c k props) fun v t => t.Alive v.handles := by
  refine .bind_of_eq (component?_apply k s) ?_
  split
  · exact .pure h (.nil s)
  · rename_i p hp
    exact renderProxy_gives hc props h hp ho hs
  · rename_i f hf
    have hopens : s.Opens fun y => s.rank y < .view := ⟨fun _ hy => hy, hs⟩
    refine .bind (.emit h rfl) fun _ t hp _ => ?_
    refine Template.eval_gives hc { props } f.body (h.component hf) hp.1 (hopens.proceeds h hp)
      (hp.offers fun a ha => .step h.toHolding ho.anchored ?_)
    simpa [binds, hf, Component.handles] using ha

mutual

theorem resolveView_gives (hc : c.Exact) : ∀ (v : View) {s : Store}, s.Accurate →
    (∀ a ∈ v.handles, s.Offers a) → (∀ k ∈ s.running, s.rank k = .effect) →
      Gives s (resolveView c v) fun _ _ => True
  | .empty, _, h, _, _ | .text _, _, h, _, _ => .pure h trivial
  | .fragment vs, _, h, ho, hs =>
    .bind (resolveViews_gives hc vs h ho hs) fun _ _ hp _ => .pure hp.1 trivial
  | .dynamic n, s, h, ho, hs => by
    have hn : s.Offers (.node n) := ho _ (List.mem_singleton_self _)
    have hlt : ∀ k ∈ s.running, s.rank n < s.rank k := fun k hk => hs k hk ▸ hn.passive n rfl
    refine .bind (hc.read h hn hlt) fun x t hp hx => ?_
    have hv : t.Alive x.toView.handles := by
      cases x with
      | view v => exact hx.1
      | _ => exact .nil t
    refine .borrowing hp.1 (hc.resolve (hp.1.pin hv) (fun a ha => .held hv ha) fun k hk => ?_)
    have hk : k ∈ s.running := hp.running ▸ hk
    exact (hp.rank h hk).trans (hs k hk)

theorem resolveViews_gives (hc : c.Exact) : ∀ (vs : List View) {s : Store}, s.Accurate →
    (∀ a ∈ (View.fragment vs).handles, s.Offers a) → (∀ k ∈ s.running, s.rank k = .effect) →
      Gives s (resolveViews c vs) fun _ _ => True
  | [], _, h, _, _ => .pure h trivial
  | v :: vs, s, h, ho, hs => by
    have happend : (View.fragment (v :: vs)).handles = v.handles ++ (View.fragment vs).handles := by
      simp [View.handles, View.nodes, View.nodesAll]
    rw [happend] at ho
    obtain ⟨hv, hvs⟩ := List.forall_mem_append.1 ho
    refine .bind (resolveView_gives hc v h hv hs) fun _ t hp _ => ?_
    have hs' : ∀ k ∈ t.running, t.rank k = .effect := by
      intro k hk
      rw [hp.running] at hk
      rw [hp.rank h hk]
      exact hs k hk
    exact .bind (resolveViews_gives hc vs hp.1 (hp.offers hvs) hs') fun _ _ hp' _ =>
      .pure hp'.1 trivial

end

end Calls

/-- All calls that bodies make keep the table accurate. -/
theorem calls_exact (d : Nat) : (calls d).Exact := by
  induction d with
  | zero => constructor <;> (intros; rintro _ _ ⟨⟩)
  | succ d ih =>
    exact ⟨fun h ho hn => readNode_gives ih h ho hn,
      fun h ho hs => renderComponent_gives ih _ _ h ho hs,
      fun h ho hs => resolveView_gives ih _ h ho hs⟩

end HotSwap
