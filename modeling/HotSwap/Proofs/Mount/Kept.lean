import HotSwap.Proofs.Mount.Text
/-!
# What a kept view shows

A view that somebody keeps is read to its text. A node that is mounted over a cell reads to what the
component at the end of the cell's proxies puts out, unless it is frozen. A frozen node reads to what
a plain component puts out that stood in the cell when the node took its view. A component that is
rendered anew always reads to what stands at the end of the proxies.
-/

namespace HotSwap

open Machine

namespace Store

/-- The clean node holds `v`, over a cell that holds a proxy over `c`. The view is no node over `c`:
the proxy called what stood there directly. -/
inductive Frozen (s : Store) (c n : NodeId) (v : View) : Prop
  | intro {m : Memo} {cell : NodeId} {props : Json} {scope : Scope} {q : ComponentId} {p : Proxy}
    (hn : s.nodes[n]? = some (.memo m)) (hr : m.recipe = .mount cell props scope)
    (hf : m.freshness = .clean) (hv : m.value = some (.view v))
    (hq : s.nodes[cell]? = some (.cell (some q))) (hp : s.components[q]? = some (.proxy p))
    (hc : p.cell = c) (direct : ∀ n', v = .dynamic n' → ¬s.MountedOver c n')

variable {out : ComponentId → Json → String} {stood : Stood} {pending : NodeId → Prop}
  {past past' : Store → Prop} {s t : Store} {n c cell : NodeId} {m : Memo} {k q : ComponentId}
  {p : Proxy} {f : FunctionComponent} {props : Json} {scope : Scope}
  {v : View} {text : String}

def Displays (s : Store) (v : View) (text : String) : Prop :=
  ∃ depth t, textOf (calls depth) v s = some (text, t)

theorem eq_of_depths {α : Type} {m : Nat → Machine α} {d e : Nat} {a b : α} {u : Store}
    (hm : ∀ {d e}, d ≤ e → Within (fun _ _ => True) (m d) (m e)) (h : m d s = some (a, t))
    (h' : m e s = some (b, u)) : a = b := by
  have hle := (hm (Nat.le_max_left d e) s h).1
  have hle' := (hm (Nat.le_max_right d e) s h').1
  rw [hle] at hle'
  cases hle'
  rfl

theorem Displays.unique {text' : String} (h : s.Displays v text) (h' : s.Displays v text') :
    text = text' := by
  obtain ⟨d, t, ht⟩ := h
  obtain ⟨e, u, hu⟩ := h'
  exact eq_of_depths (m := fun d => textOf (calls d) v)
    (fun h => textOf_within indifferent_true.toAdmissible (calls_le h) v) ht hu

theorem Shows.unique {text' : String} (h : s.Shows k props text) (h' : s.Shows k props text') :
    text = text' := by
  obtain ⟨d, t, ht⟩ := h
  obtain ⟨e, u, hu⟩ := h'
  exact eq_of_depths (m := fun d => showing (calls d) k props)
    (fun h => showingTo_le h h k props) ht hu

theorem Displays.of_resolves {d : Nat} {w : View} {u : Store}
    (h : resolveView (calls d) v { s with pinned := v.handles ++ s.pinned } = some (w, u)) :
    s.Displays v w.flatText := by
  have hresolve : (calls (d + 1)).resolve v { s with pinned := v.handles ++ s.pinned } =
    some (w, u) := h
  exact ⟨d + 1, _, by rw [textOf_apply, hresolve]; rfl⟩

theorem Shows.of_displays {d : Nat} (h : (calls d).render k props s = some (v, t))
    (hv : t.Displays v text) : s.Shows k props text := by
  obtain ⟨e, u, hu⟩ := hv
  refine shows_iff.2 ⟨d, e, u, ?_⟩
  simp only [showingTo, bind_apply, h, Option.bind_some, hu]

theorem Coherent.pin (h : Coherent out stood pending past s) (pinned : List Handle) :
    Coherent out stood pending past { s with pinned } := h.congr rfl rfl rfl rfl

theorem Worth.displays (h : Worth past s v text) (hc : Coherent out stood pending past s) :
    s.Displays v text := by
  obtain ⟨d, w, u, hu, rfl⟩ := h.resolves { s with pinned := v.handles ++ s.pinned } past
    { Precedes.refl s with } (fun _ => id) (hc.pin _)
  exact .of_resolves hu

theorem Frozen.memo (h : s.Frozen c n v) (hn : s.nodes[n]? = some (.memo m)) :
    m.freshness = .clean ∧ m.value = some (.view v) := by
  obtain ⟨hn', -, hf, hv, -⟩ := h
  rw [hn] at hn'
  cases hn'
  exact ⟨hf, hv⟩

theorem Frozen.congr (h : s.Frozen c n v) (hn : t.nodes = s.nodes)
    (hc : t.components = s.components) : t.Frozen c n v := by
  obtain ⟨hm, hr, hf, hv, hq, hp, rfl, direct⟩ := h
  refine ⟨hn ▸ hm, hr, hf, hv, hn ▸ hq, hc ▸ hp, rfl, fun n' e => ?_⟩
  rintro ⟨m, props, scope, hm, hr⟩
  exact direct n' e ⟨m, props, scope, hn ▸ hm, hr⟩

theorem Worth.not_mounted (h : Worth past s v text) (hv : v = .dynamic n) :
    ¬s.MountedOver c n := by
  rintro ⟨m, props, scope, hm, hr⟩
  obtain ⟨m', label, body, props', hm', hr'⟩ := h.known hv
  rw [hm] at hm'
  cases hm'
  rw [hr] at hr'
  cases hr'

/-- For nodes that are not frozen it does not matter what stood in a cell before. -/
theorem Coherent.narrow (h : Coherent out stood pending past s) :
    Coherent out (Stood.alsoIn (fun c n v _ => s.Frozen c n v) s) pending past s where
  earlier := h.earlier
  ordered := h.ordered
  proxied := h.proxied
  standing c x hx := by
    obtain ⟨j, rfl, hj⟩ := h.standing hx
    exact ⟨j, rfl, hj.mono (fun _ _ _ => .inr hx) (.refl s)⟩
  template := h.template
  mountable := h.mountable
  mount n m cell props scope x hn hr hf hx hl := by
    obtain ⟨v, rfl, hv⟩ := h.mount hn hr hf hx hl
    refine ⟨v, rfl, hv.subscribed, hv.current.imp_right ?_, hv.known, hv.held⟩
    rintro ⟨k, hk, hmatch⟩
    refine ⟨k, hk, ?_⟩
    cases hmatch with
    | function hf' hworth => exact .function hf' hworth
    | mounted hp hv hn' hr' => exact .mounted hp hv hn' hr'
    | frozen hp _ hplain hworth =>
      exact .frozen hp (.inl ⟨hn, hr, hf, hx, hk, hp, rfl, fun _ => hworth.not_mounted⟩) hplain hworth

theorem Coherent.frozen (h : Coherent out stood (fun _ => False) past s) (hv : s.Frozen c n v)
    (hn : s.nodes[n]? = some (.memo m)) (hr : m.recipe = .mount cell props scope)
    (hl : .node n ∈ s.live) :
    ∃ j, stood c n v j ∧ s.Plain j ∧ Worth past s v (out j props) := by
  obtain ⟨hn', hr', hf, hx, hq, hp, rfl, direct⟩ := hv
  obtain rfl : _ = m := by simpa [hn] using hn'.symm
  rw [hr] at hr'
  cases hr'
  obtain ⟨_, ⟨⟩, hmounted⟩ := h.mount hn hr hf hx hl
  obtain ⟨q', hq', hmatch⟩ := hmounted.current.resolve_left id
  rw [hq] at hq'
  cases hq'
  cases hmatch with
  | function hf' => simp [hp] at hf'
  | @mounted p' n' m' scope' hp' hv hn' hr' =>
    rw [hp] at hp'
    cases hp'
    exact absurd ⟨m', _, _, hn', hr'⟩ (direct n' hv)
  | frozen hp' hj hplain hworth =>
    rw [hp] at hp'
    cases hp'
    exact ⟨_, hj, hplain, hworth⟩

theorem Coherent.displays_held (h : Coherent out stood pending past s)
    (hn : s.nodes[n]? = some (.memo m)) (hf : m.freshness = .clean)
    (hx : m.value = some (.view v)) (hv : Worth past s v text) : s.Displays (.dynamic n) text := by
  let s' : Store := { s with pinned := .node n :: s.pinned }
  obtain ⟨t, hread⟩ : ∃ t, readNode (calls 0) n s' = some (.view v, t) := by
    refine ⟨_, readNode_of_content (t := s'.tracked n) ?_⟩
    rw [content_of_memo (s := s') _ hn, memoContent_of_clean _ n hf hx]
    rfl
  have hpreserves : Preserves out s' t := ((calls_preserves out 1).read n s' hread).2
  obtain ⟨past', hpast, h'⟩ := hpreserves.coherent (h.pin (.node n :: s.pinned))
  obtain ⟨d, w, u, hu, rfl⟩ := hv.resolves { t with pinned := v.handles ++ t.pinned } past'
    { hpreserves.toGrows.precedes with } hpast (h'.pin _)
  obtain ⟨e, u', h⟩ := resolveView_dynamic hread hu
  exact .of_resolves h

variable (out stood) in
structure ReadMount (s t : Store) (n cell : NodeId) (props : Json) (d : Nat) (v : View) : Prop where
  read : readNode (calls d) n s = some (.view v, t)
  precedes : s.Precedes t
  content : ∀ {c : NodeId} {x : Option ComponentId}, s.nodes[c]? = some (.cell x) →
    t.nodes[c]? = some (.cell x)
  coherent : ∃ past', Coherent out stood (fun _ => False) past' t ∧
    Mounted out stood (fun _ => False) past' t n cell props v

theorem Coherent.read_mount (h : Coherent out stood (fun _ => False) past s)
    (hn : s.nodes[n]? = some (.memo m)) (hr : m.recipe = .mount cell props scope)
    (hl : .node n ∈ s.live) (hp : .node n ∈ s.pinned) :
    ∃ d v t, ReadMount out stood s t n cell props d v := by
  obtain ⟨d, x, t, hread⟩ := h.mount_ends hn hr
  have hcall : (calls (d + 1)).read n s = some (x, t) := hread
  have hpreserves : Preserves out s t := ((calls_preserves out (d + 1)).read n s hcall).2
  have hlive : .node n ∈ t.live :=
    ((indifferent_shelters.calls_self (d + 1)).read n s hcall).2.live hp hl
  obtain ⟨m', hm', er, hclean, hx⟩ := readNode_holds (indifferent_steady.calls_self d) hn hread
  obtain ⟨past', -, h'⟩ := hpreserves.coherent h
  obtain ⟨v, rfl, hv⟩ := h'.mount hm' (er.trans hr) hclean hx hlive
  exact ⟨d, v, t, hread, hpreserves.toGrows.precedes, hpreserves.content, past', h', hv⟩

theorem ReadMount.resolves {d e : Nat} {w : View} {u : Store}
    (h : ReadMount out stood s t n cell props d v)
    (hv : resolveView (calls e) v { t with pinned := v.handles ++ t.pinned } = some (w, u)) :
    ∃ d u, resolveView (calls d) (.dynamic n) s = some (w, u) := resolveView_dynamic h.read hv

theorem ReadMount.resolves_worth {d : Nat} (h : ReadMount out stood s t n cell props d v)
    (hc : Coherent out stood pending past t) (hv : Worth past t v text) :
    ∃ d w u, resolveView (calls d) (.dynamic n) s = some (w, u) ∧ w.flatText = text := by
  obtain ⟨e, w, u, hu, htext⟩ := hv.resolves { t with pinned := v.handles ++ t.pinned } past
    { Precedes.refl t with } (fun _ => id) (hc.pin _)
  obtain ⟨d, u, h⟩ := h.resolves hu
  exact ⟨d, w, u, h, htext⟩

theorem Coherent.mount_resolves (h : Coherent out stood (fun _ => False) past s)
    (hn : s.nodes[n]? = some (.memo m)) (hr : m.recipe = .mount cell props scope)
    (hl : .node n ∈ s.live) (hp : .node n ∈ s.pinned)
    (hk : s.nodes[cell]? = some (.cell (some k))) (hf : s.components[k]? = some (.function f)) :
    ∃ d w u, resolveView (calls d) (.dynamic n) s = some (w, u) ∧ w.flatText = out k props := by
  obtain ⟨d, v, t, hread⟩ := h.read_mount hn hr hl hp
  obtain ⟨past', h', hmounted⟩ := hread.coherent
  obtain ⟨k', hk', hmatch⟩ := hmounted.current.resolve_left id
  obtain rfl : k = k' := by simpa [hk'] using (hread.content hk).symm
  obtain ⟨g, hg, -⟩ := hread.precedes.function hf
  cases hmatch with
  | function _ hv => exact hread.resolves_worth h' hv
  | mounted hp => simp [hg] at hp
  | frozen hp => simp [hg] at hp

theorem Coherent.mount_resolves_through (h : Coherent out stood (fun _ => False) past s)
    (hn : s.nodes[n]? = some (.memo m)) (hr : m.recipe = .mount cell props scope)
    (hl : .node n ∈ s.live) (hpin : .node n ∈ s.pinned)
    (hq : s.nodes[cell]? = some (.cell (some q))) (hp : s.components[q]? = some (.proxy p))
    (hk : s.nodes[p.cell]? = some (.cell (some k))) (hf : s.components[k]? = some (.function f))
    (hfree : ∀ v, ¬s.Frozen p.cell n v) :
    ∃ d w u, resolveView (calls d) (.dynamic n) s = some (w, u) ∧ w.flatText = out k props := by
  obtain ⟨d, v, t, hread⟩ := h.narrow.read_mount hn hr hl hpin
  obtain ⟨past', h', hmounted⟩ := hread.coherent
  obtain ⟨q', hq', hmatch⟩ := hmounted.current.resolve_left id
  obtain rfl : q = q' := by simpa [hq'] using (hread.content hq).symm
  have hp' := hread.precedes.proxy hp
  cases hmatch with
  | function hf' => simp [hp'] at hf'
  | @mounted p₁ n' m' _ hp₁ hv hn' hr' =>
    obtain rfl : p = p₁ := by simpa [hp'] using hp₁
    subst hv
    obtain ⟨g, hg, -⟩ := hread.precedes.function hf
    obtain ⟨e, w, u, hu, htext⟩ := (h'.pin (.node n' :: t.pinned)).mount_resolves hn' hr'
      (hmounted.held rfl hn' hr') (List.mem_cons_self ..) (hread.content hk) hg
    obtain ⟨e, u, hu⟩ := hread.resolves hu
    exact ⟨e, w, u, hu, htext⟩
  | @frozen p₁ j hp₁ hj _ hv =>
    obtain rfl : p = p₁ := by simpa [hp'] using hp₁
    obtain rfl : k = j := by simpa [hk] using hj.resolve_left (hfree v)
    exact hread.resolves_worth h' hv

theorem mounted_node (s : Store) (cell : NodeId) (props : Json) :
    (s.mounted cell props).nodes[s.nodes.length]? =
      some (.memo { recipe := .mount cell props s.provided }) := List.getElem?_concat_length

theorem Coherent.shows (h : Coherent out stood (fun _ => False) past s)
    (hp : s.components[q]? = some (.proxy p)) (hk : s.nodes[p.cell]? = some (.cell (some k)))
    (hf : s.components[k]? = some (.function f)) (props : Json) : s.Shows q props (out k props) := by
  obtain ⟨j, hj, hoccupies⟩ := h.content hp
  obtain rfl : k = j := by simpa [hk] using hj
  by_cases hdev : ((s.components[k]?).map Component.isDev).getD false = true
  · have hst := mild_mounted hp props
    obtain ⟨g, hg, -⟩ := hst.precedes.function hf
    obtain ⟨d, w, u, hu, htext⟩ := ((h.mild hst).pin (.node s.nodes.length :: s.pinned)).mount_resolves
      (mounted_node s p.cell props) rfl (List.mem_cons_self ..) (List.mem_cons_self ..) (hst.cell hk) hg
    refine Shows.of_displays (d := 1) ((render_delegate _ hp hk props).trans (if_pos hdev)) ?_
    exact htext ▸ .of_resolves hu
  · obtain ⟨d, v, t, ht⟩ := h.render_ends hoccupies props
    rcases hoccupies with ⟨p', hp'⟩ | ⟨g, hg, hd, -⟩
    · simp [hf] at hp'
    · obtain ⟨past', -, h', -, hv⟩ := h.render_function (calls_preserves out d) hg hd ht
      exact Shows.of_displays (d := d + 2)
        (((render_delegate _ hp hk props).trans (if_neg hdev)).trans ht)
        (hv.displays h')

theorem Coherent.shows_through {p' : Proxy} {q' : ComponentId}
    (h : Coherent out stood (fun _ => False) past s) (hp : s.components[q]? = some (.proxy p))
    (hq' : s.nodes[p.cell]? = some (.cell (some q'))) (hp' : s.components[q']? = some (.proxy p'))
    (hk : s.nodes[p'.cell]? = some (.cell (some k))) (hf : s.components[k]? = some (.function f))
    (props : Json) : s.Shows q props (out k props) := by
  have hst := mild_mounted hp props
  obtain ⟨g, hg, -⟩ := hst.precedes.function hf
  let pinned := .node s.nodes.length :: s.pinned
  have hnode := mounted_node s p.cell props
  -- a node that was not read yet is not frozen
  obtain ⟨d, w, u, hu, htext⟩ := ((h.mild hst).pin pinned).mount_resolves_through hnode rfl
    (List.mem_cons_self ..) (List.mem_cons_self ..) (hst.cell hq') (hst.precedes.proxy hp')
    (hst.cell hk) hg fun v hv => by simpa using (hv.memo hnode).2
  refine Shows.of_displays (d := 1) ((render_delegate _ hp hq' props).trans (if_pos ?_)) ?_
  · simp [hp', Component.isDev]
  · exact htext ▸ .of_resolves hu

end Store

end HotSwap
