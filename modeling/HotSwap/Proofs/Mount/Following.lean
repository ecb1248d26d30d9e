import HotSwap.Proofs.Edit.Ledger
import HotSwap.Proofs.Mount.Edited
import HotSwap.Proofs.Mount.Kept
/-!
# Mounted nodes follow edits

In a run of edits over components whose output depends on nothing but the props, a node that was
mounted by a proxy goes on to show what the proxy shows, unless it was left behind with a plain
component. Proxies call plain components directly. The view that such a component returns is its own;
and a node over the cell of a later version, which renders the first version's proxy untracked, keeps
the view that it took of a plain component until it is marked.
-/

namespace HotSwap

open Machine Store

/-- Functions whose output depends on nothing but the props. -/
def Admission.depending (out : ComponentId → Json → String) : Admission where
  admits s k := ∃ f, s.components[k]? = some (.function f) ∧ Depends s f.body (out k)
  stable hg := by
    rintro ⟨f, hf, hd⟩
    obtain ⟨g, hg', e⟩ := hg.function hf
    exact ⟨g, hg', e.body ▸ hd.mono hg.precedes⟩

namespace Timeline

variable {out : ComponentId → Json → String} {stood : Stood} {past past' : Store → Prop}
  {T U : Timeline} {s t : Store} {ws : List RegistryId} {w : RegistryId} {v : Version}
  {vs : List Version}

structure Mounting (out : ComponentId → Json → String) (stood : Stood) (past : Store → Prop)
    (T : Timeline) : Prop where
  ledger : ∃ owner, T.Ledger (.depending out) owner
  coherent : Coherent out stood (fun _ => False) past T.moment.store

/-- A view that was taken in a step was taken of what stands in a cell before it, or after it. -/
def Extends (out : ComponentId → Json → String) (stood : Stood) (past : Store → Prop)
    (t : Store) : Prop :=
  ∃ past', (∀ a, past a → past' a) ∧ Coherent out (stood.alsoIn t) (fun _ => False) past' t

theorem Mounting.start (out : ComponentId → Json → String) (stood : Stood) :
    Mounting out stood (fun _ => False) ⟨⟨{}, []⟩, []⟩ where
  ledger := ⟨fun _ => (0, ""), .start _ _ _⟩
  coherent := ⟨by simp, by simp, by simp, by simp, by simp, by simp, by simp⟩

theorem Mounting.create (h : Mounting out stood past ⟨⟨s, ws⟩, vs⟩)
    (ht : addRegistry {} s = some (w, t)) : Extends out stood past t := by
  cases ht
  have hmild : s.Mild { s with
      registries := s.registries ++ [{}], live := .registry s.registries.length :: s.live } :=
    ⟨{ Precedes.refl s with }, id, id, id, fun {n m} hn => .inr ⟨m, hn, rfl, rfl, id⟩,
      fun _ hl => by simpa using hl, fun _ _ _ => id, fun _ _ _ hl => List.mem_cons_of_mem _ hl⟩
  exact ⟨past, fun _ => id, (h.coherent.mild hmild).alsoIn _⟩

theorem Mounting.register (h : Mounting out stood past ⟨⟨s, ws⟩, vs⟩) {name : String}
    {k proxy : ComponentId} {o : RegistrationOptions} (hk : (Admission.depending out).admits s k)
    (ht : Machine.register w name k o s = some (proxy, t)) : Extends out stood past t := by
  obtain ⟨f, hf, hd⟩ := hk
  have hcell : t.nodes[s.nodes.length]? = some (.cell (some k)) := by
    obtain ⟨-, rfl⟩ := register_eq_some ht
    exact List.getElem?_concat_length
  exact ⟨past, fun _ => id, h.coherent.register (fun _ _ _ _ => .inl)
    (.inr ⟨f, hf, hd, fun _ _ => .inr hcell⟩) ht⟩

theorem Mounting.go {m m' : Moment} (h : Mounting out stood past ⟨m, vs⟩)
    (hs : Moment.Step (.depending out) m m') : Extends out stood past m'.store := by
  cases hs with
  | act a ht =>
    obtain ⟨past', hpast, h'⟩ := (a.run_preserves out ht).coherent h.coherent
    exact ⟨past', hpast, h'.alsoIn _⟩
  | create ht => exact h.create ht
  | register name o hw hk ht => exact h.register hk ht
  | registerContext name k hw ht =>
    cases ht
    exact ⟨past, fun _ => id, Coherent.congr (h.coherent.alsoIn _) rfl rfl rfl rfl⟩

theorem Mounting.patch {report : PatchReport} (h : Mounting out stood past ⟨⟨s, ws⟩, v :: vs⟩)
    (hw : w ∈ ws) (hr : reconcile v.registry w s = some (report, t))
    (stay : report.mustReload = false) : Extends out stood past t := by
  obtain ⟨owner, hl⟩ := h.ledger
  obtain ⟨all, ha⟩ := hl.applied hw hr stay
  refine (h.coherent.alsoIn t).reconcile (fun id o n ho hn => ?_) hr
  obtain ⟨first, rest, x, -, -, hst, hc⟩ := hl.canonical ho
  have hnew := hl.sound.stands w hw hn
  obtain ⟨f, hf, hd⟩ := hnew.component
  exact ⟨by rw [Store.Celled, hc.cell]; exact hst.celled, hnew.celled, ⟨_, hc.proxy ▸ hst.proxy⟩,
    fun hs => .inr ⟨f, hf, hd, fun _ _ => .inr (hl.swapped hw ha ho hn hs)⟩⟩

theorem Mounting.step (h : Mounting out stood past T) (hs : Step (.depending out) T U) :
    ∃ past', (∀ a, past a → past' a) ∧
      Mounting out (stood.alsoIn U.moment.store) past' U := by
  obtain ⟨owner, hl⟩ := h.ledger
  have hextends : Extends out stood past U.moment.store := by
    cases hs with
    | go hm => exact h.go hm
    | first hw => exact ⟨past, fun _ => id, h.coherent.alsoIn _⟩
    | patch hw hr stay => exact h.patch hw hr stay
  obtain ⟨past', hpast, h'⟩ := hextends
  exact ⟨past', hpast, hl.step hs, h'⟩

theorem Mounting.any (h : Mounting out stood past T) : Mounting out (fun _ _ _ _ => True) past T :=
  ⟨h.ledger, h.coherent.weaken (fun _ _ _ _ _ => trivial) fun _ _ _ _ _ _ _ _ _ _ => id⟩

theorem Mounting.run (h : Mounting out (fun _ _ _ _ => True) past T)
    (hs : Relation.ReflTransGen (Step (.depending out)) T U) :
    ∃ past', (∀ a, past a → past' a) ∧ Mounting out (fun _ _ _ _ => True) past' U := by
  induction hs with
  | refl => exact ⟨past, fun _ => id, h⟩
  | tail _ hs ih =>
    obtain ⟨past₁, hpast₁, h₁⟩ := ih
    obtain ⟨past₂, hpast₂, h₂⟩ := h₁.step hs
    exact ⟨past₂, fun a ha => hpast₂ a (hpast₁ a ha), h₂.any⟩

theorem Mounting.narrow (h : Mounting out stood past T) :
    Mounting out (Stood.alsoIn (fun c n v _ => T.moment.store.Frozen c n v) T.moment.store) past T :=
  ⟨h.ledger, h.coherent.narrow⟩

theorem Mounting.precedes (h : Mounting out stood past T)
    (hs : Relation.ReflTransGen (Step (.depending out)) T U) :
    T.moment.store.Precedes U.moment.store := by
  obtain ⟨owner, hl⟩ := h.ledger
  exact (hl.run hs).1.precedes

def Knows (T : Timeline) (id : String) (r : Registration) : Prop :=
  r ∈ lineage T.versions id ∨ ∃ w ∈ T.moment.filling,
    (T.moment.store.registry w).components.get? id = some r

variable {id : String} {r : Registration} {props : Json} {n cell : NodeId} {m : Memo} {scope : Scope}

theorem Mounting.stands (h : Mounting out stood past U) (hr : U.Knows id r) :
    ∃ owner w, r.Stands (.depending out) owner U.moment.store w id := by
  obtain ⟨owner, hl⟩ := h.ledger
  rcases hr with hr | ⟨w, hw, hr⟩
  · obtain ⟨x, hx, hg⟩ := mem_lineage.1 hr
    exact ⟨owner, x.registry, hl.stands x hx hg⟩
  · exact ⟨owner, w, hl.sound.stands w hw hr⟩

/-- What a registration's cell leads to: a function, maybe through the proxy of the first version. -/
inductive LeadsTo (U : Timeline) (id : String) (r : Registration) (k : ComponentId) : Prop
  | directly (hk : U.moment.store.nodes[r.cell]? = some (.cell (some k)))
  | through {first : Registration} {p : Proxy} (hf : (lineage U.versions id).head? = some first)
    (hne : first ≠ r) (hq : U.moment.store.nodes[r.cell]? = some (.cell (some first.proxy)))
    (hp : U.moment.store.components[first.proxy]? = some (.proxy p)) (hc : p.cell = first.cell)
    (hk : U.moment.store.nodes[first.cell]? = some (.cell (some k)))

theorem Mounting.leads (h : Mounting out stood past U) (hr : U.Knows id r) :
    ∃ k f, U.moment.store.components[k]? = some (.function f) ∧ U.LeadsTo id r k := by
  obtain ⟨owner, hl⟩ := h.ledger
  rcases hr with hr | ⟨w, hw, hr⟩
  · obtain ⟨v, vs, hv⟩ : ∃ v vs, U.versions = v :: vs := by
      obtain ⟨x, hx, -⟩ := mem_lineage.1 hr
      exact List.exists_cons_of_ne_nil (List.ne_nil_of_mem hx)
    have hline := hl.lines v vs hv id
    generalize (U.moment.store.registry v.registry).components.get? id = r' at hline
    generalize hlineage : lineage U.versions id = l at hline hr
    cases hline with
    | unknown => cases hr
    | @known first _ rest hc =>
      have hfunction {m : Registration} (hm : m ∈ lineage U.versions id) :
          ∃ f, U.moment.store.components[m.component]? = some (.function f) := by
        obtain ⟨_, _, hst⟩ := h.stands (.inl hm)
        obtain ⟨f, hf, -⟩ := hst.component
        exact ⟨f, hf⟩
      obtain ⟨k, hk, hi⟩ := hc.installed
      obtain ⟨m, hm, rfl⟩ := hi.mem
      obtain ⟨f, hf⟩ := hfunction (hlineage ▸ hm)
      refine ⟨m.component, f, hf, ?_⟩
      rcases List.mem_cons.1 hr with rfl | hr
      · exact .directly hk
      · obtain ⟨_, _, hst⟩ := h.stands (.inl (hlineage ▸ List.mem_cons_self ..))
        refine .through (by rw [hlineage]; rfl) ?_ (hc.delegated r hr) hst.proxy rfl hk
        rintro rfl
        exact hc.apart _ hr rfl
  · obtain ⟨f, hf, -⟩ := (hl.sound.stands w hw hr).component
    exact ⟨r.component, f, hf, .directly (hl.sound.untouched w hw hr)⟩

theorem Mounting.shows (h : Mounting out stood past U) (hr : U.Knows id r) {k : ComponentId}
    {f : FunctionComponent} (hf : U.moment.store.components[k]? = some (.function f))
    (hk : U.LeadsTo id r k) (props : Json) : U.moment.store.Shows r.proxy props (out k props) := by
  obtain ⟨_, _, hst⟩ := h.stands hr
  cases hk with
  | directly hk => exact h.coherent.shows hst.proxy hk hf props
  | through _ _ hq hp hc hk => exact h.coherent.shows_through hst.proxy hq hp (hc ▸ hk) hf props

theorem Mounting.follows (h : Mounting out stood past U) (hr : U.Knows id r)
    (hn : U.moment.store.nodes[n]? = some (.memo m)) (hm : m.recipe = .mount r.cell props scope)
    (hl : .node n ∈ U.moment.store.live)
    (hfree : ∀ first v, (lineage U.versions id).head? = some first →
      ¬U.moment.store.Frozen first.cell n v) :
    ∃ text, U.moment.store.Displays (.dynamic n) text ∧ U.moment.store.Shows r.proxy props text := by
  obtain ⟨k, f, hf, hk⟩ := h.leads hr
  have hshows := h.shows hr hf hk props
  have hc := h.coherent.pin (.node n :: U.moment.store.pinned)
  have hpin : Handle.node n ∈ Handle.node n :: U.moment.store.pinned := List.mem_cons_self ..
  cases hk with
  | directly hk =>
    obtain ⟨d, w, u, hu, e⟩ := hc.mount_resolves hn hm hl hpin hk hf
    exact ⟨w.flatText, .of_resolves hu, e ▸ hshows⟩
  | @through first p hfirst hne hq hp hcell hk =>
    obtain ⟨d, w, u, hu, e⟩ := hc.mount_resolves_through hn hm hl hpin hq hp (hcell ▸ hk) hf
      fun v hv => hfree first v hfirst (hcell ▸ hv.congr rfl rfl)
    exact ⟨w.flatText, .of_resolves hu, e ▸ hshows⟩

theorem steps_enter {A : Admission} {P : Timeline → Prop} (hT : ¬P T)
    (hs : Relation.ReflTransGen (Step A) T U) (hU : P U) :
    ∃ V W, Relation.ReflTransGen (Step A) T V ∧ ¬P V ∧ Step A V W ∧ P W ∧
      Relation.ReflTransGen (fun X Y => Step A X Y ∧ P Y) W U := by
  induction hs with
  | refl => exact absurd hU hT
  | @tail X U hX hs ih =>
    by_cases hP : P X
    · obtain ⟨V, W, hV, hfresh, hstep, hW, since⟩ := ih hP
      exact ⟨V, W, hV, hfresh, hstep, hW, since.tail ⟨hs, hU⟩⟩
    · exact ⟨X, U, hX, hP, hs, hU, .refl⟩

/-- The plain components whose text a node shows that was rendered from `r` in `T`, which left `s`. -/
inductive LeftBehind (A : Admission) (T : Timeline) (s : Store) (U : Timeline) (id : String)
    (r : Registration) (n : NodeId) (k : ComponentId) : Prop
  /-- `k` was in the cell when the proxy was rendered: the node belongs to the view that `k` made. -/
  | within (hk : T.moment.store.nodes[r.cell]? = some (.cell (some k)))
  /-- The proxy is not that of the first version. In the step from `V` to `W` the node took the view
  that it holds in `U`, and it is clean ever since; `k` was in the first version's cell at the
  beginning of that step, or at its end. -/
  | frozen {first : Registration} {v : View} {V W : Timeline}
    (hfirst : (lineage U.versions id).head? = some first) (hne : first ≠ r)
    (before : Relation.ReflTransGen (Step A) ⟨⟨s, T.moment.filling⟩, T.versions⟩ V)
    (fresh : ¬V.moment.store.Frozen first.cell n v) (taken : Step A V W)
    (held : W.moment.store.Frozen first.cell n v)
    (since : Relation.ReflTransGen
      (fun X Y => Step A X Y ∧ Y.moment.store.Frozen first.cell n v) W U)
    (hk : V.moment.store.nodes[first.cell]? = some (.cell (some k)) ∨
      W.moment.store.nodes[first.cell]? = some (.cell (some k)))

theorem Mounting.stays {first : Registration} {x : View}
    (h : Mounting out (fun _ _ _ _ => True) past ⟨⟨s, T.moment.filling⟩, T.versions⟩)
    (hs : Relation.ReflTransGen (Step (.depending out)) ⟨⟨s, T.moment.filling⟩, T.versions⟩ U)
    (hfirst : (lineage U.versions id).head? = some first) (hne : first ≠ r)
    (hfresh : ¬s.Frozen first.cell n x) (hx : U.moment.store.Frozen first.cell n x)
    (hn : U.moment.store.nodes[n]? = some (.memo m)) (hm : m.recipe = .mount cell props scope)
    (hl : .node n ∈ U.moment.store.live) :
    ∃ k, LeftBehind (.depending out) T s U id r n k ∧ U.moment.store.Plain k ∧
      U.moment.store.Displays (.dynamic n) (out k props) := by
  obtain ⟨V, W, hV, fresh, hstep, held, since⟩ := steps_enter
    (P := fun X => X.moment.store.Frozen first.cell n x) hfresh hs hx
  have hWU : Relation.ReflTransGen (Step (.depending out)) W U :=
    since.lift (fun X => X) fun _ _ h => h.1
  obtain ⟨_, -, hV'⟩ := h.run hV
  obtain ⟨_, -, hW⟩ := hV'.narrow.step hstep
  obtain ⟨_, hpast, hU⟩ := hW.any.run hWU
  obtain ⟨owner, hledger⟩ := hW.ledger
  have hgrows := (hledger.run hWU).1
  obtain ⟨m', hm', hr'⟩ : ∃ m', W.moment.store.nodes[n]? = some (.memo m') ∧
      m'.recipe = .mount cell props scope := by
    obtain ⟨hm', -⟩ := held
    obtain ⟨m₁, hm₁, e⟩ := hgrows.memo hm'
    rw [hn] at hm₁
    cases hm₁
    exact ⟨_, hm', e.symm.trans hm⟩
  obtain ⟨k, hk, hplain, hworth⟩ := hW.coherent.frozen held hm' hr'
    (hgrows.live (List.getElem?_eq_some_iff.1 hm').1 hl)
  obtain ⟨hclean, hvalue⟩ := hx.memo hn
  refine ⟨k, .frozen hfirst hne hV fresh hstep held since ?_, hplain.mono hgrows.precedes,
    hU.coherent.displays_held hn hclean hvalue (hworth.weaken hpast hgrows.precedes)⟩
  -- the node was not frozen in `V`, so the component stood there or stands here
  exact hk.imp_left fun hk => hk.resolve_left fresh

theorem Mounting.ne_first (h : Mounting out stood past U) (hr : U.Knows id r) {first : Registration}
    {x : View} (hfirst : (lineage U.versions id).head? = some first)
    (hx : U.moment.store.Frozen first.cell n x)
    (hn : U.moment.store.nodes[n]? = some (.memo m)) (hm : m.recipe = .mount r.cell props scope) :
    first ≠ r := by
  obtain ⟨hn', hm', -, -, hq, hp, -, -⟩ := hx
  rw [hn] at hn'
  cases hn'
  rw [hm] at hm'
  cases hm'
  obtain ⟨k, f, hf, hk⟩ := h.leads hr
  cases hk with
  | directly hk =>
    rw [hq] at hk
    cases hk
    simp [hp] at hf
  | through hfirst' hne =>
    rw [hfirst] at hfirst'
    cases hfirst'
    exact hne

theorem proxy_of_render {k : ComponentId} {p : Proxy} {u : Store}
    (h : renderComponent topCalls k props s = some (.dynamic n, t)) (hsu : s.Precedes u)
    (hp : u.components[k]? = some (.proxy p)) : s.components[k]? = some (.proxy p) := by
  cases hk : s.components[k]? with
  | none => simp [renderComponent, component?_apply, hk] at h
  | some c =>
    cases c with
    | proxy p' =>
      have hp' := hsu.proxy hk
      rw [hp] at hp'
      cases hp'
      rfl
    | function f =>
      obtain ⟨g, hg, -⟩ := hsu.function hk
      simp [hp] at hg

theorem not_plain_of_dev {k : ComponentId} {u : Store} (hsu : s.Precedes u)
    (hk : ((s.components[k]?).map Component.isDev).getD false = true) : ¬u.Plain k := by
  rintro ⟨g, hg, hdev⟩
  cases hc : s.components[k]? with
  | none => simp [hc] at hk
  | some c =>
    cases c with
    | proxy p => simp [hsu.proxy hc] at hg
    | function f =>
      obtain ⟨g', hg', e⟩ := hsu.function hc
      rw [hg] at hg'
      cases hg'
      simp [hc, Component.isDev, ← e.dev, hdev] at hk

/-- A node that a proxy was rendered to goes on to show what the proxy shows, unless it was left
behind with a plain component; then it shows that. -/
theorem mounted_follows (hT : T.Reached (.depending out) {})
    (hrender : Machine.render r.proxy props T.moment.store = some (.dynamic n, s))
    (hU : Relation.ReflTransGen (Step (.depending out))
      ⟨⟨s, T.moment.filling⟩, T.versions⟩ U)
    (hr : U.Knows id r) (kept : .node n ∈ U.moment.store.live) :
    ∃ text, U.moment.store.Displays (.dynamic n) text ∧
      ((∃ k, LeftBehind (.depending out) T s U id r n k ∧ U.moment.store.Plain k ∧
          text = out k props) ∨
        (∀ k, LeftBehind (.depending out) T s U id r n k → ¬U.moment.store.Plain k) ∧
          U.moment.store.Shows r.proxy props text) := by
  obtain ⟨past, -, h⟩ := (Mounting.start out _).run hT
  have hrun : (Action.render r.proxy props).run T.moment.store = some ((), s) := by
    simp [Action.run, hrender]
  have hrendered : renderComponent topCalls r.proxy props T.moment.store = some (.dynamic n, s) :=
    ((calls_le (Nat.le_succ nesting)).render r.proxy props T.moment.store hrender).1
  obtain ⟨_, -, hs⟩ := h.step (.go (.act _ hrun))
  obtain ⟨_, -, h'⟩ := hs.any.run hU
  have hsU := hs.precedes hU
  have hTU := ((Action.render r.proxy props).run_preserves out hrun).toGrows.precedes.trans hsU
  obtain ⟨_, _, hst⟩ := h'.stands hr
  have hproxy := proxy_of_render hrendered hTU hst.proxy
  obtain ⟨j, hj, hoccupies⟩ := h.coherent.content hproxy
  rw [render_delegate _ hproxy hj props] at hrendered
  split at hrendered
  · -- a node over the proxy's cell
    rename_i hdev
    cases hrendered
    have hnode := mounted_node T.moment.store r.cell props
    obtain ⟨m, hm, e⟩ := hsU.memo hnode
    by_cases hfrozen : ∃ first x, (lineage U.versions id).head? = some first ∧
        U.moment.store.Frozen first.cell T.moment.store.nodes.length x
    · obtain ⟨first, x, hfirst, hx⟩ := hfrozen
      obtain ⟨k, hk, hplain, htext⟩ := hs.any.stays hU hfirst (h'.ne_first hr hfirst hx hm e)
        (fun hx => by simpa using (hx.memo hnode).2) hx hm e kept
      exact ⟨_, htext, .inl ⟨k, hk, hplain, rfl⟩⟩
    · obtain ⟨text, htext, hshows⟩ := h'.follows hr hm e kept
        fun first x hfirst hx => hfrozen ⟨first, x, hfirst, hx⟩
      refine ⟨text, htext, .inr ⟨fun k hk => ?_, hshows⟩⟩
      cases hk with
      | within hk =>
        obtain rfl : j = k := by simpa [hk] using hj.symm
        exact not_plain_of_dev hTU hdev
      | frozen hfirst _ _ _ _ held since _ =>
        rcases since.cases_tail with rfl | ⟨_, -, -, hx⟩
        · exact absurd ⟨_, _, hfirst, held⟩ hfrozen
        · exact absurd ⟨_, _, hfirst, hx⟩ hfrozen
  · -- a node in the view of the plain component in the cell
    rename_i hdev
    rcases hoccupies with ⟨p, hp⟩ | ⟨f, hf, hd, -⟩
    · simp [hp, Component.isDev] at hdev
    · have hplain : renderComponent (calls nesting) j props T.moment.store = some (.dynamic n, s) :=
        ((calls_le (Nat.le_succ nesting)).render j props T.moment.store hrendered).1
      obtain ⟨past', -, hc, -, hv⟩ :=
        h.coherent.render_function (calls_preserves out nesting) hf hd hplain
      obtain ⟨_, hpast, h'⟩ := Mounting.run ⟨hs.ledger, hc⟩ hU
      have hdev : f.dev = false := by simpa [hf, Component.isDev] using hdev
      exact ⟨out j props, (hv.weaken hpast hsU).displays h'.coherent,
        .inl ⟨j, .within hj, Store.Plain.mono ⟨f, hf, hdev⟩ hTU, rfl⟩⟩

def edited : Timeline := start {} |>.evaluate "A" "Foo" {} |>.evaluate "B" "Foo" {}

/-- The proxy of the second version is rendered, and the node is kept and read. Then comes a third
version. -/
def editedAgain : Timeline :=
  edited.act (.render 3 .null) |>.act (.hold (.node 2)) |>.act (.text (.dynamic 2))
    |>.evaluate "C" "Foo" {}

def letters : ComponentId → Json → String
  | 0, _ => "A"
  | 2, _ => "B"
  | _, _ => "C"

def second : Registration where
  id := "Foo"
  component := 2
  proxy := 3
  cell := 1
  signature := none
  dependencies := none
  location := none

theorem depends_letters {s : Store} {k : ComponentId} {text : String}
    (hk : s.components[k]? = some (.function (constant text))) (e : ∀ props, letters k props = text) :
    (Admission.depending letters).admits s k :=
  ⟨_, hk, by rw [show letters k = fun _ => text from funext e]; exact .constant s text⟩

theorem edited_reached : edited.Reached (.depending letters) {} := by
  have first : (start {} |>.evaluate "A" "Foo" {}).Reached (.depending letters) {} :=
    steps_evaluate (fun _ hk => depends_letters hk fun _ => rfl)
      (step_first (List.mem_cons_self ..) rfl)
  exact first.trans (steps_evaluate (fun _ hk => depends_letters hk fun _ => rfl)
    (step_patch (List.mem_cons_self ..) rfl rfl))

theorem edited_render : Machine.render second.proxy .null edited.moment.store =
    some (.dynamic 2, (edited.act (.render 3 .null)).moment.store) := rfl

theorem editedAgain_steps : Relation.ReflTransGen (Step (.depending letters))
    (edited.act (.render 3 .null)) editedAgain :=
  .head (step_act _ rfl) (.head (step_act _ rfl) (steps_evaluate
    (fun _ hk => depends_letters hk fun _ => rfl) (step_patch (List.mem_cons_self ..) rfl rfl)))

theorem editedAgain_knows : editedAgain.Knows "Foo" second :=
  .inl (mem_lineage.2 ⟨_, .tail _ (.head _), rfl⟩)

/-- The node shows the second version, which its proxy does not show any more. -/
theorem not_always_follows : ¬ ∀ (out : ComponentId → Json → String) (T U : Timeline) (s : Store)
    (id : String) (r : Registration) (props : Json) (n : NodeId),
    T.Reached (.depending out) {} →
    Machine.render r.proxy props T.moment.store = some (.dynamic n, s) →
    Relation.ReflTransGen (Step (.depending out)) ⟨⟨s, T.moment.filling⟩, T.versions⟩ U →
    U.Knows id r → .node n ∈ U.moment.store.live →
      ∃ text, U.moment.store.Displays (.dynamic n) text ∧ U.moment.store.Shows r.proxy props text := by
  intro h
  obtain ⟨text, hnode, hproxy⟩ := h letters edited editedAgain _ "Foo" second .null 2 edited_reached
    edited_render editedAgain_steps editedAgain_knows (by decide)
  have hB : editedAgain.moment.store.Displays (.dynamic 2) "B" := ⟨5, _, rfl⟩
  have hC : editedAgain.moment.store.Shows second.proxy .null "C" := ⟨5, _, rfl⟩
  exact absurd ((hnode.unique hB).symm.trans (hproxy.unique hC)) (by decide)

theorem follows_in_editedAgain : ∃ text, editedAgain.moment.store.Displays (.dynamic 2) text ∧
    ((∃ k, LeftBehind (.depending letters) edited (edited.act (.render 3 .null)).moment.store
          editedAgain "Foo" second 2 k ∧ editedAgain.moment.store.Plain k ∧
        text = letters k .null) ∨
      (∀ k, LeftBehind (.depending letters) edited (edited.act (.render 3 .null)).moment.store
          editedAgain "Foo" second 2 k → ¬editedAgain.moment.store.Plain k) ∧
        editedAgain.moment.store.Shows second.proxy .null text) :=
  mounted_follows edited_reached edited_render editedAgain_steps editedAgain_knows (by decide)

end Timeline

end HotSwap
