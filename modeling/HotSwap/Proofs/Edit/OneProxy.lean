import HotSwap.Proofs.Edit.Ledger
import HotSwap.Proofs.Evaluation.Showing
/-!
# One true proxy for each id

However a module is edited, the proxy that its first version handed out for an id stays the canonical
one, and the proxies of all later versions delegate to it. So they all show the installed body,
answer with its name and metadata, and write to them.
-/

namespace HotSwap

open Machine

namespace Store

variable {s t : Store} {q k : ComponentId}

theorem Reaches.of_proxy {p : Proxy} {x : Handle} (hp : s.components[q]? = some (.proxy p))
    (hc : s.nodes[p.cell]? = some (.cell (some k))) (hx : s.Reaches (.component q) x) :
    x = .component q ∨ x = .node p.cell ∨ s.Reaches (.component k) x := by
  induction hx with
  | refl => exact .inl rfl
  | tail _ hy ih =>
    obtain rfl | rfl | hr := ih
    · simp only [contents, hp, Option.map_some, Option.getD_some, Component.handles,
        List.mem_singleton] at hy
      exact .inr (.inl hy)
    · simp only [contents, hc, Option.map_some, Option.getD_some, Node.handles,
        List.mem_singleton] at hy
      subst hy
      exact .inr (.inr .refl)
    · exact .inr (.inr (hr.tail hy))

theorem Quiet.of_delegates (h : s.Quiet k) (hd : s.Delegates q k) : s.Quiet q := by
  obtain ⟨p, hp, hc⟩ := hd
  refine ⟨fun n hn => ?_, fun n m hn hm => ?_, fun j f hj hf => ?_⟩
  · obtain e | e | hr := Reaches.of_proxy hp hc hn
    · cases e
    · cases e
      exact (List.getElem?_eq_some_iff.1 hc).1
    · exact h.node n hr
  · obtain e | e | hr := Reaches.of_proxy hp hc hn
    · cases e
    · cases e
      simp [hc] at hm
    · exact h.recipe n m hr hm
  · obtain e | e | hr := Reaches.of_proxy hp hc hj
    · cases e
      simp [hp] at hf
    · cases e
    · exact h.function j f hr hf

theorem Quiet.of_bare {f : FunctionComponent} (hf : s.components[k]? = some (.function f))
    (hh : f.body.handles = []) (hw : f.body.writes = false) : s.Quiet k := by
  have hself {x : Handle} (hx : s.Reaches (.component k) x) : x = .component k := by
    induction hx with
    | refl => rfl
    | tail _ hy ih =>
      subst ih
      simp [contents, hf, Component.handles, hh] at hy
  refine ⟨fun n hn => ?_, fun n m hn => ?_, fun j g hj hg => ?_⟩
  · cases hself hn
  · cases hself hn
  · cases hself hj
    rw [hf] at hg
    cases hg
    exact hw

theorem Stands.shows_iff {n : Nat} (h : s.Stands k n q) (hq : s.Quiet k) (hu : s.Untracked)
    {props : Json} {text : String} :
    s.Quiet q ∧ (s.Shows q props text ↔ s.Shows k props text) := by
  induction h with
  | self => exact ⟨hq, .rfl⟩
  | proxy hd _ ih => exact ⟨ih.1.of_delegates hd, (shows_iff_of_delegates hd ih.1 hu).trans ih.2⟩

end Store

def Component.isBare : Component → Bool
  | .function f => f.body.handles.isEmpty && !f.body.writes
  | .proxy _ => true

namespace Timeline

theorem Reached.grows {A : Admission} {s₀ : Store} {T : Timeline} (h : T.Reached A s₀) :
    s₀.Grows T.moment.store := ((Ledger.start A (fun _ => (0, "")) s₀).run h).1

variable {s₀ : Store} {T : Timeline} {v x : Version} {vs : List Version} {id : String}
  {n : Registration}

/-- The canonical proxy of an id is the one that its first version returned, and all later proxies
delegate to it. Each of them shows what the installed component shows, answers with its name and
its metadata, and writes metadata that all of them answer with. -/
theorem one_proxy_per_id (h : T.Reached (.functions fun _ _ => True) s₀) (hu : s₀.Untracked)
    (hv : T.versions = v :: vs) (hx : x ∈ T.versions) (hn : x.built.components.get? id = some n) :
    ∃ first rest r k f, lineage T.versions id = first :: rest ∧
      (T.moment.store.registry v.registry).components.get? id = some r ∧ r.proxy = first.proxy ∧
      T.moment.store.Delegates first.proxy k ∧
      T.moment.store.components[k]? = some (.function f) ∧
      (∀ m ∈ rest, T.moment.store.Delegates m.proxy first.proxy) ∧
      ∀ q ∈ (first :: rest).map Registration.proxy,
        (T.moment.store.Quiet k → ∀ props text,
          T.moment.store.Shows q props text ↔ T.moment.store.Shows k props text) ∧
        componentName q T.moment.store = some (f.title, T.moment.store) ∧
        (∀ key, property q key T.moment.store = some (f.properties.get? key, T.moment.store)) ∧
        ∀ key value, ∃ t, setProperty q key value T.moment.store = some ((), t) ∧
          ∀ q' ∈ k :: (first :: rest).map Registration.proxy,
            property q' key t = some (some value, t) := by
  have hu : T.moment.store.Untracked := by
    have hr := congrArg (fun l => l.head?.join) h.grows.readers
    unfold Store.Untracked at *
    cases hs : s₀.frames <;> cases ht : T.moment.store.frames <;> simp_all
  obtain ⟨owner, hl⟩ := h.ledger
  generalize hs : T.moment.store = s at *
  have hline := hl.lines v vs hv id
  have hmem : n ∈ lineage T.versions id := mem_lineage.2 ⟨x, hx, hn⟩
  have hst {m} (hm : m ∈ lineage T.versions id) :
      ∃ w, m.Stands (.functions fun _ _ => True) owner s w id := by
    obtain ⟨y, hy, hg⟩ := mem_lineage.1 hm
    exact ⟨y.registry, hs ▸ hl.stands y hy hg⟩
  rw [hs] at hline
  generalize hr : (s.registry v.registry).components.get? id = r at hline
  generalize lineage T.versions id = l at hline hmem hst
  cases hline with
  | unknown => cases hmem
  | @known first r rest hc =>
    obtain ⟨k, hk, hi⟩ := hc.installed
    obtain ⟨m, hm, rfl⟩ := hi.mem
    obtain ⟨_, hstm⟩ := hst hm
    obtain ⟨f, hf, -⟩ := hstm.component
    have hfirst : s.Delegates first.proxy m.component := by
      obtain ⟨_, hp⟩ := hst (List.mem_cons_self ..)
      exact ⟨_, hp.proxy, hk⟩
    have hrest : ∀ m ∈ rest, s.Delegates m.proxy first.proxy := by
      intro m hm
      obtain ⟨_, hp⟩ := hst (List.mem_cons_of_mem _ hm)
      exact ⟨_, hp.proxy, hc.delegated m hm⟩
    have hstand : ∀ q ∈ (first :: rest).map Registration.proxy,
        ∃ n < nesting, s.Stands m.component n q := by
      intro q hq
      obtain ⟨r, hr, rfl⟩ := List.mem_map.1 hq
      rcases List.mem_cons.1 hr with rfl | hr
      · exact ⟨1, by decide, .proxy hfirst .self⟩
      · exact ⟨2, by decide, .proxy (hrest r hr) (.proxy hfirst .self)⟩
    refine ⟨first, rest, r, m.component, f, rfl, rfl, hc.proxy, hfirst, hf, hrest,
      fun q hq => ?_⟩
    obtain ⟨n, hn, hq⟩ := hstand q hq
    refine ⟨fun hquiet props text => (hq.shows_iff hquiet hu).2,
      componentName_of_stands hq hn hf, property_of_stands hq hn hf, fun key value =>
      ⟨_, setProperty_of_stands hq hn hf key value, fun q' hq' => ?_⟩⟩
    obtain ⟨n', hn', hq'⟩ : ∃ n' < nesting, s.Stands m.component n' q' := by
      rcases List.mem_cons.1 hq' with rfl | hq'
      · exact ⟨0, by decide, .self⟩
      · exact hstand q' hq'
    rw [property_of_stands (hq'.set_function hf _) hn'
      (List.getElem?_set_self (List.getElem?_eq_some_iff.1 hf).1), OrderedMap.get?_insert_self]

/-- The proxies of two versions show one component. -/
theorem one_proxy_in_twoVersions :
    twoVersions.Reached (.functions fun _ _ => True) {} ∧ ({} : Store).Untracked ∧
      ∃ p k, twoVersions.moment.store.Delegates p k ∧ ∀ q ∈ (lineage twoVersions.versions "Foo").map
        Registration.proxy, ∀ props text, twoVersions.moment.store.Shows q props text ↔
          twoVersions.moment.store.Shows k props text := by
  have h : twoVersions.Reached (.functions fun _ _ => True) {} :=
    twoVersions_reached fun _ _ _ hk => ⟨_, hk, trivial⟩
  obtain ⟨first, rest, r, k, f, hl, -, -, hd, hf, -, hall⟩ :=
    one_proxy_per_id h rfl rfl (List.mem_cons_self ..) (show OrderedMap.get? _ "Foo" = some _ from rfl)
  have hbare : twoVersions.moment.store.components.all Component.isBare = true := rfl
  obtain ⟨hh, hw⟩ : f.body.handles = [] ∧ f.body.writes = false := by
    simpa [Component.isBare] using List.all_eq_true.1 hbare _ (List.mem_of_getElem? hf)
  exact ⟨h, rfl, first.proxy, k, hd, hl ▸ fun q hq => (hall q hq).1 (.of_bare hf hh hw)⟩

end Timeline

end HotSwap
