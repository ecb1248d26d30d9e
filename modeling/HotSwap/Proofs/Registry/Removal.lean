import HotSwap.Proofs.Registry.Merge
/-!
# Reconciling when something is gone

Each phase stops at the first id that is gone. What stands before it is patched as ever, what stands
behind it is left as it was, and nothing is adopted. The phases do not look at each other: components
are patched as they would be without any context.
-/

namespace HotSwap

open Machine

namespace OrderedMap

variable {κ υ : Type} [DecidableEq κ] {old new : OrderedMap κ υ} {before after : List κ} {k : κ}

/-- `k` is the first key of `old` that `new` lacks. -/
structure Gap (old new : OrderedMap κ υ) (before : List κ) (k : κ) (after : List κ) : Prop where
  keys : old.keys = before ++ k :: after
  known : ∀ l ∈ before, l ∈ new.keys
  gone : k ∉ new.keys

theorem not_contains {m : OrderedMap κ υ} (h : k ∉ m.keys) : m.contains k = false := by
  simpa using mt (contains_iff m k).1 h

theorem exists_gap (hk : k ∈ old.keys) (hn : k ∉ new.keys) :
    ∃ before k after, old.Gap new before k after := by
  obtain ⟨l, hl⟩ : ∃ l, old.keys.find? (fun l => !new.contains l) = some l :=
    Option.isSome_iff_exists.1 (List.find?_isSome.2 ⟨k, hk, by simp [not_contains hn]⟩)
  obtain ⟨hgone, before, after, hkeys, hknown⟩ := List.find?_eq_some_iff_append.1 hl
  have contains_of {l} : new.contains l = true ↔ l ∈ new.keys := contains_iff new l
  refine ⟨before, l, after, hkeys, fun l' hl' => ?_, fun hmem => ?_⟩
  · exact contains_of.1 (by simpa using hknown l' hl')
  · simp [contains_of.2 hmem] at hgone

theorem Gap.missing (h : old.Gap new before k after) : new.missing old.keys = some k := by
  have hnone : before.find? (fun l => !new.contains l) = none := by
    simpa [contains_iff] using h.known
  rw [OrderedMap.missing, h.keys, List.find?_append, hnone, Option.none_or,
    List.find?_cons_of_pos (by simp [not_contains h.gone])]

theorem Gap.takeWhile (h : old.Gap new before k after) :
    old.keys.takeWhile new.contains = before := by
  rw [h.keys, List.takeWhile_append_of_pos fun l hl => (contains_iff new l).2 (h.known l hl),
    List.takeWhile_cons_of_neg (by simp [not_contains h.gone]), List.append_nil]

theorem Gap.additions (h : old.Gap new before k after) : old.additions new = [] := by
  rw [OrderedMap.additions, h.missing, if_neg (by simp)]

end OrderedMap

/-- What the phase over components comes to if `id` is gone, and `before` stands before it. -/
structure Machine.Components.Stopped (s t : Store) (old new all : Components) (report : PatchReport)
    (before : List String) (id : String) : Prop where
  removed : report.removed = [id]
  added : report.added = []
  swapped : report.swapped = before.filter (old.swaps new)
  unchanged : report.unchanged = before.filter fun l => !old.swaps new l
  keys : all.keys = old.keys
  patched : ∀ ⦃l o n⦄, l ∈ before → old.get? l = some o → new.get? l = some n →
    o.Merged n (old.swaps new l) s t (all.get? l)
  left : ∀ ⦃l⦄, l ∉ before → all.get? l = old.get? l
  cell : ∀ ⦃l r⦄, l ∉ before → old.get? l = some r ∨ new.get? l = some r →
    t.held r.cell = s.held r.cell

/-- What the phase over contexts comes to if `id` is gone, and `before` stands before it. The old
handle of an id takes the new default, and the new handle the old identity, unless the handle stands
once more under an id that is patched later. -/
structure Machine.Contexts.Stopped (s t : Store) (old new all : Contexts) (report : PatchReport)
    (before : List String) (id : String) : Prop where
  removed : report.contextsRemoved = [id]
  added : report.contextsAdded = []
  patched : report.contextsPatched = before
  registrations : all = old
  default : ∀ ⦃pre l post o n⦄, before = pre ++ l :: post → old.get? l = some o →
    new.get? l = some n → (∀ l' ∈ post, ∀ o', old.get? l' = some o' → o'.context ≠ o.context) →
      t.contextAt o.context =
        { s.contextAt o.context with fallback := (s.contextAt n.context).fallback }
  identity : ∀ ⦃pre l post o n⦄, before = pre ++ l :: post → old.get? l = some o →
    new.get? l = some n → (∀ l' ∈ post, ∀ n', new.get? l' = some n' → n'.context ≠ n.context) →
      t.contextAt n.context = { s.contextAt n.context with
        token := (s.contextAt o.context).token, provider := (s.contextAt o.context).provider }
  left : ∀ ⦃d : ContextId⦄, (∀ l ∈ before, ∀ x, old.get? l = some x ∨ new.get? l = some x →
    x.context ≠ d) → t.contextAt d = s.contextAt d

/-- The two registries share no cell and no context, and their contexts exist. -/
structure Registry.Separate (s : Store) (old new : Registry) : Prop where
  cells : old.Apart new
  contexts : ∀ ⦃id o id' n⦄, old.contexts.get? id = some o → new.contexts.get? id' = some n →
    o.context ≠ n.context
  made : ∀ ⦃id x⦄, old.contexts.get? id = some x ∨ new.contexts.get? id = some x →
    x.context < s.contexts.length

instance (s : Store) (old new : Registry) : Decidable (Registry.Separate s old new) :=
  decidable_of_iff (old.Apart new ∧
      (∀ e ∈ old.contexts.entries, ∀ e' ∈ new.contexts.entries, e.2.context ≠ e'.2.context) ∧
      (∀ e ∈ old.contexts.entries, e.2.context < s.contexts.length) ∧
      ∀ e ∈ new.contexts.entries, e.2.context < s.contexts.length)
    ⟨fun ⟨cells, contexts, old, new⟩ => ⟨cells,
        fun _ _ _ _ ho hn => contexts _ (OrderedMap.mem_entries.2 ho) _ (OrderedMap.mem_entries.2 hn),
        fun _ _ hx => hx.elim (fun hx => old _ (OrderedMap.mem_entries.2 hx))
          fun hx => new _ (OrderedMap.mem_entries.2 hx)⟩,
      fun h => ⟨h.cells,
        fun _ he _ he' => h.contexts (OrderedMap.mem_entries.1 he) (OrderedMap.mem_entries.1 he'),
        fun _ he => h.made (.inl (OrderedMap.mem_entries.1 he)),
        fun _ he => h.made (.inr (OrderedMap.mem_entries.1 he))⟩⟩

def Store.withoutContexts (s : Store) : Store :=
  { s with registries := s.registries.map fun m => { m with contexts := .empty } }

/-- Two reconciliations did the same to components. -/
structure Registry.SameComponents (s : Store) (c : RegistryId) (t t' : Store)
    (report report' : PatchReport) : Prop where
  swapped : report'.swapped = report.swapped
  unchanged : report'.unchanged = report.unchanged
  added : report'.added = report.added
  removed : report'.removed = report.removed
  components : (t'.registry c).components = (t.registry c).components
  held : ∀ ⦃v id r⦄, (s.registry v).components.get? id = some r → t'.held r.cell = t.held r.cell

/-- What a reconciliation of `w` into `c` comes to if something is gone. -/
structure Registry.Stopped (s t : Store) (c w : RegistryId) (report : PatchReport) : Prop where
  reload : report.mustReload = true ↔ ¬ (s.registry w).Knows (s.registry c)
  components : ∀ id ∈ (s.registry c).components.keys, id ∉ (s.registry w).components.keys →
    ∃ before first after,
      (s.registry c).components.Gap (s.registry w).components before first after ∧
      Components.Stopped s t (s.registry c).components (s.registry w).components
        (t.registry c).components report before first
  contexts : ∀ id ∈ (s.registry c).contexts.keys, id ∉ (s.registry w).contexts.keys →
    ∃ before first after, (s.registry c).contexts.Gap (s.registry w).contexts before first after ∧
      Contexts.Stopped s t (s.registry c).contexts (s.registry w).contexts
        (t.registry c).contexts report before first
  alone : ∀ ⦃report' t'⦄, reconcile c w s.withoutContexts = some (report', t') →
    Registry.SameComponents s c t t' report report'
  others : ∀ v ≠ c, t.registry v = s.registry v
  grows : s.Grows t

namespace Store

variable {s t : Store} {ps qs : List ContextPair} {d o n : ContextId}

theorem patchPairs_append (s : Store) (ps qs : List ContextPair) :
    s.patchPairs (ps ++ qs) = (s.patchPairs ps).patchPairs qs := List.foldl_append

theorem ContextPair.Stands.patchPairs {p : ContextPair} (h : p.Stands s) (ps : List ContextPair) :
    p.Stands (s.patchPairs ps) :=
  ⟨by simpa using h.old, by simpa using h.new, h.distinct⟩

theorem fallback_patchPairs (hs : ∀ p ∈ ps, p.Stands s) (hd : ∀ p ∈ ps, d ≠ p.1) :
    ((s.patchPairs ps).contextAt d).fallback = (s.contextAt d).fallback := by
  induction ps generalizing s with
  | nil => rfl
  | cons p ps ih =>
    rw [List.forall_mem_cons] at hs hd
    have hrest : ∀ q ∈ ps, q.Stands (s.patchPair p) := fun q hq =>
      ContextPair.Stands.patchPairs (hs.2 q hq) [p]
    rw [patchPairs, List.foldl_cons, ← patchPairs, ih hrest hd.2,
      contextAt_patchPair hs.1.old hs.1.new, if_neg hd.1]
    split
    · subst d
      rfl
    · rfl

theorem identity_patchPairs (hs : ∀ p ∈ ps, p.Stands s) (hd : ∀ p ∈ ps, d ≠ p.2) :
    ((s.patchPairs ps).contextAt d).token = (s.contextAt d).token ∧
      ((s.patchPairs ps).contextAt d).provider = (s.contextAt d).provider := by
  induction ps generalizing s with
  | nil => exact ⟨rfl, rfl⟩
  | cons p ps ih =>
    rw [List.forall_mem_cons] at hs hd
    have hrest : ∀ q ∈ ps, q.Stands (s.patchPair p) := fun q hq =>
      ContextPair.Stands.patchPairs (hs.2 q hq) [p]
    rw [patchPairs, List.foldl_cons, ← patchPairs, (ih hrest hd.2).1, (ih hrest hd.2).2,
      contextAt_patchPair hs.1.old hs.1.new, if_neg hd.1]
    split
    · subst d
      exact ⟨rfl, rfl⟩
    · exact ⟨rfl, rfl⟩

theorem contextAt_patchPairs_mid (hs : ∀ p ∈ ps ++ (o, n) :: qs, p.Stands s)
    (ho : ∀ p ∈ ps, o ≠ p.2) (hn : ∀ p ∈ ps, n ≠ p.1) :
    ((∀ q ∈ qs, o ≠ q.1 ∧ o ≠ q.2) → (s.patchPairs (ps ++ (o, n) :: qs)).contextAt o =
      { s.contextAt o with fallback := (s.contextAt n).fallback }) ∧
    ((∀ q ∈ qs, n ≠ q.1 ∧ n ≠ q.2) → (s.patchPairs (ps ++ (o, n) :: qs)).contextAt n =
      { s.contextAt n with
        token := (s.contextAt o).token, provider := (s.contextAt o).provider }) := by
  simp only [List.mem_append, List.mem_cons] at hs
  obtain ⟨htoken, hprovider⟩ := identity_patchPairs (fun p hp => hs p (.inl hp)) ho
  have hfallback := fallback_patchPairs (fun p hp => hs p (.inl hp)) hn
  have hmid := ContextPair.Stands.patchPairs (hs _ (.inr (.inl rfl))) ps
  have hrest : ∀ q ∈ qs, q.Stands ((s.patchPairs ps).patchPair (o, n)) := fun q hq =>
    ContextPair.Stands.patchPairs
      (ContextPair.Stands.patchPairs (hs q (.inr (.inr hq))) ps) [(o, n)]
  have hpair := contextAt_patchPair hmid.old hmid.new
  have hcons : s.patchPairs (ps ++ (o, n) :: qs) =
      ((s.patchPairs ps).patchPair (o, n)).patchPairs qs := patchPairs_append ..
  rw [hcons]
  constructor
  · intro hq
    rw [contextAt_patchPairs_of_notMem hrest hq, hpair, if_neg hmid.distinct, if_pos rfl]
    simp only [htoken, hprovider, hfallback]
  · intro hq
    rw [contextAt_patchPairs_of_notMem hrest hq, hpair, if_pos rfl]
    simp only [htoken, hprovider, hfallback]

end Store

namespace Machine

theorem Contexts.pairs_append {new : Contexts} {es es' : List (String × ContextRegistration)}
    (h : ∀ e ∈ es, e.1 ∈ new.keys) :
    Contexts.pairs new (es ++ es') = Contexts.pairs new es ++ Contexts.pairs new es' := by
  induction es with
  | nil => rfl
  | cons e es ih =>
    rw [List.forall_mem_cons] at h
    obtain ⟨n, hn⟩ := OrderedMap.mem_keys.1 h.1
    obtain ⟨id, o⟩ := e
    rw [List.cons_append, pairs, pairs, hn, ih h.2]
    rfl

theorem Contexts.pairs_of_gap {old new : Contexts} {before after : List String} {id : String}
    (h : old.Gap new before id after) : ∃ es es', old.entries = es ++ es' ∧
      es.map Prod.fst = before ∧ Contexts.pairs new old.entries = Contexts.pairs new es := by
  obtain ⟨es, es', he, hes, hes'⟩ := List.map_eq_append_iff.1 h.keys
  obtain ⟨⟨l, o⟩, rest, rfl, rfl, -⟩ := List.map_eq_cons_iff.1 hes'
  refine ⟨es, _, he, hes, ?_⟩
  rw [he, pairs_append fun e he => h.known _ (hes ▸ List.mem_map_of_mem he), pairs,
    OrderedMap.notMem_keys.1 h.gone]
  exact List.append_nil _

theorem Contexts.pair_get? {old new : Contexts} {es : List (String × ContextRegistration)}
    (hsub : es ⊆ old.entries) {p : ContextPair} (hp : p ∈ Contexts.pairs new es) :
    ∃ l o n, l ∈ es.map Prod.fst ∧ old.get? l = some o ∧ new.get? l = some n ∧
      p = (o.context, n.context) := by
  obtain ⟨l, o, n, ho, hn, rfl⟩ := Contexts.mem_pairs hp
  exact ⟨l, o, n, List.mem_map_of_mem ho, OrderedMap.mem_entries.1 (hsub ho), hn, rfl⟩

end Machine

namespace Registry.Separate

variable {s : Store} {old new : Registry} {es es' : List (String × ContextRegistration)}
  {id : String} {o n : ContextRegistration}

theorem stands (sep : Registry.Separate s old new) (hsub : es ⊆ old.contexts.entries) :
    ∀ p ∈ Contexts.pairs new.contexts es, p.Stands s := by
  intro p hp
  obtain ⟨l, o, n, -, ho, hn, rfl⟩ := Contexts.pair_get? hsub hp
  exact ⟨sep.made (.inl ho), sep.made (.inr hn), sep.contexts ho hn⟩

/-- What becomes of the two handles of an id, if no id behind it has the handle once more. -/
theorem contextAt_patchPairs (sep : Registry.Separate s old new)
    (hsub : es ++ (id, o) :: es' ⊆ old.contexts.entries)
    (hknown : ∀ e ∈ es, e.1 ∈ new.contexts.keys) (hn : new.contexts.get? id = some n) :
    ((∀ l ∈ es'.map Prod.fst, ∀ o', old.contexts.get? l = some o' → o'.context ≠ o.context) →
      (s.patchPairs (Contexts.pairs new.contexts (es ++ (id, o) :: es'))).contextAt o.context =
        { s.contextAt o.context with fallback := (s.contextAt n.context).fallback }) ∧
    ((∀ l ∈ es'.map Prod.fst, ∀ n', new.contexts.get? l = some n' → n'.context ≠ n.context) →
      (s.patchPairs (Contexts.pairs new.contexts (es ++ (id, o) :: es'))).contextAt n.context =
        { s.contextAt n.context with
          token := (s.contextAt o.context).token, provider := (s.contextAt o.context).provider }) := by
  have hfront : es ⊆ old.contexts.entries := fun e he => hsub (List.mem_append_left _ he)
  have hback : es' ⊆ old.contexts.entries := fun e he =>
    hsub (List.mem_append_right _ (List.mem_cons_of_mem _ he))
  have ho : old.contexts.get? id = some o := OrderedMap.mem_entries.1 (hsub (by simp))
  have hall := sep.stands hsub
  have hpairs : Contexts.pairs new.contexts (es ++ (id, o) :: es') =
      Contexts.pairs new.contexts es ++
        (o.context, n.context) :: Contexts.pairs new.contexts es' := by
    rw [Contexts.pairs_append hknown, Contexts.pairs, hn]
  rw [hpairs] at hall ⊢
  -- no old handle is a new one, so that what stands in front does not touch the two
  obtain ⟨hold, hnew⟩ := Store.contextAt_patchPairs_mid hall
    (fun q hq => by
      obtain ⟨_, _, _, -, -, hn', rfl⟩ := Contexts.pair_get? hfront hq
      exact sep.contexts ho hn')
    (fun q hq => by
      obtain ⟨_, _, _, -, ho', -, rfl⟩ := Contexts.pair_get? hfront hq
      exact (sep.contexts ho' hn).symm)
  constructor <;> intro hlast
  · refine hold fun q hq => ?_
    obtain ⟨l, o', n', hl, ho', hn', rfl⟩ := Contexts.pair_get? hback hq
    exact ⟨(hlast l hl o' ho').symm, sep.contexts ho hn'⟩
  · refine hnew fun q hq => ?_
    obtain ⟨l, o', n', hl, ho', hn', rfl⟩ := Contexts.pair_get? hback hq
    exact ⟨(sep.contexts ho' hn).symm, (hlast l hl n' hn').symm⟩

end Registry.Separate

namespace Store

variable {s t : Store} {c w : RegistryId} {report : PatchReport} {owner : Ownership}
  {before after : List String} {id : String}

theorem Owned.components_stopped (h : s.Owned owner)
    (out : Registry.Outcome (fun n => (owner n).2) s t c w report)
    (apart : (s.registry c).Apart (s.registry w))
    (gap : (s.registry c).components.Gap (s.registry w).components before id after) :
    Components.Stopped s t (s.registry c).components (s.registry w).components
      (t.registry c).components report before id := by
  have hreached : Components.reached (s.registry w).components (s.registry c).components.keys =
      before := gap.takeWhile
  have hreport := out.report
  refine ⟨?_, ?_, ?_, ?_, ?_, fun l o n hl ho hn => h.merged_at out apart ho hn (hreached ▸ hl),
    fun l hl => ?_, fun l r hl hr => ?_⟩
  · simp [hreport, Registry.report, gap.missing]
  · simp [hreport, Registry.report, gap.additions]
  · simp [hreport, Registry.report, hreached]
  · simp [hreport, Registry.report, hreached]
  · rw [out.extended.components, gap.additions, List.append_nil]
  · rw [out.get, hreached, if_neg hl, gap.missing, if_neg (by simp), Option.or_none]
  · rcases hr with hr | hr <;> exact h.held_of_notMem out hr (hreached ▸ hl)

theorem contexts_stopped {label : NodeId → String} (out : Registry.Outcome label s t c w report)
    (sep : Registry.Separate s (s.registry c) (s.registry w))
    (ht : (s.patchPairs (s.contextPairs c w)).SameContexts t)
    (gap : (s.registry c).contexts.Gap (s.registry w).contexts before id after) :
    Contexts.Stopped s t (s.registry c).contexts (s.registry w).contexts (t.registry c).contexts
      report before id := by
  obtain ⟨es, es', hentries, hes, hpairs⟩ := Contexts.pairs_of_gap gap
  have hat (d : ContextId) :
      t.contextAt d = (s.patchPairs (Contexts.pairs (s.registry w).contexts es)).contextAt d := by
    rw [contextAt, ht.contexts, contextPairs, hpairs, contextAt]
  have hsub : es ⊆ (s.registry c).contexts.entries := by
    rw [hentries]
    exact List.subset_append_left ..
  have hsplit {pre post : List String} {l : String} {o n : ContextRegistration}
      (hl : before = pre ++ l :: post) (ho : (s.registry c).contexts.get? l = some o)
      (hn : (s.registry w).contexts.get? l = some n) :
      ((∀ l' ∈ post, ∀ o', (s.registry c).contexts.get? l' = some o' →
          o'.context ≠ o.context) → t.contextAt o.context =
        { s.contextAt o.context with fallback := (s.contextAt n.context).fallback }) ∧
      ((∀ l' ∈ post, ∀ n', (s.registry w).contexts.get? l' = some n' →
          n'.context ≠ n.context) → t.contextAt n.context = { s.contextAt n.context with
        token := (s.contextAt o.context).token, provider := (s.contextAt o.context).provider }) := by
    obtain ⟨fs, rest, rfl, hfs, hrest⟩ := List.map_eq_append_iff.1 (hes.trans hl)
    obtain ⟨⟨l', o'⟩, gs, rfl, rfl, rfl⟩ := List.map_eq_cons_iff.1 hrest
    obtain rfl : o' = o :=
      Option.some.inj ((OrderedMap.mem_entries.1 (hsub (by simp))).symm.trans ho)
    rw [hat, hat]
    exact sep.contextAt_patchPairs hsub (fun e he => gap.known _ (hes ▸ List.mem_map_of_mem
      (List.mem_append_left _ he))) hn
  have hreport := out.report
  refine ⟨?_, ?_, ?_, ?_, fun pre l post o n hl ho hn => (hsplit hl ho hn).1,
    fun pre l post o n hl ho hn => (hsplit hl ho hn).2, fun d hd => ?_⟩
  · simp [hreport, Registry.report, gap.missing]
  · simp [hreport, Registry.report, gap.additions]
  · simp [hreport, Registry.report, gap.takeWhile]
  · refine OrderedMap.ext_get? ?_ fun l => ?_
    · rw [out.extended.contexts, gap.additions, List.append_nil]
    · rw [out.extended.context, gap.missing, if_neg (by simp), Option.or_none]
  · rw [hat, contextAt_patchPairs_of_notMem (sep.stands hsub)]
    intro p hp
    obtain ⟨l, o, n, hl, ho, hn, rfl⟩ := Contexts.pair_get? hsub hp
    exact ⟨(hd l (hes ▸ hl) o (.inl ho)).symm, (hd l (hes ▸ hl) n (.inr hn)).symm⟩

theorem registry_withoutContexts (s : Store) (v : RegistryId) :
    s.withoutContexts.registry v = { s.registry v with contexts := .empty } := by
  rw [registry, withoutContexts, List.getElem?_map]
  cases h : s.registries[v]? <;> simp [registry, h]

theorem grows_withoutContexts (s : Store) : s.Grows s.withoutContexts := { Grows.refl s with }

theorem Owned.withoutContexts (h : s.Owned owner) : s.withoutContexts.Owned owner := by
  intro v
  rw [registry_withoutContexts]
  exact ⟨fun _ _ hr => ((h v).components hr).grows s.grows_withoutContexts fun _ _ => rfl,
    by rintro _ _ ⟨⟩⟩

/-- The phase over components does not look at contexts. -/
theorem Owned.sameComponents {report' : PatchReport} {t' : Store} (h : s.Owned owner)
    (hc : c < s.registries.length) (out : Registry.Outcome (fun n => (owner n).2) s t c w report)
    (hr : Machine.reconcile c w s.withoutContexts = some (report', t')) :
    Registry.SameComponents s c t t' report report' := by
  have out' := h.withoutContexts.outcome (by simpa [Store.withoutContexts] using hc) hr
  have hreport := out.report
  have hreport' := out'.report
  have hkeys := out'.extended.components
  have hget := out'.get
  simp only [registry_withoutContexts] at hreport' hkeys hget
  refine ⟨?_, ?_, ?_, ?_, OrderedMap.ext_get? ?_ fun id => ?_, fun v id r hr => ?_⟩
  · rw [hreport, hreport']
    rfl
  · rw [hreport, hreport']
    rfl
  · rw [hreport, hreport']
    rfl
  · rw [hreport, hreport']
    rfl
  · rw [hkeys, out.extended.components]
  · rw [hget, out.get]
  · have hs := ((h v).components hr).celled
    rw [out.held hs, out'.held (s.grows_withoutContexts.celled hs)]
    simp only [registry_withoutContexts]
    rfl

theorem Owned.stopped (h : s.Owned owner) (hc : c < s.registries.length)
    (sep : Registry.Separate s (s.registry c) (s.registry w))
    (hr : Machine.reconcile c w s = some (report, t)) : Registry.Stopped s t c w report := by
  have out := h.outcome hc hr
  have hreport := out.report
  refine ⟨?_, fun id ho hn => ?_, fun id ho hn => ?_, fun _ _ hr' => h.sameComponents hc out hr',
    out.others, out.grows⟩
  · rw [hreport]
    exact Registry.mustReload_report
  · obtain ⟨before, first, after, gap⟩ := OrderedMap.exists_gap ho hn
    exact ⟨before, first, after, gap, h.components_stopped out sep.cells gap⟩
  · obtain ⟨before, first, after, gap⟩ := OrderedMap.exists_gap ho hn
    exact ⟨before, first, after, gap, contexts_stopped out sep (reconcile_contexts hr).1 gap⟩

/-- If something is gone then the module has to reload. Each phase stops at the first id that it
misses; the phase over components is the one that there would be without contexts. Where no effect is
there to run, both reconciliations end. -/
theorem Registered.reconcile_stops (h : s.Registered) (hc : c < s.registries.length)
    (sep : Registry.Separate s (s.registry c) (s.registry w)) :
    (∀ report t, Machine.reconcile c w s = some (report, t) → Registry.Stopped s t c w report) ∧
      (s.Inert nesting → (∃ report t, Machine.reconcile c w s = some (report, t)) ∧
        ∃ report t, Machine.reconcile c w s.withoutContexts = some (report, t)) := by
  obtain ⟨owner, hs⟩ := h.owned
  exact ⟨fun _ _ hr => hs.stopped hc sep hr,
    fun hi => ⟨reconcile_ends hi c w, reconcile_ends (hi.of_nodes (t := s.withoutContexts) rfl) c w⟩⟩

end Store

namespace Timeline

def registerContext (T : Timeline) (w : RegistryId) (id : String) (c : ContextId) : Timeline :=
  ⟨⟨T.moment.store.after (Machine.registerContext w id c), T.moment.filling⟩, T.versions⟩

theorem step_registerContext {A : Admission} {T : Timeline} {w : RegistryId}
    (hw : w ∈ T.moment.filling) (id : String) (c : ContextId) :
    Step A T (T.registerContext w id c) := .go (.registerContext id c hw rfl)

/-- Three components and a context, of which the second evaluation lacks the component in the middle
and the context. -/
def lacking : Timeline :=
  start {} |>.act (.function "A" "A" false (constant "A").body)
    |>.act (.context (.string "light"))
    |>.create
    |>.register 0 "Foo" 0 {}
    |>.register 0 "Gone" 0 {}
    |>.register 0 "Bar" 0 {}
    |>.registerContext 0 "Theme" 0
    |>.act (.function "B" "B" false (constant "B").body)
    |>.create
    |>.register 1 "Foo" 4 {}
    |>.register 1 "Bar" 4 {}

/-- One context under two ids, of which the second stands behind the id that is gone. -/
def doubled : Timeline :=
  start {} |>.act (.context (.string "a"))
    |>.act (.context (.string "b"))
    |>.create
    |>.registerContext 0 "A" 0
    |>.registerContext 0 "Gone" 1
    |>.registerContext 0 "B" 0
    |>.act (.context (.string "c"))
    |>.act (.context (.string "d"))
    |>.create
    |>.registerContext 1 "A" 2
    |>.registerContext 1 "B" 3

theorem lacking_registered : lacking.moment.store.Registered := by
  refine Reached.registered (A := .all) ?_
  exact ((((((((((Relation.ReflTransGen.single (step_act _ rfl)).tail (step_act _ rfl)).tail
    step_create).tail (step_register (List.mem_cons_self ..) _ _ trivial)).tail
    (step_register (List.mem_cons_self ..) _ _ trivial)).tail
    (step_register (List.mem_cons_self ..) _ _ trivial)).tail
    (step_registerContext (List.mem_cons_self ..) _ _)).tail (step_act _ rfl)).tail
    step_create).tail (step_register (List.mem_cons_self ..) _ _ trivial)).tail
    (step_register (List.mem_cons_self ..) _ _ trivial)

theorem doubled_registered : doubled.moment.store.Registered := by
  refine Reached.registered (A := .all) ?_
  exact ((((((((((Relation.ReflTransGen.single (step_act _ rfl)).tail (step_act _ rfl)).tail
    step_create).tail (step_registerContext (List.mem_cons_self ..) _ _)).tail
    (step_registerContext (List.mem_cons_self ..) _ _)).tail
    (step_registerContext (List.mem_cons_self ..) _ _)).tail (step_act _ rfl)).tail
    (step_act _ rfl)).tail step_create).tail
    (step_registerContext (List.mem_cons_self ..) _ _)).tail
    (step_registerContext (List.mem_cons_self ..) _ _)

theorem lacking_inert : lacking.moment.store.Inert nesting where
  effects := by decide
  passing := by decide

theorem stops_in_lacking : lacking.moment.store.Registered ∧
    Registry.Separate lacking.moment.store (lacking.moment.store.registry 0)
      (lacking.moment.store.registry 1) ∧
    lacking.moment.store.Inert nesting ∧ ∃ report t,
      reconcile 0 1 lacking.moment.store = some (report, t) ∧ report.mustReload = true ∧
      Registry.Stopped lacking.moment.store t 0 1 report := by
  have sep : Registry.Separate lacking.moment.store (lacking.moment.store.registry 0)
      (lacking.moment.store.registry 1) := by decide
  obtain ⟨stops, ends⟩ := lacking_registered.reconcile_stops (c := 0) (w := 1) (by decide) sep
  obtain ⟨report, t, ht⟩ := (ends lacking_inert).1
  have hs := stops report t ht
  exact ⟨lacking_registered, sep, lacking_inert, report, t, ht, hs.reload.2 (by decide), hs⟩

/-- A context that stands behind the id that is gone takes another default, because it also stands
before it. -/
theorem not_always_left : doubled.moment.store.Registered ∧
    Registry.Separate doubled.moment.store (doubled.moment.store.registry 0)
      (doubled.moment.store.registry 1) ∧
    (doubled.moment.store.registry 0).contexts.Gap (doubled.moment.store.registry 1).contexts
      ["A"] "Gone" ["B"] ∧
    ∃ report t o, reconcile 0 1 doubled.moment.store = some (report, t) ∧
      (doubled.moment.store.registry 0).contexts.get? "B" = some o ∧
      (t.contextAt o.context).fallback ≠ (doubled.moment.store.contextAt o.context).fallback := by
  obtain ⟨report, ht⟩ := Store.eq_after (s := doubled.moment.store) (m := reconcile 0 1) rfl
  refine ⟨doubled_registered, by decide, ⟨rfl, by decide, by decide⟩, report, _,
    ⟨"B", 0⟩, ht, rfl, ?_⟩
  have hafter : (doubled.moment.store.after (reconcile 0 1)).contextAt 0 =
    { doubled.moment.store.contextAt 0 with fallback := .string "c" } := rfl
  have hbefore : (doubled.moment.store.contextAt 0).fallback = .string "a" := rfl
  simp [hafter, hbefore]

end Timeline

end HotSwap
