import HotSwap.Proofs.Context.Spared
/-!
# What patching does to contexts

Two registries pair their contexts id by id, up to the first id that is gone. Of each pair the old
handle takes the default of the new one, and the new handle the token and the provider of the old
one. Nothing else touches a context.
-/

namespace HotSwap

open Machine

abbrev ContextPair := ContextId × ContextId

namespace Store

def patchPair (s : Store) (p : ContextPair) : Store :=
  let old := { s.contextAt p.1 with fallback := (s.contextAt p.2).fallback }
  let s := { s with contexts := s.contexts.set p.1 old }
  { s with contexts := s.contexts.set p.2 { s.contextAt p.2 with
    token := (s.contextAt p.1).token, provider := (s.contextAt p.1).provider } }

def patchPairs (s : Store) (ps : List ContextPair) : Store := ps.foldl patchPair s

end Store

namespace Machine

/-- The pairs that a patch gets to. -/
def Contexts.pairs (new : Contexts) : List (String × ContextRegistration) → List ContextPair
  | [] => []
  | (id, o) :: rest =>
    match new.get? id with
    | some n => (o.context, n.context) :: pairs new rest
    | none => []

end Machine

namespace Store

def contextPairs (s : Store) (c w : RegistryId) : List ContextPair :=
  Contexts.pairs (s.registry w).contexts (s.registry c).contexts.entries

variable {s t : Store} {c n o : ContextId} {p : ContextPair} {ps : List ContextPair}

theorem contextAt_set (s : Store) (c : ContextId) (x : Context) (d : ContextId) :
    ({ s with contexts := s.contexts.set c x } : Store).contextAt d =
      if d = c ∧ c < s.contexts.length then x else s.contextAt d := by
  unfold contextAt
  by_cases h : d = c
  · subst d
    by_cases hc : c < s.contexts.length
    · rw [List.getElem?_set_self hc, if_pos ⟨rfl, hc⟩, Option.getD_some]
    · rw [List.set_eq_of_length_le (Nat.not_lt.1 hc), if_neg fun h => hc h.2]
  · rw [List.getElem?_set_ne (Ne.symm h), if_neg fun e => h e.1]

@[simp] theorem length_patchPair : (s.patchPair p).contexts.length = s.contexts.length := by
  simp [patchPair]

@[simp] theorem length_patchPairs : (s.patchPairs ps).contexts.length = s.contexts.length := by
  induction ps generalizing s with
  | nil => rfl
  | cons p ps ih => exact ih.trans length_patchPair

@[simp] theorem providers_patchPairs : (s.patchPairs ps).providers = s.providers := by
  induction ps generalizing s with
  | nil => rfl
  | cons p ps ih => exact ih

@[simp] theorem tokens_patchPairs : (s.patchPairs ps).tokens = s.tokens := by
  induction ps generalizing s with
  | nil => rfl
  | cons p ps ih => exact ih

@[simp] theorem registries_patchPairs : (s.patchPairs ps).registries = s.registries := by
  induction ps generalizing s with
  | nil => rfl
  | cons p ps ih => exact ih

theorem contextAt_patchPair (ho : p.1 < s.contexts.length) (hn : p.2 < s.contexts.length)
    (d : ContextId) :
    (s.patchPair p).contextAt d =
      if d = p.2 then
        ⟨(s.contextAt p.1).token, (s.contextAt p.1).provider, (s.contextAt p.2).fallback⟩
      else if d = p.1 then { s.contextAt p.1 with fallback := (s.contextAt p.2).fallback }
      else s.contextAt d := by
  rw [patchPair, contextAt_set]
  simp only [contextAt_set, List.length_set, ho, hn, and_true]
  split
  · by_cases h : p.2 = p.1 <;> simp [h]
  · rfl

theorem identity_patchPair (s : Store) (p : ContextPair) {d : ContextId}
    (hd : d < s.contexts.length) :
    ((s.patchPair p).contextAt d).token = (s.contextAt (if d = p.2 then p.1 else d)).token ∧
      ((s.patchPair p).contextAt d).provider =
        (s.contextAt (if d = p.2 then p.1 else d)).provider := by
  rw [patchPair, contextAt_set]
  simp only [contextAt_set, List.length_set]
  by_cases hn : d = p.2
  · subst hn
    by_cases ho : p.1 < s.contexts.length <;> simp [hd, ho]
  · by_cases ho : d = p.1
    · subst ho
      simp [hn, hd]
    · simp [hn, ho]

end Store

namespace ContextPair

structure Distinct (p q : ContextPair) : Prop where
  old : q.1 ≠ p.1
  new : q.2 ≠ p.2
  oldNew : q.1 ≠ p.2
  newOld : q.2 ≠ p.1

structure Stands (s : Store) (p : ContextPair) : Prop where
  old : p.1 < s.contexts.length
  new : p.2 < s.contexts.length
  distinct : p.1 ≠ p.2

end ContextPair

namespace Store

variable {s t : Store} {c n o : ContextId} {p : ContextPair} {ps : List ContextPair}

theorem contextAt_patchPairs_of_notMem (hs : ∀ p ∈ ps, p.Stands s)
    (hc : ∀ p ∈ ps, c ≠ p.1 ∧ c ≠ p.2) : (s.patchPairs ps).contextAt c = s.contextAt c := by
  induction ps generalizing s with
  | nil => rfl
  | cons p ps ih =>
    rw [List.forall_mem_cons] at hs hc
    rw [patchPairs, List.foldl_cons, ← patchPairs, ih, contextAt_patchPair hs.1.old hs.1.new,
      if_neg hc.1.2, if_neg hc.1.1]
    · exact fun q hq => ⟨by simpa using (hs.2 q hq).old, by simpa using (hs.2 q hq).new,
        (hs.2 q hq).distinct⟩
    · exact hc.2

/-- Each handle takes part in one pair only, so what comes of a pair does not depend on the others. -/
theorem contextAt_patchPairs (hs : ∀ p ∈ ps, p.Stands s) (hd : ps.Pairwise ContextPair.Distinct)
    (hp : (o, n) ∈ ps) :
    (s.patchPairs ps).contextAt o = { s.contextAt o with fallback := (s.contextAt n).fallback } ∧
      (s.patchPairs ps).contextAt n =
        ⟨(s.contextAt o).token, (s.contextAt o).provider, (s.contextAt n).fallback⟩ := by
  induction ps generalizing s with
  | nil => cases hp
  | cons p ps ih =>
    rw [List.forall_mem_cons] at hs
    obtain ⟨hdp, hd⟩ := List.pairwise_cons.1 hd
    have hpair := contextAt_patchPair hs.1.old hs.1.new
    have hs' : ∀ q ∈ ps, q.Stands (s.patchPair p) := fun q hq =>
      ⟨by simpa using (hs.2 q hq).old, by simpa using (hs.2 q hq).new, (hs.2 q hq).distinct⟩
    rw [patchPairs, List.foldl_cons, ← patchPairs]
    rcases List.mem_cons.1 hp with rfl | hp
    · rw [contextAt_patchPairs_of_notMem hs' fun q hq => ⟨(hdp q hq).old.symm, (hdp q hq).newOld.symm⟩,
        contextAt_patchPairs_of_notMem hs' fun q hq => ⟨(hdp q hq).oldNew.symm, (hdp q hq).new.symm⟩]
      simp [hpair, hs.1.distinct]
    · have h := hdp _ hp
      obtain ⟨ho, hn⟩ := ih hs' hd hp
      rw [ho, hn, hpair, hpair, if_neg h.oldNew, if_neg h.old, if_neg h.new, if_neg h.newOld]
      exact ⟨rfl, rfl⟩

end Store

namespace Machine

theorem Contexts.mem_pairs {new : Contexts} {es : List (String × ContextRegistration)}
    {p : ContextPair} (hp : p ∈ Contexts.pairs new es) :
    ∃ id o n, (id, o) ∈ es ∧ new.get? id = some n ∧ p = (o.context, n.context) := by
  induction es with
  | nil => cases hp
  | cons e es ih =>
    obtain ⟨id, o⟩ := e
    rw [Contexts.pairs] at hp
    cases hn : new.get? id with
    | none =>
      rw [hn] at hp
      cases hp
    | some n =>
      rw [hn] at hp
      rcases List.mem_cons.1 hp with rfl | hp
      · exact ⟨id, o, n, List.mem_cons_self .., hn, rfl⟩
      · obtain ⟨id, o, n, ho, hn, hp⟩ := ih hp
        exact ⟨id, o, n, List.mem_cons_of_mem _ ho, hn, hp⟩

theorem Contexts.mem_pairs_of_known {new : Contexts} {es : List (String × ContextRegistration)}
    (h : ∀ e ∈ es, e.1 ∈ new.keys) {id : String} {o n : ContextRegistration} (ho : (id, o) ∈ es)
    (hn : new.get? id = some n) : (o.context, n.context) ∈ Contexts.pairs new es := by
  induction es with
  | nil => cases ho
  | cons e es ih =>
    obtain ⟨l, o'⟩ := e
    rw [List.forall_mem_cons] at h
    obtain ⟨n', hn'⟩ := OrderedMap.mem_keys.1 h.1
    rw [Contexts.pairs, hn']
    rcases List.mem_cons.1 ho with e | ho
    · cases e
      obtain rfl : n = n' := Option.some.inj (hn.symm.trans hn')
      exact List.mem_cons_self ..
    · exact List.mem_cons_of_mem _ (ih h.2 ho)

theorem Contexts.pairwise_pairs {new : Contexts} {es : List (String × ContextRegistration)}
    (hd : (es.map Prod.fst).Nodup)
    (h : ∀ ⦃id o n⦄, (id, o) ∈ es → new.get? id = some n → ∀ ⦃id' o' n'⦄, (id', o') ∈ es →
      new.get? id' = some n' → id ≠ id' →
        ContextPair.Distinct (o.context, n.context) (o'.context, n'.context)) :
    (Contexts.pairs new es).Pairwise ContextPair.Distinct := by
  induction es with
  | nil => exact .nil
  | cons e es ih =>
    obtain ⟨id, o⟩ := e
    obtain ⟨hid, hd⟩ := List.nodup_cons.1 hd
    rw [Contexts.pairs]
    cases hn : new.get? id with
    | none => exact .nil
    | some n =>
      refine .cons (fun q hq => ?_) (ih hd fun _ _ _ ho hn _ _ _ ho' =>
        h (List.mem_cons_of_mem _ ho) hn (List.mem_cons_of_mem _ ho'))
      obtain ⟨id', o', n', ho', hn', rfl⟩ := Contexts.mem_pairs hq
      refine h (List.mem_cons_self ..) hn (List.mem_cons_of_mem _ ho') hn' ?_
      rintro rfl
      exact hid (List.mem_map.2 ⟨_, ho', rfl⟩)

variable {s t : Store} {c w : RegistryId}

theorem patchContext_apply (o n : ContextId) (s : Store) :
    patchContext o n s = some ((), s.patchPair (o, n)) := rfl

theorem patchKnownContexts_eq (new : Contexts) (es : List (String × ContextRegistration))
    (report : PatchReport) (s : Store) :
    ∃ reload report', patchKnownContexts new es report s =
        some ((reload, report'), s.patchPairs (Contexts.pairs new es)) ∧
      (reload = false → (∀ e ∈ es, new.contains e.1) ∧
        report'.contextsRemoved = report.contextsRemoved) ∧
      (reload = true → report'.contextsRemoved ≠ []) := by
  induction es generalizing report s with
  | nil => exact ⟨false, report, rfl, by simp, by simp⟩
  | cons e es ih =>
    obtain ⟨id, o⟩ := e
    cases hn : new.get? id with
    | none =>
      refine ⟨true, { report with contextsRemoved := report.contextsRemoved ++ [id] }, ?_, by simp,
        by simp⟩
      simp [patchKnownContexts, Contexts.pairs, hn, Store.patchPairs]
    | some n =>
      obtain ⟨reload, report', h, hkeep, hgone⟩ := ih
        { report with contextsPatched := report.contextsPatched ++ [id] }
        (s.patchPair (o.context, n.context))
      refine ⟨reload, report', ?_, fun hr => ?_, hgone⟩
      · simp [patchKnownContexts, hn, patchContext_apply, h, Contexts.pairs, Store.patchPairs]
      · obtain ⟨hall, he⟩ := hkeep hr
        exact ⟨List.forall_mem_cons.2 ⟨OrderedMap.contains_of_get? hn, hall⟩, he⟩

theorem redirect_spares (r : Registration) (k : ComponentId) :
    Within Store.Spares (redirect r k) (redirect r k) :=
  .bind Store.tolerant_spares.trans (.of_modify fun _ => ⟨⟨rfl, rfl, rfl⟩, rfl⟩) fun _ =>
    .bind Store.tolerant_spares.trans (collect_within Store.tolerant_spares.toAdmissible) fun _ =>
      topCalls_spares.notify _

theorem patchComponent_spares {old new : Registration} {report : PatchReport}
    {p : Registration × PatchReport} (h : patchComponent old new report s = some (p, t)) :
    s.Spares t ∧ p.2.contextsRemoved = report.contextsRemoved := by
  unfold patchComponent at h
  split at h
  · obtain ⟨_, u, hu, h⟩ := bind_eq_some.1 h
    obtain ⟨_, v, hv, h⟩ := bind_eq_some.1 h
    cases h
    exact ⟨(redirect_spares _ _ _ hu).2.trans (redirect_spares _ _ _ hv).2, rfl⟩
  · obtain ⟨_, v, hv, h⟩ := bind_eq_some.1 h
    cases h
    exact ⟨(redirect_spares _ _ _ hv).2, rfl⟩

theorem patchKnown_spares {new old known : Components} {ids : List String}
    {report report' : PatchReport} {reload : Bool}
    (h : patchKnown new ids old report s = some ((reload, known, report'), t)) :
    s.Spares t ∧ report'.contextsRemoved = report.contextsRemoved := by
  induction ids generalizing old report s with
  | nil =>
    cases h
    exact ⟨.refl _, rfl⟩
  | cons id ids ih =>
    rw [patchKnown] at h
    cases ho : old.get? id with
    | none =>
      rw [ho] at h
      cases h
      exact ⟨.refl _, rfl⟩
    | some o =>
      rw [ho] at h
      cases hn : new.get? id with
      | none =>
        rw [hn] at h
        cases h
        exact ⟨.refl _, rfl⟩
      | some n =>
        rw [hn] at h
        obtain ⟨⟨r, mid⟩, u, hu, h⟩ := bind_eq_some.1 h
        obtain ⟨first, hm⟩ := patchComponent_spares hu
        obtain ⟨rest, hr⟩ := ih h
        exact ⟨first.trans rest, hr.trans hm⟩

theorem patchComponents_spares {new old all : Components} {report report' : PatchReport}
    {reload : Bool} (h : patchComponents old new report s = some ((reload, all, report'), t)) :
    s.Spares t ∧ report'.contextsRemoved = report.contextsRemoved := by
  obtain ⟨⟨gone, known, mid⟩, u, hu, h⟩ := bind_eq_some.1 h
  obtain ⟨hs, hr⟩ := patchKnown_spares hu
  dsimp only at h
  split at h
  · cases h
    exact ⟨hs, hr⟩
  · simp only [pure_apply, Option.some.injEq, Prod.mk.injEq] at h
    obtain ⟨⟨-, e⟩, rfl⟩ := h
    have hadopt : (adoptNew new.entries known mid).2.contextsRemoved = mid.contextsRemoved :=
      OrderedMap.note_adopt _ (fun id r => { r with added := r.added ++ [id] }) _ (fun _ _ => rfl)
        known mid
    rw [e] at hadopt
    exact ⟨hs, hadopt.trans hr⟩

/-- The contexts of a registry once another one is patched in, and none of its own is gone. -/
structure Contexts.Adopted (old new all : Contexts) : Prop where
  known : ∀ id ∈ old.keys, id ∈ new.keys
  get : ∀ id, all.get? id = (old.get? id).or (new.get? id)

theorem patchContexts_eq (old new : Contexts) (report : PatchReport) (s : Store) :
    ∃ reload all report', patchContexts old new report s = some ((reload, all, report'),
        s.patchPairs (Contexts.pairs new old.entries)) ∧
      (report.contextsRemoved = [] → report'.contextsRemoved = [] → Contexts.Adopted old new all) := by
  obtain ⟨gone, mid, h, hkeep, hgone⟩ := patchKnownContexts_eq new old.entries report s
  cases gone with
  | true =>
    exact ⟨true, old, mid, by simp [patchContexts, h], fun _ he => absurd he (hgone rfl)⟩
  | false =>
    refine ⟨false, (adoptNewContexts new.entries old mid).1, (adoptNewContexts new.entries old mid).2,
      by simp [patchContexts, h], fun _ _ => ⟨fun id hid => ?_, fun id => ?_⟩⟩
    · obtain ⟨e, he, rfl⟩ := List.mem_map.1 hid
      exact (OrderedMap.contains_iff ..).1 ((hkeep rfl).1 e he)
    · exact OrderedMap.get?_adopt new.entries
        (fun id (r : PatchReport) => { r with contextsAdded := r.contextsAdded ++ [id] }) old mid id

theorem reconcile_contexts {report : PatchReport} (h : reconcile c w s = some (report, t)) :
    (s.patchPairs (s.contextPairs c w)).SameContexts t ∧
    (c < s.registries.length → report.contextsRemoved = [] →
      Contexts.Adopted (s.registry c).contexts (s.registry w).contexts (t.registry c).contexts) := by
  simp only [reconcile, bind_apply, registry_apply, Option.bind_some] at h
  obtain ⟨⟨⟨patched, rep⟩, v⟩, hv, h⟩ := Option.bind_eq_some_iff.1 h
  cases h
  obtain ⟨reload, all, mid, hp, hadopt⟩ :=
    patchContexts_eq (s.registry c).contexts (s.registry w).contexts {} s
  obtain ⟨_, u, hu, hv⟩ := bind_eq_some.1 hv
  obtain ⟨rfl, rfl⟩ := Prod.mk.inj (Option.some.inj (hp.symm.trans hu))
  obtain ⟨⟨_, components, last⟩, x, hx, hv⟩ := bind_eq_some.1 hv
  cases hv
  obtain ⟨hs, hr⟩ := patchComponents_spares hx
  refine ⟨⟨hs.contexts, hs.providers, hs.tokens⟩, fun hc he => ?_⟩
  have hset : (Store.registry { v with registries := v.registries.set c ⟨components, all⟩ } c).contexts
      = all :=
    congrArg Registry.contexts
      ((Store.registry_set _ (by simpa [hs.registries] using hc) c).trans (if_pos rfl))
  have hall := hadopt rfl (hr.symm.trans he)
  rwa [← hset] at hall

end Machine

end HotSwap
