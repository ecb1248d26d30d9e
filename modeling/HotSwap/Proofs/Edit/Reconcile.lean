import HotSwap.Proofs.Edit.Patch
/-!
# What a reconciliation does

Contexts are patched without a trace in the cells; components as `Patched` says, and then what is new
is adopted as it is, its cell included, unless something is gone.
-/

namespace HotSwap

open Machine

namespace OrderedMap

variable {κ υ ρ α : Type} [DecidableEq κ]

/-- Pairs are adopted whose keys are new: what was there stays, and the others come in. -/
theorem get?_adopt (es : List (κ × υ)) (note : κ → ρ → ρ) (old : OrderedMap κ υ) (r : ρ) (k : κ) :
    (es.foldl (fun p e => if p.1.contains e.1 then p else (p.1.insert e.1 e.2, note e.1 p.2))
      (old, r)).1.get? k = (old.get? k).or (find? k es) := by
  induction es generalizing old r with
  | nil => simp [find?]
  | cons e es ih =>
    obtain ⟨l, v⟩ := e
    simp only [List.foldl_cons, find?]
    by_cases hl : l = k
    · subst hl
      split
      · rename_i hc
        obtain ⟨w, hw⟩ := Option.isSome_iff_exists.1 hc
        rw [ih, hw, Option.some_or, Option.some_or]
      · rename_i hc
        have ho : old.get? l = none := by simpa [contains] using hc
        rw [ih, get?_insert_self, ho, if_pos rfl, Option.some_or, Option.none_or]
    · rw [if_neg hl]
      split
      · exact ih old r
      · rw [ih, get?_insert_of_ne _ (Ne.symm hl)]

theorem note_adopt (es : List (κ × υ)) (note : κ → ρ → ρ) (f : ρ → α)
    (h : ∀ k r, f (note k r) = f r) (old : OrderedMap κ υ) (r : ρ) :
    f (es.foldl (fun p e => if p.1.contains e.1 then p else (p.1.insert e.1 e.2, note e.1 p.2))
      (old, r)).2 = f r := by
  induction es generalizing old r with
  | nil => rfl
  | cons e es ih =>
    simp only [List.foldl_cons]
    split
    · exact ih old r
    · exact (ih _ _).trans (h _ _)

end OrderedMap

def Store.registry (s : Store) (r : RegistryId) : Registry := (s.registries[r]?).getD {}

namespace Machine

theorem registry_apply (r : RegistryId) (s : Store) : registry r s = some (s.registry r, s) := rfl

section

variable {R : Store → Store → Prop} (hR : Accommodating R)

include hR

theorem setContext_within (id : ContextId) (c : Context) :
    Within R (setContext id c) (setContext id c) :=
  .of_modify fun s => hR.contexts s _ _ _

theorem context_within (id : ContextId) : Within R (context id) (context id) :=
  fun s => .of_eq rfl rfl (hR.refl s)

theorem patchContext_within (old new : ContextId) :
    Within R (patchContext old new) (patchContext old new) := by
  refine .bind hR.trans (context_within hR new) fun c => .bind hR.trans ?_ fun _ => ?_
  · exact .bind hR.trans (context_within hR old) fun _ => setContext_within hR _ _
  · exact .bind hR.trans (context_within hR new) fun _ =>
      .bind hR.trans (context_within hR old) fun _ => setContext_within hR _ _

theorem patchKnownContexts_eq_some {new : Contexts} {es : List (String × ContextRegistration)}
    {report report' : PatchReport} {reload : Bool} {s t : Store}
    (h : patchKnownContexts new es report s = some ((reload, report'), t)) :
    R s t ∧ report'.removed = report.removed := by
  induction es generalizing report s with
  | nil =>
    cases h
    exact ⟨hR.refl _, rfl⟩
  | cons e es ih =>
    obtain ⟨id, o⟩ := e
    rw [patchKnownContexts] at h
    cases hn : new.get? id with
    | none =>
      rw [hn] at h
      cases h
      exact ⟨hR.refl _, rfl⟩
    | some n =>
      rw [hn] at h
      obtain ⟨_, u, hu, h⟩ := bind_eq_some.1 h
      obtain ⟨rest, hr⟩ := ih h
      exact ⟨hR.trans (patchContext_within hR _ _ _ hu).2 rest, hr⟩

theorem patchContexts_eq_some {old new : Contexts} {report report' : PatchReport} {reload : Bool}
    {patched : Contexts} {s t : Store}
    (h : patchContexts old new report s = some ((reload, patched, report'), t)) :
    R s t ∧ report'.removed = report.removed := by
  obtain ⟨⟨gone, mid⟩, u, hu, h⟩ := bind_eq_some.1 h
  obtain ⟨hs, hr⟩ := patchKnownContexts_eq_some hR hu
  dsimp only at h
  split at h
  · cases h
    exact ⟨hs, hr⟩
  · simp only [pure_apply, Option.some.injEq, Prod.mk.injEq] at h
    obtain ⟨⟨-, e⟩, rfl⟩ := h
    have hadopt : (adoptNewContexts new.entries old mid).2.removed = mid.removed :=
      OrderedMap.note_adopt _
        (fun id r => { r with contextsAdded := r.contextsAdded ++ [id] }) _ (fun _ _ => rfl) old mid
    rw [e] at hadopt
    exact ⟨hs, hadopt.trans hr⟩

end

theorem adoptNew_get? (es : List (String × Registration)) (old : Components) (report : PatchReport)
    (id : String) :
    (adoptNew es old report).1.get? id = (old.get? id).or (OrderedMap.find? id es) :=
  OrderedMap.get?_adopt es (fun id (r : PatchReport) => { r with added := r.added ++ [id] }) old report id

theorem adoptNew_removed (es : List (String × Registration)) (old : Components)
    (report : PatchReport) : (adoptNew es old report).2.removed = report.removed :=
  OrderedMap.note_adopt es (fun id r => { r with added := r.added ++ [id] }) _ (fun _ _ => rfl) old
    report

/-- The outcome of patching a whole registry: `known` are the registrations that were there before,
`all` those that are there now. -/
structure Reconciled (label : NodeId → String) (old new : Components) (s : Store)
    (known all : Components) (report : PatchReport) (t : Store) : Prop where
  patched : Patched label old new (new.reached old.keys) s known t
  kept : report.removed = [] → (∀ id ∈ old.keys, new.contains id) ∧
    ∀ id, all.get? id = (known.get? id).or (new.get? id)
  gone : report.removed ≠ [] → ¬ (∀ id ∈ old.keys, new.contains id) ∧ all = known

variable {label : NodeId → String} {s t : Store}

theorem patchComponents_eq_some {old new all : Components} {report report' : PatchReport}
    {reload : Bool} (ho : Components.Labelled label s old) (hn : Components.Labelled label s new)
    (hr : report.removed = [])
    (h : patchComponents old new report s = some ((reload, all, report'), t)) :
    ∃ known, Reconciled label old new s known all report' t := by
  obtain ⟨⟨gone, known, mid⟩, u, hu, h⟩ := bind_eq_some.1 h
  obtain ⟨patched, hkeep, hgone⟩ :=
    patchKnown_eq_some old.keys old.nodup_keys (List.Subset.refl _) ho hn hu
  dsimp only at h
  split at h
  · rename_i hg
    cases h
    obtain ⟨hall, hne⟩ := hgone hg
    exact ⟨_, patched, fun he => absurd he hne, fun _ => ⟨hall, rfl⟩⟩
  · rename_i hg
    simp only [pure_apply, Option.some.injEq, Prod.mk.injEq] at h
    obtain ⟨⟨-, e⟩, rfl⟩ := h
    obtain ⟨hall, he⟩ := hkeep (by simpa using hg)
    have hget := adoptNew_get? new.entries known mid
    have hrem := adoptNew_removed new.entries known mid
    rw [e] at hget hrem
    exact ⟨known, patched, fun _ => ⟨hall, hget⟩, fun hne => absurd (hrem.trans (he.trans hr)) hne⟩

theorem reconcile_phases {c w : RegistryId} {report : PatchReport}
    (h : reconcile c w s = some (report, t)) :
    ∃ gone lost mid contexts all u v,
      patchContexts (s.registry c).contexts (s.registry w).contexts {} s =
          some ((gone, contexts, mid), u) ∧
        patchComponents (s.registry c).components (s.registry w).components mid u =
          some ((lost, all, report), v) ∧
        t = { v with registries := v.registries.set c { components := all, contexts } } := by
  simp only [reconcile, bind_apply, registry_apply, Option.bind_some] at h
  obtain ⟨⟨⟨patched, rep⟩, v⟩, hv, h⟩ := Option.bind_eq_some_iff.1 h
  cases h
  obtain ⟨⟨gone, contexts, mid⟩, u, hu, hv⟩ := bind_eq_some.1 hv
  obtain ⟨⟨lost, all, last⟩, x, hx, hv⟩ := bind_eq_some.1 hv
  cases hv
  exact ⟨gone, lost, mid, contexts, all, u, _, hu, hx, rfl⟩

theorem reconcile_eq_some {c w : RegistryId} {report : PatchReport}
    (ho : Components.Labelled label s (s.registry c).components)
    (hn : Components.Labelled label s (s.registry w).components)
    (h : reconcile c w s = some (report, t)) :
    ∃ u known all contexts,
      Reconciled label (s.registry c).components (s.registry w).components s known all report u ∧
        t = { u with registries := u.registries.set c { components := all, contexts } } := by
  obtain ⟨_, _, mid, contexts, all, u, v, hu, hx, rfl⟩ := reconcile_phases h
  obtain ⟨hs, hr⟩ := patchContexts_eq_some accommodating_steady hu
  obtain ⟨known, rec⟩ :=
    patchComponents_eq_some (ho.grows hs.toGrows) (hn.grows hs.toGrows) hr hx
  refine ⟨_, known, all, contexts, ⟨⟨rec.patched.keys, rec.patched.get, ?_⟩, rec.kept, rec.gone⟩,
    rfl⟩
  exact (hs.rewired.trans rec.patched.rewired).congr fun _ _ => rfl

end Machine

end HotSwap
