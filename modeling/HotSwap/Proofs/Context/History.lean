import HotSwap.Proofs.Context.Patch
import HotSwap.Proofs.Edit.Ledger
/-!
# Contexts of edited modules

Each version of a module declares its contexts anew. `Ledger` is the invariant of a run of edits: for
each id it ties the canonical handle, and the handles of all versions, to the contexts as they were
declared.
-/

namespace HotSwap

open Machine

/-- A version that was handed over, with all contexts as they were then. -/
structure Edition extends Version where
  made : ContextId → Context

/-- A handle that a version registered, and the context under it when it was handed over. -/
structure Declaration where
  handle : ContextId
  made : Context

def Edition.declaration? (e : Edition) (id : String) : Option Declaration :=
  (e.built.contexts.get? id).map fun r => ⟨r.context, e.made r.context⟩

def declared (es : List Edition) (id : String) : List Declaration :=
  es.filterMap fun e => e.declaration? id

namespace Store

def edition (s : Store) (w : RegistryId) : Edition := ⟨⟨w, s.registry w⟩, s.contextAt⟩

/-- A registry declares a new context for each id: no older one than `origin`, none twice, and none
of an earlier version. -/
structure Declares (s : Store) (origin : ContextId) (es : List Edition) (w : RegistryId) : Prop where
  created : ∀ ⦃id d⦄, (s.edition w).declaration? id = some d →
    origin ≤ d.handle ∧ d.handle < s.contexts.length
  single : ∀ ⦃id id' d d'⦄, (s.edition w).declaration? id = some d →
    (s.edition w).declaration? id' = some d' → d.handle = d'.handle → id = id'
  fresh : ∀ ⦃id d⦄, (s.edition w).declaration? id = some d →
    ∀ ⦃id' d'⦄, d' ∈ declared es id' → d'.handle ≠ d.handle

end Store

/-- A program with an edited module. The first version is the canonical one, the latest comes last. -/
structure History where
  moment : Moment
  editions : List Edition

namespace History

/-- One step of a run in which each version declares its contexts anew and no edit demands a reload. -/
inductive Step (A : Admission) (origin : ContextId) : History → History → Prop
  | go {m m' : Moment} {es : List Edition} (h : Moment.Step A m m') : Step A origin ⟨m, es⟩ ⟨m', es⟩
  | first {s : Store} {ws : List RegistryId} {w : RegistryId} (hw : w ∈ ws)
    (anew : s.Declares origin [] w) :
    Step A origin ⟨⟨s, ws⟩, []⟩ ⟨⟨s, ws.filter (· ≠ w)⟩, [s.edition w]⟩
  | patch {s t : Store} {ws : List RegistryId} {w : RegistryId} {e : Edition} {es : List Edition}
    {report : PatchReport} (hw : w ∈ ws) (anew : s.Declares origin (e :: es) w)
    (h : reconcile e.registry w s = some (report, t)) (stay : report.mustReload = false) :
    Step A origin ⟨⟨s, ws⟩, e :: es⟩ ⟨⟨t, ws.filter (· ≠ w)⟩, e :: es ++ [s.edition w]⟩

def Reached (A : Admission) (s₀ : Store) (T : History) : Prop :=
  Relation.ReflTransGen (Step A s₀.contexts.length) ⟨⟨s₀, []⟩, []⟩ T

def timeline (T : History) : Timeline := ⟨T.moment, T.editions.map Edition.toVersion⟩

end History

/-- The handles of an id: the canonical one, which was declared first, has the default of the last
one; the others have its token and provider, and the defaults they were declared with. -/
structure Declaration.Converged (s : Store) (first last : Declaration) (rest : List Declaration) :
    Prop where
  canonical : s.contextAt first.handle = { first.made with fallback := last.made.fallback }
  followers : ∀ d ∈ rest, s.contextAt d.handle = { first.made with fallback := d.made.fallback }

inductive Declaration.Registered (s : Store) : List Declaration → Option ContextRegistration → Prop
  | unknown : Registered s [] none
  | known {first last : Declaration} {rest : List Declaration} {r : ContextRegistration}
    (handle : r.context = first.handle) (latest : (first :: rest).getLast? = some last)
    (h : Converged s first last rest) : Registered s (first :: rest) (some r)

namespace History

/-- A handle that no later version than the first of its id declared. -/
def Leads (es : List Edition) (c : ContextId) : Prop :=
  ∀ id, ∀ d ∈ (declared es id).tail, d.handle ≠ c

structure Ledger (origin : ContextId) (T : History) : Prop where
  bound : origin ≤ T.moment.store.contexts.length
  issued : ∀ c, origin ≤ c → c < T.moment.store.contexts.length → T.moment.store.Issued c
  created : ∀ id, ∀ d ∈ declared T.editions id,
    origin ≤ d.handle ∧ d.handle < T.moment.store.contexts.length
  single : ∀ ⦃id id' d d'⦄, d ∈ declared T.editions id → d' ∈ declared T.editions id' →
    d.handle = d'.handle → id = id'
  nodup : ∀ id, ((declared T.editions id).map Declaration.handle).Nodup
  apart : ∀ ⦃c c'⦄, origin ≤ c → c < T.moment.store.contexts.length → origin ≤ c' →
    c' < T.moment.store.contexts.length → Leads T.editions c → Leads T.editions c' →
      (T.moment.store.contextAt c).token = (T.moment.store.contextAt c').token → c = c'
  lines : ∀ e es, T.editions = e :: es → ∀ id, Declaration.Registered T.moment.store
    (declared T.editions id) ((T.moment.store.registry e.registry).contexts.get? id)
  latest : ∀ id, declared T.editions id ≠ [] →
    ∃ e, T.editions.getLast? = some e ∧ e.declaration? id = (declared T.editions id).getLast?

end History

theorem declared_snoc (es : List Edition) (e : Edition) (id : String) :
    declared (es ++ [e]) id = declared es id ++ (e.declaration? id).toList := by
  simp only [declared, List.filterMap_append, List.filterMap_cons, List.filterMap_nil]
  cases e.declaration? id <;> rfl

theorem Declaration.Converged.congr {s t : Store} {first last : Declaration}
    {rest : List Declaration} (h : Converged s first last rest)
    (ht : ∀ d ∈ first :: rest, t.contextAt d.handle = s.contextAt d.handle) :
    Converged t first last rest where
  canonical := (ht first (List.mem_cons_self ..)).trans h.canonical
  followers d hd := (ht d (List.mem_cons_of_mem _ hd)).trans (h.followers d hd)

theorem Declaration.Registered.congr {s t : Store} {ds : List Declaration}
    {r : Option ContextRegistration} (h : Registered s ds r)
    (ht : ∀ d ∈ ds, t.contextAt d.handle = s.contextAt d.handle) : Registered t ds r := by
  cases h with
  | unknown => exact .unknown
  | known handle latest h => exact .known handle latest (h.congr ht)

namespace History

variable {A : Admission} {origin : ContextId} {s₀ s t : Store} {T U : History}
  {ws : List RegistryId} {w : RegistryId} {e : Edition} {es : List Edition}

theorem Step.timeline (h : Step A origin T U) : Timeline.Step A T.timeline U.timeline := by
  cases h with
  | go h => exact .go h
  | first hw => exact .first hw
  | @patch s t ws w e es report hw anew h stay =>
    have hlast : (e :: es ++ [s.edition w]).map Edition.toVersion =
        e.toVersion :: es.map Edition.toVersion ++ [⟨w, s.registry w⟩] := by
      simp [Store.edition]
    rw [History.timeline, History.timeline, hlast]
    exact .patch hw h stay

theorem Reached.timeline (h : T.Reached A s₀) : T.timeline.Reached A s₀ := by
  induction h with
  | refl => exact .refl
  | tail _ hs ih => exact ih.tail hs.timeline

theorem Ledger.start (s : Store) : Ledger s.contexts.length ⟨⟨s, []⟩, []⟩ where
  bound := Nat.le_refl _
  issued c hc hc' := absurd hc' (Nat.not_lt.2 hc)
  created _ d hd := by cases hd
  single _ _ d _ hd := by cases hd
  nodup _ := .nil
  apart c _ hc hc' := absurd hc' (Nat.not_lt.2 hc)
  lines e es he := by cases he
  latest _ h := absurd rfl h

theorem Ledger.go {owner : Ownership} {m m' : Moment} (h : Ledger origin ⟨m, es⟩)
    (hl : Timeline.Ledger A owner (History.mk m es).timeline) (hs : Moment.Step A m m') :
    Ledger origin ⟨m', es⟩ := by
  have hm := hs.mints
  obtain ⟨-, -, -, keeps⟩ := hl.sound.step hs
  -- A token that is given out is none that was given out before.
  have new_ne {c c' : ContextId} (hc : origin ≤ c) (hlt : c < m.store.contexts.length)
      (hc' : ¬ c' < m.store.contexts.length) (hlt' : c' < m'.store.contexts.length) :
      (m'.store.contextAt c).token ≠ (m'.store.contextAt c').token := by
    have hold := (h.issued c hc hlt).token
    have hnew := (hm.fresh c' (Nat.not_lt.1 hc') hlt').2
    rw [hm.kept c hlt]
    exact Nat.ne_of_lt (Nat.lt_of_lt_of_le hold hnew)
  refine ⟨Nat.le_trans h.bound hm.bound, fun c hc hlt => ?_, fun id d hd => ?_, h.single, h.nodup,
    fun c c' hc hlt hc' hlt' lead lead' e => ?_, ?_, h.latest⟩
  · by_cases hold : c < m.store.contexts.length
    · exact hm.issued c hold (h.issued c hc hold)
    · exact (hm.fresh c (Nat.not_lt.1 hold) hlt).1
  · obtain ⟨ho, hlt⟩ := h.created id d hd
    exact ⟨ho, Nat.lt_of_lt_of_le hlt hm.bound⟩
  · by_cases hold : c < m.store.contexts.length <;> by_cases hold' : c' < m.store.contexts.length
    · rw [hm.kept c hold, hm.kept c' hold'] at e
      exact h.apart hc hold hc' hold' lead lead' e
    · exact absurd e (new_ne hc hold hold' hlt')
    · exact absurd e.symm (new_ne hc' hold' hold hlt)
    · exact (hm.one c (Nat.not_lt.1 hold) hlt).trans (hm.one c' (Nat.not_lt.1 hold') hlt').symm
  · rintro e es rfl id
    have he : e.toVersion ∈ (e :: es).map Edition.toVersion := List.mem_cons_self ..
    rw [keeps.registry e.registry (hl.bound _ he) (hl.complete _ he)]
    exact (h.lines e es rfl id).congr fun d hd => hm.kept _ (h.created id d hd).2

theorem Ledger.first (h : Ledger origin ⟨⟨s, ws⟩, []⟩) (anew : s.Declares origin [] w) :
    Ledger origin ⟨⟨s, ws.filter (· ≠ w)⟩, [s.edition w]⟩ := by
  have hd (id : String) : declared [s.edition w] id = ((s.edition w).declaration? id).toList :=
    declared_snoc [] _ id
  have leads (c : ContextId) : Leads [] c := fun _ _ hd => by cases hd
  refine ⟨h.bound, h.issued, fun id d hm => ?_, fun id id' d d' hm hm' => ?_, fun id => ?_,
    fun c c' hc hlt hc' hlt' _ _ => h.apart hc hlt hc' hlt' (leads c) (leads c'), ?_, fun id hne => ?_⟩
  · rw [hd, Option.mem_toList] at hm
    exact anew.created hm
  · rw [hd, Option.mem_toList] at hm hm'
    exact anew.single hm hm'
  · rw [hd]
    cases (s.edition w).declaration? id <;> simp
  · rintro e es he id
    obtain ⟨rfl, rfl⟩ := List.cons.inj he
    rw [hd, Edition.declaration?]
    change Declaration.Registered s ((((s.registry w).contexts.get? id).map _).toList)
      ((s.registry w).contexts.get? id)
    cases (s.registry w).contexts.get? id with
    | none => exact .unknown
    | some r => exact .known rfl rfl ⟨rfl, by simp⟩
  · rw [hd]
    refine ⟨s.edition w, rfl, ?_⟩
    cases (s.edition w).declaration? id <;> rfl

theorem Ledger.canonical (h : Ledger origin ⟨⟨s, ws⟩, e :: es⟩) {id : String}
    {r : ContextRegistration} (hr : (s.registry e.registry).contexts.get? id = some r) :
    ∃ first rest, declared (e :: es) id = first :: rest ∧ r.context = first.handle := by
  have hline := h.lines e es rfl id
  simp only [hr] at hline
  generalize hl : declared (e :: es) id = l at hline
  cases hline with
  | @known first _ rest _ handle _ _ => exact ⟨first, rest, rfl, handle⟩

theorem Ledger.mem_contextPairs (h : Ledger origin ⟨⟨s, ws⟩, e :: es⟩) {p : ContextPair}
    (hp : p ∈ s.contextPairs e.registry w) : ∃ id first rest d, declared (e :: es) id = first :: rest ∧
      (s.edition w).declaration? id = some d ∧ p = (first.handle, d.handle) := by
  obtain ⟨id, o, n, ho, hn, rfl⟩ := Contexts.mem_pairs hp
  obtain ⟨first, rest, hl, e⟩ := h.canonical (OrderedMap.mem_entries.1 ho)
  refine ⟨id, first, rest, ⟨n.context, s.contextAt n.context⟩, hl, ?_, by rw [e]⟩
  rw [Edition.declaration?]
  exact congrArg (Option.map _) hn

theorem Ledger.stands (h : Ledger origin ⟨⟨s, ws⟩, e :: es⟩) (anew : s.Declares origin (e :: es) w)
    {p : ContextPair} (hp : p ∈ s.contextPairs e.registry w) : p.Stands s := by
  obtain ⟨id, first, rest, d, hl, hd, rfl⟩ := h.mem_contextPairs hp
  have hf : first ∈ declared (e :: es) id := hl ▸ List.mem_cons_self ..
  exact ⟨(h.created id first hf).2, (anew.created hd).2, anew.fresh hd hf⟩

theorem Ledger.pairwise (h : Ledger origin ⟨⟨s, ws⟩, e :: es⟩)
    (anew : s.Declares origin (e :: es) w) :
    (s.contextPairs e.registry w).Pairwise ContextPair.Distinct := by
  refine Contexts.pairwise_pairs (s.registry e.registry).contexts.nodup
    fun id o n ho hn id' o' n' ho' hn' hne => ?_
  obtain ⟨first, rest, hl, ef⟩ := h.canonical (OrderedMap.mem_entries.1 ho)
  obtain ⟨first', rest', hl', ef'⟩ := h.canonical (OrderedMap.mem_entries.1 ho')
  have hf : first ∈ declared (e :: es) id := hl ▸ List.mem_cons_self ..
  have hf' : first' ∈ declared (e :: es) id' := hl' ▸ List.mem_cons_self ..
  have declares {l : String} {r : ContextRegistration}
      (hr : (s.registry w).contexts.get? l = some r) :
      (s.edition w).declaration? l = some ⟨r.context, s.contextAt r.context⟩ := by
    rw [Edition.declaration?]
    exact congrArg (Option.map _) hr
  rw [ef, ef']
  refine ⟨fun e => hne (h.single hf' hf e).symm,
    fun e => hne (anew.single (declares hn') (declares hn) e).symm,
    anew.fresh (declares hn) hf', fun e => anew.fresh (declares hn') hf e.symm⟩

/-- What the contexts become when a version is patched in and no context is gone. -/
structure Applied (s : Store) (e : Edition) (es : List Edition) (w : RegistryId) (t : Store) : Prop
    where
  length : t.contexts.length = s.contexts.length
  providers : t.providers = s.providers
  tokens : t.tokens = s.tokens
  adopted : Contexts.Adopted (s.registry e.registry).contexts (s.registry w).contexts
    (t.registry e.registry).contexts
  patched : ∀ ⦃id first rest d⦄, declared (e :: es) id = first :: rest →
    (s.edition w).declaration? id = some d →
      t.contextAt first.handle = { s.contextAt first.handle with fallback := d.made.fallback } ∧
      t.contextAt d.handle = { s.contextAt first.handle with fallback := d.made.fallback }
  others : ∀ ⦃c⦄, (∀ ⦃id first rest d⦄, declared (e :: es) id = first :: rest →
    (s.edition w).declaration? id = some d → c ≠ first.handle ∧ c ≠ d.handle) →
      t.contextAt c = s.contextAt c

theorem Ledger.applied {owner : Ownership} {report : PatchReport}
    (h : Ledger origin ⟨⟨s, ws⟩, e :: es⟩)
    (hl : Timeline.Ledger A owner (History.mk ⟨s, ws⟩ (e :: es)).timeline)
    (anew : s.Declares origin (e :: es) w) (hr : reconcile e.registry w s = some (report, t))
    (stay : report.mustReload = false) : Applied s e es w t := by
  have hb : e.registry < s.registries.length :=
    hl.bound e.toVersion (List.mem_cons_self (l := es.map Edition.toVersion))
  obtain ⟨same, hadopt⟩ := reconcile_contexts hr
  have adopted := hadopt hb (by simp_all [PatchReport.mustReload])
  have hs := fun p hp => h.stands anew (p := p) hp
  refine ⟨by simp [same.contexts], by simp [same.providers], by simp [same.tokens], adopted,
    fun id first rest d hf hd => ?_, fun c hc => ?_⟩
  · obtain ⟨n, hn, rfl⟩ := Option.map_eq_some_iff.1 hd
    have hline := h.lines e es rfl id
    dsimp only at hline
    rw [hf] at hline
    generalize hg : (s.registry e.registry).contexts.get? id = r at hline
    cases hline with
    | @known _ last _ o handle _ _ =>
      have hp : (first.handle, n.context) ∈ s.contextPairs e.registry w := by
        rw [← handle]
        refine Contexts.mem_pairs_of_known (fun x hx => ?_) (OrderedMap.mem_entries.2 hg) hn
        exact adopted.known x.1 (List.mem_map_of_mem hx)
      obtain ⟨old, new⟩ := Store.contextAt_patchPairs hs (h.pairwise anew) hp
      rw [same.contextAt, same.contextAt]
      exact ⟨old, new⟩
  · rw [same.contextAt]
    refine Store.contextAt_patchPairs_of_notMem hs fun p hp => ?_
    obtain ⟨id, first, rest, d, hf, hd, rfl⟩ := h.mem_contextPairs hp
    exact hc hf hd

theorem Ledger.declares (h : Ledger origin ⟨⟨s, ws⟩, e :: es⟩) (ha : Applied s e es w t) {id : String}
    (hne : declared (e :: es) id ≠ []) : ∃ d, (s.edition w).declaration? id = some d := by
  have hline := h.lines e es rfl id
  dsimp only at hline
  generalize declared (e :: es) id = l at hline hne
  generalize hg : (s.registry e.registry).contexts.get? id = r at hline
  cases hline with
  | unknown => exact absurd rfl hne
  | known _ _ _ =>
    obtain ⟨n, hn⟩ := OrderedMap.mem_keys.1 (ha.adopted.known id (OrderedMap.mem_keys.2 ⟨_, hg⟩))
    exact ⟨_, congrArg (Option.map _) hn⟩

theorem Ledger.identity (h : Ledger origin ⟨⟨s, ws⟩, e :: es⟩) (ha : Applied s e es w t)
    {c : ContextId} (hc : origin ≤ c) (hlt : c < s.contexts.length) :
    ∃ b, origin ≤ b ∧ b < s.contexts.length ∧ (t.contextAt c).token = (s.contextAt b).token ∧
      (t.contextAt c).provider = (s.contextAt b).provider ∧
      (Leads (e :: es ++ [s.edition w]) c → b = c) := by
  by_cases hp : ∃ id first rest d, declared (e :: es) id = first :: rest ∧
      (s.edition w).declaration? id = some d ∧ (c = first.handle ∨ c = d.handle)
  · obtain ⟨id, first, rest, d, hf, hd, hcd⟩ := hp
    obtain ⟨ho, hb⟩ := h.created id first (hf ▸ List.mem_cons_self ..)
    obtain ⟨old, new⟩ := ha.patched hf hd
    have hmem : d ∈ (declared (e :: es ++ [s.edition w]) id).tail := by
      rw [declared_snoc, hf, hd]
      simp
    rcases hcd with rfl | rfl
    · exact ⟨first.handle, ho, hb, by rw [old], by rw [old], fun _ => rfl⟩
    · exact ⟨first.handle, ho, hb, by rw [new], by rw [new], fun lead => absurd rfl (lead id d hmem)⟩
  · refine ⟨c, hc, hlt, ?_, ?_, fun _ => rfl⟩ <;>
      rw [ha.others fun id first rest d hf hd =>
        ⟨fun e => hp ⟨id, first, rest, d, hf, hd, .inl e⟩,
          fun e => hp ⟨id, first, rest, d, hf, hd, .inr e⟩⟩]

theorem Leads.of_snoc {c : ContextId} (h : Leads (es ++ [e]) c) : Leads es c := by
  intro id d hd
  refine h id d ?_
  rw [declared_snoc]
  cases hl : declared es id with
  | nil => simp [hl] at hd
  | cons first rest =>
    rw [hl] at hd
    exact List.mem_append_left _ hd

theorem Ledger.line_adopted (h : Ledger origin ⟨⟨s, ws⟩, e :: es⟩)
    (anew : s.Declares origin (e :: es) w) (ha : Applied s e es w t) {id : String}
    (hnil : declared (e :: es) id = []) :
    Declaration.Registered t ((s.edition w).declaration? id).toList
      ((t.registry e.registry).contexts.get? id) := by
  have hold : (s.registry e.registry).contexts.get? id = none := by
    have hline := h.lines e es rfl id
    dsimp only at hline
    rw [hnil] at hline
    generalize (s.registry e.registry).contexts.get? id = r at hline
    cases hline
    rfl
  rw [ha.adopted.get, hold, Option.none_or, Edition.declaration?]
  change Declaration.Registered t ((((s.registry w).contexts.get? id).map _).toList)
    ((s.registry w).contexts.get? id)
  cases hn : (s.registry w).contexts.get? id with
  | none => exact .unknown
  | some n =>
    have hd : (s.edition w).declaration? id = some ⟨n.context, s.contextAt n.context⟩ :=
      congrArg (Option.map _) hn
    refine .known rfl rfl ⟨ha.others fun id' first rest d' hf hd' => ⟨fun e => ?_, fun e => ?_⟩,
      by simp⟩
    · exact anew.fresh hd (hf ▸ List.mem_cons_self ..) e.symm
    · obtain rfl := anew.single hd hd' e
      rw [hnil] at hf
      cases hf

theorem Ledger.line_patched (h : Ledger origin ⟨⟨s, ws⟩, e :: es⟩)
    (anew : s.Declares origin (e :: es) w) (ha : Applied s e es w t) {id : String}
    {first d : Declaration} {rest : List Declaration} (hf : declared (e :: es) id = first :: rest)
    (hd : (s.edition w).declaration? id = some d) :
    Declaration.Registered t (first :: rest ++ [d]) ((t.registry e.registry).contexts.get? id) := by
  have hline := h.lines e es rfl id
  dsimp only at hline
  rw [hf] at hline
  generalize hg : (s.registry e.registry).contexts.get? id = r at hline
  cases hline with
  | @known _ last _ o handle latest hc =>
    obtain ⟨old, new⟩ := ha.patched hf hd
    rw [ha.adopted.get, hg, Option.some_or]
    have hlast : (first :: rest ++ [d]).getLast? = some d := by
      rw [List.getLast?_append]
      rfl
    refine .known handle hlast ⟨?_, ?_⟩
    · rw [old, hc.canonical]
    · intro x hx
      rcases List.mem_append.1 hx with hx | hx
      · rw [ha.others, hc.followers x hx]
        have hmem : x ∈ declared (e :: es) id := hf ▸ List.mem_cons_of_mem _ hx
        have hnodup := h.nodup id
        dsimp only at hnodup
        rw [hf, List.map_cons, List.nodup_cons] at hnodup
        intro id' first' rest' d' hf' hd'
        refine ⟨fun same => ?_, anew.fresh hd' hmem⟩
        have hmem' : first' ∈ declared (e :: es) id' := hf' ▸ List.mem_cons_self ..
        obtain rfl := h.single hmem hmem' same
        obtain ⟨rfl, rfl⟩ := List.cons.inj (hf.symm.trans hf')
        exact hnodup.1 (same ▸ List.mem_map_of_mem hx)
      · obtain rfl := List.mem_singleton.1 hx
        rw [new, hc.canonical]

theorem Ledger.patch {owner : Ownership} {report : PatchReport}
    (h : Ledger origin ⟨⟨s, ws⟩, e :: es⟩)
    (hl : Timeline.Ledger A owner (History.mk ⟨s, ws⟩ (e :: es)).timeline)
    (anew : s.Declares origin (e :: es) w) (hr : reconcile e.registry w s = some (report, t))
    (stay : report.mustReload = false) :
    Ledger origin ⟨⟨t, ws.filter (· ≠ w)⟩, e :: es ++ [s.edition w]⟩ := by
  have ha := h.applied hl anew hr stay
  have mem_snoc {id d} (hd : d ∈ declared (e :: es ++ [s.edition w]) id) :
      d ∈ declared (e :: es) id ∨ (s.edition w).declaration? id = some d := by
    rw [declared_snoc] at hd
    exact (List.mem_append.1 hd).imp_right Option.mem_toList.1
  refine ⟨by simpa [ha.length] using h.bound, fun c hc hlt => ?_, fun id d hd => ?_,
    fun id id' d d' hd hd' e => ?_, fun id => ?_, fun c c' hc hlt hc' hlt' lead lead' e => ?_,
    fun e' es' he id => ?_, fun id hne => ?_⟩
  · obtain ⟨b, hb, hblt, token, provider, -⟩ := h.identity ha hc (ha.length ▸ hlt)
    exact (h.issued b hb hblt).of_identity ha.providers ha.tokens token provider
  · rw [ha.length]
    exact (mem_snoc hd).elim (h.created id d) fun hd => anew.created hd
  · rcases mem_snoc hd with hd | hd <;> rcases mem_snoc hd' with hd' | hd'
    · exact h.single hd hd' e
    · exact absurd e (anew.fresh hd' hd)
    · exact absurd e.symm (anew.fresh hd hd')
    · exact anew.single hd hd' e
  · rw [declared_snoc, List.map_append, List.nodup_append]
    refine ⟨h.nodup id, by cases (s.edition w).declaration? id <;> simp, fun x hx y hy => ?_⟩
    obtain ⟨d, hd, rfl⟩ := List.mem_map.1 hx
    obtain ⟨d', hd', rfl⟩ := List.mem_map.1 hy
    exact anew.fresh (Option.mem_toList.1 hd') hd
  · obtain ⟨b, hb, hblt, token, -, hbc⟩ := h.identity ha hc (ha.length ▸ hlt)
    obtain ⟨b', hb', hblt', token', -, hbc'⟩ := h.identity ha hc' (ha.length ▸ hlt')
    obtain rfl := hbc lead
    obtain rfl := hbc' lead'
    exact h.apart hb hblt hb' hblt' lead.of_snoc lead'.of_snoc (token ▸ token' ▸ e)
  · obtain ⟨rfl, rfl⟩ := List.cons.inj he
    rw [declared_snoc]
    cases hf : declared (e :: es) id with
    | nil => exact h.line_adopted anew ha hf
    | cons first rest =>
      have hne : declared (e :: es) id ≠ [] := by simp [hf]
      obtain ⟨d, hd⟩ := h.declares ha hne
      rw [hd]
      exact h.line_patched anew ha hf hd
  · refine ⟨s.edition w, by rw [List.getLast?_append]; rfl, ?_⟩
    obtain ⟨d, hd⟩ : ∃ d, (s.edition w).declaration? id = some d := by
      by_cases hnil : declared (e :: es) id = []
      · rw [declared_snoc, hnil, List.nil_append] at hne
        exact Option.ne_none_iff_exists'.1 fun hn => hne (by rw [hn]; rfl)
      · exact h.declares ha hnil
    rw [declared_snoc, hd, Option.toList_some, List.getLast?_append]
    rfl

theorem Ledger.step {owner : Ownership} (h : Ledger origin T)
    (hl : Timeline.Ledger A owner T.timeline) (hs : Step A origin T U) : Ledger origin U := by
  cases hs with
  | go hm => exact h.go hl hm
  | first hw anew => exact h.first anew
  | patch hw anew hr stay => exact h.patch hl anew hr stay

theorem Reached.ledger (h : T.Reached A s₀) : Ledger s₀.contexts.length T := by
  induction h with
  | refl => exact .start s₀
  | tail hT hs ih =>
    obtain ⟨owner, hl⟩ := (Reached.timeline hT).ledger
    exact ih.step hl hs

end History

def Store.declaring (s : Store) (fallback : Json) (id : String) : Store :=
  ((s.after (newContext fallback)).after (addRegistry {})).after
    (registerContext s.registries.length id s.contexts.length)

namespace History

variable {A : Admission} {origin : ContextId} {s₀ s : Store} {T : History}

def declare (T : History) (fallback : Json) (id : String) : History :=
  let s := T.moment.store.declaring fallback id
  let w := T.moment.store.registries.length
  ⟨⟨match T.editions with
    | [] => s
    | e :: _ => s.after (reconcile e.registry w),
    (w :: T.moment.filling).filter (· ≠ w)⟩, T.editions ++ [s.edition w]⟩

theorem contexts_declaring (s : Store) (v : Json) (id : String) :
    ((s.declaring v id).registry s.registries.length).contexts =
      OrderedMap.empty.insert id { id, context := s.contexts.length } := by
  let u := (s.after (newContext v)).after (addRegistry {})
  have hu : u.registry s.registries.length = {} := by
    change ((s.registries ++ [({} : Registry)])[s.registries.length]?).getD {} = {}
    rw [List.getElem?_concat_length, Option.getD_some]
  have hset : (s.declaring v id).registry s.registries.length =
      { u.registry s.registries.length with
        contexts := (u.registry s.registries.length).contexts.insert id
          { id, context := s.contexts.length } } :=
    (Store.registry_set (s := u) _ (show _ < (s.registries ++ [({} : Registry)]).length by simp)
      _).trans (if_pos rfl)
  rw [hset, hu]

theorem declaration_declaring {v : Json} {id l : String} {d : Declaration}
    (h : ((s.declaring v id).edition s.registries.length).declaration? l = some d) :
    l = id ∧ d.handle = s.contexts.length := by
  obtain ⟨r, hr, rfl⟩ := Option.map_eq_some_iff.1 h
  change ((s.declaring v id).registry s.registries.length).contexts.get? l = some r at hr
  rw [contexts_declaring, OrderedMap.get?_insert] at hr
  split at hr
  · cases hr
    exact ⟨‹_›, rfl⟩
  · cases hr

theorem length_declaring (s : Store) (v : Json) (id : String) :
    (s.declaring v id).contexts.length = s.contexts.length + 1 := by
  change (s.contexts ++ [_]).length = _
  simp

theorem Ledger.declares_declaring (h : Ledger origin T) (v : Json) (id : String) :
    (T.moment.store.declaring v id).Declares origin T.editions T.moment.store.registries.length where
  created l d hd := by
    rw [(declaration_declaring hd).2, length_declaring]
    exact ⟨h.bound, Nat.lt_succ_self _⟩
  single l l' d d' hd hd' _ := (declaration_declaring hd).1.trans (declaration_declaring hd').1.symm
  fresh l d hd l' d' hd' := by
    rw [(declaration_declaring hd).2]
    exact Nat.ne_of_lt (h.created l' d' hd').2

theorem Reached.declare (h : T.Reached A s₀) {v : Json} {id : String}
    (hr : ∀ e ∈ T.editions.head?, (reconcile e.registry T.moment.store.registries.length
      (T.moment.store.declaring v id)).any fun p => !p.1.mustReload) :
    (T.declare v id).Reached A s₀ := by
  obtain ⟨⟨s, ws⟩, es⟩ := T
  let w := s.registries.length
  have evaluated : Reached A s₀ ⟨⟨s.declaring v id, w :: ws⟩, es⟩ := by
    refine ((h.tail (.go (.act (.context v) rfl))).tail (.go (.create rfl))).tail
      (.go (.registerContext id s.contexts.length (List.mem_cons_self ..) rfl))
  have anew := h.ledger.declares_declaring v id
  cases es with
  | nil => exact evaluated.tail (.first (List.mem_cons_self ..) anew)
  | cons e es =>
    obtain ⟨⟨report, t⟩, ht, stay⟩ := (Option.any_eq_true ..).1 (hr e rfl)
    have hafter : (s.declaring v id).after (reconcile e.registry w) = t := by
      rw [Store.after, ht]
      rfl
    have hpatch := evaluated.tail
      (.patch (List.mem_cons_self ..) anew ht (by simpa using stay))
    rw [← hafter] at hpatch
    exact hpatch

end History

end HotSwap
