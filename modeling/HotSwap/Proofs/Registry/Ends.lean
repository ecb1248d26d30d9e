import HotSwap.Proofs.Context.Patch
/-!
# Reconciliations that end

Where no effect is there to run, a notification goes from memo to memo and marks each that was clean:
it nests no deeper than there are clean memos. So every redirection ends, and with it every
reconciliation.
-/

namespace HotSwap

open Machine

def Node.passes : Node → Bool
  | .memo m => m.freshness = .clean
  | _ => false

def Node.isEffect : Node → Bool
  | .effect _ => true
  | _ => false

namespace Store

def passing (s : Store) : Nat := s.nodes.countP Node.passes

/-- There is nothing to run, and the calls nest deeper than a notification goes. -/
structure Inert (d : Nat) (s : Store) : Prop where
  effects : ∀ x ∈ s.nodes, x.isEffect = false
  passing : s.passing < d

variable {s : Store} {d : Nat}

theorem passing_set {n : NodeId} {x y : Node} (hx : s.nodes[n]? = some x) :
    passing { s with nodes := s.nodes.set n y } + (if x.passes then 1 else 0) =
      s.passing + if y.passes then 1 else 0 := by
  obtain ⟨hn, rfl⟩ := List.getElem?_eq_some_iff.1 hx
  have hpos : (if s.nodes[n].passes then 1 else 0) ≤ s.passing := by
    split
    · exact List.countP_pos_iff.2 ⟨_, List.getElem_mem hn, ‹_›⟩
    · exact Nat.zero_le _
  rw [passing, List.countP_set hn]
  change s.passing - _ + _ + _ = _
  omega

theorem Inert.of_nodes (h : s.Inert d) {t : Store} (ht : t.nodes = s.nodes) : t.Inert d where
  effects := ht ▸ h.effects
  passing := by
    have hp := h.passing
    unfold Store.passing at *
    rwa [ht]

theorem Inert.set (h : s.Inert d) {n : NodeId} {x : Node} (hx : x.isEffect = false)
    (hp : x.passes = false) : Inert d { s with nodes := s.nodes.set n x } where
  effects y hy := (List.mem_or_eq_of_mem_set hy).elim (h.effects y) fun e => e ▸ hx
  passing := by
    cases hn : s.nodes[n]? with
    | none =>
      refine (h.of_nodes ?_).passing
      exact List.set_eq_of_length_le (List.getElem?_eq_none_iff.1 hn)
    | some y =>
      have hs := passing_set (y := x) hn
      have hlt := h.passing
      simp only [hp, Bool.false_eq_true, if_false] at hs
      omega

theorem Inert.mark (h : s.Inert (d + 1)) {n : NodeId} {m : Memo}
    (hn : s.nodes[n]? = some (.memo m)) (hm : m.freshness = .clean) :
    Inert d { s with nodes := s.nodes.set n (.memo { m with freshness := .maybeDirty }) } where
  effects := (h.set rfl rfl).effects
  passing := by
    have hs := passing_set (y := .memo { m with freshness := .maybeDirty }) hn
    have hlt := h.passing
    simp only [Node.passes, hm, decide_true, if_true, reduceCtorEq, decide_false,
      Bool.false_eq_true, if_false] at hs
    omega

theorem nodes_patchPairs (s : Store) (ps : List ContextPair) :
    (s.patchPairs ps).nodes = s.nodes := by
  induction ps generalizing s with
  | nil => rfl
  | cons p ps ih => exact ih (s.patchPair p)

end Store

namespace Machine

/-- A computation that ends, wherever there is nothing to run. -/
def Settles (d : Nat) (m : Machine Unit) : Prop :=
  ∀ s : Store, s.Inert d → ∃ t, m s = some ((), t) ∧ t.Inert d

theorem forEach_settles {d : Nat} {act : NodeId → Machine Unit} (h : ∀ n, Settles d (act n)) :
    ∀ ns, Settles d (forEach act ns)
  | [], s, hs => ⟨s, rfl, hs⟩
  | n :: ns, s, hs => by
    obtain ⟨t, ht, hti⟩ := h n s hs
    obtain ⟨u, hu, hui⟩ := forEach_settles h ns t hti
    exact ⟨u, bind_eq_some.2 ⟨(), t, ht, hu⟩, hui⟩

theorem mark_settles {d : Nat} (h : ∀ n, Settles d ((calls d).notify n)) (n : NodeId) :
    Settles (d + 1) (mark (calls d) n) := by
  intro s hs
  simp only [mark, bind_apply, node?_apply, Option.bind_some]
  cases hn : s.nodes[n]? with
  | none => exact ⟨s, rfl, hs⟩
  | some x =>
    cases x with
    | memo m =>
      cases hm : m.freshness with
      | clean =>
        obtain ⟨t, ht, hti⟩ := h n _ (hs.mark hn hm)
        refine ⟨t, ?_, ⟨hti.effects, Nat.lt_succ_of_lt hti.passing⟩⟩
        simpa [markMemo, hm, setNode_apply] using ht
      | maybeDirty => exact ⟨s, by simp [markMemo, hm], hs⟩
      | dirty => exact ⟨s, by simp [markMemo, hm], hs⟩
    | probe name eager => exact ⟨_, rfl, hs.of_nodes rfl⟩
    | _ => exact ⟨s, rfl, hs⟩

theorem schedule_settles {d : Nat} (c : Calls) (n : NodeId) : Settles d (schedule c n) := by
  intro s hs
  simp only [schedule, bind_apply, node?_apply, Option.bind_some]
  cases hn : s.nodes[n]? with
  | none => exact ⟨s, rfl, hs⟩
  | some x =>
    cases x with
    | effect e => cases hs.effects _ (List.mem_of_getElem? hn)
    | probe name eager =>
      cases eager with
      | true => exact ⟨_, rfl, hs.of_nodes rfl⟩
      | false => exact ⟨s, rfl, hs⟩
    | _ => exact ⟨s, rfl, hs⟩

theorem notify_settles : ∀ d n, Settles d ((calls d).notify n)
  | 0, _, _, hs => absurd hs.passing (Nat.not_lt_zero _)
  | d + 1, n, s, hs => by
    obtain ⟨t, ht, hti⟩ :=
      forEach_settles (mark_settles (notify_settles d)) ((Edges.readers s.edges n).filter s.isLive) s hs
    obtain ⟨u, hu, hui⟩ :=
      forEach_settles (schedule_settles (calls d)) ((Edges.readers s.edges n).filter s.isLive) t hti
    refine ⟨u, ?_, hui⟩
    rw [calls_succ]
    exact bind_eq_some.2 ⟨_, s, rfl, bind_eq_some.2 ⟨(), t, ht, hu⟩⟩

theorem redirect_settles (r : Registration) (k : ComponentId) : Settles nesting (redirect r k) := by
  intro s hs
  have hset : Store.Inert nesting { s with nodes := s.nodes.set r.cell (.cell (some k)) } :=
    hs.set rfl rfl
  exact notify_settles nesting r.cell _ (hset.of_nodes rfl)

variable {s : Store}

theorem patchComponent_ends (hs : s.Inert nesting) (old new : Registration)
    (report : PatchReport) :
    ∃ p t, patchComponent old new report s = some (p, t) ∧ t.Inert nesting := by
  unfold patchComponent
  split
  · obtain ⟨t, ht, hti⟩ := redirect_settles (old.adopt new) new.component s hs
    obtain ⟨u, hu, hui⟩ := redirect_settles new (old.adopt new).proxy t hti
    exact ⟨_, u, bind_eq_some.2 ⟨(), t, ht, bind_eq_some.2 ⟨(), u, hu, rfl⟩⟩, hui⟩
  · obtain ⟨t, ht, hti⟩ := redirect_settles new old.proxy s hs
    exact ⟨_, t, bind_eq_some.2 ⟨(), t, ht, rfl⟩, hti⟩

theorem patchKnown_ends (new : Components) (ids : List String) (old : Components)
    (report : PatchReport) (hs : s.Inert nesting) :
    ∃ p t, patchKnown new ids old report s = some (p, t) ∧ t.Inert nesting := by
  induction ids generalizing old report s with
  | nil => exact ⟨_, s, rfl, hs⟩
  | cons id ids ih =>
    rw [patchKnown]
    cases old.get? id with
    | none => exact ⟨_, s, rfl, hs⟩
    | some o =>
      cases new.get? id with
      | none => exact ⟨_, s, rfl, hs⟩
      | some n =>
        obtain ⟨⟨r, mid⟩, t, ht, hti⟩ := patchComponent_ends hs o n report
        obtain ⟨p, u, hu, hui⟩ := ih (old.insert id r) mid hti
        exact ⟨p, u, bind_eq_some.2 ⟨_, t, ht, hu⟩, hui⟩

theorem patchComponents_ends (old new : Components) (report : PatchReport)
    (hs : s.Inert nesting) : ∃ p t, patchComponents old new report s = some (p, t) := by
  obtain ⟨⟨gone, known, mid⟩, t, ht, -⟩ := patchKnown_ends new old.keys old report hs
  cases gone with
  | true => exact ⟨_, t, bind_eq_some.2 ⟨_, t, ht, rfl⟩⟩
  | false => exact ⟨_, t, bind_eq_some.2 ⟨_, t, ht, rfl⟩⟩

/-- With nothing to run every reconciliation ends. -/
theorem reconcile_ends (hs : s.Inert nesting) (c w : RegistryId) :
    ∃ report t, reconcile c w s = some (report, t) := by
  obtain ⟨gone, contexts, mid, hctx, -⟩ :=
    patchContexts_eq (s.registry c).contexts (s.registry w).contexts {} s
  obtain ⟨⟨lost, all, report⟩, u, hu⟩ := patchComponents_ends (s.registry c).components
    (s.registry w).components mid (hs.of_nodes (Store.nodes_patchPairs s (s.contextPairs c w)))
  refine ⟨report, { u with registries := u.registries.set c { components := all, contexts } }, ?_⟩
  rw [Store.contextPairs] at hu
  simp only [reconcile, patchRegistry, bind_apply, registry_apply, Option.bind_some, hctx, hu]
  rfl

end Machine

end HotSwap
